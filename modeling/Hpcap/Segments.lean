import Hpcap.RxRing
import Mathlib.Data.List.Nodup
import Mathlib.Order.Bounds.Basic

namespace Hpcap.Segments

open Hpcap.RxRing

/-- A ring and any number of consumers that the driver accepts for it. -/
structure Shares where
  size : Nat
  consumers : Nat
  consumers_pos : 0 < consumers
  consumers_le : consumers ≤ size

namespace Shares

variable (r : Shares)

def descrPerConsumer : Nat := r.size / r.consumers

def getLastDescriptorOfConsumer (consumer : Nat) : Nat :=
  ((consumer + 1) * r.descrPerConsumer - 1) % r.size

def isLastDescriptorOfConsumer (lastReadIdx consumer : Nat) : Prop :=
  lastReadIdx % r.size = r.getLastDescriptorOfConsumer consumer

instance (lastReadIdx consumer : Nat) :
    Decidable (r.isLastDescriptorOfConsumer lastReadIdx consumer) :=
  inferInstanceAs (Decidable (_ = _))

def isFirstDescriptorOfConsumer (qidx consumer : Nat) : Prop :=
  qidx % r.size = consumer * r.descrPerConsumer

def rxdConsumerOf (rxdIndex : Nat) : Nat := rxdIndex % r.size / r.descrPerConsumer

def rxdCalcNext (qidx consumer : Nat) : Nat :=
  let next := (qidx + 1) % r.size
  if r.rxdConsumerOf next ≠ consumer then
    (next + r.descrPerConsumer * (r.consumers - 1)) % r.size
  else next

/-- The descriptors of a consumer. -/
def segment (consumer : Nat) : Set Nat := {i | i < r.size ∧ r.rxdConsumerOf i = consumer}

/-- The descriptors read by a consumer from its first one on. -/
def visit (consumer n : Nat) : Nat :=
  (fun i => r.rxdCalcNext i consumer)^[n] (consumer * r.descrPerConsumer)

def Owned : Prop := ∀ i < r.size, ∃! c, c < r.consumers ∧ i ∈ r.segment c

/-- Some number of steps visits the whole segment, nothing twice, and leads back. -/
def Cycles (consumer : Nat) : Prop :=
  ∃ n, 0 < n ∧ ((List.range n).map (r.visit consumer)).Nodup ∧
    (∀ i, i ∈ (List.range n).map (r.visit consumer) ↔ i ∈ r.segment consumer) ∧
    r.visit consumer n = r.visit consumer 0

def Ends (consumer : Nat) : Prop :=
  ∀ i < r.size, (r.isFirstDescriptorOfConsumer i consumer ↔ IsLeast (r.segment consumer) i) ∧
    (r.isLastDescriptorOfConsumer i consumer ↔ IsGreatest (r.segment consumer) i)

/-- The helpers agree on who reads what. -/
structure Shared : Prop where
  owned : r.Owned
  cycles : ∀ c < r.consumers, r.Cycles c
  ends : ∀ c < r.consumers, r.Ends c

/-- A ring that is shared in equal segments. -/
def ofRing (r : Ring) : Shares :=
  ⟨r.size, r.consumers, r.consumers_pos, Nat.le_of_dvd r.size_pos r.dvd⟩

theorem ofRing_rxdCalcNext (r : Ring) : (ofRing r).rxdCalcNext = r.rxdCalcNext := rfl

theorem ofRing_isLast (r : Ring) :
    (ofRing r).isLastDescriptorOfConsumer = r.isLastDescriptorOfConsumer := rfl

variable {r} {c i k : Nat}

theorem size_pos (r : Shares) : 0 < r.size := r.consumers_pos.trans_le r.consumers_le

theorem descrPerConsumer_pos (r : Shares) : 0 < r.descrPerConsumer :=
  Nat.div_pos r.consumers_le r.consumers_pos

/-- The descriptors after the last segment are fewer than there are consumers. -/
theorem size_eq (r : Shares) :
    r.consumers * r.descrPerConsumer + r.size % r.consumers = r.size := Nat.div_add_mod _ _

theorem segment_end_le (hc : c < r.consumers) :
    c * r.descrPerConsumer + r.descrPerConsumer ≤ r.consumers * r.descrPerConsumer := by
  calc c * r.descrPerConsumer + r.descrPerConsumer
      = (c + 1) * r.descrPerConsumer := (Nat.succ_mul _ _).symm
    _ ≤ r.consumers * r.descrPerConsumer := Nat.mul_le_mul_right _ hc

theorem mem_segment (hc : c < r.consumers) :
    i ∈ r.segment c ↔
      c * r.descrPerConsumer ≤ i ∧ i < c * r.descrPerConsumer + r.descrPerConsumer := by
  have hend := segment_end_le hc
  have hsize := r.size_eq
  have hdiv : ∀ i, i < r.size → (r.rxdConsumerOf i = c ↔
      c * r.descrPerConsumer ≤ i ∧ i < c * r.descrPerConsumer + r.descrPerConsumer) := by
    intro i hi
    rw [rxdConsumerOf, Nat.mod_eq_of_lt hi, Nat.div_eq_iff r.descrPerConsumer_pos]
    have hpos := r.descrPerConsumer_pos
    omega
  constructor
  · rintro ⟨hi, hown⟩
    exact (hdiv i hi).mp hown
  · rintro ⟨hlo, hhi⟩
    have hi : i < r.size := by omega
    exact ⟨hi, (hdiv i hi).mpr ⟨hlo, hhi⟩⟩

theorem first_mem (hc : c < r.consumers) : c * r.descrPerConsumer ∈ r.segment c :=
  (mem_segment hc).mpr ⟨le_rfl, Nat.lt_add_of_pos_right r.descrPerConsumer_pos⟩

theorem rxdCalcNext_inside (h : i + 1 ∈ r.segment c) : r.rxdCalcNext i c = i + 1 := by
  obtain ⟨hi, hown⟩ := h
  rw [rxdCalcNext, Nat.mod_eq_of_lt hi]
  exact if_neg (not_not.mpr hown)

/-- Behind the segment the consumer goes on as many descriptors as the others have. -/
theorem rxdCalcNext_behind (h : (i + 1) % r.size ∉ r.segment c) :
    r.rxdCalcNext i c = (i + 1 + r.descrPerConsumer * (r.consumers - 1)) % r.size := by
  have hown : r.rxdConsumerOf ((i + 1) % r.size) ≠ c :=
    fun hown => h ⟨Nat.mod_lt _ r.size_pos, hown⟩
  rw [rxdCalcNext]
  simp only [if_pos hown, Nat.mod_add_mod]

theorem visit_succ (r : Shares) (c k : Nat) :
    r.visit c (k + 1) = r.rxdCalcNext (r.visit c k) c := Function.iterate_succ_apply' _ _ _

theorem visit_eq (hc : c < r.consumers) (hk : k < r.descrPerConsumer) :
    r.visit c k = c * r.descrPerConsumer + k := by
  induction k with
  | zero => rfl
  | succ k ih =>
    have hmem : c * r.descrPerConsumer + k + 1 ∈ r.segment c :=
      (mem_segment hc).mpr ⟨by omega, by omega⟩
    rw [visit_succ, ih (by omega), rxdCalcNext_inside hmem]
    rfl

/-- What is behind the last descriptor of a segment. -/
theorem visit_last (hc : c < r.consumers) :
    r.visit c r.descrPerConsumer =
      (c * r.descrPerConsumer + r.consumers * r.descrPerConsumer) % r.size := by
  have hpos := r.descrPerConsumer_pos
  have hsize := r.size_eq
  have hend := segment_end_le hc
  obtain ⟨d, hd⟩ : ∃ d, r.descrPerConsumer = d + 1 := ⟨_, (Nat.sub_add_cancel hpos).symm⟩
  obtain ⟨m, hm⟩ : ∃ m, r.consumers = m + 1 := ⟨_, (Nat.sub_add_cancel r.consumers_pos).symm⟩
  have hvisit : r.visit c r.descrPerConsumer = r.rxdCalcNext (c * r.descrPerConsumer + d) c := by
    rw [← visit_eq hc (show d < r.descrPerConsumer by omega), ← visit_succ, ← hd]
  have hsum : c * r.descrPerConsumer + d + 1 = c * r.descrPerConsumer + r.descrPerConsumer := by
    omega
  have hshare : r.descrPerConsumer + r.descrPerConsumer * m = r.consumers * r.descrPerConsumer := by
    rw [hm, Nat.succ_mul, Nat.mul_comm, Nat.add_comm]
  rw [hvisit]
  by_cases hin : (c * r.descrPerConsumer + d + 1) % r.size ∈ r.segment c
  · -- only a consumer that has the whole ring comes back by itself
    obtain ⟨hlo, hhi⟩ := (mem_segment hc).mp hin
    have hwrap : c * r.descrPerConsumer + d + 1 = r.size := by
      by_contra hne
      rw [Nat.mod_eq_of_lt (by omega)] at hhi
      omega
    rw [hwrap, Nat.mod_self] at hlo
    have hzero : c * r.descrPerConsumer = 0 := by omega
    have hall : r.consumers * r.descrPerConsumer = r.size := by omega
    have hown : ¬ r.rxdConsumerOf ((c * r.descrPerConsumer + d + 1) % r.size) ≠ c :=
      not_not.mpr hin.2
    rw [rxdCalcNext]
    simp only [if_neg hown]
    rw [hwrap, Nat.mod_self, hzero, hall, Nat.zero_add, Nat.mod_self]
  · rw [rxdCalcNext_behind hin]
    congr 1
    rw [hm, Nat.add_sub_cancel, ← hm]
    omega

/-- The consumer is led back into its segment only if the segments fill the ring. -/
theorem visit_last_mem (hc : c < r.consumers) :
    r.visit c r.descrPerConsumer ∈ r.segment c ↔ r.consumers ∣ r.size := by
  have hend := segment_end_le hc
  have hsize := r.size_eq
  have hrest := Nat.mod_lt r.size r.consumers_pos
  have hpos := r.descrPerConsumer_pos
  rw [visit_last hc, mem_segment hc, Nat.dvd_iff_mod_eq_zero]
  by_cases hwrap : c * r.descrPerConsumer + r.consumers * r.descrPerConsumer < r.size
  · rw [Nat.mod_eq_of_lt hwrap]
    omega
  · rw [Nat.mod_eq_sub_mod (by omega), Nat.mod_eq_of_lt (by omega)]
    omega

theorem visit_last_eq (hc : c < r.consumers) (hd : r.consumers ∣ r.size) :
    r.visit c r.descrPerConsumer = c * r.descrPerConsumer := by
  have hend := segment_end_le hc
  have hsize := r.size_eq
  have hpos := r.descrPerConsumer_pos
  rw [Nat.mod_eq_zero_of_dvd hd, Nat.add_zero] at hsize
  rw [visit_last hc, hsize, Nat.add_mod_right]
  exact Nat.mod_eq_of_lt (by omega)

theorem map_visit (hc : c < r.consumers) :
    (List.range r.descrPerConsumer).map (r.visit c) =
      (List.range r.descrPerConsumer).map fun k => c * r.descrPerConsumer + k :=
  List.map_congr_left fun _ hk => visit_eq hc (List.mem_range.mp hk)

theorem cycles_iff (hc : c < r.consumers) : r.Cycles c ↔ r.consumers ∣ r.size := by
  constructor
  · rintro ⟨n, -, -, hmem, hback⟩
    rw [← visit_last_mem hc]
    have hpos := r.descrPerConsumer_pos
    have hlast : c * r.descrPerConsumer + (r.descrPerConsumer - 1) ∈ r.segment c :=
      (mem_segment hc).mpr ⟨by omega, by omega⟩
    obtain ⟨k, hk, hvisit⟩ := List.mem_map.mp ((hmem _).mpr hlast)
    -- whatever leads to the last descriptor, the next step is the same
    have hnext : r.visit c (k + 1) = r.visit c r.descrPerConsumer := by
      rw [← visit_eq hc (by omega)] at hvisit
      obtain ⟨d, hd⟩ : ∃ d, r.descrPerConsumer = d + 1 := ⟨_, (Nat.sub_add_cancel hpos).symm⟩
      rw [hd, Nat.add_sub_cancel] at hvisit
      rw [hd, visit_succ, visit_succ, hvisit]
    rw [← hnext]
    by_cases hkn : k + 1 < n
    · exact (hmem _).mp (List.mem_map_of_mem (List.mem_range.mpr hkn))
    · have hn : k + 1 = n := by
        have := List.mem_range.mp hk
        omega
      rw [hn, hback]
      exact first_mem hc
  · intro hd
    refine ⟨r.descrPerConsumer, r.descrPerConsumer_pos, ?_, fun i => ?_, visit_last_eq hc hd⟩
    · rw [map_visit hc]
      exact List.Nodup.map (fun a b h => Nat.add_left_cancel h) List.nodup_range
    · rw [map_visit hc, mem_segment hc, List.mem_map]
      constructor
      · rintro ⟨k, hk, rfl⟩
        have := List.mem_range.mp hk
        omega
      · rintro ⟨hlo, hhi⟩
        exact ⟨i - c * r.descrPerConsumer, List.mem_range.mpr (by omega), by omega⟩

theorem owned_iff (r : Shares) : r.Owned ↔ r.consumers ∣ r.size := by
  have hsize := r.size_eq
  rw [Nat.dvd_iff_mod_eq_zero]
  constructor
  · intro h
    by_contra hne
    obtain ⟨c, ⟨hc, hmem⟩, -⟩ := h (r.consumers * r.descrPerConsumer) (by omega)
    have hend := segment_end_le hc
    have hhi := ((mem_segment hc).mp hmem).2
    omega
  · intro hrest i hi
    have hlt : i / r.descrPerConsumer < r.consumers :=
      (Nat.div_lt_iff_lt_mul r.descrPerConsumer_pos).mpr (by omega)
    have hown : r.rxdConsumerOf i = i / r.descrPerConsumer := by
      rw [rxdConsumerOf, Nat.mod_eq_of_lt hi]
    refine ⟨i / r.descrPerConsumer, ⟨hlt, hi, hown⟩, ?_⟩
    rintro c ⟨-, -, hc⟩
    exact hc.symm.trans hown

/-- First and last are told apart whatever the number of consumers. -/
theorem ends (hc : c < r.consumers) : r.Ends c := by
  intro i hi
  have hend := segment_end_le hc
  have hsize := r.size_eq
  have hpos := r.descrPerConsumer_pos
  have hlast : r.getLastDescriptorOfConsumer c =
      c * r.descrPerConsumer + r.descrPerConsumer - 1 := by
    rw [getLastDescriptorOfConsumer, Nat.succ_mul, Nat.mod_eq_of_lt (by omega)]
  have hleast : IsLeast (r.segment c) (c * r.descrPerConsumer) :=
    ⟨first_mem hc, fun j hj => ((mem_segment hc).mp hj).1⟩
  have hgreatest : IsGreatest (r.segment c) (c * r.descrPerConsumer + r.descrPerConsumer - 1) :=
    ⟨(mem_segment hc).mpr ⟨by omega, by omega⟩, fun j hj => by
      have := ((mem_segment hc).mp hj).2
      omega⟩
  rw [isFirstDescriptorOfConsumer, isLastDescriptorOfConsumer, Nat.mod_eq_of_lt hi, hlast]
  refine ⟨⟨fun h => h ▸ hleast, fun h => h.unique hleast⟩, fun h => h ▸ hgreatest,
    fun h => h.unique hgreatest⟩

/-- The consumers share the ring as they should exactly if their number divides its size. -/
theorem shared_iff (r : Shares) : r.Shared ↔ r.consumers ∣ r.size :=
  ⟨fun h => r.owned_iff.mp h.owned,
    fun h => ⟨r.owned_iff.mpr h, fun _ hc => (cycles_iff hc).mpr h, fun _ hc => ends hc⟩⟩

/-- Three consumers of a ring of 512: nobody reads the last two descriptors, and the first
consumer leaves its segment for one of them. -/
theorem not_shared :
    let r : Shares := ⟨512, 3, by decide, by decide⟩
    r.rxdConsumerOf 510 = 3 ∧ r.rxdCalcNext 169 0 = 510 ∧ ¬ r.Shared := by
  refine ⟨by decide, by decide, fun h => ?_⟩
  obtain ⟨c, ⟨hc, -, hown⟩, -⟩ := h.owned 510 (by decide)
  have hthree : c = 3 := hown.symm
  exact absurd (hthree ▸ hc) (by decide)

end Shares

end Hpcap.Segments
