import Hpcap.Xl710

namespace Hpcap.Mlnx

open Hpcap.RxRing (Ring)
open Hpcap.Xl710 (State canLockRing)

/-- The ring of a Mellanox card: its size is a power of two, and an index into it runs through
all the 32-bit numbers. -/
structure MlnxRing extends Ring where
  log : Nat
  size_eq : size = 2 ^ log
  log_lt : log < 32

variable (r : MlnxRing)

def isFirstDescriptorOfConsumer (qidx consumer : Nat) : Prop :=
  qidx % r.size = consumer * r.descrPerConsumer

/-- `rxd_calc_next` where the index is not reduced. -/
def rxdCalcNext (qidx : UInt32) (consumer : Nat) : UInt32 :=
  let next := qidx + 1
  if r.rxdConsumerOf next.toNat ≠ consumer then
    next + .ofNat (r.descrPerConsumer * (r.consumers - 1))
  else next

/-- The index on the first lap. -/
def reduced (qidx : UInt32) : UInt32 := .ofNat (qidx.toNat % r.size)

/-- The helpers make no difference between an index and the one on the first lap. -/
structure Modulo (s : State) (qidx : UInt32) (consumer : Nat) : Prop where
  consumerOf : r.rxdConsumerOf qidx.toNat = r.rxdConsumerOf (reduced r qidx).toNat
  isFirst : isFirstDescriptorOfConsumer r qidx.toNat consumer ↔
    isFirstDescriptorOfConsumer r (reduced r qidx).toNat consumer
  isLast : r.isLastDescriptorOfConsumer qidx.toNat consumer ↔
    r.isLastDescriptorOfConsumer (reduced r qidx).toNat consumer
  canLock : canLockRing r.toRing s qidx.toNat consumer =
    canLockRing r.toRing s (reduced r qidx).toNat consumer
  calcNext : reduced r (rxdCalcNext r qidx consumer) =
    reduced r (rxdCalcNext r (reduced r qidx) consumer)

/-- The descriptor is one of the last nine of the segment. -/
def NearEnd (qidx : UInt32) (consumer : Nat) : Prop :=
  qidx.toNat % r.size ≤ r.getLastDescriptorOfConsumer consumer ∧
    r.getLastDescriptorOfConsumer consumer ≤ qidx.toNat % r.size + 8

/-- The index is so close to its wrap that it reaches the first end of the segment in eight steps. -/
def NearWrap (qidx : UInt32) (consumer : Nat) : Prop :=
  2 ^ 32 + r.getLastDescriptorOfConsumer consumer ≤ qidx.toNat + 8

section Mod

variable {r} {s : State} {qidx : UInt32} {consumer : Nat}

theorem size_dvd : r.size ∣ 2 ^ 32 := by
  rw [r.size_eq]
  exact Nat.pow_dvd_pow 2 r.log_lt.le

theorem size_le : r.size ≤ 2 ^ 31 := by
  rw [r.size_eq]
  exact Nat.pow_le_pow_right (by decide) (Nat.le_of_lt_succ r.log_lt)

theorem reduced_toNat (qidx : UInt32) : (reduced r qidx).toNat = qidx.toNat % r.size := by
  have hlt := Nat.mod_lt qidx.toNat r.size_pos
  have hle := size_le (r := r)
  exact UInt32.toNat_ofNat_of_lt' (Nat.lt_of_lt_of_le hlt (hle.trans (by decide)))

theorem reduced_mod (qidx : UInt32) : (reduced r qidx).toNat % r.size = qidx.toNat % r.size := by
  rw [reduced_toNat, Nat.mod_mod]

/-- Sums are the same on every lap. -/
theorem add_mod {a b : UInt32} (h : a.toNat % r.size = b.toNat % r.size) (c : UInt32) :
    (a + c).toNat % r.size = (b + c).toNat % r.size := by
  rw [UInt32.toNat_add, UInt32.toNat_add, Nat.mod_mod_of_dvd _ size_dvd,
    Nat.mod_mod_of_dvd _ size_dvd]
  exact Nat.ModEq.add_right _ h

theorem rxdConsumerOf_congr {a b : Nat} (h : a % r.size = b % r.size) :
    r.rxdConsumerOf a = r.rxdConsumerOf b := by
  rw [Ring.rxdConsumerOf, h, Ring.rxdConsumerOf]

theorem rxdCalcNext_mod (qidx : UInt32) (consumer : Nat) :
    (rxdCalcNext r qidx consumer).toNat % r.size =
      (rxdCalcNext r (reduced r qidx) consumer).toNat % r.size := by
  have hnext := add_mod (reduced_mod (r := r) qidx).symm 1
  unfold rxdCalcNext
  dsimp only
  rw [rxdConsumerOf_congr hnext]
  split
  · exact add_mod hnext _
  · exact hnext

theorem last_lt (consumer : Nat) : r.getLastDescriptorOfConsumer consumer < 2 ^ 31 :=
  Nat.lt_of_lt_of_le (Nat.mod_lt _ r.size_pos) size_le

/-- The guard looks at the index itself. -/
theorem guard_iff (qidx : UInt32) (consumer : Nat) :
    UInt32.ofNat (r.getLastDescriptorOfConsumer consumer) - .ofNat qidx.toNat ≤ 8 ↔
      qidx.toNat ≤ r.getLastDescriptorOfConsumer consumer ∧
        r.getLastDescriptorOfConsumer consumer ≤ qidx.toNat + 8 ∨ NearWrap r qidx consumer := by
  have hlast := last_lt (r := r) consumer
  have hqidx := qidx.toNat_lt
  have height : (8 : UInt32).toNat = 8 := rfl
  rw [UInt32.ofNat_toNat, UInt32.le_iff_toNat_le, UInt32.toNat_sub,
    UInt32.toNat_ofNat_of_lt' (hlast.trans (by decide)), height, NearWrap]
  omega

theorem guard_reduced_iff : UInt32.ofNat (r.getLastDescriptorOfConsumer consumer) -
    .ofNat (reduced r qidx).toNat ≤ 8 ↔ NearEnd r qidx consumer := by
  have hlt := Nat.mod_lt qidx.toNat r.size_pos
  have hle := size_le (r := r)
  rw [guard_iff, NearWrap, reduced_toNat, NearEnd]
  exact or_iff_left (by omega)

theorem guard_lap_iff (hlap : r.size ≤ qidx.toNat) :
    UInt32.ofNat (r.getLastDescriptorOfConsumer consumer) - .ofNat qidx.toNat ≤ 8 ↔
      NearWrap r qidx consumer := by
  have hlast : r.getLastDescriptorOfConsumer consumer < r.size := Nat.mod_lt _ r.size_pos
  rw [guard_iff]
  exact or_iff_right (by omega)

/-- Where neither flag is set, the guard decides. -/
theorem canLockRing_open (hcan : s.canFree consumer = false)
    (hfreed : s.freedLastRxd (r.previousConsumer consumer) = false) (x : Nat) :
    canLockRing r.toRing s x consumer =
      decide (UInt32.ofNat (r.getLastDescriptorOfConsumer consumer) - .ofNat x ≤ 8) := by
  rw [canLockRing, hcan, hfreed]
  rfl

theorem canLockRing_closed (h : s.canFree consumer = true ∨
    s.freedLastRxd (r.previousConsumer consumer) = true) (x : Nat) :
    canLockRing r.toRing s x consumer = false := by
  obtain h | h := h
  · rw [canLockRing, h]
    rfl
  · rw [canLockRing, h, Bool.not_true, Bool.and_false]
    rfl

end Mod

/-- The helpers depend on the index modulo the size alone, unless the guard is open after the first
lap and the index is near the end of the segment or near its wrap, but not both. -/
theorem helpers_modulo_iff (s : State) (qidx : UInt32) (consumer : Nat) :
    Modulo r s qidx consumer ↔ s.canFree consumer = true ∨
      s.freedLastRxd (r.previousConsumer consumer) = true ∨ qidx.toNat < r.size ∨
        (NearEnd r qidx consumer ↔ NearWrap r qidx consumer) := by
  have hothers : Modulo r s qidx consumer ↔ canLockRing r.toRing s qidx.toNat consumer =
      canLockRing r.toRing s (reduced r qidx).toNat consumer := by
    refine ⟨fun h => h.canLock, fun h => ⟨rxdConsumerOf_congr (reduced_mod qidx).symm, ?_, ?_, h,
      congrArg UInt32.ofNat (rxdCalcNext_mod qidx consumer)⟩⟩
    · rw [isFirstDescriptorOfConsumer, isFirstDescriptorOfConsumer, reduced_mod]
    · rw [Ring.isLastDescriptorOfConsumer, Ring.isLastDescriptorOfConsumer, reduced_mod]
  rw [hothers]
  by_cases hclosed : s.canFree consumer = true ∨
      s.freedLastRxd (r.previousConsumer consumer) = true
  · rw [canLockRing_closed hclosed, canLockRing_closed hclosed, ← or_assoc]
    exact iff_of_true rfl (.inl hclosed)
  · obtain ⟨hcan, hfreed⟩ := not_or.mp hclosed
    rw [canLockRing_open (Bool.eq_false_iff.mpr hcan) (Bool.eq_false_iff.mpr hfreed),
      canLockRing_open (Bool.eq_false_iff.mpr hcan) (Bool.eq_false_iff.mpr hfreed),
      or_iff_right hcan, or_iff_right hfreed, decide_eq_decide, guard_reduced_iff]
    by_cases hlap : qidx.toNat < r.size
    · refine iff_of_true ?_ (.inl hlap)
      rw [← guard_reduced_iff, reduced_toNat, Nat.mod_eq_of_lt hlap]
    · rw [or_iff_right hlap, guard_lap_iff (Nat.not_lt.mp hlap)]
      exact Iff.comm

/-- Sixteen descriptors for two consumers, neither of which may free. -/
def ring16 : MlnxRing := ⟨⟨16, 2, by decide, Nat.two_pos, ⟨8, rfl⟩⟩, 4, rfl, by decide⟩

def waiting : State where
  tail := 0
  head := 0
  dd _ := false
  canFree _ := false
  freedLastRxd _ := false
  rxdIdx _ := 0
  pcs _ := .idle

/-- On the second lap the guard does not see the end of the segment. -/
theorem second_lap_unguarded : ¬ ∀ (r : MlnxRing) (s : State) (qidx : UInt32) (consumer : Nat),
    Modulo r s qidx consumer := by
  intro h
  exact absurd (h ring16 waiting 23 0).canLock (by decide)

end Hpcap.Mlnx
