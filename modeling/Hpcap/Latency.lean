import Mathlib.Algebra.Ring.Int.Defs
import Mathlib.Order.Lattice
import Hpcap.RawHeader

namespace Hpcap.Latency

open Hpcap.RawHeader

abbrev longMax : Int := 2 ^ 63 - 1

/-- A call of `hpcap_latency_measure`: `tv`, and the memory from the frame on. -/
structure Call where
  tvSec : Nat
  tvNsec : Nat
  frame : Nat → UInt8

/-- The `k` bytes of a frame at an offset, as a number. -/
def word (k : Nat) (frame : Nat → UInt8) (offset : Nat) : Nat :=
  ofLittleEndian ((List.range k).map fun i => frame (offset + i))

/-- That `tsPacketId` is the marker. -/
def Call.isProbe (c : Call) : Bool := word 2 c.frame 36 == 0xCACA

def Call.sendTstamp (c : Call) : Int := word 8 c.frame 40 * 10

def Call.recvTstamp (c : Call) : Int := c.tvSec * 1000000000 + c.tvNsec

structure LatencyMeasurements where
  variance : Int
  meanSum : Int
  squareSum : Int
  mean : Int
  max : Int
  min : Int
  measurements : Int
  discard : Int
  prevRecvTstamp : Int
  prevSendTstamp : Int

def hpcapLatencyInit : LatencyMeasurements where
  mean := 0
  variance := 0
  measurements := 0
  meanSum := 0
  squareSum := 0
  max := 0
  min := longMax
  discard := 0
  prevRecvTstamp := 0
  prevSendTstamp := 0

/-- A probe that is measured. -/
def measured (lm : LatencyMeasurements) (c : Call) : LatencyMeasurements :=
  let measurements := lm.measurements + 1
  let lm := if measurements > 0 then
      let interarrivalRecv := c.recvTstamp - lm.prevRecvTstamp
      let interarrivalSend := c.sendTstamp - lm.prevSendTstamp
      let diff := interarrivalRecv - interarrivalSend
      let meanSum := lm.meanSum + diff
      let mean := meanSum.tdiv measurements
      let squareSum := lm.squareSum + diff * diff
      { lm with
        meanSum := meanSum
        mean := mean
        squareSum := squareSum
        variance := squareSum.tdiv measurements - mean * mean
        max := if diff > lm.max then diff else lm.max
        min := if diff < lm.min then diff else lm.min }
    else lm
  { lm with
    measurements := measurements
    prevRecvTstamp := c.recvTstamp
    prevSendTstamp := c.sendTstamp }

def hpcapLatencyMeasure (lm : LatencyMeasurements) (c : Call) : LatencyMeasurements :=
  if ¬ c.isProbe then lm
  else if lm.measurements = 0 then
    let lm := { lm with discard := lm.discard + 1 }
    if lm.discard ≤ 1000 then lm else measured lm c
  else measured lm c

/-- The measurements after some calls. -/
def measure (calls : List Call) : LatencyMeasurements := calls.foldl hpcapLatencyMeasure hpcapLatencyInit

/-- The probes that are left when the first 1000 are discarded. -/
def measuredProbes (calls : List Call) : List Call := (calls.filter Call.isProbe).drop 1000

/-- How much longer a probe took than the one before it. -/
def difference (prevRecv prevSend : Int) (c : Call) : Int :=
  (c.recvTstamp - prevRecv) - (c.sendTstamp - prevSend)

/-- The differences of probes that follow one at the given time stamps. -/
def differencesFrom : Int → Int → List Call → List Int
  | _, _, [] => []
  | prevRecv, prevSend, c :: cs =>
    difference prevRecv prevSend c :: differencesFrom c.recvTstamp c.sendTstamp cs

/-- The differences of consecutive probes. -/
def differences : List Call → List Int
  | [] => []
  | c :: cs => differencesFrom c.recvTstamp c.sendTstamp cs

/-- The statistics are those of a list of differences. -/
def Reports (lm : LatencyMeasurements) (ds : List Int) : Prop :=
  lm.meanSum = ds.sum ∧ lm.squareSum = (ds.map fun d => d * d).sum ∧
    (ds ≠ [] → (lm.max ∈ ds ∧ ∀ d ∈ ds, d ≤ lm.max) ∧ (lm.min ∈ ds ∧ ∀ d ∈ ds, lm.min ≤ d) ∧
      lm.mean = ds.sum.tdiv ds.length)

/-- The first probe took no time at all, some difference is not negative and some not positive,
and the mean is the same if one more is counted. -/
def Unbiased (probes : List Call) : Prop :=
  ∀ first rest, probes = first :: rest → first.recvTstamp = first.sendTstamp ∧
    (rest ≠ [] → (∃ d ∈ differences probes, 0 ≤ d) ∧ (∃ d ∈ differences probes, d ≤ 0) ∧
      (differences probes).sum.tdiv (rest.length + 1) = (differences probes).sum.tdiv rest.length)

section Fold

variable {lm : LatencyMeasurements} {c : Call} {calls cs : List Call}

theorem measure_ignores (h : c.isProbe = false) : hpcapLatencyMeasure lm c = lm := by
  rw [hpcapLatencyMeasure, h]
  rfl

theorem foldl_probes (lm : LatencyMeasurements) (calls : List Call) :
    calls.foldl hpcapLatencyMeasure lm =
      (calls.filter Call.isProbe).foldl hpcapLatencyMeasure lm := by
  induction calls generalizing lm with
  | nil => rfl
  | cons c calls ih =>
    cases h : c.isProbe with
    | true => rw [List.filter_cons_of_pos h, List.foldl_cons, List.foldl_cons, ih]
    | false =>
      rw [List.filter_cons_of_neg (by rw [h]; exact Bool.false_ne_true), List.foldl_cons,
        measure_ignores h, ih]

/-- The state when `k` probes have been discarded. -/
def discarded (k : Int) : LatencyMeasurements := { hpcapLatencyInit with discard := k }

theorem measure_discards {k : Int} (hprobe : c.isProbe = true) (hk : k + 1 ≤ 1000) :
    hpcapLatencyMeasure (discarded k) c = discarded (k + 1) := by
  have hnone : (discarded k).measurements = 0 := rfl
  rw [hpcapLatencyMeasure, if_neg (not_not.mpr hprobe), if_pos hnone]
  exact if_pos hk

/-- While probes are discarded. -/
theorem foldl_discarded {k : Int} (hprobes : ∀ c ∈ cs, c.isProbe = true)
    (hk : k + cs.length ≤ 1000) :
    cs.foldl hpcapLatencyMeasure (discarded k) = discarded (k + cs.length) := by
  induction cs generalizing k with
  | nil => simp
  | cons c cs ih =>
    rw [List.length_cons, Int.natCast_add] at hk ⊢
    rw [List.foldl_cons, measure_discards (hprobes c List.mem_cons_self) (by omega),
      ih (fun d hd => hprobes d (List.mem_cons_of_mem _ hd)) (by omega)]
    exact congrArg discarded (by omega)

/-- A probe that is not discarded. -/
theorem measure_probe (hprobe : c.isProbe = true)
    (hlm : lm.measurements = 0 → 1000 ≤ lm.discard) :
    ∃ discard, hpcapLatencyMeasure lm c = measured { lm with discard := discard } c := by
  rw [hpcapLatencyMeasure, if_neg (not_not.mpr hprobe)]
  by_cases hzero : lm.measurements = 0
  · refine ⟨lm.discard + 1, ?_⟩
    rw [if_pos hzero]
    have := hlm hzero
    exact if_neg (Int.not_le.mpr (Int.lt_add_one_of_le this))
  · exact ⟨lm.discard, if_neg hzero⟩

/-- What becomes of the statistics. -/
structure Accumulated (lm : LatencyMeasurements) (cs : List Call) (lm' : LatencyMeasurements) :
    Prop where
  meanSum : lm'.meanSum = lm.meanSum + (differencesFrom lm.prevRecvTstamp lm.prevSendTstamp cs).sum
  squareSum : lm'.squareSum = lm.squareSum +
    ((differencesFrom lm.prevRecvTstamp lm.prevSendTstamp cs).map fun d => d * d).sum
  max : lm'.max = (differencesFrom lm.prevRecvTstamp lm.prevSendTstamp cs).foldl Max.max lm.max
  min : lm'.min = (differencesFrom lm.prevRecvTstamp lm.prevSendTstamp cs).foldl Min.min lm.min
  measurements : lm'.measurements = lm.measurements + cs.length
  mean : cs ≠ [] → lm'.mean = lm'.meanSum.tdiv lm'.measurements

theorem accumulated_measured (hpos : 0 ≤ lm.measurements) (c : Call) :
    Accumulated lm [c] (measured lm c) := by
  have hcount : lm.measurements + 1 > 0 := by omega
  simp only [measured, if_pos hcount]
  refine ⟨?_, ?_, ?_, ?_, rfl, fun _ => rfl⟩
  · simp [differencesFrom, difference]
  · simp [differencesFrom, difference]
  · change ite _ _ _ = Max.max lm.max (difference lm.prevRecvTstamp lm.prevSendTstamp c)
    rw [max_def_lt]
    rfl
  · change ite _ _ _ = Min.min lm.min (difference lm.prevRecvTstamp lm.prevSendTstamp c)
    rw [min_comm, min_def_lt]
    rfl

theorem foldl_measured (hprobes : ∀ c ∈ cs, c.isProbe = true) (hpos : 0 ≤ lm.measurements)
    (hlm : lm.measurements = 0 → 1000 ≤ lm.discard) :
    Accumulated lm cs (cs.foldl hpcapLatencyMeasure lm) := by
  induction cs generalizing lm with
  | nil => exact ⟨by simp [differencesFrom], by simp [differencesFrom], rfl, rfl, by simp,
      fun h => absurd rfl h⟩
  | cons c cs ih =>
    obtain ⟨discard, hcall⟩ := measure_probe (hprobes c List.mem_cons_self) hlm
    have hone := @accumulated_measured { lm with discard := discard } hpos c
    rw [← hcall] at hone
    have hcount : (hpcapLatencyMeasure lm c).measurements = lm.measurements + 1 := hone.measurements
    have hrecv : (hpcapLatencyMeasure lm c).prevRecvTstamp = c.recvTstamp := by
      rw [hcall]
      rfl
    have hsend : (hpcapLatencyMeasure lm c).prevSendTstamp = c.sendTstamp := by
      rw [hcall]
      rfl
    have hrest := @ih (hpcapLatencyMeasure lm c) (fun d hd => hprobes d (List.mem_cons_of_mem _ hd)) (by omega) (by omega)
    rw [List.foldl_cons]
    refine ⟨?_, ?_, ?_, ?_, ?_, fun _ => ?_⟩
    · have hsum := hone.meanSum
      simp only [differencesFrom, List.sum_cons, List.sum_nil, Int.add_zero] at hsum ⊢
      rw [hrest.meanSum, hrecv, hsend, hsum, Int.add_assoc]
    · have hsum := hone.squareSum
      simp only [differencesFrom, List.map_cons, List.map_nil, List.sum_cons, List.sum_nil,
        Int.add_zero] at hsum ⊢
      rw [hrest.squareSum, hrecv, hsend, hsum, Int.add_assoc]
    · rw [hrest.max, hrecv, hsend, hone.max]
      rfl
    · rw [hrest.min, hrecv, hsend, hone.min]
      rfl
    · rw [hrest.measurements, hcount, List.length_cons, Int.natCast_add]
      omega
    · cases cs with
      | nil => exact hone.mean (List.cons_ne_nil _ _)
      | cons d cs => exact hrest.mean (List.cons_ne_nil _ _)

end Fold

theorem foldl_max_iff (a : Int) (ds : List Int) (m : Int) :
    ds.foldl Max.max a = m ↔ m ∈ a :: ds ∧ ∀ d ∈ a :: ds, d ≤ m := by
  rw [← List.max?_eq_some_iff, List.max?_cons', Option.some_inj]

theorem foldl_min_iff (a : Int) (ds : List Int) (m : Int) :
    ds.foldl Min.min a = m ↔ m ∈ a :: ds ∧ ∀ d ∈ a :: ds, m ≤ d := by
  rw [← List.min?_eq_some_iff, List.min?_cons', Option.some_inj]

/-- The statistics after any calls: the first probe that is measured counts as a difference from
the beginning of time. -/
theorem measure_eq (calls : List Call) :
    Accumulated (discarded 1000) (measuredProbes calls) (measure calls) ∨
      measuredProbes calls = [] ∧ ∃ k, measure calls = discarded k := by
  have hprobes : ∀ c ∈ calls.filter Call.isProbe, c.isProbe = true := fun c hc =>
    (List.mem_filter.mp hc).2
  have hinit : hpcapLatencyInit = discarded 0 := rfl
  rw [measure, measuredProbes, foldl_probes, hinit]
  obtain hle | hlt := Nat.le_total (calls.filter Call.isProbe).length 1000
  · refine .inr ⟨List.drop_of_length_le hle, _, foldl_discarded hprobes (by omega)⟩
  · left
    have hsplit := List.take_append_drop 1000 (calls.filter Call.isProbe)
    have hlen : ((calls.filter Call.isProbe).take 1000).length = 1000 := by
      rw [List.length_take]
      omega
    have hwarm := @foldl_discarded ((calls.filter Call.isProbe).take 1000) 0
      (fun c hc => hprobes c (List.mem_of_mem_take hc)) (by omega)
    rw [hlen] at hwarm
    have hall := congrArg (List.foldl hpcapLatencyMeasure (discarded 0)) hsplit
    rw [List.foldl_append, hwarm] at hall
    rw [← hall]
    exact foldl_measured (fun c hc => hprobes c (List.mem_of_mem_drop hc)) (Int.le_refl _)
      fun _ => Int.le_refl _

section Bias

variable {lm : LatencyMeasurements} {first : Call} {rest : List Call}

theorem differencesFrom_length (prevRecv prevSend : Int) (cs : List Call) :
    (differencesFrom prevRecv prevSend cs).length = cs.length := by
  induction cs generalizing prevRecv prevSend with
  | nil => rfl
  | cons c cs ih => rw [differencesFrom, List.length_cons, ih, List.length_cons]

/-- The greatest of numbers, when there is one that is not negative. -/
theorem greatest_iff {ds : List Int} {m : Int} (h : m ∈ 0 :: 0 :: ds ∧ ∀ d ∈ 0 :: 0 :: ds, d ≤ m) :
    (m ∈ ds ∧ ∀ d ∈ ds, d ≤ m) ↔ ∃ d ∈ ds, 0 ≤ d := by
  obtain ⟨hmem, hle⟩ := h
  have hpos := hle 0 List.mem_cons_self
  have hall : ∀ d ∈ ds, d ≤ m := fun d hd => hle d (by simp [hd])
  constructor
  · exact fun h => ⟨m, h.1, hpos⟩
  · rintro ⟨d, hd, hnonneg⟩
    refine ⟨?_, hall⟩
    obtain h | h | h : m = 0 ∨ m = 0 ∨ m ∈ ds := by simpa using hmem
    · have := hall d hd
      exact (by omega : d = m) ▸ hd
    · have := hall d hd
      exact (by omega : d = m) ▸ hd
    · exact h

/-- The least of numbers, when there is one that is not positive. -/
theorem least_iff {ds : List Int} {m : Int}
    (h : m ∈ longMax :: 0 :: ds ∧ ∀ d ∈ longMax :: 0 :: ds, m ≤ d) :
    (m ∈ ds ∧ ∀ d ∈ ds, m ≤ d) ↔ ∃ d ∈ ds, d ≤ 0 := by
  obtain ⟨hmem, hle⟩ := h
  have hneg := hle 0 (by simp)
  have hall : ∀ d ∈ ds, m ≤ d := fun d hd => hle d (by simp [hd])
  constructor
  · exact fun h => ⟨m, h.1, hneg⟩
  · rintro ⟨d, hd, hnonpos⟩
    refine ⟨?_, hall⟩
    obtain h | h | h : m = longMax ∨ m = 0 ∨ m ∈ ds := by simpa using hmem
    · have : (0 : Int) < longMax := by decide
      omega
    · have := hall d hd
      exact (by omega : d = m) ▸ hd
    · exact h

/-- The first probe is taken for a difference, in front of the others. -/
theorem Accumulated.first_counts (h : Accumulated (discarded 1000) (first :: rest) lm) :
    lm.meanSum = first.recvTstamp - first.sendTstamp + (differences (first :: rest)).sum ∧
    lm.squareSum = (first.recvTstamp - first.sendTstamp) * (first.recvTstamp - first.sendTstamp) +
      ((differences (first :: rest)).map fun d => d * d).sum ∧
    lm.max = ((first.recvTstamp - first.sendTstamp) :: differences (first :: rest)).foldl Max.max 0 ∧
    lm.min = ((first.recvTstamp - first.sendTstamp) :: differences (first :: rest)).foldl Min.min
      longMax ∧
    lm.measurements = rest.length + 1 := by
  have hall : differencesFrom (discarded 1000).prevRecvTstamp (discarded 1000).prevSendTstamp
      (first :: rest) = (first.recvTstamp - first.sendTstamp) :: differences (first :: rest) := by
    simp [differencesFrom, difference, differences, discarded, hpcapLatencyInit]
  obtain ⟨hsum, hsquare, hmax, hmin, hcount, -⟩ := h
  rw [hall] at hsum hsquare hmax hmin
  refine ⟨?_, ?_, hmax, hmin, ?_⟩
  · exact hsum.trans (Int.zero_add _)
  · exact hsquare.trans (Int.zero_add _)
  · exact hcount.trans (Int.zero_add _)

theorem unbiased_cons : Unbiased (first :: rest) ↔ first.recvTstamp = first.sendTstamp ∧
    (rest ≠ [] → (∃ d ∈ differences (first :: rest), 0 ≤ d) ∧
      (∃ d ∈ differences (first :: rest), d ≤ 0) ∧
      (differences (first :: rest)).sum.tdiv (rest.length + 1) =
        (differences (first :: rest)).sum.tdiv rest.length) := by
  constructor
  · exact fun h => h first rest rfl
  · intro h first' rest' hsplit
    obtain ⟨rfl, rfl⟩ := List.cons.inj hsplit
    exact h

theorem reports_iff (h : Accumulated (discarded 1000) (first :: rest) lm) :
    Reports lm (differences (first :: rest)) ↔ Unbiased (first :: rest) := by
  have hlen : (differences (first :: rest)).length = rest.length := differencesFrom_length _ _ _
  have hsome : differences (first :: rest) ≠ [] ↔ rest ≠ [] := by
    rw [← List.length_pos_iff, hlen, List.length_pos_iff]
  have hmean := h.mean (List.cons_ne_nil _ _)
  obtain ⟨hsum, hsquare, hmax, hmin, hcount⟩ := h.first_counts
  rw [unbiased_cons, Reports]
  generalize differences (first :: rest) = ds at *
  by_cases hfirst : first.recvTstamp = first.sendTstamp
  · rw [hfirst, Int.sub_self] at hmax hmin hsum hsquare
    rw [Int.zero_add] at hsum
    rw [Int.zero_mul, Int.zero_add] at hsquare
    rw [and_iff_right hsum, and_iff_right hsquare, and_iff_right hfirst,
      greatest_iff ((foldl_max_iff _ _ _).mp hmax.symm),
      least_iff ((foldl_min_iff _ _ _).mp hmin.symm), hsome, hmean, hsum, hcount, hlen]
  · refine iff_of_false (fun hno => ?_) fun hno => hfirst hno.1
    have := hno.1
    omega

end Bias

/-- The statistics are right just if the probe that is taken for the first difference does not
show. -/
theorem latency_reports_iff (calls : List Call) :
    Reports (measure calls) (differences (measuredProbes calls)) ↔
      Unbiased (measuredProbes calls) := by
  cases hprobes : measuredProbes calls with
  | nil =>
    have hnone : (measure calls).meanSum = 0 ∧ (measure calls).squareSum = 0 := by
      obtain h | ⟨-, k, h⟩ := measure_eq calls
      · rw [hprobes] at h
        exact ⟨h.meanSum, h.squareSum⟩
      · rw [h]
        exact ⟨rfl, rfl⟩
    exact iff_of_true ⟨hnone.1, hnone.2, fun h => absurd rfl h⟩ fun first rest hsplit =>
      absurd hsplit (by simp)
  | cons first rest =>
    obtain h | ⟨h, -⟩ := measure_eq calls
    · rw [hprobes] at h
      exact reports_iff h
    · rw [hprobes] at h
      cases h

/-- A probe that is sent at `send` times ten and comes at `recv`. -/
def probe (send : UInt8) (recv : Nat) : Call where
  tvSec := 0
  tvNsec := recv
  frame i := if i = 36 ∨ i = 37 then 0xCA else if i = 40 then send else 0

/-- After the warm-up come two probes that take 5 ns each: there is no difference, but the sum
is 5. -/
theorem first_probe_counts : ¬ ∀ calls : List Call,
    Reports (measure calls) (differences (measuredProbes calls)) := by
  intro h
  have hfilter : (List.replicate 1000 (probe 0 0) ++ [probe 1 15, probe 2 25]).filter Call.isProbe =
      List.replicate 1000 (probe 0 0) ++ [probe 1 15, probe 2 25] := by
    refine List.filter_eq_self.mpr fun c hc => ?_
    obtain hc | hc := List.mem_append.mp hc
    · rw [List.eq_of_mem_replicate hc]
      decide
    · obtain rfl | rfl : c = probe 1 15 ∨ c = probe 2 25 := by simpa using hc
      · decide
      · decide
  have hprobes : measuredProbes (List.replicate 1000 (probe 0 0) ++ [probe 1 15, probe 2 25]) =
      [probe 1 15, probe 2 25] := by
    rw [measuredProbes, hfilter]
    exact List.drop_left' List.length_replicate
  have hright := h (List.replicate 1000 (probe 0 0) ++ [probe 1 15, probe 2 25])
  obtain haccumulated | ⟨hnone, -⟩ :=
    measure_eq (List.replicate 1000 (probe 0 0) ++ [probe 1 15, probe 2 25])
  · rw [hprobes] at haccumulated hright
    obtain ⟨hfirst, -⟩ := (reports_iff haccumulated).mp hright _ _ rfl
    exact absurd hfirst (by decide)
  · rw [hprobes] at hnone
    cases hnone

end Hpcap.Latency
