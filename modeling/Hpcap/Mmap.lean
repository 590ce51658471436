import Hpcap.Slots
import Hpcap.Transition
import Mathlib.Tactic.NormNum

namespace Hpcap.Mmap

open Hpcap.Transition

/-- Where a call of `hpcap_mmap` is: in its waiting loop, between the loop and the return, or
gone, by way of `atomic_dec` or of the return that leaves it out. -/
inductive Pc
  | spinning
  | inside
  | returned
  | failed
  deriving DecidableEq

/-- `mmapCount` by its 32 bits, and the calls that were made. -/
structure State where
  mmapCount : Nat
  callers : List Pc

/-- One atomic step of a call: `atomic_inc_return`, an `atomic_read` of the waiting loop, or the
way out, where `remapFails` is the outcome of `remap_pfn_range`. -/
inductive Step
  | arrive
  | poll (caller : Nat)
  | leave (caller : Nat) (remapFails : Bool)

/-- `atomic_dec` on the 32 bits of an `atomic_t`. -/
def atomicDec (count : Nat) : Nat := (count + (2 ^ 32 - 1)) % 2 ^ 32

def State.moveTo (s : State) (caller : Nat) (pc : Pc) : State :=
  { s with callers := s.callers.set caller pc }

def step (s : State) : Step → Option State
  | .arrive =>
    let count := (s.mmapCount + 1) % 2 ^ 32
    some ⟨count, s.callers ++ [if count = 1 then .inside else .spinning]⟩
  | .poll caller =>
    if s.callers[caller]? = some .spinning then
      some (if s.mmapCount = 1 then s.moveTo caller .inside else s)
    else none
  | .leave caller remapFails =>
    if s.callers[caller]? = some .inside then
      if remapFails then some (s.moveTo caller .failed)
      else some { s.moveTo caller .returned with mmapCount := atomicDec s.mmapCount }
    else none

def init : State := ⟨0, []⟩

def State.spinning (s : State) : Nat := s.callers.count .spinning
def State.inside (s : State) : Nat := s.callers.count .inside
def State.failed (s : State) : Nat := s.callers.count .failed

/-- The calls that have counted themselves in and not out. -/
def State.counted (s : State) : Nat := s.spinning + s.inside + s.failed

def Exclusive (s : State) : Prop := s.inside ≤ 1

/-- While nobody is inside, one of those who wait can enter. -/
def HandsOver (s : State) : Prop :=
  s.inside = 0 → 0 < s.spinning → ∃ i t, s.callers[i]? = some .spinning ∧
    step s (.poll i) = some t ∧ t.callers[i]? = some .inside

/-- The counter does not come back to zero by counting up. -/
def Countable (s : State) : Step → Prop
  | .arrive => s.counted + 1 < 2 ^ 32
  | .poll _ => True
  | .leave _ _ => True

instance (s : State) : DecidablePred (Countable s)
  | .arrive => inferInstanceAs (Decidable (s.counted + 1 < 2 ^ 32))
  | .poll _ => instDecidableTrue
  | .leave _ _ => instDecidableTrue

/-- Nobody comes after a call that failed, or between a call that has left and the one that
waits for it; not two wait when a call leaves, and none when it fails. -/
def Orderly (s : State) : Step → Prop
  | .arrive => s.counted + 1 < 2 ^ 32 ∧ s.failed = 0 ∧ (s.spinning = 0 ∨ 0 < s.inside)
  | .poll _ => True
  | .leave _ remapFails => if remapFails then s.spinning = 0 else s.spinning ≤ 1

instance (s : State) : DecidablePred (Orderly s)
  | .arrive => inferInstanceAs (Decidable
      (s.counted + 1 < 2 ^ 32 ∧ s.failed = 0 ∧ (s.spinning = 0 ∨ 0 < s.inside)))
  | .poll _ => instDecidableTrue
  | .leave _ true => inferInstanceAs (Decidable (s.spinning = 0))
  | .leave _ false => inferInstanceAs (Decidable (s.spinning ≤ 1))

section Count

variable {cs : List Pc} {i : Nat} {p : Pc}

/-- A call that moves from `p` to `q` is one less there and one more here. -/
theorem count_set (h : cs[i]? = some p) (q x : Pc) :
    (cs.set i q).count x + (if p = x then 1 else 0) = cs.count x + (if q = x then 1 else 0) := by
  simpa only [List.count, beq_iff_eq] using Slots.countP_set (· == x) h q

variable {s : State}

theorem counts_moveTo (h : s.callers[i]? = some p) (n : Nat) (q : Pc) :
    State.spinning ⟨n, s.callers.set i q⟩ + (if p = .spinning then 1 else 0) =
        s.spinning + (if q = .spinning then 1 else 0) ∧
      State.inside ⟨n, s.callers.set i q⟩ + (if p = .inside then 1 else 0) =
        s.inside + (if q = .inside then 1 else 0) ∧
      State.failed ⟨n, s.callers.set i q⟩ + (if p = .failed then 1 else 0) =
        s.failed + (if q = .failed then 1 else 0) :=
  ⟨count_set h q _, count_set h q _, count_set h q _⟩

theorem counts_arrive (s : State) (n : Nat) (q : Pc) :
    State.spinning ⟨n, s.callers ++ [q]⟩ = s.spinning + (if q = .spinning then 1 else 0) ∧
      State.inside ⟨n, s.callers ++ [q]⟩ = s.inside + (if q = .inside then 1 else 0) ∧
      State.failed ⟨n, s.callers ++ [q]⟩ = s.failed + (if q = .failed then 1 else 0) := by
  simp only [State.spinning, State.inside, State.failed, List.count_append, List.count_singleton,
    beq_iff_eq]
  exact ⟨trivial, trivial, trivial⟩

end Count

/-- The counter is that of the calls that are counted, and one of them at most is inside. -/
structure Locked (s : State) : Prop where
  count : s.mmapCount = s.counted
  small : s.counted < 2 ^ 32
  exclusive : Exclusive s

/-- One call at most waits for nobody, and none behind a call that failed. -/
structure Queued (s : State) : Prop where
  behind : s.inside = 0 → s.spinning ≤ 1
  failed : 0 < s.failed → s.inside = 0 ∧ s.spinning = 0

section Steps

variable {s t : State}

/-- A call comes: it enters if nobody is counted, and waits otherwise. -/
theorem arrive_cases (h : Locked s) (ha : s.counted + 1 < 2 ^ 32)
    (hs : step s .arrive = some t) :
    t.mmapCount = s.counted + 1 ∧ t.failed = s.failed ∧
      (s.counted = 0 ∧ t.inside = s.inside + 1 ∧ t.spinning = s.spinning ∨
        0 < s.counted ∧ t.inside = s.inside ∧ t.spinning = s.spinning + 1) := by
  have hcount : (s.mmapCount + 1) % 2 ^ 32 = s.counted + 1 := by
    rw [h.count]
    exact Nat.mod_eq_of_lt ha
  simp only [step, hcount, Option.some.injEq] at hs
  subst hs
  by_cases hzero : s.counted = 0
  · obtain ⟨hspin, hin, hfail⟩ := counts_arrive s (s.counted + 1) .inside
    rw [if_pos (by omega)]
    exact ⟨rfl, hfail, .inl ⟨hzero, hin, hspin⟩⟩
  · obtain ⟨hspin, hin, hfail⟩ := counts_arrive s (s.counted + 1) .spinning
    rw [if_neg (by omega)]
    exact ⟨rfl, hfail, .inr ⟨by omega, hin, hspin⟩⟩

/-- A call reads the counter: it enters if it reads 1. -/
theorem poll_cases {i : Nat} (hs : step s (.poll i) = some t) :
    t = s ∨ s.mmapCount = 1 ∧ t.mmapCount = 1 ∧ t.failed = s.failed ∧
      t.inside = s.inside + 1 ∧ t.spinning + 1 = s.spinning := by
  obtain ⟨hi, hs⟩ := Option.ite_none_right_eq_some.mp hs
  cases hs
  by_cases hone : s.mmapCount = 1
  · obtain ⟨hspin, hin, hfail⟩ := counts_moveTo hi s.mmapCount .inside
    rw [if_pos hone]
    exact .inr ⟨hone, hone, hfail, hin, hspin⟩
  · exact .inl (if_neg hone)

/-- A call leaves, counted out or not. -/
theorem leave_cases {i : Nat} {remapFails : Bool} (hs : step s (.leave i remapFails) = some t) :
    t.inside + 1 = s.inside ∧ t.spinning = s.spinning ∧
      (remapFails = true ∧ t.failed = s.failed + 1 ∧ t.mmapCount = s.mmapCount ∨
        remapFails = false ∧ t.failed = s.failed ∧ t.mmapCount = atomicDec s.mmapCount) := by
  obtain ⟨hi, hs⟩ := Option.ite_none_right_eq_some.mp hs
  cases remapFails with
  | true =>
    cases hs
    obtain ⟨hspin, hin, hfail⟩ := counts_moveTo hi s.mmapCount .failed
    exact ⟨hin, hspin, .inl ⟨rfl, hfail, rfl⟩⟩
  | false =>
    rw [if_neg Bool.false_ne_true, Option.some.injEq] at hs
    subst hs
    obtain ⟨hspin, hin, hfail⟩ := counts_moveTo hi (atomicDec s.mmapCount) .returned
    exact ⟨hin, hspin, .inr ⟨rfl, hfail, rfl⟩⟩

theorem Locked.step {a : Step} (h : Locked s) (ha : Countable s a) (hs : step s a = some t) :
    Locked t := by
  have hcount := h.count
  have hsmall := h.small
  have hone : s.inside ≤ 1 := h.exclusive
  have hs' : s.counted = s.spinning + s.inside + s.failed := rfl
  have ht' : t.counted = t.spinning + t.inside + t.failed := rfl
  cases a with
  | arrive =>
    have ha : s.counted + 1 < 2 ^ 32 := ha
    obtain ⟨hc, hfail, hcase⟩ := arrive_cases h ha hs
    exact ⟨by omega, by omega, show t.inside ≤ 1 by omega⟩
  | poll i =>
    obtain rfl | ⟨hread, hc, hfail, hin, hspin⟩ := poll_cases hs
    · exact h
    · exact ⟨by omega, by omega, show t.inside ≤ 1 by omega⟩
  | leave i remapFails =>
    obtain ⟨hin, hspin, hcase⟩ := leave_cases hs
    have hdec : atomicDec s.mmapCount = s.mmapCount - 1 := by
      rw [atomicDec]
      omega
    exact ⟨by omega, by omega, show t.inside ≤ 1 by omega⟩

theorem Orderly.countable {a : Step} (h : Orderly s a) : Countable s a := by
  cases a with
  | arrive => exact h.1
  | poll i => trivial
  | leave i remapFails => trivial

theorem Queued.step {a : Step} (hl : Locked s) (h : Queued s) (ha : Orderly s a)
    (hs : step s a = some t) : Queued t := by
  have hbehind := h.behind
  have hfailed := h.failed
  have hone : s.inside ≤ 1 := hl.exclusive
  have hs' : s.counted = s.spinning + s.inside + s.failed := rfl
  cases a with
  | arrive =>
    obtain ⟨hc, hnone, hfree⟩ := ha
    obtain ⟨-, hfail, hcase⟩ := arrive_cases hl hc hs
    exact ⟨by omega, by omega⟩
  | poll i =>
    obtain rfl | ⟨hread, -, hfail, hin, hspin⟩ := poll_cases hs
    · exact h
    · have hcount := hl.count
      exact ⟨by omega, by omega⟩
  | leave i remapFails =>
    obtain ⟨hin, hspin, ⟨rfl, hfail, -⟩ | ⟨rfl, hfail, -⟩⟩ := leave_cases hs
    · have ha : s.spinning = 0 := ha
      exact ⟨by omega, by omega⟩
    · have ha : s.spinning ≤ 1 := ha
      exact ⟨by omega, by omega⟩

theorem Queued.handsOver (hl : Locked s) (h : Queued s) : HandsOver s := by
  intro hin hspin
  obtain ⟨i, hi⟩ := List.mem_iff_getElem?.mp (List.count_pos_iff.mp hspin)
  have hcount : s.mmapCount = 1 := by
    have hbehind := h.behind hin
    have hfailed := h.failed
    have hs' : s.counted = s.spinning + s.inside + s.failed := rfl
    have := hl.count
    omega
  obtain ⟨hlt, -⟩ := List.getElem?_eq_some_iff.mp hi
  refine ⟨i, s.moveTo i .inside, hi, ?_, List.getElem?_set_self hlt⟩
  simp only [Mmap.step, if_pos hi, if_pos hcount]

end Steps

theorem locked_init : Locked init := ⟨rfl, by decide, Nat.zero_le 1⟩

theorem queued_init : Queued init := ⟨fun _ => Nat.zero_le 1, fun h => absurd h (by decide)⟩

/-- One call at most is inside as long as fewer than `2 ^ 32` are counted, and in orderly runs
the section is handed over besides. -/
theorem mmap_lock (s : State) :
    (Reach step Countable (fun t => t = init) s → Exclusive s) ∧
      (Reach step Orderly (fun t => t = init) s → Exclusive s ∧ HandsOver s) := by
  refine ⟨fun h => ?_, fun h => ?_⟩
  · have hlocked : Locked s := by
      refine h.invariant Locked ?_ fun _ _ _ hu ha hs => hu.step ha hs
      rintro t rfl
      exact locked_init
    exact hlocked.exclusive
  · have hboth : Locked s ∧ Queued s := by
      refine h.invariant (fun t => Locked t ∧ Queued t) ?_
        fun _ _ _ hu ha hs => ⟨hu.1.step ha.countable hs, hu.2.step hu.1 ha hs⟩
      rintro t rfl
      exact ⟨locked_init, queued_init⟩
    exact ⟨hboth.1.exclusive, hboth.2.handsOver hboth.1⟩

/-- The second call waits for the first, and a third one for the second. With two that wait at
a time there is still one inside only. -/
theorem mmap_lock_three :
    (∃ s, run (guard step Orderly) init
        [.arrive, .arrive, .leave 0 false, .poll 1, .arrive, .poll 2, .leave 1 false] = some s ∧
      s.callers = [.returned, .returned, .spinning] ∧ Exclusive s ∧ HandsOver s) ∧
    ∃ s, run (guard step Countable) init [.arrive, .arrive, .arrive] = some s ∧
      s.callers = [.inside, .spinning, .spinning] ∧ Exclusive s := by
  constructor
  · have hrun : (run (guard step Orderly) init
        [.arrive, .arrive, .leave 0 false, .poll 1, .arrive, .poll 2, .leave 1 false]).map
          State.callers = some [.returned, .returned, .spinning] := by
      decide +kernel
    obtain ⟨s, hs, hcallers⟩ := Option.map_eq_some_iff.mp hrun
    exact ⟨s, hs, hcallers, (mmap_lock s).2 (.run_guard (.start rfl) hs)⟩
  · have hrun : (run (guard step Countable) init [.arrive, .arrive, .arrive]).map
        State.callers = some [.inside, .spinning, .spinning] := by
      decide +kernel
    obtain ⟨s, hs, hcallers⟩ := Option.map_eq_some_iff.mp hrun
    exact ⟨s, hs, hcallers, (mmap_lock s).1 (.run_guard (.start rfl) hs)⟩

/-- Nobody enters while the counter is not 1. -/
theorem not_handsOver {s : State} (hcount : s.mmapCount ≠ 1) (hin : s.inside = 0)
    (hspin : 0 < s.spinning) : ¬ HandsOver s := by
  intro h
  obtain ⟨i, t, hi, ht, hti⟩ := h hin hspin
  obtain rfl | ⟨hone, -⟩ := poll_cases ht
  · cases hi.symm.trans hti
  · exact hcount hone

/-- Two calls wait when the one inside leaves: each keeps the other out. -/
theorem mmap_two_wait :
    ∃ s, run step init [.arrive, .arrive, .arrive, .leave 0 false] = some s ∧
      s.callers = [.returned, .spinning, .spinning] ∧ ¬ HandsOver s := by
  have hrun : (run step init [.arrive, .arrive, .arrive, .leave 0 false]).map
      (fun s => (s.mmapCount, s.callers)) = some (2, [.returned, .spinning, .spinning]) := by
    decide +kernel
  obtain ⟨s, hs, he⟩ := Option.map_eq_some_iff.mp hrun
  obtain ⟨hcount, hcallers⟩ := Prod.mk.inj he
  refine ⟨s, hs, hcallers, not_handsOver (by omega) ?_ ?_⟩
  · rw [State.inside, hcallers]
    rfl
  · rw [State.spinning, hcallers]
    decide

/-- After one call that failed, the next one waits for ever. -/
theorem mmap_after_failure :
    ∃ s, run step init [.arrive, .leave 0 true, .arrive] = some s ∧
      s.callers = [.failed, .spinning] ∧ ¬ HandsOver s := by
  have hrun : (run step init [.arrive, .leave 0 true, .arrive]).map
      (fun s => (s.mmapCount, s.callers)) = some (2, [.failed, .spinning]) := by
    decide +kernel
  obtain ⟨s, hs, he⟩ := Option.map_eq_some_iff.mp hrun
  obtain ⟨hcount, hcallers⟩ := Prod.mk.inj he
  refine ⟨s, hs, hcallers, not_handsOver (by omega) ?_ ?_⟩
  · rw [State.inside, hcallers]
    rfl
  · rw [State.spinning, hcallers]
    decide

end Hpcap.Mmap
