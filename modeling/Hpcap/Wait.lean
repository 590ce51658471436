import Hpcap.Client

namespace Hpcap.Wait

open Hpcap.Listeners
open Hpcap.Client (ListenerOp sleepQuant numLoops)

/-- The loop of `hpcap_wait_listener_user`: how often it sleeps, and what is in use when it looks
for the last time. `looks` is the listener as it is after so many sleeps. -/
def waitLoop (looks : Nat → Listener) (desired : Nat) : Nat → Nat → Nat × Nat
  | 0, slept => (slept, usedBytes (looks slept))
  | n + 1, slept =>
    if (looks slept).kill = false ∧ usedBytes (looks slept) < desired then
      waitLoop looks desired n (slept + 1)
    else (slept, usedBytes (looks slept))

structure Waited where
  ret : Nat
  lstop : ListenerOp
  slept : Nat

/-- The mark is read once more after the loop, in `last`. The timeout is not signed, and never
below zero. -/
def hpcapWaitListenerUser (looks : Nat → Listener) (last : Listener) (lstop : ListenerOp) :
    Waited :=
  let r := waitLoop looks lstop.expectBytes (numLoops lstop.timeoutNs) 0
  if last.kill then ⟨2 ^ 64 - 1, lstop, r.1⟩
  else ⟨r.2, { lstop with readOffset := last.bufferRdOffset, availableBytes := r.2 }, r.1⟩

/-- Where the loop ends: it went on before, and could not go on there. -/
structure Ends (looks : Nat → Listener) (desired n start : Nat) (r : Nat × Nat) : Prop where
  start_le : start ≤ r.1
  le : r.1 ≤ start + n
  avail : r.2 = usedBytes (looks r.1)
  before : ∀ i, start ≤ i → i < r.1 →
    (looks i).kill = false ∧ usedBytes (looks i) < desired
  stop : r.1 < start + n → (looks r.1).kill = true ∨ desired ≤ usedBytes (looks r.1)

variable {looks : Nat → Listener} {last : Listener} {lstop : ListenerOp}

theorem waitLoop_ends (looks : Nat → Listener) (desired n start : Nat) :
    Ends looks desired n start (waitLoop looks desired n start) := by
  induction n generalizing start with
  | zero =>
    exact ⟨le_rfl, le_rfl, rfl, fun i hi hlt => absurd hlt (Nat.not_lt.mpr hi),
      fun hlt => absurd hlt (lt_irrefl _)⟩
  | succ n ih =>
    rw [waitLoop]
    by_cases hgo : (looks start).kill = false ∧ usedBytes (looks start) < desired
    · rw [if_pos hgo]
      have h := ih (start + 1)
      have hle := h.le
      refine ⟨(Nat.le_succ _).trans h.start_le, by omega, h.avail, fun i hi hlt => ?_,
        fun hlt => h.stop (by omega)⟩
      obtain rfl | hi := Nat.eq_or_lt_of_le hi
      · exact hgo
      · exact h.before i hi hlt
    · rw [if_neg hgo]
      refine ⟨le_rfl, Nat.le_add_right _ _, rfl, fun i hi hlt => absurd hlt (Nat.not_lt.mpr hi),
        fun _ => ?_⟩
      obtain hk | hd := not_and_or.mp hgo
      · exact .inl (by simpa using hk)
      · exact .inr (Nat.not_lt.mp hd)

theorem numLoops_lt (timeoutNs : Nat) : numLoops timeoutNs < 2 ^ 31 := by
  rw [numLoops]
  split
  · assumption
  · decide

theorem numLoops_small {timeoutNs : Nat} (h : timeoutNs / sleepQuant < 2 ^ 31) :
    numLoops timeoutNs = timeoutNs / sleepQuant := by
  have hmod : timeoutNs / sleepQuant % 2 ^ 32 = timeoutNs / sleepQuant :=
    Nat.mod_eq_of_lt (by omega)
  rw [numLoops, hmod]
  exact if_pos h

/-- The listener was killed before the wait was over. -/
def Killed (looks : Nat → Listener) (last : Listener) (slept : Nat) : Prop :=
  (∃ i ≤ slept, (looks i).kill = true) ∨ last.kill = true

/-- Less than is asked for is what comes of a timeout, and of nothing else but a kill. -/
structure WaitsRight (looks : Nat → Listener) (last : Listener) (lstop : ListenerOp)
    (w : Waited) : Prop where
  timeout : ¬ Killed looks last w.slept → w.ret < lstop.expectBytes →
    lstop.timeoutNs ≠ 0 ∧ lstop.timeoutNs / sleepQuant ≤ w.slept
  blocks : lstop.timeoutNs = 0 → Killed looks last w.slept ∨ lstop.expectBytes ≤ w.ret

/-- There is something to return for at one of the first `n + 1` looks. -/
def Answered (looks : Nat → Listener) (desired n : Nat) : Prop :=
  ∃ i ≤ n, (looks i).kill = true ∨ desired ≤ usedBytes (looks i)

theorem wait_slept (looks : Nat → Listener) (last : Listener) (lstop : ListenerOp) :
    (hpcapWaitListenerUser looks last lstop).slept =
      (waitLoop looks lstop.expectBytes (numLoops lstop.timeoutNs) 0).1 := by
  rw [hpcapWaitListenerUser]
  split
  · rfl
  · rfl

theorem wait_ret (h : last.kill = false) : (hpcapWaitListenerUser looks last lstop).ret =
    (waitLoop looks lstop.expectBytes (numLoops lstop.timeoutNs) 0).2 := by
  simp [hpcapWaitListenerUser, h]

/-- A wait that is not killed and returns too little has slept as often as it could. -/
theorem wait_exhausted {w : Waited} (hw : hpcapWaitListenerUser looks last lstop = w)
    (hk : ¬ Killed looks last w.slept) (hfew : w.ret < lstop.expectBytes) :
    w.slept = numLoops lstop.timeoutNs ∧
      ¬ Answered looks lstop.expectBytes (numLoops lstop.timeoutNs) := by
  subst hw
  have hends := waitLoop_ends looks lstop.expectBytes (numLoops lstop.timeoutNs) 0
  have hle := hends.le
  have havail := hends.avail
  have hlast : last.kill = false := by simpa using fun h => hk (.inr h)
  rw [wait_ret hlast, havail] at hfew
  rw [wait_slept] at hk ⊢
  have hno : ∀ i ≤ (waitLoop looks lstop.expectBytes (numLoops lstop.timeoutNs) 0).1,
      ¬ ((looks i).kill = true ∨ lstop.expectBytes ≤ usedBytes (looks i)) := by
    intro i hi hanswer
    obtain hlt | rfl := Nat.lt_or_eq_of_le hi
    · obtain ⟨hkill, hused⟩ := hends.before i (Nat.zero_le i) hlt
      obtain hkilled | henough := hanswer
      · rw [hkill] at hkilled
        cases hkilled
      · omega
    · obtain hkilled | henough := hanswer
      · exact hk (.inl ⟨_, le_rfl, hkilled⟩)
      · omega
  have hall : (waitLoop looks lstop.expectBytes (numLoops lstop.timeoutNs) 0).1 =
      numLoops lstop.timeoutNs := by
    by_contra hne
    exact hno _ le_rfl (hends.stop (by omega))
  refine ⟨hall, ?_⟩
  rintro ⟨i, hi, hanswer⟩
  exact hno i (by omega) hanswer

/-- Without an answer within the loops there are, it sleeps that often and returns too little. -/
theorem wait_unanswered (hlast : last.kill = false)
    (h : ¬ Answered looks lstop.expectBytes (numLoops lstop.timeoutNs)) :
    (hpcapWaitListenerUser looks last lstop).slept = numLoops lstop.timeoutNs ∧
      (hpcapWaitListenerUser looks last lstop).ret < lstop.expectBytes ∧
      ¬ Killed looks last (hpcapWaitListenerUser looks last lstop).slept := by
  have hends := waitLoop_ends looks lstop.expectBytes (numLoops lstop.timeoutNs) 0
  have hle := hends.le
  have hall : (waitLoop looks lstop.expectBytes (numLoops lstop.timeoutNs) 0).1 =
      numLoops lstop.timeoutNs := by
    by_contra hne
    exact h ⟨_, by omega, hends.stop (by omega)⟩
  rw [wait_slept, wait_ret hlast, hends.avail, hall]
  refine ⟨rfl, Nat.not_le.mp fun henough => h ⟨_, le_rfl, .inr henough⟩, ?_⟩
  rintro (⟨i, hi, hkill⟩ | hkill)
  · exact h ⟨i, hi, .inl hkill⟩
  · rw [hlast] at hkill
    cases hkill

/-- It waits as it should when the timeout is one it can count, or when it is killed or finds
enough within the looks it takes. -/
theorem wait_iff (looks : Nat → Listener) (last : Listener) (lstop : ListenerOp) :
    WaitsRight looks last lstop (hpcapWaitListenerUser looks last lstop) ↔
      (0 < lstop.timeoutNs ∧ lstop.timeoutNs / sleepQuant < 2 ^ 31) ∨ last.kill = true ∨
        Answered looks lstop.expectBytes (numLoops lstop.timeoutNs) := by
  constructor
  · intro h
    by_contra hno
    obtain ⟨hlong, hno⟩ := not_or.mp hno
    obtain ⟨hlast, hanswer⟩ := not_or.mp hno
    obtain ⟨hslept, hfew, hk⟩ := wait_unanswered (by simpa using hlast) hanswer
    obtain ⟨hne, hle⟩ := h.timeout hk hfew
    rw [hslept] at hle
    exact hlong ⟨Nat.pos_of_ne_zero hne, hle.trans_lt (numLoops_lt _)⟩
  · intro h
    have htimeout : ¬ Killed looks last (hpcapWaitListenerUser looks last lstop).slept →
        (hpcapWaitListenerUser looks last lstop).ret < lstop.expectBytes →
        lstop.timeoutNs ≠ 0 ∧ lstop.timeoutNs / sleepQuant ≤
          (hpcapWaitListenerUser looks last lstop).slept := by
      intro hk hfew
      obtain ⟨hslept, hno⟩ := wait_exhausted rfl hk hfew
      obtain ⟨hpos, hlt⟩ := h.resolve_right (not_or.mpr ⟨fun hkill => hk (.inr hkill), hno⟩)
      rw [hslept, numLoops_small hlt]
      exact ⟨Nat.ne_of_gt hpos, le_rfl⟩
    refine ⟨htimeout, fun hzero => ?_⟩
    by_contra hno
    obtain ⟨hk, hfew⟩ := not_or.mp hno
    exact (htimeout hk (Nat.not_le.mp hfew)).1 hzero

/-- A listener that nothing is written for is asked for one byte, without a timeout. -/
theorem wait_without_timeout_returns : ¬ ∀ (looks : Nat → Listener) (last : Listener)
    (lstop : ListenerOp), WaitsRight looks last lstop (hpcapWaitListenerUser looks last lstop) := by
  intro h
  obtain hk | henough := (h (fun _ => ⟨1, false, 0, 0, 4096⟩) ⟨1, false, 0, 0, 4096⟩
    ⟨0, 1, 0, 0, 0, 0⟩).blocks rfl
  · obtain ⟨i, -, hk⟩ | hk := hk
    · cases hk
    · cases hk
  · exact absurd henough (by decide)

end Hpcap.Wait
