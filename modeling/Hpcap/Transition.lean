import Mathlib.Data.Option.Basic

namespace Hpcap.Transition

variable {σ α : Type*}

/-- States reached from `init` by steps that are taken only where `ok` allows
them. A step that is not enabled is `none`. -/
inductive Reach (step : σ → α → Option σ) (ok : σ → α → Prop) (init : σ → Prop) : σ → Prop
  | start {s : σ} : init s → Reach step ok init s
  | next {s t : σ} {a : α} : Reach step ok init s → ok s a → step s a = some t →
      Reach step ok init t

/-- Every step is allowed: the runs of the bare system. -/
abbrev Free : σ → α → Prop := fun _ _ => True

variable {step : σ → α → Option σ} {ok ok' : σ → α → Prop} {init : σ → Prop}

theorem Reach.invariant (inv : σ → Prop) (h₀ : ∀ s, init s → inv s)
    (hs : ∀ s a t, inv s → ok s a → step s a = some t → inv t) {s : σ}
    (h : Reach step ok init s) : inv s := by
  induction h with
  | start h => exact h₀ _ h
  | next _ ha hstep ih => exact hs _ _ _ ih ha hstep

theorem Reach.mono (h : Reach step ok init s) (hok : ∀ s a, ok s a → ok' s a) :
    Reach step ok' init s := by
  induction h with
  | start h => exact .start h
  | next _ ha hstep ih => exact .next ih (hok _ _ ha) hstep

/-- A guard that some invariant of the bare system implies costs nothing. -/
theorem Reach.guarded (ok : σ → α → Prop) (inv : σ → Prop) (h₀ : ∀ s, init s → inv s)
    (hs : ∀ s a t, inv s → ok s a → step s a = some t → inv t)
    (hok : ∀ s a t, inv s → step s a = some t → ok s a) {s : σ}
    (h : Reach step Free init s) : Reach step ok init s ∧ inv s := by
  induction h with
  | start h => exact ⟨.start h, h₀ _ h⟩
  | next _ _ hstep ih =>
    have ha := hok _ _ _ ih.2 hstep
    exact ⟨.next ih.1 ha hstep, hs _ _ _ ih.2 ha hstep⟩

/-- Take the given steps one after the other. -/
def run (step : σ → α → Option σ) : σ → List α → Option σ
  | s, [] => some s
  | s, a :: as => (step s a).bind fun t => run step t as

/-- The system that refuses the steps that are not allowed. -/
def guard (step : σ → α → Option σ) (ok : σ → α → Prop) [∀ s a, Decidable (ok s a)] :
    σ → α → Option σ :=
  fun s a => if ok s a then step s a else none

theorem Reach.run_guard [∀ s a, Decidable (ok s a)] {s t : σ} {as : List α}
    (h : Reach step ok init s) (hr : run (guard step ok) s as = some t) : Reach step ok init t := by
  induction as generalizing s with
  | nil =>
    cases hr
    exact h
  | cons a as ih =>
    obtain ⟨u, hu, hr⟩ := Option.bind_eq_some_iff.mp hr
    obtain ⟨hok, hu⟩ := Option.ite_none_right_eq_some.mp hu
    exact ih (.next h hok hu) hr

theorem Reach.run {s t : σ} {as : List α} (h : Reach step Free init s)
    (hr : Transition.run step s as = some t) : Reach step Free init t := by
  induction as generalizing s with
  | nil =>
    cases hr
    exact h
  | cons a as ih =>
    obtain ⟨u, hu, hr⟩ := Option.bind_eq_some_iff.mp hr
    exact ih (.next h trivial hu) hr

end Hpcap.Transition
