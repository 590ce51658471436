import Mathlib.Data.List.Basic
import Mathlib.Data.List.Forall2

namespace Hpcap.Slots

section Count

variable {α : Type*} {xs : List α} {i : Nat} {x : α}

/-- A slot that is written to counts for what it holds now, and no longer for what it held. -/
theorem countP_set (p : α → Bool) (h : xs[i]? = some x) (y : α) :
    (xs.set i y).countP p + (if p x then 1 else 0) = xs.countP p + (if p y then 1 else 0) := by
  obtain ⟨hi, he⟩ := List.getElem?_eq_some_iff.mp h
  have hpos : p x = true → 0 < xs.countP p := fun hx =>
    List.countP_pos_iff.mpr ⟨x, List.mem_of_getElem? h, hx⟩
  rw [List.countP_set hi, he]
  split
  · rename_i hx
    have := hpos hx
    omega
  · omega

end Count

section Pairs

variable {α β : Type*} {R S : α → β → Prop} {as : List α} {bs : List β} {a : α} {b : β}

theorem forall₂_set (h : List.Forall₂ R as bs) (hab : R a b) (i : Nat) :
    List.Forall₂ R (as.set i a) (bs.set i b) := by
  induction h generalizing i with
  | nil => exact .nil
  | cons hx hxs ih =>
    cases i with
    | zero => exact .cons hab hxs
    | succ i => exact .cons hx (ih i)

theorem forall₂_getElem? {i : Nat} (h : List.Forall₂ R as bs) (ha : as[i]? = some a) :
    ∃ b, bs[i]? = some b ∧ R a b := by
  induction h generalizing i with
  | nil => cases ha
  | cons hx _ ih =>
    cases i with
    | zero =>
      cases ha
      exact ⟨_, rfl, hx⟩
    | succ i => exact ih ha

theorem forall₂_mem (h : List.Forall₂ R as bs) (ha : a ∈ as) : ∃ b ∈ bs, R a b := by
  obtain ⟨i, hi⟩ := List.mem_iff_getElem?.mp ha
  obtain ⟨b, hb, hab⟩ := forall₂_getElem? h hi
  exact ⟨b, List.mem_of_getElem? hb, hab⟩

theorem forall₂_imp_mem (h : List.Forall₂ R as bs) (hRS : ∀ a b, b ∈ bs → R a b → S a b) :
    List.Forall₂ S as bs := by
  induction h with
  | nil => exact .nil
  | cons hx _ ih =>
    exact .cons (hRS _ _ (by simp) hx) (ih fun a b hb => hRS a b (List.mem_cons_of_mem _ hb))

theorem forall₂_split {as' : List α} (h : List.Forall₂ R (as ++ as') bs) :
    ∃ us vs, bs = us ++ vs ∧ List.Forall₂ R as us ∧ List.Forall₂ R as' vs := by
  induction as generalizing bs with
  | nil => exact ⟨[], bs, rfl, .nil, h⟩
  | cons a as ih =>
    cases h with
    | cons ha hrest =>
      obtain ⟨us, vs, rfl, hus, hvs⟩ := ih hrest
      exact ⟨_ :: us, vs, rfl, .cons ha hus, hvs⟩

end Pairs

section Front

variable {α : Type*} {p : α → Bool} {xs : List α}

/-- The elements that satisfy `p` come first. -/
def Front (p : α → Bool) (xs : List α) : Prop := xs.Pairwise fun x y => p y = true → p x = true

theorem front_cons {a : α} : Front p (a :: xs) ↔ (p a = true ∨ xs.countP p = 0) ∧ Front p xs := by
  rw [Front, List.pairwise_cons]
  refine and_congr_left fun _ => ?_
  cases ha : p a with
  | true => simp
  | false => simp [List.countP_eq_zero]

/-- They do when as many elements as there are of them all satisfy `p`. -/
theorem front_iff : Front p xs ↔ ∀ x ∈ xs.take (xs.countP p), p x = true := by
  induction xs with
  | nil => simp [Front]
  | cons a xs ih =>
    rw [front_cons, ih]
    cases ha : p a with
    | true => simp [ha]
    | false =>
      have hcount : (a :: xs).countP p = xs.countP p := List.countP_cons_of_neg (by simp [ha])
      rw [hcount]
      cases hk : xs.countP p with
      | zero => simp
      | succ k => simp [ha]

theorem Front.take (h : Front p xs) : xs.take (xs.countP p) = xs.filter p := by
  induction xs with
  | nil => rfl
  | cons a xs ih =>
    obtain ⟨hfirst, hrest⟩ := front_cons.mp h
    cases ha : p a with
    | true => simp [ha, ih hrest]
    | false =>
      have hzero : xs.countP p = 0 := hfirst.resolve_left (by simp [ha])
      have hnone := ih hrest
      rw [hzero] at hnone
      have hcount : (a :: xs).countP p = xs.countP p := List.countP_cons_of_neg (by simp [ha])
      rw [hcount, hzero, List.filter_cons_of_neg (by simp [ha])]
      simpa using hnone

end Front

end Hpcap.Slots
