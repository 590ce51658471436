import Hpcap.Patch

namespace Hpcap.Inked

open Hpcap.Patch

/-- How the entries of a log lie in memory: how much room an entry takes, and the bytes it
fills that room with from the start on. The rest is left as it is. -/
structure Layout (ε β : Type*) where
  size : ε → Nat
  bytes : ε → List β
  bytes_le : ∀ e, (bytes e).length ≤ size e

variable {ε β : Type*} (L : Layout ε β)

def total : List ε → Nat
  | [] => 0
  | e :: es => L.size e + total es

/-- What the log puts at a position, where it puts anything. -/
def ink : List ε → Nat → Option β
  | [], _ => none
  | e :: es, x => if x < L.size e then (L.bytes e)[x]? else ink es (x - L.size e)

/-- From `lo` on the memory shows what the log puts there. -/
def Shows (m : Nat → β) (lo : Nat) (es : List ε) : Prop :=
  ∀ x b, lo ≤ x → ink L es x = some b → m x = b

/-- A ring of `n` cells, as a memory without end. -/
def onRing (n : Nat) (m : Nat → β) : Nat → β := fun x => m (x % n)

@[simp] theorem total_nil : total L [] = 0 := rfl

@[simp] theorem total_cons (e : ε) (es : List ε) : total L (e :: es) = L.size e + total L es := rfl

@[simp] theorem total_append (es fs : List ε) : total L (es ++ fs) = total L es + total L fs := by
  induction es with
  | nil => simp
  | cons e es ih => simp [ih, Nat.add_assoc]

@[simp] theorem ink_nil (x : Nat) : ink L [] x = none := rfl

theorem ink_cons_of_lt {e : ε} {x : Nat} (es : List ε) (h : x < L.size e) :
    ink L (e :: es) x = (L.bytes e)[x]? :=
  if_pos h

theorem ink_cons_add (e : ε) (es : List ε) (x : Nat) :
    ink L (e :: es) (L.size e + x) = ink L es x := by
  rw [ink, if_neg (by omega), Nat.add_sub_cancel_left]

theorem ink_append_of_lt {es : List ε} (fs : List ε) {x : Nat} (h : x < total L es) :
    ink L (es ++ fs) x = ink L es x := by
  induction es generalizing x with
  | nil => exact absurd h (Nat.not_lt_zero x)
  | cons e es ih =>
    by_cases hx : x < L.size e
    · rw [List.cons_append, ink_cons_of_lt L _ hx, ink_cons_of_lt L _ hx]
    · obtain ⟨y, rfl⟩ := Nat.exists_eq_add_of_le (Nat.not_lt.mp hx)
      rw [List.cons_append, ink_cons_add, ink_cons_add]
      rw [total_cons] at h
      exact ih (by omega)

/-- Of what is behind other entries. -/
theorem ink_behind (es fs : List ε) (x : Nat) : ink L (es ++ fs) (total L es + x) = ink L fs x := by
  induction es with
  | nil => rw [List.nil_append, total_nil, Nat.zero_add]
  | cons e es ih => rw [List.cons_append, total_cons, Nat.add_assoc, ink_cons_add, ih]

theorem ink_lt {es : List ε} {x : Nat} {b : β} (h : ink L es x = some b) : x < total L es := by
  induction es generalizing x with
  | nil => cases h
  | cons e es ih =>
    rw [ink] at h
    rw [total_cons]
    split at h
    · omega
    · have hx := ih h
      omega

theorem ink_singleton (e : ε) (x : Nat) : ink L [e] x = (L.bytes e)[x]? := by
  rw [ink]
  split
  · rfl
  · rename_i hx
    have hle := L.bytes_le e
    rw [ink_nil, List.getElem?_eq_none (by omega)]

/-- What is appended leaves what is there. -/
theorem ink_mono {es : List ε} (fs : List ε) {x : Nat} {b : β} (h : ink L es x = some b) :
    ink L (es ++ fs) x = some b := by
  rw [ink_append_of_lt L fs (ink_lt L h)]
  exact h

variable {L} {m m' : Nat → β} {lo lo' n : Nat} {es : List ε}

theorem Shows.nil : Shows L m lo [] := fun _ _ _ h => nomatch h

theorem Shows.mono (h : Shows L m lo es) (hle : lo ≤ lo') : Shows L m lo' es :=
  fun x b hx hb => h x b (hle.trans hx) hb

theorem Shows.congr (h : Shows L m lo es) (hm : ∀ x, lo ≤ x → x < total L es → m' x = m x) :
    Shows L m' lo es :=
  fun x b hx hb => (hm x hx (ink_lt L hb)).trans (h x b hx hb)

theorem Shows.snoc (h : Shows L m lo es) {e : ε}
    (he : slice m (total L es) (L.bytes e).length = L.bytes e) : Shows L m lo (es ++ [e]) := by
  intro x b hx hb
  by_cases hlt : x < total L es
  · rw [ink_append_of_lt L _ hlt] at hb
    exact h x b hx hb
  · obtain ⟨y, rfl⟩ := Nat.exists_eq_add_of_le (Nat.not_lt.mp hlt)
    rw [ink_behind, ink_singleton] at hb
    obtain ⟨hy, rfl⟩ := List.getElem?_eq_some_iff.mp hb
    have hs := List.getElem_of_eq (i := y) he (by rw [slice_length]; exact hy)
    rwa [slice_getElem] at hs

theorem slice_onRing (n : Nat) (m : Nat → β) (a k : Nat) : slice (onRing n m) a k = ring m n a k :=
  rfl

/-- A ring that is changed in cells of positions from `a` up to `b` only keeps the cell of a
position before them, less than a lap away. -/
theorem onRing_confined {a b x : Nat}
    (hm : Confined (fun i => ∃ q, a ≤ q ∧ q < b ∧ i = q % n) m m') (hx : x < a) (hb : b ≤ x + n) :
    onRing n m' x = onRing n m x := by
  by_contra hne
  obtain ⟨q, hq, hqb, he⟩ := hm _ hne
  exact cell_ne (by omega) (by omega) (by omega) he

theorem ring_confined {a b x k : Nat}
    (hm : Confined (fun i => ∃ q, a ≤ q ∧ q < b ∧ i = q % n) m m') (hx : x + k ≤ a)
    (hb : b ≤ x + n) : ring m' n x k = ring m n x k :=
  @slice_congr _ (onRing n m') (onRing n m) _ _ fun _ hi hk =>
    onRing_confined hm (by omega) (by omega)

theorem Shows.ring_confined (h : Shows L (onRing n m) lo es) {a b : Nat}
    (hm : Confined (fun i => ∃ q, a ≤ q ∧ q < b ∧ i = q % n) m m') (ha : total L es ≤ a)
    (hb : b ≤ lo + n) : Shows L (onRing n m') lo es :=
  h.congr fun _ hx hlt => onRing_confined hm (by omega) (by omega)

end Hpcap.Inked
