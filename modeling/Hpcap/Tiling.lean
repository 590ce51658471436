import Mathlib.Data.List.Basic

namespace Hpcap.Tiling

variable {stop stop' : Nat → Nat}

/-- The stretch from `a` to `b` is made of items that start at the given
positions, one after the other. `stop p` is where an item starting at `p` ends. -/
def Tiles (stop : Nat → Nat) : Nat → Nat → List Nat → Prop
  | a, b, [] => a = b
  | a, b, p :: ps => p = a ∧ a < stop a ∧ Tiles stop (stop a) b ps

theorem Tiles.le {a b : Nat} {ps : List Nat} (h : Tiles stop a b ps) : a ≤ b := by
  induction ps generalizing a with
  | nil => exact Nat.le_of_eq h
  | cons p ps ih =>
    obtain ⟨-, hlt, hrest⟩ := h
    have hb := ih hrest
    omega

theorem Tiles.append {a b c : Nat} {ps qs : List Nat} (h : Tiles stop a b ps)
    (h' : Tiles stop b c qs) : Tiles stop a c (ps ++ qs) := by
  induction ps generalizing a with
  | nil =>
    cases h
    exact h'
  | cons p ps ih =>
    obtain ⟨hp, hlt, hrest⟩ := h
    exact ⟨hp, hlt, ih hrest⟩

theorem Tiles.snoc {a b c : Nat} {ps : List Nat} (h : Tiles stop a b ps) (hb : b < c)
    (hc : stop b = c) : Tiles stop a c (ps ++ [b]) := by
  refine h.append ⟨rfl, ?_, ?_⟩
  · rw [hc]
    exact hb
  · exact hc

theorem Tiles.mem {a b p : Nat} {ps : List Nat} (h : Tiles stop a b ps) (hp : p ∈ ps) :
    a ≤ p ∧ p < stop p ∧ stop p ≤ b := by
  induction ps generalizing a with
  | nil => cases hp
  | cons q ps ih =>
    obtain ⟨rfl, hlt, hrest⟩ := h
    cases hp with
    | head => exact ⟨Nat.le_refl _, hlt, hrest.le⟩
    | tail _ hp =>
      obtain ⟨ha, hs⟩ := ih hrest hp
      exact ⟨by omega, hs⟩

/-- Only where the items of the stretch end matters. -/
theorem Tiles.congr {a b : Nat} {ps : List Nat} (h : Tiles stop a b ps)
    (hs : ∀ p, a ≤ p → stop p ≤ b → p < stop p → stop' p = stop p) : Tiles stop' a b ps := by
  induction ps generalizing a with
  | nil => exact h
  | cons p ps ih =>
    obtain ⟨rfl, hlt, hrest⟩ := h
    have he := hs p (Nat.le_refl _) hrest.le hlt
    refine ⟨rfl, by omega, ?_⟩
    rw [he]
    exact ih hrest fun q hq => hs q (by omega)

/-- A stretch that is not empty begins with an item. -/
theorem Tiles.step {a b : Nat} {ps : List Nat} (h : Tiles stop a b ps) (hab : a < b) :
    a < stop a ∧ stop a ≤ b ∧ ∃ qs, Tiles stop (stop a) b qs ∧ ps = a :: qs := by
  cases ps with
  | nil => exact absurd h (Nat.ne_of_lt hab)
  | cons p ps =>
    obtain ⟨rfl, hlt, hrest⟩ := h
    exact ⟨hlt, hrest.le, ps, hrest, rfl⟩

end Hpcap.Tiling
