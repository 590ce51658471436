import Mathlib.Data.Int.ModEq
import Mathlib.Data.List.Basic
import Mathlib.Order.Interval.Set.Basic

namespace Hpcap.Patch

variable {β : Type*}

/-- Memory after the cells from `a` on are overwritten with `bs`. -/
def patch (m : Nat → β) (a : Nat) (bs : List β) : Nat → β :=
  fun i => if a ≤ i then (bs[i - a]?).getD (m i) else m i

/-- The `n` cells from `a` on. -/
def slice (m : Nat → β) (a n : Nat) : List β := (List.range n).map fun i => m (a + i)

theorem patch_below {m : Nat → β} {a : Nat} {bs : List β} {i : Nat} (h : i < a) :
    patch m a bs i = m i := by
  rw [patch, if_neg (by omega)]

theorem patch_above {m : Nat → β} {a : Nat} {bs : List β} {i : Nat} (h : a + bs.length ≤ i) :
    patch m a bs i = m i := by
  rw [patch, if_pos (by omega), List.getElem?_eq_none (by omega), Option.getD_none]

theorem patch_at {m : Nat → β} {a : Nat} {bs : List β} {i : Nat} (h : i < bs.length) :
    patch m a bs (a + i) = bs[i] := by
  rw [patch, if_pos (by omega), Nat.add_sub_cancel_left, List.getElem?_eq_getElem h,
    Option.getD_some]

@[simp] theorem slice_length (m : Nat → β) (a n : Nat) : (slice m a n).length = n := by
  simp [slice]

@[simp] theorem slice_eq_nil {m : Nat → β} {a n : Nat} : slice m a n = [] ↔ n = 0 := by
  simp [slice]

theorem slice_getElem (m : Nat → β) (a n i : Nat) (h : i < (slice m a n).length) :
    (slice m a n)[i] = m (a + i) := by
  simp [slice]

theorem slice_congr {m m' : Nat → β} {a n : Nat} (h : ∀ i, a ≤ i → i < a + n → m i = m' i) :
    slice m a n = slice m' a n := by
  apply List.map_congr_left
  intro i hi
  exact h _ (Nat.le_add_right _ _) (by simpa using hi)

theorem slice_add (m : Nat → β) (a n k : Nat) :
    slice m a (n + k) = slice m a n ++ slice m (a + n) k := by
  simp [slice, List.range_add, Nat.add_assoc]

/-- What was stored is read back. -/
theorem slice_patch (m : Nat → β) (a : Nat) (bs : List β) :
    slice (patch m a bs) a bs.length = bs := by
  apply List.ext_getElem (by simp)
  intro i hi hb
  rw [slice_getElem, patch_at hb]

/-- Storing elsewhere leaves a stretch as it is. -/
theorem slice_patch_of_disjoint (m : Nat → β) {a b n : Nat} {bs : List β}
    (h : b + n ≤ a ∨ a + bs.length ≤ b) : slice (patch m a bs) b n = slice m b n := by
  apply slice_congr
  intro i hi hn
  rcases h with h | h
  · exact patch_below (by omega)
  · exact patch_above (by omega)

/-- Positions less than a lap apart have different cells. -/
theorem cell_ne {n x y : Nat} (hxy : x ≠ y) (hy : y < x + n) (hx : x < y + n) :
    x % n ≠ y % n := by
  intro he
  obtain hlt | hlt := Nat.lt_or_gt_of_ne hxy
  · have hz : (y - x) % n = 0 := Nat.sub_mod_eq_zero_of_mod_eq he.symm
    rw [Nat.mod_eq_of_lt (by omega)] at hz
    omega
  · have hz : (x - y) % n = 0 := Nat.sub_mod_eq_zero_of_mod_eq he
    rw [Nat.mod_eq_of_lt (by omega)] at hz
    omega

/-- The `n` cells from `a` on in a ring of `size` cells. -/
def ring (m : Nat → β) (size a n : Nat) : List β := (List.range n).map fun i => m ((a + i) % size)

@[simp] theorem ring_length (m : Nat → β) (size a n : Nat) : (ring m size a n).length = n := by
  simp [ring]

theorem ring_getElem (m : Nat → β) (size a n i : Nat) (h : i < (ring m size a n).length) :
    (ring m size a n)[i] = m ((a + i) % size) := by
  simp [ring]

theorem ring_eq_slice (m : Nat → β) {size a n : Nat} (h : a + n ≤ size) :
    ring m size a n = slice m a n := by
  apply List.map_congr_left
  intro i hi
  have hn : i < n := by simpa using hi
  rw [Nat.mod_eq_of_lt (by omega)]

theorem ring_add (m : Nat → β) (size a n k : Nat) :
    ring m size a (n + k) = ring m size a n ++ ring m size (a + n) k := by
  simp [ring, List.range_add, Nat.add_assoc]

theorem ring_mod (m : Nat → β) (size a n : Nat) : ring m size (a % size) n = ring m size a n := by
  simp only [ring, Nat.mod_add_mod]

/-- A stretch that goes over the end of the ring. -/
theorem ring_wraps (m : Nat → β) {size a k : Nat} (ha : a ≤ size) (hk : k ≤ size) :
    ring m size a (size - a + k) = slice m a (size - a) ++ slice m 0 k := by
  have hend : a + (size - a) = 0 + size := by omega
  rw [ring_add, ring_eq_slice m (by omega), hend, ← ring_mod, Nat.add_mod_right, ring_mod,
    ring_eq_slice m (by omega)]

theorem ring_split {m : Nat → β} {size a n : Nat} {xs ys : List β}
    (h : ring m size a n = xs ++ ys) :
    ring m size a xs.length = xs ∧ ring m size (a + xs.length) ys.length = ys := by
  have hn : n = xs.length + ys.length := by simpa using congrArg List.length h
  rw [hn, ring_add] at h
  exact List.append_inj h (ring_length _ _ _ _)

/-- The cells of stretches, each given by its start and its length. -/
def cells (spans : List (Nat × Nat)) : Set Nat := {c | ∃ p ∈ spans, c ∈ Set.Ico p.1 (p.1 + p.2)}

@[simp] theorem cells_nil : cells [] = ∅ := by
  ext c
  simp [cells]

@[simp] theorem cells_cons (p : Nat × Nat) (spans : List (Nat × Nat)) :
    cells (p :: spans) = Set.Ico p.1 (p.1 + p.2) ∪ cells spans := by
  ext c
  simp [cells]

theorem cells_nil_subset (s : Set Nat) : cells [] ⊆ s := by
  rw [cells_nil]
  exact Set.empty_subset s

@[simp] theorem cells_singleton (a n : Nat) : cells [(a, n)] = Set.Ico a (a + n) := by
  simp

@[simp] theorem cells_append (xs ys : List (Nat × Nat)) : cells (xs ++ ys) = cells xs ∪ cells ys := by
  induction xs with
  | nil => simp
  | cons p xs ih => simp [ih, Set.union_assoc]

/-- The `n` cells from `a` on in a ring of `size` cells. -/
def arc (size a n : Nat) : Set Nat := {c | ∃ k < n, c = (a + k) % size}

theorem arc_mod (size a n : Nat) : arc size (a % size) n = arc size a n := by
  ext c
  simp only [arc, Nat.mod_add_mod]

theorem arc_eq_Ico {size a n : Nat} (h : a + n ≤ size) : arc size a n = Set.Ico a (a + n) := by
  ext c
  constructor
  · rintro ⟨k, hk, rfl⟩
    rw [Nat.mod_eq_of_lt (by omega)]
    exact ⟨Nat.le_add_right a k, Nat.add_lt_add_left hk a⟩
  · rintro ⟨hle, hlt⟩
    refine ⟨c - a, by omega, ?_⟩
    rw [Nat.add_sub_cancel' hle, Nat.mod_eq_of_lt (by omega)]

theorem arc_add (size a n k : Nat) : arc size a (n + k) = arc size a n ∪ arc size (a + n) k := by
  ext c
  constructor
  · rintro ⟨i, hi, rfl⟩
    obtain hlt | hle := Nat.lt_or_ge i n
    · exact .inl ⟨i, hlt, rfl⟩
    · refine .inr ⟨i - n, by omega, ?_⟩
      rw [Nat.add_assoc, Nat.add_sub_cancel' hle]
  · rintro (⟨i, hi, rfl⟩ | ⟨i, hi, rfl⟩)
    · exact ⟨i, Nat.lt_add_right k hi, rfl⟩
    · exact ⟨n + i, Nat.add_lt_add_left hi n, by rw [Nat.add_assoc]⟩

/-- An arc that goes over the end of the ring. -/
theorem arc_wraps {size a k : Nat} (ha : a ≤ size) (hk : k ≤ size) :
    arc size a (size - a + k) = Set.Ico a size ∪ Set.Ico 0 k := by
  have hend : a + (size - a) = 0 + size := by omega
  rw [arc_add, arc_eq_Ico (by omega), hend, ← arc_mod, Nat.add_mod_right, arc_mod,
    arc_eq_Ico (by omega), Nat.zero_add, Nat.zero_add]

/-- The two stretches of an arc that goes over the end of the ring. -/
theorem cells_wraps {size a k : Nat} (ha : a ≤ size) (hk : k ≤ size) :
    cells [(a, size - a), (0, k)] = arc size a (size - a + k) := by
  rw [cells_cons, cells_singleton, arc_wraps ha hk]
  dsimp only
  rw [Nat.add_sub_cancel' ha, Nat.zero_add]

theorem arc_subset {size a d n w : Nat} (h : d + n ≤ w) : arc size (a + d) n ⊆ arc size a w := by
  rintro c ⟨k, hk, rfl⟩
  exact ⟨d + k, by omega, by rw [Nat.add_assoc]⟩

theorem arc_subset_iff {size a n w : Nat} (hn : n ≤ size) :
    arc size a n ⊆ arc size a w ↔ n ≤ w := by
  constructor
  · intro h
    by_contra hlt
    obtain ⟨k, hk, hmod⟩ := h ⟨w, Nat.not_le.mp hlt, rfl⟩
    have hcongr : w ≡ k [MOD size] := Nat.ModEq.add_left_cancel' a hmod
    have heq : w = k := hcongr.eq_of_lt_of_lt (by omega) (by omega)
    omega
  · intro h
    exact arc_subset (d := 0) (by omega)

/-- From `m` to `m'` only cells of `P` change. -/
def Confined (P : Nat → Prop) (m m' : Nat → β) : Prop := ∀ i, m' i ≠ m i → P i

theorem Confined.refl (P : Nat → Prop) (m : Nat → β) : Confined P m m :=
  fun _ h => absurd rfl h

theorem Confined.mono {P Q : Nat → Prop} {m m' : Nat → β} (h : Confined P m m')
    (hPQ : ∀ i, P i → Q i) : Confined Q m m' :=
  fun i hi => hPQ i (h i hi)

theorem Confined.trans {P : Nat → Prop} {m m' m'' : Nat → β} (h : Confined P m m')
    (h' : Confined P m' m'') : Confined P m m'' := by
  intro i hi
  by_cases he : m' i = m i
  · exact h' i fun hh => hi (hh.trans he)
  · exact h i he

end Hpcap.Patch
