import Hpcap.Patch
import Mathlib.Data.List.Pairwise

namespace Hpcap.Filling

open Hpcap.Patch

/-- A stretch of a stream that a writer has reserved, with the pieces it writes there, each
at its position: those that are in place, and those that are left to write. -/
structure Stretch (β : Type*) where
  start : Nat
  size : Nat
  done : List (Nat × List β)
  left : List (Nat × List β)

variable {β : Type*}

namespace Stretch

def pieces (r : Stretch β) : List (Nat × List β) := r.done ++ r.left

/-- The next piece is written. -/
def write (r : Stretch β) : Stretch β :=
  { r with done := r.done ++ r.left.take 1, left := r.left.drop 1 }

@[simp] theorem pieces_write (r : Stretch β) : r.write.pieces = r.pieces := by
  rw [pieces, write, pieces, List.append_assoc, List.take_append_drop]

/-- The pieces lie in the stretch, one behind the other. -/
structure Laid (r : Stretch β) : Prop where
  inside : ∀ w ∈ r.pieces, r.start ≤ w.1 ∧ w.1 + w.2.length ≤ r.start + r.size
  apart : r.pieces.Pairwise fun v w => v.1 + v.2.length ≤ w.1

theorem Laid.write {r : Stretch β} (h : r.Laid) : r.write.Laid := by
  refine ⟨?_, ?_⟩
  · rw [pieces_write]
    exact h.inside
  · rw [pieces_write]
    exact h.apart

/-- The writer of the stretch at `start` writes its next piece. -/
def writeAt (start : Nat) (r : Stretch β) : Stretch β := if r.start = start then r.write else r

@[simp] theorem writeAt_start (start : Nat) (r : Stretch β) : (r.writeAt start).start = r.start := by
  rw [writeAt]
  split <;> rfl

@[simp] theorem writeAt_size (start : Nat) (r : Stretch β) : (r.writeAt start).size = r.size := by
  rw [writeAt]
  split <;> rfl

@[simp] theorem pieces_writeAt (start : Nat) (r : Stretch β) :
    (r.writeAt start).pieces = r.pieces := by
  rw [writeAt]
  split
  · exact r.pieces_write
  · rfl

end Stretch

/-- The stretches make up the stream up to `q`, the newest one first. -/
def Strung : List (Stretch β) → Nat → Prop
  | [], q => q = 0
  | r :: rs, q => r.start + r.size = q ∧ 0 < r.size ∧ Strung rs r.start

namespace Strung

variable {rs : List (Stretch β)} {r r' : Stretch β} {q x : Nat}

theorem le (h : Strung rs q) (hr : r ∈ rs) : r.start + r.size ≤ q := by
  induction rs generalizing q with
  | nil => cases hr
  | cons u rs ih =>
    obtain ⟨hq, -, hrest⟩ := h
    cases hr with
    | head => exact Nat.le_of_eq hq
    | tail _ hr =>
      have hle := ih hrest hr
      omega

theorem pos (h : Strung rs q) (hr : r ∈ rs) : 0 < r.size := by
  induction rs generalizing q with
  | nil => cases hr
  | cons u rs ih =>
    obtain ⟨-, hpos, hrest⟩ := h
    cases hr with
    | head => exact hpos
    | tail _ hr => exact ih hrest hr

/-- Every position is in a stretch. -/
theorem cover (h : Strung rs q) (hx : x < q) : ∃ r ∈ rs, r.start ≤ x ∧ x < r.start + r.size := by
  induction rs generalizing q with
  | nil =>
    rw [Strung] at h
    omega
  | cons u rs ih =>
    obtain ⟨hq, -, hrest⟩ := h
    obtain hlt | hle := Nat.lt_or_ge x u.start
    · obtain ⟨r, hr, hin⟩ := ih hrest hlt
      exact ⟨r, List.mem_cons_of_mem u hr, hin⟩
    · exact ⟨u, List.mem_cons_self, hle, by omega⟩

theorem apart (h : Strung rs q) (hr : r ∈ rs) (hr' : r' ∈ rs) :
    r = r' ∨ r.start + r.size ≤ r'.start ∨ r'.start + r'.size ≤ r.start := by
  induction rs generalizing q with
  | nil => cases hr
  | cons u rs ih =>
    obtain ⟨-, -, hrest⟩ := h
    cases hr with
    | head =>
      cases hr' with
      | head => exact .inl rfl
      | tail _ hr' => exact .inr (.inr (hrest.le hr'))
    | tail _ hr =>
      cases hr' with
      | head => exact .inr (.inl (hrest.le hr))
      | tail _ hr' => exact ih hrest hr hr'

theorem eq_of_start (h : Strung rs q) (hr : r ∈ rs) (hr' : r' ∈ rs) (he : r.start = r'.start) :
    r = r' := by
  have hpos := h.pos hr
  have hpos' := h.pos hr'
  obtain heq | hlt | hlt := h.apart hr hr'
  · exact heq
  · omega
  · omega

theorem eq_nil (h : Strung rs 0) : rs = [] := by
  cases rs with
  | nil => rfl
  | cons r rs =>
    obtain ⟨hq, hpos, -⟩ := h
    omega

theorem map (h : Strung rs q) {f : Stretch β → Stretch β} (hs : ∀ r, (f r).start = r.start)
    (hz : ∀ r, (f r).size = r.size) : Strung (rs.map f) q := by
  induction rs generalizing q with
  | nil => exact h
  | cons r rs ih =>
    obtain ⟨hq, hpos, hrest⟩ := h
    refine ⟨?_, ?_, ?_⟩
    · rw [hs, hz]
      exact hq
    · rw [hz]
      exact hpos
    · rw [hs]
      exact ih hrest

end Strung

/-- A ring of `n` cells for a stream that is reserved up to `q`. A piece that is in place is in
its cells, but for the bytes more than a lap behind. -/
structure Holds (n q : Nat) (m : Nat → β) (rs : List (Stretch β)) : Prop where
  strung : Strung rs q
  laid : ∀ r ∈ rs, r.Laid
  shown : ∀ r ∈ rs, ∀ w ∈ r.done, ∀ (i : Nat) (h : i < w.2.length), q ≤ w.1 + i + n →
    m ((w.1 + i) % n) = w.2[i]

namespace Holds

variable {n q : Nat} {m m' : Nat → β} {rs : List (Stretch β)} {r : Stretch β}

theorem empty (n : Nat) (m : Nat → β) : Holds n 0 m [] :=
  ⟨rfl, fun _ hr => absurd hr List.not_mem_nil, fun _ hr => absurd hr List.not_mem_nil⟩

theorem reserve (h : Holds n q m rs) {size : Nat} {left : List (Nat × List β)} (hs : 0 < size)
    (hl : Stretch.Laid ⟨q, size, [], left⟩) :
    Holds n (q + size) m (⟨q, size, [], left⟩ :: rs) := by
  refine ⟨⟨rfl, hs, h.strung⟩, fun r hr => ?_, fun r hr w hw i hi hq => ?_⟩
  · obtain rfl | hr := List.mem_cons.mp hr
    · exact hl
    · exact h.laid r hr
  · obtain rfl | hr := List.mem_cons.mp hr
    · cases hw
    · exact h.shown r hr w hw i hi (by omega)

/-- A writer may write whatever comes next for it, as long as its stretch is not a lap behind. -/
theorem write (h : Holds n q m rs) (hr : r ∈ rs) {w : Nat × List β} {ws : List (Nat × List β)}
    (hl : r.left = w :: ws) (hlap : q ≤ r.start + n)
    (hnew : ∀ (i : Nat) (hi : i < w.2.length), m' ((w.1 + i) % n) = w.2[i])
    (hold : ∀ x, (∀ i < w.2.length, x % n ≠ (w.1 + i) % n) → m' (x % n) = m (x % n)) :
    Holds n q m' (rs.map (Stretch.writeAt r.start)) := by
  have hmem : w ∈ r.pieces := by simp [Stretch.pieces, hl]
  obtain ⟨hlo, hhi⟩ := (h.laid r hr).inside w hmem
  have hrq := h.strung.le hr
  -- a byte elsewhere in the last lap stays
  have hkeep : ∀ x, x < q → q ≤ x + n → (x < w.1 ∨ w.1 + w.2.length ≤ x) →
      m' (x % n) = m (x % n) := by
    intro x hxq hx hout
    exact hold x fun i hi => cell_ne (by omega) (by omega) (by omega)
  refine ⟨h.strung.map (Stretch.writeAt_start _) (Stretch.writeAt_size _), fun u hu => ?_,
    fun u hu v hv i hi hq => ?_⟩
  · obtain ⟨u, hu', rfl⟩ := List.mem_map.mp hu
    rw [Stretch.writeAt]
    split
    · exact (h.laid u hu').write
    · exact h.laid u hu'
  · obtain ⟨u, hu', rfl⟩ := List.mem_map.mp hu
    have huq := h.strung.le hu'
    by_cases hstart : u.start = r.start
    · obtain rfl := h.strung.eq_of_start hu' hr hstart
      rw [Stretch.writeAt, if_pos rfl, Stretch.write, hl] at hv
      obtain hv | hv := List.mem_append.mp hv
      · -- the pieces before it are elsewhere in the stretch
        have hpair := (h.laid u hu').apart
        rw [Stretch.pieces, hl, List.pairwise_append] at hpair
        have hbefore := hpair.2.2 v hv w List.mem_cons_self
        rw [hkeep _ (by omega) hq (.inl (by omega))]
        exact h.shown u hu' v hv i hi hq
      · obtain rfl := List.mem_singleton.mp hv
        exact hnew i hi
    · rw [Stretch.writeAt, if_neg hstart] at hv
      have hvin := (h.laid u hu').inside v (List.mem_append_left _ hv)
      have hapart := (h.strung.apart hu' hr).resolve_left fun he => hstart (he ▸ rfl)
      rw [hkeep _ (by omega) hq (by omega)]
      exact h.shown u hu' v hv i hi hq

end Holds

end Hpcap.Filling
