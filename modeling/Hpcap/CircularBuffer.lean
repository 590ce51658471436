import Hpcap.Patch

namespace Hpcap.CircularBuffer

open Hpcap.Patch

/-- The kernel's copy of `src` into `dst`: the buffer afterwards and the offset
behind the copied bytes. -/
def copyToCircularBuffer (dst : Nat → UInt8) (dstSize dstOffset : Nat) (src : List UInt8) :
    (Nat → UInt8) × Nat :=
  if dstOffset + src.length > dstSize then
    let aux := dstSize - dstOffset
    (patch (patch dst dstOffset (src.take aux)) 0 (src.drop aux),
      (dstOffset + src.length) % dstSize)
  else (patch dst dstOffset src, (dstOffset + src.length) % dstSize)

/-- The library's copy of `toCopy` bytes to the start of `dst`: `dst` afterwards and the
offset behind what was copied. The second piece is copied to the start as well. -/
def copyFromCircBuffer (src : Nat → UInt8) (srcOffset srcSize : Nat) (dst : Nat → UInt8)
    (toCopy : Nat) : (Nat → UInt8) × Nat :=
  if srcOffset + toCopy > srcSize then
    let aux := srcSize - srcOffset
    (patch (patch dst 0 (slice src srcOffset aux)) 0 (slice src 0 (toCopy - aux)), toCopy - aux)
  else (patch dst 0 (slice src srcOffset toCopy), (srcOffset + toCopy) % srcSize)

theorem copyToCircularBuffer_fits (dst : Nat → UInt8) {size off : Nat} {src : List UInt8}
    (h : off + src.length ≤ size) :
    (copyToCircularBuffer dst size off src).1 = patch dst off src := by
  rw [copyToCircularBuffer, if_neg (by omega)]

theorem copyToCircularBuffer_wraps (dst : Nat → UInt8) {size off : Nat} {src : List UInt8}
    (h : size < off + src.length) :
    (copyToCircularBuffer dst size off src).1 =
      patch (patch dst off (src.take (size - off))) 0 (src.drop (size - off)) := by
  rw [copyToCircularBuffer, if_pos h]

@[simp] theorem copyToCircularBuffer_offset (dst : Nat → UInt8) (size off : Nat)
    (src : List UInt8) :
    (copyToCircularBuffer dst size off src).2 = (off + src.length) % size := by
  simp only [copyToCircularBuffer]
  split <;> rfl

theorem copyFromCircBuffer_offset (src dst : Nat → UInt8) {off size n : Nat} (ho : off < size)
    (hn : n ≤ size) : (copyFromCircBuffer src off size dst n).2 = (off + n) % size := by
  rw [copyFromCircBuffer]
  split
  · have hm : (off + n) % size = n - (size - off) := by
      rw [Nat.mod_eq_sub_mod (by omega), Nat.mod_eq_of_lt (by omega)]
      omega
    exact hm.symm
  · rfl

theorem copyFromCircBuffer_fits (src dst : Nat → UInt8) {off size n : Nat} (h : off + n ≤ size) :
    slice (copyFromCircBuffer src off size dst n).1 0 n = ring src size off n := by
  rw [copyFromCircBuffer, if_neg (by omega), ring_eq_slice src h]
  have hs := slice_patch dst 0 (slice src off n)
  rwa [slice_length] at hs

/-- Over the end of the ring the first `n - (size - off)` bytes are those of the second
piece, and what neither piece reaches keeps its old value. -/
theorem copyFromCircBuffer_wraps (src dst : Nat → UInt8) {off size n i : Nat}
    (h : size < off + n) : (copyFromCircBuffer src off size dst n).1 i =
      if i < n - (size - off) then src i
      else if i < size - off then src (off + i) else dst i := by
  rw [copyFromCircBuffer, if_pos h]
  dsimp only
  have at_start : ∀ (m : Nat → UInt8) (a k : Nat), patch m 0 (slice src a k) i =
      if i < k then src (a + i) else m i := by
    intro m a k
    split
    · rename_i hi
      have hl : i < (slice src a k).length := by rwa [slice_length]
      rw [← Nat.zero_add i, patch_at hl, slice_getElem, Nat.zero_add]
    · exact patch_above (by rw [slice_length]; omega)
  rw [at_start, at_start, Nat.zero_add]

/-- Byte `i` lands in cell `(off + i) % size`. -/
theorem copyToCircularBuffer_stored (dst : Nat → UInt8) {size off : Nat} {src : List UInt8}
    (ho : off < size) (hn : src.length ≤ size) {i : Nat} (hi : i < src.length) :
    (copyToCircularBuffer dst size off src).1 ((off + i) % size) = src[i] := by
  rcases Nat.lt_or_ge size (off + src.length) with h | h
  · rw [copyToCircularBuffer_wraps dst h]
    by_cases hw : off + i < size
    · have hl : ((src.drop (size - off)).length) ≤ off + i := by simp; omega
      have ht : i < (src.take (size - off)).length := by simp; omega
      rw [Nat.mod_eq_of_lt hw, patch_above (by omega), patch_at ht, List.getElem_take]
    · have hm : (off + i) % size = 0 + (i - (size - off)) := by
        rw [Nat.mod_eq_sub_mod (by omega), Nat.mod_eq_of_lt (by omega)]
        omega
      have hd : i - (size - off) < (src.drop (size - off)).length := by simp; omega
      rw [hm, patch_at hd, List.getElem_drop]
      congr 1
      omega
  · rw [copyToCircularBuffer_fits dst h, Nat.mod_eq_of_lt (by omega), patch_at hi]

theorem copyToCircularBuffer_frame (dst : Nat → UInt8) {size off : Nat} {src : List UInt8}
    (ho : off < size) (hn : src.length ≤ size) {j : Nat}
    (hj : ∀ i < src.length, j ≠ (off + i) % size) :
    (copyToCircularBuffer dst size off src).1 j = dst j := by
  have below : off ≤ j → j < off + src.length → size ≤ j := by
    intro h₁ h₂
    by_contra h
    have hne := hj (j - off) (by omega)
    rw [Nat.add_sub_cancel' h₁, Nat.mod_eq_of_lt (by omega)] at hne
    exact hne rfl
  rcases Nat.lt_or_ge size (off + src.length) with h | h
  · rw [copyToCircularBuffer_wraps dst h]
    have wrapped : off + src.length - size ≤ j := by
      by_contra hlt
      have hne := hj (size - off + j) (by omega)
      have hm : off + (size - off + j) = j + size := by omega
      rw [hm, Nat.add_mod_right, Nat.mod_eq_of_lt (by omega)] at hne
      exact hne rfl
    have hl : (src.drop (size - off)).length ≤ j := by simp; omega
    rw [patch_above (by omega)]
    by_cases hoj : off ≤ j
    · have ht : off + (src.take (size - off)).length ≤ j := by
        have := below hoj
        simp
        omega
      exact patch_above ht
    · exact patch_below (by omega)
  · rw [copyToCircularBuffer_fits dst h]
    by_cases hoj : off ≤ j
    · have := below hoj
      exact patch_above (by omega)
    · exact patch_below (by omega)

/-- A copy to the cell of `pos` changes the cells of the positions behind it only. -/
theorem copyToCircularBuffer_confined (dst : Nat → UInt8) {size pos : Nat} {src : List UInt8}
    (hs : 0 < size) (hn : src.length ≤ size) {P : Nat → Prop}
    (hP : ∀ q, pos ≤ q → q < pos + src.length → P (q % size)) :
    Confined P dst (copyToCircularBuffer dst size (pos % size) src).1 := by
  intro j hj
  by_contra hno
  refine hj (copyToCircularBuffer_frame dst (Nat.mod_lt pos hs) hn fun i hi he => hno ?_)
  rw [he, Nat.mod_add_mod]
  exact hP _ (Nat.le_add_right _ _) (Nat.add_lt_add_left hi pos)

/-- Writer and reader agree on `src` at the offset `off`: it is stored there and nowhere
else, and comes back into any destination. -/
structure Agree (buf : Nat → UInt8) (size off : Nat) (src : List UInt8) : Prop where
  stored : ∀ i (hi : i < src.length), (copyToCircularBuffer buf size off src).1 ((off + i) % size) = src[i]
  frame : ∀ j, (∀ i < src.length, j ≠ (off + i) % size) →
    (copyToCircularBuffer buf size off src).1 j = buf j
  read : ∀ dst, slice (copyFromCircBuffer (copyToCircularBuffer buf size off src).1 off size dst
    src.length).1 0 src.length = src
  stored_offset : (copyToCircularBuffer buf size off src).2 = (off + src.length) % size
  read_offset : ∀ dst, (copyFromCircBuffer (copyToCircularBuffer buf size off src).1 off size dst
    src.length).2 = (off + src.length) % size

theorem ring_copyToCircularBuffer (buf : Nat → UInt8) {size off : Nat} {src : List UInt8}
    (ho : off < size) (hn : src.length ≤ size) :
    ring (copyToCircularBuffer buf size off src).1 size off src.length = src := by
  apply List.ext_getElem (ring_length _ _ _ _)
  intro i hi hs
  rw [ring_getElem, copyToCircularBuffer_stored buf ho hn hs]

/-- The last byte of a copy over the end is written by neither piece. -/
theorem copyFromCircBuffer_last (src dst : Nat → UInt8) {off size n : Nat} (ho : off < size)
    (h : size < off + n) : (copyFromCircBuffer src off size dst n).1 (n - 1) = dst (n - 1) := by
  rw [copyFromCircBuffer_wraps src dst h, if_neg (by omega), if_neg (by omega)]

/-- Reader and writer agree just where the bytes do not run over the end of the buffer. -/
theorem circular_copies_agree_iff (buf : Nat → UInt8) (size off : Nat) (src : List UInt8)
    (ho : off < size) (hn : src.length ≤ size) :
    Agree buf size off src ↔ off + src.length ≤ size := by
  constructor
  · intro h
    by_contra hwrap
    have hlast : src.length - 1 < src.length := by omega
    -- two destinations that differ in the last byte
    have hread : ∀ b : UInt8, b = src[src.length - 1] := by
      intro b
      have hb := copyFromCircBuffer_last (copyToCircularBuffer buf size off src).1 (fun _ => b) ho
        (Nat.not_le.mp hwrap)
      have hs := List.getElem_of_eq (i := src.length - 1) (h.read fun _ => b) (by simpa using hlast)
      rw [slice_getElem, Nat.zero_add, hb] at hs
      exact hs
    exact absurd ((hread 0).trans (hread 1).symm) (by decide)
  · intro hfits
    refine ⟨fun i hi => copyToCircularBuffer_stored buf ho hn hi,
      fun j hj => copyToCircularBuffer_frame buf ho hn hj, fun dst => ?_,
      copyToCircularBuffer_offset buf size off src, fun dst => copyFromCircBuffer_offset _ dst ho hn⟩
    rw [copyFromCircBuffer_fits _ dst hfits, ring_copyToCircularBuffer buf ho hn]

/-- Five bytes at the start of a ring of eight. -/
theorem circular_copies_agree_at_start : Agree (fun _ => 0) 8 0 [1, 2, 3, 4, 5] :=
  (circular_copies_agree_iff (fun _ => 0) 8 0 [1, 2, 3, 4, 5] (by decide) (by decide)).mpr
    (by decide)

/-- Five bytes stored two cells before the end of a ring of eight are read as `[3, 4, 5, 0, 0]`. -/
theorem wrapped_copy_overwrites_start :
    ¬ ∀ (buf : Nat → UInt8) (size off : Nat) (src : List UInt8), 0 < size → off < size →
      src.length ≤ size → Agree buf size off src := by
  intro h
  have hread := (h (fun _ => 0) 8 6 [1, 2, 3, 4, 5] (by decide) (by decide) (by decide)).read
    fun _ => 0
  have hbytes : slice (copyFromCircBuffer (copyToCircularBuffer (fun _ => 0) 8 6
      [1, 2, 3, 4, 5]).1 6 8 (fun _ => 0) 5).1 0 5 = [3, 4, 5, 0, 0] := by decide
  rw [show ([1, 2, 3, 4, 5] : List UInt8).length = 5 from rfl, hbytes] at hread
  exact absurd hread (by decide)

end Hpcap.CircularBuffer
