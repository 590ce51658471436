import Mathlib.Data.Nat.ModEq
import Mathlib.Data.List.Basic

namespace Hpcap.SharedLog

/-- Cells passed when going forwards from `a` to `b` round a circle of `n` cells. -/
def gap (n a b : Nat) : Nat := if a ≤ b then b - a else n - a + b

theorem gap_lt {n a b : Nat} (ha : a < n) (hb : b < n) : gap n a b < n := by
  simp only [gap]
  split <;> omega

theorem gap_self (n a : Nat) : gap n a a = 0 := by simp [gap]

theorem add_gap {n a b : Nat} (ha : a < n) (hb : b < n) : (a + gap n a b) % n = b := by
  simp only [gap]
  split
  · rename_i h
    rw [Nat.add_sub_cancel' h, Nat.mod_eq_of_lt hb]
  · have h : a + (n - a + b) = b + n := by omega
    rw [h, Nat.add_mod_right, Nat.mod_eq_of_lt hb]

/-- Positions less than one lap apart are told apart by their cells. -/
theorem gap_mod {n x y : Nat} (hxy : x ≤ y) (hyn : y < x + n) :
    gap n (x % n) (y % n) = y - x := by
  have hn : 0 < n := by omega
  have hx := Nat.mod_lt x hn
  have hs : y % n = (x % n + (y - x)) % n := by
    rw [Nat.add_comm (x % n), Nat.add_mod_mod]
    congr 1
    omega
  simp only [gap]
  rw [hs]
  by_cases hw : x % n + (y - x) < n
  · rw [Nat.mod_eq_of_lt hw, if_pos (by omega)]
    omega
  · have hr : (x % n + (y - x)) % n = x % n + (y - x) - n := by
      rw [Nat.mod_eq_sub_mod (by omega), Nat.mod_eq_of_lt (by omega)]
    rw [hr, if_neg (by omega)]
    omega

/-- A stream with one writer and several readers, of which `size` cells are
kept: the end of what is written, the floor below which every cell is free to
be written again, and a position for each reader slot in use. -/
structure Log (size : Nat) where
  write : Nat
  floor : Nat
  readers : List (Option Nat)
  floor_le : ∀ r, some r ∈ readers → floor ≤ r
  le_write : ∀ r, some r ∈ readers → r ≤ write
  floor_le_write : floor ≤ write
  fits : write < floor + size

variable {size : Nat}

namespace Log

theorem size_pos (L : Log size) : 0 < size := by
  have h := L.floor_le_write
  have h' := L.fits
  omega

/-- The empty stream with all its reader slots free. -/
def fresh (size slots : Nat) (h : 0 < size) : Log size where
  write := 0
  floor := 0
  readers := List.replicate slots none
  floor_le := by simp
  le_write := by simp
  floor_le_write := le_rfl
  fits := by omega

/-- A new stream begins while there is no reader. -/
def restart (L : Log size) (h : ∀ r, some r ∉ L.readers) : Log size where
  write := 0
  floor := 0
  readers := L.readers
  floor_le := fun r hr => absurd hr (h r)
  le_write := fun r hr => absurd hr (h r)
  floor_le_write := le_rfl
  fits := by
    have hs := L.size_pos
    omega

/-- The cells the writer may still fill. One cell stays empty. -/
def room (L : Log size) : Nat := L.floor + size - 1 - L.write

/-- Append `n` cells. -/
def publish (L : Log size) (n : Nat) (h : n ≤ L.room) : Log size where
  write := L.write + n
  floor := L.floor
  readers := L.readers
  floor_le := L.floor_le
  le_write := fun r hr => (L.le_write r hr).trans (Nat.le_add_right _ _)
  floor_le_write := L.floor_le_write.trans (Nat.le_add_right _ _)
  fits := by
    have hf := L.fits
    unfold room at h
    omega

/-- Put the reader of slot `i` at position `r`: it joins there or has read up to there. -/
def place (L : Log size) (i r : Nat) (hf : L.floor ≤ r) (hw : r ≤ L.write) : Log size where
  write := L.write
  floor := L.floor
  readers := L.readers.set i (some r)
  floor_le := fun q hq => by
    rcases List.mem_or_eq_of_mem_set hq with hq | hq
    · exact L.floor_le q hq
    · cases hq
      exact hf
  le_write := fun q hq => by
    rcases List.mem_or_eq_of_mem_set hq with hq | hq
    · exact L.le_write q hq
    · cases hq
      exact hw
  floor_le_write := L.floor_le_write
  fits := L.fits

/-- The reader of slot `i` leaves. -/
def leave (L : Log size) (i : Nat) : Log size where
  write := L.write
  floor := L.floor
  readers := L.readers.set i none
  floor_le := fun q hq => by
    rcases List.mem_or_eq_of_mem_set hq with hq | hq
    · exact L.floor_le q hq
    · cases hq
  le_write := fun q hq => by
    rcases List.mem_or_eq_of_mem_set hq with hq | hq
    · exact L.le_write q hq
    · cases hq
  floor_le_write := L.floor_le_write
  fits := L.fits

/-- Raise the floor, never past a reader. -/
def reclaim (L : Log size) (f : Nat) (hf : L.floor ≤ f) (hw : f ≤ L.write)
    (hr : ∀ r, some r ∈ L.readers → f ≤ r) : Log size where
  write := L.write
  floor := f
  readers := L.readers
  floor_le := hr
  le_write := L.le_write
  floor_le_write := hw
  fits := by
    have h := L.fits
    omega

theorem room_lt (L : Log size) : L.room < size := by
  have h := L.floor_le_write
  have h' := L.size_pos
  simp only [room]
  omega

theorem reader_fits (L : Log size) {r : Nat} (h : some r ∈ L.readers) : L.write < r + size := by
  have hf := L.floor_le r h
  have h' := L.fits
  omega

theorem gap_floor_reader (L : Log size) {r : Nat} (h : some r ∈ L.readers) :
    gap size (L.floor % size) (r % size) = r - L.floor := by
  have hw := L.le_write r h
  have hf := L.fits
  exact gap_mod (L.floor_le r h) (by omega)

end Log

/-- A single reader's view of such a stream: it has given back everything before `acked`,
read everything before `read` and knows of everything before `seen`. -/
structure Cursor (size : Nat) where
  acked : Nat
  read : Nat
  seen : Nat
  written : Nat
  acked_le : acked ≤ read
  read_le : read ≤ seen
  seen_le : seen ≤ written
  fits : written < acked + size

namespace Cursor

def publish (C : Cursor size) (w : Nat) (hle : C.written ≤ w) (h : w < C.acked + size) :
    Cursor size :=
  { C with written := w, seen_le := C.seen_le.trans hle, fits := h }

def advance (C : Cursor size) (k : Nat) (h : C.read + k ≤ C.seen) : Cursor size :=
  { C with
    read := C.read + k
    acked_le := C.acked_le.trans (Nat.le_add_right _ _)
    read_le := h }

/-- Learn how far the stream is written. -/
def look (C : Cursor size) : Cursor size :=
  { C with seen := C.written, read_le := C.read_le.trans C.seen_le, seen_le := le_rfl }

/-- Give back all that is read. -/
def ack (C : Cursor size) : Cursor size :=
  { C with
    acked := C.read
    acked_le := le_rfl
    fits := C.fits.trans_le (Nat.add_le_add_right C.acked_le _) }

end Cursor

end Hpcap.SharedLog
