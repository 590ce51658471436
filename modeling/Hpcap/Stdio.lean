import Mathlib.Algebra.Group.Nat.Defs
import Mathlib.Data.List.Basic

namespace Hpcap.Stdio

abbrev longMax : Nat := 2 ^ 63 - 1

/-- A file that is open, where the next byte is read or written, and whether the end was met. -/
@[ext] structure File where
  content : List UInt8
  pos : Nat
  eof : Bool
  deriving DecidableEq

def rewind (content : List UInt8) : File := ⟨content, 0, false⟩

/-- What is read, and the file afterwards. -/
def fread (n : Nat) (file : File) : List UInt8 × File :=
  let bytes := (file.content.drop file.pos).take n
  (bytes, { file with pos := file.pos + bytes.length, eof := file.eof || bytes.length < n })

/-- Whether the position can be set, and the file afterwards. -/
def fseek (pos : Nat) (file : File) : Bool × File :=
  if pos ≤ longMax then (true, { file with pos := pos, eof := false }) else (false, file)

/-- The bytes are written over those at the position if the outcome `ok` is so. -/
def fwrite (ok : Bool) (bytes : List UInt8) (file : File) : Bool × File :=
  if ok then
    (true, { file with
      content := file.content.take file.pos ++ (List.replicate (file.pos - file.content.length) 0 ++
        (bytes ++ file.content.drop (file.pos + bytes.length)))
      pos := file.pos + bytes.length })
  else (false, file)

variable {n pos : Nat} {file : File} {front bytes rest : List UInt8}

/-- What lies ahead. -/
def File.left (file : File) : List UInt8 := file.content.drop file.pos

theorem fread_whole (h : n ≤ file.left.length) :
    fread n file = (file.left.take n, { file with pos := file.pos + n }) := by
  have hlen : ((file.content.drop file.pos).take n).length = n := by
    rw [List.length_take]
    exact Nat.min_eq_left h
  simp only [fread, hlen, Nat.lt_irrefl, decide_false, Bool.or_false]
  rfl

theorem fread_short (h : file.left.length < n) :
    fread n file = (file.left, ⟨file.content, file.pos + file.left.length, true⟩) := by
  have hall : (file.content.drop file.pos).take n = file.left :=
    List.take_of_length_le (Nat.le_of_lt h)
  simp only [fread, hall, h, decide_true, Bool.or_true]

theorem fseek_ok (h : pos ≤ longMax) :
    fseek pos file = (true, { file with pos := pos, eof := false }) :=
  if_pos h

theorem fwrite_fails : fwrite false bytes file = (false, file) := rfl

/-- Bytes written over as many, or over all that is left. -/
theorem fwrite_over {old : List UInt8} (hfront : file.content = front ++ (old ++ rest))
    (hpos : file.pos = front.length)
    (hold : old.length = bytes.length ∨ old.length ≤ bytes.length ∧ rest = []) :
    fwrite true bytes file = (true, { file with
      content := front ++ (bytes ++ rest), pos := front.length + bytes.length }) := by
  have htake : file.content.take file.pos = front := by rw [hfront, hpos, List.take_left]
  have hhole : file.pos - file.content.length = 0 := by
    rw [hfront, hpos, List.length_append]
    omega
  have hdrop : file.content.drop (file.pos + bytes.length) = rest := by
    rw [hfront, hpos, ← List.drop_drop, List.drop_left]
    obtain hold | ⟨hold, rfl⟩ := hold
    · exact List.drop_left' hold
    · rw [List.append_nil]
      exact List.drop_of_length_le hold
  rw [fwrite, if_pos rfl, htake, hhole, hdrop, hpos]
  rfl

end Hpcap.Stdio
