import Mathlib.Algebra.Group.Int.Defs
import Mathlib.Algebra.Group.Nat.Defs
import Mathlib.Data.List.TakeWhile

namespace Hpcap.HugeMap

/-- What ends a string. -/
abbrev nul : Char := Char.ofNat 0

/-- The string at the start of `sz`. -/
def string (sz : List Char) : List Char := sz.takeWhile (· != nul)

def strlen (sz : List Char) : Nat := (string sz).length

/-- What the digits say. -/
def decimal (ds : List Char) : Nat := ds.foldl (fun n d => 10 * n + (d.toNat - '0'.toNat)) 0

abbrev intMax : Nat := 2 ^ 31 - 1

def isSpace (c : Char) : Bool := c == ' ' || 9 ≤ c.toNat && c.toNat ≤ 13

/-- `none` for a value that is no `int`. -/
def toInt (i : Int) : Option Int := if -(intMax : Int) - 1 ≤ i ∧ i ≤ intMax then some i else none

/-- The library's, which leaves it open what comes of a value that is no `int`. -/
def atoi (sz : List Char) : Option Int :=
  match (string sz).dropWhile isSpace with
  | '-' :: s => toInt (-(decimal (s.takeWhile Char.isDigit)))
  | '+' :: s => toInt (decimal (s.takeWhile Char.isDigit))
  | s => toInt (decimal (s.takeWhile Char.isDigit))

/-- An `int` as a `size_t`. -/
def ofInt (i : Int) : Nat := (i % 2 ^ 64).toNat

def multiplier (modifier : Char) : Nat :=
  match modifier with
  | 'G' | 'g' => 1024 * 1024 * 1024
  | 'M' | 'm' => 1024 * 1024
  | 'K' | 'k' => 1024
  | _ => 1

/-- The size, and what becomes of `sz`, the string and what follows it in memory. There is
no character to cut off an empty one. -/
def parseSize (sz : List Char) : Option (Nat × List Char) :=
  match strlen sz with
  | 0 => none
  | last + 1 =>
    let modifier := sz.getD last nul
    let sz := sz.set last nul
    (atoi sz).map fun number =>
      (ofInt number * multiplier modifier % 2 ^ 64, sz.set (strlen sz) modifier)

inductive Suffix
  | none
  | k
  | m
  | g
  | t
  deriving DecidableEq

def Suffix.chars : Suffix → List Char
  | .none => []
  | .k => ['K']
  | .m => ['M']
  | .g => ['G']
  | .t => ['T']

def Suffix.exponent : Suffix → Nat
  | .none => 0
  | .k => 10
  | .m => 20
  | .g => 30
  | .t => 40

/-- A string that `^[0-9]+[KMGT]?$` matches. -/
structure SizeString where
  digits : List Char
  suffix : Suffix
  digits_ne_nil : digits ≠ []
  digits_all : ∀ d ∈ digits, d.isDigit = true

namespace SizeString

def chars (z : SizeString) : List Char := z.digits ++ z.suffix.chars

def number (z : SizeString) : Nat := decimal z.digits

def value (z : SizeString) : Nat := z.number * 2 ^ z.suffix.exponent

end SizeString

/-- What `is_paramfile_valid` asks of a `hugesize`. -/
def isHugesizeValid (s : List Char) : Bool :=
  !(s.takeWhile Char.isDigit).isEmpty &&
    (s.dropWhile Char.isDigit) ∈ [[], ['K'], ['M'], ['G'], ['T']]

theorem digit_ne_nul {d : Char} (h : d.isDigit = true) : d ≠ nul := by
  rintro rfl
  cases h

theorem string_append {s : List Char} (h : ∀ c ∈ s, c ≠ nul) (rest : List Char) :
    string (s ++ nul :: rest) = s := by
  rw [string, List.takeWhile_append_of_pos (by simpa using h)]
  simp

theorem decimal_append (ds : List Char) (d : Char) :
    decimal (ds ++ [d]) = 10 * decimal ds + (d.toNat - '0'.toNat) := by
  simp [decimal]

theorem digit_not_space {d : Char} (h : d.isDigit = true) : isSpace d = false := by
  have hle : 48 ≤ d.toNat := (Char.isDigit_iff_toNat.mp h).1
  have hne : d ≠ ' ' := by
    rintro rfl
    cases h
  simp only [isSpace, Bool.or_eq_false_iff, beq_eq_false_iff_ne, Bool.and_eq_false_iff,
    decide_eq_false_iff_not]
  exact ⟨hne, .inr (by omega)⟩

theorem multiplier_digit {d : Char} (h : d.isDigit = true) : multiplier d = 1 := by
  unfold multiplier
  split
  all_goals first | rfl | cases h

theorem multiplier_le (c : Char) : multiplier c ≤ 1024 * 1024 * 1024 := by
  unfold multiplier
  split <;> decide

theorem atoi_digits {ds : List Char} (h : ∀ d ∈ ds, d.isDigit = true) (rest : List Char) :
    atoi (ds ++ nul :: rest) = toInt (decimal ds) := by
  have hall : ds.takeWhile Char.isDigit = ds := List.takeWhile_eq_self_iff.mpr h
  have hskip : ds.dropWhile isSpace = ds := by
    cases ds with
    | nil => rfl
    | cons d ds => rw [List.dropWhile_cons_of_neg (by simp [digit_not_space (h d (by simp))])]
  rw [atoi, string_append (fun d hd => digit_ne_nul (h d hd)) rest, hskip]
  split
  · cases h '-' (by simp)
  · cases h '+' (by simp)
  · rw [hall]

theorem strlen_append {s : List Char} (h : ∀ c ∈ s, c ≠ nul) (rest : List Char) :
    strlen (s ++ nul :: rest) = s.length := by
  rw [strlen, string_append h]

/-- The last character is cut off for the call of `atoi` and put back. -/
theorem parseSize_cuts {s : List Char} {c : Char} (hs : ∀ c ∈ s, c ≠ nul) (hc : c ≠ nul)
    (rest : List Char) : parseSize (s ++ c :: nul :: rest) =
      (atoi (s ++ nul :: nul :: rest)).map fun number =>
        (ofInt number * multiplier c % 2 ^ 64, s ++ c :: nul :: rest) := by
  have hlen : strlen (s ++ c :: nul :: rest) = s.length + 1 := by
    have hall : ∀ d ∈ s ++ [c], d ≠ nul := by
      intro d hd
      obtain hd | hd := List.mem_append.mp hd
      · exact hs d hd
      · exact List.mem_singleton.mp hd ▸ hc
    have h := strlen_append hall rest
    simpa using h
  have hlast : (s ++ c :: nul :: rest).getD s.length nul = c := by simp
  have hset (d e : Char) : (s ++ d :: nul :: rest).set s.length e = s ++ e :: nul :: rest := by
    rw [List.set_append_right _ _ (Nat.le_refl _), Nat.sub_self, List.set_cons_zero]
  rw [parseSize, hlen]
  simp only [hlast, hset, strlen_append hs]

theorem ofInt_natCast {n : Nat} (h : n < 2 ^ 64) : ofInt n = n := by
  rw [ofInt]
  omega

theorem toInt_natCast (n : Nat) : toInt n = if n ≤ intMax then some (n : Int) else none := by
  have hle : -(intMax : Int) - 1 ≤ n ∧ (n : Int) ≤ intMax ↔ n ≤ intMax := by omega
  simp only [toInt, hle]

/-- What comes back is the number in front of the last character, by its multiplier. -/
theorem parseSize_digits_iff {ds : List Char} {c : Char} (h : ∀ d ∈ ds, d.isDigit = true)
    (hc : c ≠ nul) (rest : List Char) (v : Nat) :
    parseSize (ds ++ c :: nul :: rest) = some (v, ds ++ c :: nul :: rest) ↔
      decimal ds ≤ intMax ∧ decimal ds * multiplier c = v := by
  rw [parseSize_cuts (fun d hd => digit_ne_nul (h d hd)) hc, atoi_digits h, toInt_natCast]
  split
  · rename_i hle
    have hmul : decimal ds * multiplier c < 2 ^ 64 :=
      Nat.lt_of_le_of_lt (Nat.mul_le_mul hle (multiplier_le c)) (by decide)
    have hmax : intMax < 2 ^ 64 := by decide
    rw [Option.map_some, ofInt_natCast (by omega), Nat.mod_eq_of_lt hmul]
    simp [hle]
  · rename_i hgt
    simp [hgt]

theorem SizeString.digits_concat (z : SizeString) :
    ∃ ds d, z.digits = ds ++ [d] ∧ (∀ d ∈ ds, d.isDigit = true) ∧ d.isDigit = true := by
  have hlast := List.dropLast_concat_getLast z.digits_ne_nil
  refine ⟨z.digits.dropLast, z.digits.getLast z.digits_ne_nil, hlast.symm, fun d hd => ?_, ?_⟩
  · exact z.digits_all d (List.dropLast_subset _ hd)
  · exact z.digits_all _ (List.getLast_mem z.digits_ne_nil)

theorem Suffix.exists_chars {s : List Char} (h : s ∈ [[], ['K'], ['M'], ['G'], ['T']]) :
    ∃ suffix : Suffix, suffix.chars = s := by
  simp only [List.mem_cons, List.not_mem_nil, or_false] at h
  obtain rfl | rfl | rfl | rfl | rfl := h
  · exact ⟨.none, rfl⟩
  · exact ⟨.k, rfl⟩
  · exact ⟨.m, rfl⟩
  · exact ⟨.g, rfl⟩
  · exact ⟨.t, rfl⟩

theorem Suffix.no_digits (suffix : Suffix) : suffix.chars.takeWhile Char.isDigit = [] ∧
    suffix.chars.dropWhile Char.isDigit = suffix.chars ∧
      suffix.chars ∈ [[], ['K'], ['M'], ['G'], ['T']] := by
  cases suffix <;> decide

theorem isHugesizeValid_iff (s : List Char) :
    isHugesizeValid s = true ↔ ∃ z : SizeString, z.chars = s := by
  simp only [isHugesizeValid, Bool.and_eq_true, decide_eq_true_eq, Bool.not_eq_true',
    List.isEmpty_eq_false_iff]
  constructor
  · rintro ⟨hne, hsuffix⟩
    obtain ⟨suffix, hchars⟩ := Suffix.exists_chars hsuffix
    refine ⟨⟨s.takeWhile Char.isDigit, suffix, hne, fun d hd => List.mem_takeWhile_imp hd⟩, ?_⟩
    rw [SizeString.chars, hchars, List.takeWhile_append_dropWhile]
  · rintro ⟨z, rfl⟩
    obtain ⟨htake, hdrop, hmem⟩ := z.suffix.no_digits
    rw [SizeString.chars, List.takeWhile_append_of_pos z.digits_all,
      List.dropWhile_append_of_pos z.digits_all, htake, hdrop, List.append_nil]
    exact ⟨z.digits_ne_nil, hmem⟩

/-- Without a suffix a digit is cut off. -/
theorem SizeString.parse_digits {z : SizeString} (hz : z.suffix = .none) (rest : List Char) :
    parseSize (z.chars ++ nul :: rest) = some (z.value, z.chars ++ nul :: rest) ↔
      z.number = 0 := by
  obtain ⟨ds, d, hdigits, hds, hd⟩ := z.digits_concat
  have hchars : z.chars ++ nul :: rest = ds ++ d :: nul :: rest := by
    rw [chars, hz, hdigits, Suffix.chars, List.append_nil, List.append_assoc, List.singleton_append]
  have hnumber : z.number = 10 * decimal ds + (d.toNat - '0'.toNat) := by
    rw [number, hdigits, decimal_append]
  have hvalue : z.value = z.number := by
    rw [value, hz]
    exact Nat.mul_one _
  rw [hchars, parseSize_digits_iff hds (digit_ne_nul hd), multiplier_digit hd, hvalue, hnumber]
  omega

theorem SizeString.parse_suffixed {z : SizeString} {suffix : Suffix} {c : Char}
    (hz : z.suffix = suffix) (hchars : suffix.chars = [c]) (hc : c ≠ nul) (rest : List Char) :
    parseSize (z.chars ++ nul :: rest) = some (z.value, z.chars ++ nul :: rest) ↔
      z.number ≤ intMax ∧ z.number * multiplier c = z.number * 2 ^ suffix.exponent := by
  have hsplit : z.chars ++ nul :: rest = z.digits ++ c :: nul :: rest := by
    rw [chars, hz, hchars, List.append_assoc, List.singleton_append]
  rw [hsplit, ← hz]
  exact parseSize_digits_iff z.digits_all hc rest z.value

/-- A suffix that the switch knows. -/
theorem SizeString.parse_known {z : SizeString} {suffix : Suffix} {c : Char}
    (hz : z.suffix = suffix) (hchars : suffix.chars = [c]) (hc : c ≠ nul)
    (hmul : multiplier c = 2 ^ suffix.exponent) (hmem : suffix ∈ [Suffix.k, .m, .g])
    (rest : List Char) :
    parseSize (z.chars ++ nul :: rest) = some (z.value, z.chars ++ nul :: rest) ↔
      z.number = 0 ∨ suffix ∈ [.k, .m, .g] ∧ z.number ≤ intMax := by
  rw [z.parse_suffixed hz hchars hc, hmul]
  simp only [hmem, and_true, true_and]
  omega

variable (z : SizeString) (rest : List Char)

theorem parse_size_iff :
    parseSize (z.chars ++ nul :: rest) = some (z.value, z.chars ++ nul :: rest) ↔
      z.number = 0 ∨ z.suffix ∈ [.k, .m, .g] ∧ z.number ≤ intMax := by
  cases hsuffix : z.suffix with
  | none =>
    rw [z.parse_digits hsuffix]
    simp
  | k => exact z.parse_known hsuffix rfl (by decide) rfl (by decide) rest
  | m => exact z.parse_known hsuffix rfl (by decide) rfl (by decide) rest
  | g => exact z.parse_known hsuffix rfl (by decide) rfl (by decide) rest
  | t =>
    have hmul : multiplier 'T' = 1 := rfl
    have hexponent : Suffix.t.exponent = 40 := rfl
    have hmem : Suffix.t ∉ [Suffix.k, .m, .g] := by decide
    rw [z.parse_suffixed hsuffix rfl (by decide), hmul, hexponent]
    simp only [hmem, false_and, or_false]
    omega

theorem digit_cut_off : ¬ ∀ (z : SizeString) rest, z.value < 2 ^ 64 →
    parseSize (z.chars ++ nul :: rest) = some (z.value, z.chars ++ nul :: rest) := by
  intro h
  have hcut := h ⟨['2', '0', '4', '8'], .none, by simp, List.all_eq_true.mp rfl⟩ [] (by decide)
  exact absurd hcut (by decide)

end Hpcap.HugeMap
