import Hpcap.Rx
import Mathlib.Data.List.GetD
import Mathlib.Tactic.Tauto

namespace Hpcap.Filters

open Hpcap.Reservation
open Hpcap.Rx (Filter Frame)

/-- The `length` bytes that stand `start` bytes after the first byte of the frame. The sum of
an address and a `size_t` wraps. -/
def bytesAt (mem : Nat → UInt8) (start length : Nat) : List UInt8 :=
  (List.range length).map fun i => mem (add64 start i)

/-- The loop of `passes_filter`, over the memory from the start of the frame on. -/
def passesFilters (mem : Nat → UInt8) (size : Nat) : List Filter → Bool
  | [] => true
  | f :: fs =>
    if add64 f.start f.length > size then
      if f.rejectOnMatch then passesFilters mem size fs else false
    else if bytesAt mem f.start f.length = f.string.take f.length then
      if f.rejectOnMatch then false else passesFilters mem size fs
    else false

def passesFilter (enabledFilter : Bool) (filters : List Filter) (mem : Nat → UInt8)
    (size : Nat) : Bool :=
  if enabledFilter then passesFilters mem size filters else true

variable {mem : Nat → UInt8} {size : Nat} {f : Filter} {fs : List Filter}

section InFrame

variable {data : List UInt8}

theorem bytesAt_frame (data : List UInt8) (hfits : f.start + f.length ≤ data.length)
    (hsum : f.start + f.length < 2 ^ 64) :
    bytesAt (fun k => data.getD k 0) f.start f.length = (data.drop f.start).take f.length := by
  refine List.ext_getElem (by simp [bytesAt]; omega) fun i hi _ => ?_
  have hlt : i < f.length := by simpa [bytesAt] using hi
  have hadd : add64 f.start i = f.start + i := add64_small (by omega)
  simp only [bytesAt, List.getElem_map, List.getElem_range, List.getElem_take, List.getElem_drop,
    hadd]
  exact List.getD_eq_getElem data 0 (by omega)

/-- While start and length add up, only bytes of the frame are compared. -/
theorem passesFilters_frame (hsum : ∀ f ∈ fs, f.start + f.length < 2 ^ 64) :
    passesFilters (fun k => data.getD k 0) data.length fs = Rx.passesFilters data fs := by
  induction fs with
  | nil => rfl
  | cons f fs ih =>
    have hf := hsum f List.mem_cons_self
    have ih := ih fun g hg => hsum g (List.mem_cons_of_mem f hg)
    have hadd : add64 f.start f.length = f.start + f.length := add64_small hf
    by_cases hlong : f.start + f.length > data.length
    · simp only [passesFilters, Rx.passesFilters, hadd, if_pos hlong, ih]
    · have hbytes := bytesAt_frame data (by omega) hf
      simp only [passesFilters, Rx.passesFilters, hadd, if_neg hlong, hbytes, ih]

end InFrame

def Matches (mem : Nat → UInt8) (f : Filter) : Prop :=
  bytesAt mem f.start f.length = f.string.take f.length

def Fits (size : Nat) (f : Filter) : Prop := f.start + f.length ≤ size

/-- The filter is taken to fit: the wrapped sum is compared. -/
def Reads (size : Nat) (f : Filter) : Prop := add64 f.start f.length ≤ size

/-- What a filter has to say about a frame. -/
def Wants (mem : Nat → UInt8) (size : Nat) (f : Filter) : Prop :=
  if f.rejectOnMatch then ¬ (Fits size f ∧ Matches mem f) else Fits size f ∧ Matches mem f

/-- What the loop makes of it. -/
def Lets (mem : Nat → UInt8) (size : Nat) (f : Filter) : Prop :=
  if f.rejectOnMatch then ¬ Reads size f else Reads size f ∧ Matches mem f

/-- Every non-reject filter fits and matches, and no reject filter does. -/
def Accepted (mem : Nat → UInt8) (size : Nat) (fs : List Filter) : Prop :=
  (∀ f ∈ fs, f.rejectOnMatch = false → Fits size f ∧ Matches mem f) ∧
    ∀ f ∈ fs, f.rejectOnMatch = true → ¬ (Fits size f ∧ Matches mem f)

/-- The filter rejects the frame, and should. -/
def Settles (mem : Nat → UInt8) (size : Nat) (f : Filter) : Prop :=
  f.rejectOnMatch = false ∧ ¬ (Reads size f ∧ Matches mem f) ∨
    f.rejectOnMatch = true ∧ Fits size f ∧ Matches mem f

/-- A reject filter that is read without fitting and matching. -/
def Overreaches (mem : Nat → UInt8) (size : Nat) (f : Filter) : Prop :=
  f.rejectOnMatch = true ∧ Reads size f ∧ ¬ (Fits size f ∧ Matches mem f)

/-- A filter that does not fit, and matches where its wrapped sum leads. -/
def Strays (mem : Nat → UInt8) (size : Nat) (f : Filter) : Prop :=
  f.rejectOnMatch = false ∧ ¬ Fits size f ∧ Reads size f ∧ Matches mem f

/-- Some filter settles it, or each filter is right, or two wrong ones cancel. -/
def Decided (mem : Nat → UInt8) (size : Nat) (fs : List Filter) : Prop :=
  (∃ f ∈ fs, Settles mem size f) ∨
    (∀ f ∈ fs, ¬ Overreaches mem size f ∧ ¬ Strays mem size f) ∨
    (∃ f ∈ fs, Overreaches mem size f) ∧ ∃ f ∈ fs, Strays mem size f

theorem Fits.reads (h : Fits size f) : Reads size f := (Nat.mod_le _ _).trans h

theorem accepted_iff : Accepted mem size fs ↔ ∀ f ∈ fs, Wants mem size f := by
  constructor
  · rintro ⟨hmust, hnot⟩ f hf
    cases hr : f.rejectOnMatch with
    | false => simpa [Wants, hr] using hmust f hf hr
    | true => simpa [Wants, hr] using hnot f hf hr
  · intro h
    refine ⟨fun f hf hr => ?_, fun f hf hr => ?_⟩
    · simpa [Wants, hr] using h f hf
    · simpa [Wants, hr] using h f hf

theorem passesFilters_cons (f : Filter) (fs : List Filter) :
    passesFilters mem size (f :: fs) = true ↔
      Lets mem size f ∧ passesFilters mem size fs = true := by
  by_cases hlong : add64 f.start f.length > size
  · have hreads : ¬ Reads size f := Nat.not_le_of_lt hlong
    cases hr : f.rejectOnMatch <;> simp [passesFilters, Lets, hlong, hreads, hr]
  · have hreads : Reads size f := Nat.le_of_not_lt hlong
    by_cases hmatch : bytesAt mem f.start f.length = f.string.take f.length
    · have hm : Matches mem f := hmatch
      cases hr : f.rejectOnMatch <;> simp [passesFilters, Lets, hlong, hreads, hmatch, hm, hr]
    · have hm : ¬ Matches mem f := hmatch
      cases hr : f.rejectOnMatch <;> simp [passesFilters, Lets, hlong, hreads, hmatch, hm, hr]

theorem passesFilters_iff : passesFilters mem size fs = true ↔ ∀ f ∈ fs, Lets mem size f := by
  induction fs with
  | nil => simp [passesFilters]
  | cons f fs ih => rw [passesFilters_cons, ih, List.forall_mem_cons]

theorem Settles.rejects (h : Settles mem size f) : ¬ Lets mem size f ∧ ¬ Wants mem size f := by
  obtain ⟨hr, h⟩ | ⟨hr, hf, hm⟩ := h
  · have hfits := fun hf : Fits size f => hf.reads
    simp only [Lets, Wants, hr]
    simp
    tauto
  · have hreads := hf.reads
    simp [Lets, Wants, hr, hf, hm, hreads]

theorem Overreaches.rejects (h : Overreaches mem size f) : ¬ Lets mem size f := by
  obtain ⟨hr, hreads, -⟩ := h
  simp [Lets, hr, hreads]

theorem Strays.unwanted (h : Strays mem size f) : ¬ Wants mem size f := by
  obtain ⟨hr, hfits, -⟩ := h
  simp [Wants, hr, hfits]

theorem settles_or_overreaches (h : ¬ Lets mem size f) :
    Settles mem size f ∨ Overreaches mem size f := by
  cases hr : f.rejectOnMatch with
  | false => exact .inl (.inl ⟨hr, by simpa [Lets, hr] using h⟩)
  | true =>
    have hreads : Reads size f := by simpa [Lets, hr] using h
    by_cases hboth : Fits size f ∧ Matches mem f
    · exact .inl (.inr ⟨hr, hboth⟩)
    · exact .inr ⟨hr, hreads, hboth⟩

theorem settles_or_strays (h : ¬ Wants mem size f) : Settles mem size f ∨ Strays mem size f := by
  cases hr : f.rejectOnMatch with
  | true => exact .inl (.inr ⟨hr, by simpa [Wants, hr] using h⟩)
  | false =>
    have hnot : ¬ (Fits size f ∧ Matches mem f) := by simpa [Wants, hr] using h
    by_cases hboth : Reads size f ∧ Matches mem f
    · exact .inr ⟨hr, fun hf => hnot ⟨hf, hboth.2⟩, hboth⟩
    · exact .inl (.inl ⟨hr, hboth⟩)

/-- The filters decide as they should exactly if one of them rejects rightly, or all of them
are right, or two kinds of errors meet. -/
theorem passesFilter_accepts (filters : List Filter) (mem : Nat → UInt8) (size : Nat) :
    (passesFilter true filters mem size = true ↔ Accepted mem size filters) ↔
      Decided mem size filters := by
  rw [passesFilter, if_pos rfl, passesFilters_iff, accepted_iff]
  constructor
  · intro hiff
    by_cases hsettled : ∃ f ∈ filters, Settles mem size f
    · exact .inl hsettled
    have hnot : ∀ f ∈ filters, ¬ Settles mem size f := fun f hf hs => hsettled ⟨f, hf, hs⟩
    by_cases hover : ∃ f ∈ filters, Overreaches mem size f
    · obtain ⟨f, hf, hfo⟩ := hover
      have hunwanted : ¬ ∀ g ∈ filters, Wants mem size g :=
        fun hall => hfo.rejects (hiff.mpr hall f hf)
      push Not at hunwanted
      obtain ⟨g, hg, hgw⟩ := hunwanted
      exact .inr (.inr ⟨⟨f, hf, hfo⟩, g, hg, (settles_or_strays hgw).resolve_left (hnot g hg)⟩)
    · have hnone : ∀ f ∈ filters, ¬ Overreaches mem size f := fun f hf hfo => hover ⟨f, hf, hfo⟩
      have hlets : ∀ f ∈ filters, Lets mem size f := by
        intro f hf
        by_contra hl
        exact (settles_or_overreaches hl).elim (hnot f hf) (hnone f hf)
      exact .inr (.inl fun f hf => ⟨hnone f hf, fun hs => hs.unwanted (hiff.mp hlets f hf)⟩)
  · rintro (⟨f, hf, hs⟩ | hright | ⟨⟨f, hf, hfo⟩, g, hg, hgs⟩)
    · exact iff_of_false (fun h => hs.rejects.1 (h f hf)) fun h => hs.rejects.2 (h f hf)
    · refine forall₂_congr fun f hf => ⟨fun hl => ?_, fun hw => ?_⟩
      · by_contra hw
        obtain hs | hs := settles_or_strays hw
        · exact hs.rejects.1 hl
        · exact (hright f hf).2 hs
      · by_contra hl
        obtain hs | hs := settles_or_overreaches hl
        · exact hs.rejects.2 hw
        · exact (hright f hf).1 hs
    · exact iff_of_false (fun h => hfo.rejects (h f hf)) fun h => hgs.unwanted (h g hg)

/-- Frames that start with a 1 are to be rejected; this one starts with a 2. -/
theorem reject_without_match :
    passesFilter true [⟨0, 1, [1], true⟩] (fun _ => 2) 60 = false ∧
      Accepted (fun _ => 2) 60 [⟨0, 1, [1], true⟩] := by
  refine ⟨by decide, by simp, ?_⟩
  rintro f hf - ⟨-, hm⟩
  obtain rfl := List.mem_singleton.mp hf
  have hm : bytesAt (fun _ => 2) 0 1 = [1] := hm
  exact absurd hm (by decide)

end Hpcap.Filters
