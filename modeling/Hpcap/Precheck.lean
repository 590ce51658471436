import Hpcap.Device
import Hpcap.Read
import Hpcap.Registration
import Mathlib.Algebra.Order.BigOperators.Group.List

namespace Hpcap.Precheck

open Hpcap.Device Hpcap.Read Hpcap.Registration
open Hpcap.Reservation (add64 pageSize hpcapBufSize)

/-- `Mode[i]` and `Pages[i]`. -/
structure Entry where
  mode : Int32
  pages : Int32
  deriving DecidableEq

/-- The mode of an adapter. One that is not valid is taken for the default. -/
def modeOf (e : Entry) : Int :=
  if e.mode.toInt ≠ 1 ∧ e.mode.toInt ≠ 2 then hpcapDefaultMode else e.mode.toInt

def isHpcapMode (mode : Int) : Prop := mode = 2

instance (mode : Int) : Decidable (isHpcapMode mode) := inferInstanceAs (Decidable (_ = _))

/-- `adapter_pages`, which is a `size_t`. -/
def adapterPages (e : Entry) : Nat :=
  let pages := sizeT e.pages.toInt
  if pages < 1 then hpcapDefaultPagesPerAdapter else pages

/-- `hpcap_max_pages`. -/
abbrev hpcapMaxPages : Nat := hpcapBufSize / pageSize

def precheckLoop : Nat → List Entry → Int
  | _, [] => 0
  | assigned, e :: es =>
    if isHpcapMode (modeOf e) then
      let assigned := add64 assigned (adapterPages e)
      if assigned > hpcapMaxPages then -enomem else precheckLoop assigned es
    else precheckLoop assigned es

/-- The arrays have `HPCAP_MAX_NIC + 1` entries. -/
def hpcapPrecheckOptions (es : List Entry) : Int := precheckLoop 0 es

/-- The pages asked for by the adapters in HPCAP mode. -/
def requests (es : List Entry) : List Int :=
  (es.filter fun e => isHpcapMode (modeOf e)).map fun e => e.pages.toInt

/-- How many pages an adapter gets. -/
def effective (pages : Int) : Int := if 1 ≤ pages then pages else hpcapDefaultPagesPerAdapter

/-- How many pages are counted for it, as far as they are not negative. -/
def counted (pages : Int) : Int := if pages = 0 then hpcapDefaultPagesPerAdapter else pages

/-- No number of pages seen so far is too large. -/
def Within (assigned : Int) (ps : List Int) : Prop :=
  ∀ n ≤ ps.length, 0 ≤ assigned + ((ps.take n).map counted).sum ∧
    assigned + ((ps.take n).map counted).sum ≤ hpcapMaxPages

instance (assigned : Int) (ps : List Int) : Decidable (Within assigned ps) :=
  inferInstanceAs (Decidable (∀ n ≤ ps.length, _))

/-- Someone asks for a negative number of pages, and the sums over the first entries, with
it, are all as if they were within the limit. -/
def Slips (es : List Entry) : Prop := (∃ p ∈ requests es, p < 0) ∧ Within 0 (requests es)

def Accepts (es : List Entry) : Prop :=
  hpcapPrecheckOptions es = 0 ↔ ((requests es).map effective).sum ≤ hpcapMaxPages

section Loop

variable {assigned : Nat}

theorem within_nil (a : Int) : Within a [] ↔ 0 ≤ a ∧ a ≤ hpcapMaxPages := by
  simp [Within]

theorem within_cons (a p : Int) (ps : List Int) :
    Within a (p :: ps) ↔ (0 ≤ a ∧ a ≤ hpcapMaxPages) ∧ Within (a + counted p) ps := by
  constructor
  · intro h
    have h₀ := h 0 (Nat.zero_le _)
    refine ⟨by simpa using h₀, fun n hn => ?_⟩
    have hs := h (n + 1) (Nat.succ_le_succ hn)
    simpa [Int.add_assoc] using hs
  · rintro ⟨h₀, h⟩ n hn
    cases n with
    | zero => simpa using h₀
    | succ n => simpa [Int.add_assoc] using h n (Nat.le_of_succ_le_succ hn)

theorem Within.start {a : Int} {ps : List Int} (h : Within a ps) : 0 ≤ a ∧ a ≤ hpcapMaxPages := by
  simpa using h 0 (Nat.zero_le _)

/-- What the counter holds after an entry is within the limit when the sum is. -/
theorem add64_adapterPages (e : Entry) (ha : assigned ≤ hpcapMaxPages) :
    add64 assigned (adapterPages e) ≤ hpcapMaxPages ∧
        (add64 assigned (adapterPages e) : Int) = assigned + counted e.pages.toInt ∨
      hpcapMaxPages < add64 assigned (adapterPages e) ∧
        ¬ (0 ≤ (assigned : Int) + counted e.pages.toInt ∧
          (assigned : Int) + counted e.pages.toInt ≤ hpcapMaxPages) := by
  have hmax : hpcapMaxPages = 256 := rfl
  have hdefault : hpcapDefaultPagesPerAdapter = 1000 := rfl
  have hlo := e.pages.le_toInt
  have hhi := e.pages.toInt_lt
  have hsize := sizeT_cases (x := e.pages.toInt) (by omega) (by omega)
  simp only [adapterPages, add64, counted]
  by_cases hzero : e.pages.toInt = 0
  · rw [if_pos hzero, if_pos (by omega)]
    omega
  · rw [if_neg hzero, if_neg (by omega)]
    omega

theorem requests_cons (e : Entry) (es : List Entry) : requests (e :: es) =
    if isHpcapMode (modeOf e) then e.pages.toInt :: requests es else requests es := by
  simp only [requests, List.filter_cons, decide_eq_true_eq]
  split
  · rfl
  · rfl

/-- The loop ends well when all sums over the first entries are within the limit. -/
theorem precheckLoop_eq_zero (es : List Entry) (ha : assigned ≤ hpcapMaxPages) :
    precheckLoop assigned es = 0 ↔ Within assigned (requests es) := by
  induction es generalizing assigned with
  | nil =>
    have hin : Within assigned [] := (within_nil _).mpr (by omega)
    exact iff_of_true rfl hin
  | cons e es ih =>
    rw [precheckLoop, requests_cons]
    by_cases hmode : isHpcapMode (modeOf e)
    · rw [if_pos hmode, if_pos hmode, within_cons]
      obtain ⟨hle, hsum⟩ | ⟨hgt, hout⟩ := add64_adapterPages e ha
      · dsimp only
        rw [if_neg (Nat.not_lt.mpr hle), ih hle, hsum]
        exact (and_iff_right (by omega)).symm
      · dsimp only
        rw [if_pos hgt]
        exact iff_of_false (by decide) fun h => hout h.2.start
    · rw [if_neg hmode, if_neg hmode]
      exact ih ha

end Loop

section Sums

variable {ps : List Int}

theorem effective_pos (p : Int) : 1 ≤ effective p := by
  rw [effective]
  split
  · assumption
  · decide

theorem effective_eq_counted {p : Int} (hp : 0 ≤ p) : effective p = counted p := by
  rw [effective, counted]
  split <;> split <;> omega

/-- Sums of what is not negative only grow. -/
theorem within_iff_sum (hps : ∀ p ∈ ps, 0 ≤ p) {a : Int} (ha : 0 ≤ a) :
    Within a ps ↔ a + (ps.map effective).sum ≤ hpcapMaxPages := by
  induction ps generalizing a with
  | nil => simp [within_nil, ha]
  | cons p ps ih =>
    have hp := hps p List.mem_cons_self
    have hpos := effective_pos p
    have hrest : 0 ≤ (ps.map effective).sum := by
      refine List.sum_nonneg fun x hx => ?_
      obtain ⟨q, -, rfl⟩ := List.mem_map.mp hx
      exact (effective_pos q).trans' (by decide)
    rw [within_cons, ← effective_eq_counted hp,
      ih (fun q hq => hps q (List.mem_cons_of_mem _ hq)) (by omega), List.map_cons, List.sum_cons]
    omega

/-- One adapter that is given the default number of pages is too much. -/
theorem sum_of_negative {p : Int} (hp : p ∈ ps) (hneg : p < 0) :
    (hpcapMaxPages : Int) < (ps.map effective).sum := by
  have hle := List.single_le_sum (l := ps.map effective) (fun x hx => by
    obtain ⟨q, -, rfl⟩ := List.mem_map.mp hx
    exact (effective_pos q).trans' (by decide)) (effective p) (List.mem_map_of_mem hp)
  have hdefault : effective p = hpcapDefaultPagesPerAdapter := if_neg (by omega)
  rw [hdefault] at hle
  exact lt_of_lt_of_le (by decide) hle

end Sums

/-- The parameters are accepted as they should be, unless a negative number of pages slips
through. -/
theorem precheck_iff (es : List Entry) : Accepts es ↔ ¬ Slips es := by
  have hloop : hpcapPrecheckOptions es = 0 ↔ Within 0 (requests es) :=
    precheckLoop_eq_zero es (Nat.zero_le _)
  rw [Accepts, hloop, Slips]
  by_cases hneg : ∃ p ∈ requests es, p < 0
  · obtain ⟨p, hp, hlt⟩ := hneg
    have hsum := sum_of_negative hp hlt
    rw [iff_false_right (not_le.mpr hsum), not_and]
    exact ⟨fun h _ => h, fun h => h ⟨p, hp, hlt⟩⟩
  · have hpos : ∀ p ∈ requests es, 0 ≤ p := fun p hp => not_lt.mp fun hlt => hneg ⟨p, hp, hlt⟩
    rw [within_iff_sum hpos (le_refl 0), zero_add]
    exact iff_of_true Iff.rfl fun h => hneg h.1

/-- Two adapters in HPCAP mode, one with five pages and one without a number. -/
def unsetAfterFive : List Entry := [⟨2, 5⟩, ⟨2, -1⟩] ++ List.replicate 15 ⟨-1, -1⟩

example : requests unsetAfterFive = [5, -1] := by decide

/-- What is unset counts as one page less. -/
theorem unset_pages_slip : ¬ ∀ es : List Entry, es.length = 17 → Accepts es := by
  intro h
  have hzero : hpcapPrecheckOptions unsetAfterFive = 0 := by decide +kernel
  have hsum := (h unsetAfterFive (by decide)).mp hzero
  exact absurd hsum (by decide)

end Hpcap.Precheck
