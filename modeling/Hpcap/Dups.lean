import Mathlib.Data.List.Induction
import Hpcap.Reservation

namespace Hpcap.Dups

open Hpcap.Reservation (sub64 sub64_of_le)

abbrev dupCheckLen : Nat := 70

abbrev dupWindowSize : Nat := 1024 * 32

abbrev dupTimeWindow : Nat := 2 * 1000 * 1000 * 1000

structure DupInfo where
  tstamp : Nat
  len : Nat
  data : Nat → UInt8

/-- What is read of a frame, with its time stamp: the bytes are those at `pointer[0]`. A frame fits
in the descriptors. -/
structure Frame where
  rssHash : UInt32
  size : Nat
  data : Nat → UInt8
  tstamp : Nat
  size_lt : size < 2 ^ 16
  tstamp_lt : tstamp < 2 ^ 64

namespace Frame

/-- The bucket of the frame. -/
def pos (f : Frame) : Nat := f.rssHash.toNat % dupWindowSize

def minim (f : Frame) : Nat := min f.size dupCheckLen

end Frame

/-- `memcmp` of the bytes that are kept. -/
def SameData (f : Frame) (p : DupInfo) : Prop := ∀ j < f.minim, p.data j = f.data j

instance (f : Frame) (p : DupInfo) : Decidable (SameData f p) :=
  inferInstanceAs (Decidable (∀ j < f.minim, p.data j = f.data j))

/-- The variables of the loop. -/
structure Search where
  ret : Bool
  dif : Nat
  k : Nat

/-- One level of the bucket. -/
def checkLevel (f : Frame) (bucket : Nat → DupInfo) (s : Search) (i : Nat) : Search :=
  let p := bucket i
  if p.tstamp ≠ 0 then
    let dif2 := sub64 f.tstamp p.tstamp
    let ret := if dif2 ≤ dupTimeWindow then
        if f.size = p.len ∧ SameData f p then true else s.ret
      else s.ret
    if dif2 > s.dif then ⟨ret, dif2, i⟩ else ⟨ret, s.dif, s.k⟩
  else ⟨s.ret, f.tstamp, i⟩

def search (levels : Nat) (f : Frame) (bucket : Nat → DupInfo) : Search :=
  (List.range levels).foldl (checkLevel f bucket) ⟨false, 0, 0⟩

/-- The entry that the frame overwrites. -/
def overwrite (f : Frame) (p : DupInfo) : DupInfo where
  tstamp := f.tstamp
  len := f.size % 2 ^ 16
  data j := if j < f.minim then f.data j else p.data j

/-- The table holds the entries by level and bucket. -/
def hpcapCheckDuplicate (levels : Nat) (f : Frame) (duptable : Nat → Nat → DupInfo) :
    Bool × (Nat → Nat → DupInfo) :=
  let s := search levels f fun i => duptable i f.pos
  (s.ret, fun i pos => if i = s.k ∧ pos = f.pos then overwrite f (duptable i pos) else duptable i pos)

/-- The table as it is allocated. -/
def hpcapAllocateDuptable : Nat → Nat → DupInfo := fun _ _ => ⟨0, 0, fun _ => 0⟩

/-- The table after some frames. -/
def duptableAfter (levels : Nat) (frames : List Frame) : Nat → Nat → DupInfo :=
  frames.foldl (fun duptable f => (hpcapCheckDuplicate levels f duptable).2) hpcapAllocateDuptable

/-- Whether a frame is taken for a duplicate when it comes after some others. -/
def flagged (levels : Nat) (frames : List Frame) (g : Frame) : Bool :=
  (hpcapCheckDuplicate levels g (duptableAfter levels frames)).1

/-- The frames of a bucket. -/
def ofBucket (frames : List Frame) (pos : Nat) : List Frame := frames.filter fun f => f.pos == pos

/-- The frames are the same as far as they are compared, and the second comes in time. -/
structure Repeats (f g : Frame) : Prop where
  pos : f.pos = g.pos
  size : f.size = g.size
  data : ∀ j < g.minim, f.data j = g.data j
  window : g.tstamp - f.tstamp ≤ dupTimeWindow

/-- Just the frames are flagged that repeat another, with fewer than `levels` of the bucket
between them: all of those, and none that repeats no frame. -/
structure Right (levels : Nat) (frames : List Frame) : Prop where
  complete : ∀ xs f ys g zs, frames = xs ++ f :: (ys ++ g :: zs) → Repeats f g →
    (ofBucket ys g.pos).length < levels → flagged levels (xs ++ f :: ys) g = true
  sound : ∀ xs g zs, frames = xs ++ g :: zs → flagged levels xs g = true → ∃ f ∈ xs, Repeats f g

/-- No frame has the time stamp of an empty entry, and whenever a frame of a bucket takes the
place of the one `levels` before it, that one is earlier than the next, unless it lies at the
first level. -/
def Distinct (levels : Nat) (frames : List Frame) : Prop :=
  (∀ f ∈ frames, f.tstamp ≠ 0) ∧
    ∀ pos n a b, (ofBucket frames pos)[n]? = some a → (ofBucket frames pos)[n + 1]? = some b →
      n + levels < (ofBucket frames pos).length → n % levels ≠ levels - 1 → a.tstamp < b.tstamp

def Sorted (frames : List Frame) : Prop := frames.Pairwise fun f g => f.tstamp ≤ g.tstamp

section Search

variable {levels i : Nat} {f g : Frame} {bucket : Nat → DupInfo} {s : Search}

theorem search_succ (levels : Nat) (g : Frame) (bucket : Nat → DupInfo) :
    search (levels + 1) g bucket = checkLevel g bucket (search levels g bucket) levels := by
  rw [search, List.range_succ, List.foldl_append]
  rfl

/-- That a frame repeats what an entry holds. -/
def Matches (g : Frame) (p : DupInfo) : Prop :=
  p.tstamp ≠ 0 ∧ sub64 g.tstamp p.tstamp ≤ dupTimeWindow ∧ g.size = p.len ∧ SameData g p

theorem checkLevel_ret : (checkLevel g bucket s i).ret = true ↔
    s.ret = true ∨ Matches g (bucket i) := by
  unfold checkLevel Matches
  dsimp only
  split
  · split <;> split <;> simp_all [or_comm]
  · simp_all

theorem search_ret : (search levels g bucket).ret = true ↔ ∃ i < levels, Matches g (bucket i) := by
  induction levels with
  | zero => exact iff_of_false Bool.false_ne_true fun ⟨_, h, _⟩ => absurd h (Nat.not_lt_zero _)
  | succ levels ih =>
    rw [search_succ, checkLevel_ret, ih]
    constructor
    · rintro (⟨i, hi, h⟩ | h)
      · exact ⟨i, Nat.lt_succ_of_lt hi, h⟩
      · exact ⟨levels, Nat.lt_succ_self _, h⟩
    · rintro ⟨i, hi, h⟩
      obtain hi | rfl := Nat.lt_succ_iff_lt_or_eq.mp hi
      · exact .inl ⟨i, hi, h⟩
      · exact .inr h

theorem checkLevel_empty (h : (bucket i).tstamp = 0) :
    checkLevel g bucket s i = ⟨s.ret, g.tstamp, i⟩ := by
  rw [checkLevel, h]
  rfl

/-- The age of an entry is compared with the greatest so far. -/
theorem checkLevel_full (h : (bucket i).tstamp ≠ 0) (hle : (bucket i).tstamp ≤ g.tstamp) :
    (checkLevel g bucket s i).dif = max s.dif (g.tstamp - (bucket i).tstamp) ∧
      (checkLevel g bucket s i).k =
        if s.dif < g.tstamp - (bucket i).tstamp then i else s.k := by
  rw [checkLevel, if_pos h, sub64_of_le hle g.tstamp_lt]
  dsimp only
  split
  · rename_i hlt
    exact ⟨(Nat.max_eq_right (Nat.le_of_lt hlt)).symm, rfl⟩
  · rename_i hge
    exact ⟨(Nat.max_eq_left (Nat.not_lt.mp hge)).symm, rfl⟩

/-- The last entry that is empty is overwritten. -/
theorem search_empty {target : Nat} (htarget : (bucket target).tstamp = 0) (hlt : target < levels)
    (hfull : ∀ i, target < i → i < levels →
      (bucket i).tstamp ≠ 0 ∧ (bucket i).tstamp ≤ g.tstamp) :
    (search levels g bucket).dif = g.tstamp ∧ (search levels g bucket).k = target := by
  induction levels with
  | zero => cases hlt
  | succ levels ih =>
    rw [search_succ]
    obtain hlt | rfl := Nat.lt_succ_iff_lt_or_eq.mp hlt
    · obtain ⟨hdif, hk⟩ := ih hlt fun i hi hi' => hfull i hi (Nat.lt_succ_of_lt hi')
      obtain ⟨hsome, hle⟩ := hfull levels hlt (Nat.lt_succ_self _)
      obtain ⟨hdif', hk'⟩ := @checkLevel_full levels g bucket (search levels g bucket) hsome hle
      rw [hdif', hk', hdif, if_neg (by omega), hk]
      exact ⟨by omega, rfl⟩
    · rw [checkLevel_empty htarget]
      exact ⟨rfl, rfl⟩

/-- Entries that are later than a time stamp are younger. -/
theorem search_younger {tstamp : Nat} (hpos : 0 < levels) (hfull : ∀ i < levels,
    (bucket i).tstamp ≠ 0 ∧ (bucket i).tstamp ≤ g.tstamp ∧ tstamp < (bucket i).tstamp) :
    (search levels g bucket).dif < g.tstamp - tstamp := by
  induction levels with
  | zero => cases hpos
  | succ levels ih =>
    obtain ⟨hsome, hle, hlt⟩ := hfull levels (Nat.lt_succ_self _)
    obtain ⟨hdif, -⟩ := @checkLevel_full levels g bucket (search levels g bucket) hsome hle
    rw [search_succ, hdif]
    obtain rfl | hpos := Nat.eq_zero_or_pos levels
    · have hzero : (search 0 g bucket).dif = 0 := rfl
      omega
    · have := ih hpos fun i hi => hfull i (Nat.lt_succ_of_lt hi)
      omega

/-- In a full bucket the first of the oldest entries is overwritten. -/
theorem search_full {target : Nat} (hlt : target < levels)
    (hfull : ∀ i < levels, (bucket i).tstamp ≠ 0 ∧ (bucket i).tstamp ≤ g.tstamp)
    (hbefore : ∀ i < target, (bucket target).tstamp < (bucket i).tstamp)
    (hafter : ∀ i < levels, (bucket target).tstamp ≤ (bucket i).tstamp) :
    (search levels g bucket).dif = g.tstamp - (bucket target).tstamp ∧
      (search levels g bucket).k = target := by
  induction levels with
  | zero => cases hlt
  | succ levels ih =>
    obtain ⟨hsome, hle⟩ := hfull levels (Nat.lt_succ_self _)
    obtain ⟨hdif, hk⟩ := @checkLevel_full levels g bucket (search levels g bucket) hsome hle
    rw [search_succ, hdif, hk]
    obtain hlt | rfl := Nat.lt_succ_iff_lt_or_eq.mp hlt
    · obtain ⟨hdif, hk⟩ := ih hlt (fun i hi => hfull i (Nat.lt_succ_of_lt hi))
        fun i hi => hafter i (Nat.lt_succ_of_lt hi)
      have := hafter levels (Nat.lt_succ_self _)
      rw [hdif, hk, if_neg (by omega)]
      exact ⟨by omega, rfl⟩
    · obtain rfl | hpos := Nat.eq_zero_or_pos target
      · have hzero : (search 0 g bucket).dif = 0 ∧ (search 0 g bucket).k = 0 := ⟨rfl, rfl⟩
        rw [hzero.1, hzero.2, ite_self]
        exact ⟨Nat.zero_max _, rfl⟩
      · have hyounger := search_younger (g := g) hpos fun i hi =>
          ⟨(hfull i (Nat.lt_succ_of_lt hi)).1, (hfull i (Nat.lt_succ_of_lt hi)).2, hbefore i hi⟩
        rw [if_pos hyounger]
        exact ⟨by omega, rfl⟩

end Search

section Keeps

variable {levels : Nat} {f g : Frame} {frames fs : List Frame} {bucket : Nat → DupInfo} {pos n i : Nat}

/-- What an entry keeps of a frame. -/
structure Holds (f : Frame) (p : DupInfo) : Prop where
  tstamp : p.tstamp = f.tstamp
  len : p.len = f.size
  data : SameData f p

theorem holds_overwrite (f : Frame) (p : DupInfo) : Holds f (overwrite f p) :=
  ⟨rfl, Nat.mod_eq_of_lt f.size_lt, fun _ hj => if_pos hj⟩

theorem repeats_of_matches {p : DupInfo} (hpos : f.pos = g.pos) (h : Holds f p)
    (hle : f.tstamp ≤ g.tstamp) (hmatch : Matches g p) : Repeats f g := by
  obtain ⟨-, hwindow, hlen, hdata⟩ := hmatch
  rw [h.tstamp, sub64_of_le hle g.tstamp_lt] at hwindow
  have hsize : f.size = g.size := h.len.symm.trans hlen.symm
  refine ⟨hpos, hsize, fun j hj => ?_, hwindow⟩
  have hj' : j < f.minim := by
    rw [Frame.minim, hsize]
    exact hj
  exact (h.data j hj').symm.trans (hdata j hj)

theorem matches_of_repeats {p : DupInfo} (h : Holds f p) (hle : f.tstamp ≤ g.tstamp)
    (hsome : f.tstamp ≠ 0) (hrepeats : Repeats f g) : Matches g p := by
  refine ⟨h.tstamp ▸ hsome, ?_, hrepeats.size.symm.trans h.len.symm, fun j hj => ?_⟩
  · rw [h.tstamp, sub64_of_le hle g.tstamp_lt]
    exact hrepeats.window
  · have hj' : j < f.minim := by
      rw [Frame.minim, hrepeats.size]
      exact hj
    exact (h.data j hj').trans (hrepeats.data j hj)

theorem duptableAfter_snoc (levels : Nat) (frames : List Frame) (g : Frame) :
    duptableAfter levels (frames ++ [g]) =
      (hpcapCheckDuplicate levels g (duptableAfter levels frames)).2 := by
  rw [duptableAfter, List.foldl_append]
  rfl

/-- Whatever an entry holds has come before. -/
theorem exists_frame (levels : Nat) (frames : List Frame) (i pos : Nat)
    (h : (duptableAfter levels frames i pos).tstamp ≠ 0) :
    ∃ f ∈ frames, f.pos = pos ∧ Holds f (duptableAfter levels frames i pos) := by
  induction frames using List.reverseRecOn with
  | nil => exact absurd rfl h
  | append_singleton frames g ih =>
    rw [duptableAfter_snoc, hpcapCheckDuplicate] at h ⊢
    dsimp only at h ⊢
    split at h
    · rename_i htarget
      rw [if_pos htarget]
      exact ⟨g, by simp, htarget.2.symm, holds_overwrite g _⟩
    · rename_i hother
      rw [if_neg hother]
      obtain ⟨f, hf, hpos, hholds⟩ := ih h
      exact ⟨f, List.mem_append_left _ hf, hpos, hholds⟩

/-- The level of the `n`-th frame of a bucket. -/
def levelOf (levels n : Nat) : Nat := levels - 1 - n % levels

/-- The bucket keeps the last frames, each at its level, and the others are empty. -/
structure Keeps (levels : Nat) (fs : List Frame) (bucket : Nat → DupInfo) : Prop where
  held : ∀ n f, fs[n]? = some f → fs.length ≤ n + levels → Holds f (bucket (levelOf levels n))
  empty : ∀ i, fs.length + i < levels → (bucket i).tstamp = 0

/-- Each level but those left empty is that of one of the last frames. -/
theorem exists_number {m : Nat} (hi : i < levels) (him : levels ≤ m + i) :
    ∃ n < m, m ≤ n + levels ∧ levelOf levels n = i := by
  have hdiv := Nat.div_add_mod (m - 1 - (levels - 1 - i)) levels
  have hmod := Nat.mod_lt (m - 1 - (levels - 1 - i)) (Nat.zero_lt_of_lt hi)
  have hn : m - 1 - (m - 1 - (levels - 1 - i)) % levels =
      levels - 1 - i + levels * ((m - 1 - (levels - 1 - i)) / levels) := by omega
  refine ⟨m - 1 - (m - 1 - (levels - 1 - i)) % levels, by omega, by omega, ?_⟩
  rw [levelOf, hn, Nat.add_mul_mod_self_left, Nat.mod_eq_of_lt (by omega)]
  omega

theorem levelOf_ne {m : Nat} (hlt : n < m) (hle : m < n + levels) :
    levelOf levels n ≠ levelOf levels m := by
  intro heq
  have hn := Nat.mod_lt n (y := levels) (by omega)
  have hm := Nat.mod_lt m (y := levels) (by omega)
  rw [levelOf, levelOf] at heq
  have hsame : m % levels = n % levels := by omega
  have hdvd := Nat.dvd_of_mod_eq_zero (Nat.sub_mod_eq_zero_of_mod_eq hsame)
  have := Nat.le_of_dvd (by omega) hdvd
  omega

theorem levelOf_add (levels n : Nat) : levelOf levels (n + levels) = levelOf levels n := by
  rw [levelOf, Nat.add_mod_right, levelOf]

theorem tstamp_le {a b : Nat} (hsorted : Sorted fs) (ha : fs[a]? = some f) (hb : fs[b]? = some g)
    (hab : a ≤ b) : f.tstamp ≤ g.tstamp := by
  obtain ⟨ha', rfl⟩ := List.getElem?_eq_some_iff.mp ha
  obtain ⟨hb', rfl⟩ := List.getElem?_eq_some_iff.mp hb
  obtain rfl | hlt := Nat.eq_or_lt_of_le hab
  · exact Nat.le_refl _
  · exact List.pairwise_iff_getElem.mp hsorted _ _ ha' hb' hlt

/-- The frame at each level that is not left empty. -/
theorem exists_held (h : Keeps levels fs bucket) (hi : i < levels)
    (him : levels ≤ fs.length + i) : ∃ n f, fs[n]? = some f ∧ fs.length ≤ n + levels ∧
      levelOf levels n = i ∧ Holds f (bucket i) := by
  obtain ⟨n, hn, hlast, hlevel⟩ := exists_number hi him
  have hf := List.getElem?_eq_getElem hn
  exact ⟨n, _, hf, hlast, hlevel, hlevel ▸ h.held n _ hf hlast⟩

/-- The frame that comes takes the place of the one `levels` before it, or of an empty entry. -/
theorem search_keeps (hlevels : 0 < levels) (h : Keeps levels fs bucket)
    (hsome : ∀ f ∈ fs, f.tstamp ≠ 0) (hsorted : Sorted (fs ++ [g]))
    (hdistinct : ∀ n a b, fs[n]? = some a → fs[n + 1]? = some b → n + levels = fs.length →
      n % levels ≠ levels - 1 → a.tstamp < b.tstamp) :
    (search levels g bucket).k = levelOf levels fs.length := by
  obtain ⟨hold, -, hnew⟩ := List.pairwise_append.mp hsorted
  have hfull : ∀ i < levels, levels ≤ fs.length + i →
      (bucket i).tstamp ≠ 0 ∧ (bucket i).tstamp ≤ g.tstamp := by
    intro i hi him
    obtain ⟨n, f, hf, -, -, hholds⟩ := exists_held h hi him
    have hmem := List.mem_of_getElem? hf
    rw [hholds.tstamp]
    exact ⟨hsome f hmem, hnew f hmem g (List.mem_singleton_self _)⟩
  by_cases hroom : fs.length < levels
  · have htarget : levelOf levels fs.length = levels - 1 - fs.length := by
      rw [levelOf, Nat.mod_eq_of_lt hroom]
    rw [htarget]
    refine (search_empty (h.empty _ (by omega)) (by omega) fun i hlt hi => hfull i hi ?_).2
    omega
  · obtain ⟨m, hm⟩ := Nat.exists_eq_add_of_le' (Nat.not_lt.mp hroom)
    obtain ⟨a, ha⟩ : ∃ a, fs[m]? = some a := ⟨_, List.getElem?_eq_getElem (by omega)⟩
    have hholds := h.held m a ha (by omega)
    have hlevel : levelOf levels fs.length = levelOf levels m := by rw [hm, levelOf_add]
    have htarget : levelOf levels m < levels := by
      rw [levelOf]
      omega
    rw [hlevel]
    refine (search_full htarget (fun i hi => hfull i hi (by omega)) (fun i hi => ?_)
      fun i hi => ?_).2
    · obtain ⟨n, f, hf, hlast, hn, hheld⟩ := exists_held h (Nat.lt_trans hi htarget) (by omega)
      rw [hholds.tstamp, hheld.tstamp]
      have hne : n ≠ m := by
        rintro rfl
        omega
      have hlt := (List.getElem?_eq_some_iff.mp hf).1
      obtain ⟨b, hb⟩ : ∃ b, fs[m + 1]? = some b := ⟨_, List.getElem?_eq_getElem (by omega)⟩
      have hfirst : m % levels ≠ levels - 1 := by
        rw [levelOf] at hi
        omega
      exact Nat.lt_of_lt_of_le (hdistinct m a b ha hb hm.symm hfirst)
        (tstamp_le hold hb hf (by omega))
    · obtain ⟨n, f, hf, hlast, -, hheld⟩ := exists_held h hi (by omega)
      rw [hholds.tstamp, hheld.tstamp]
      exact tstamp_le hold ha hf (by omega)

theorem Keeps.next (h : Keeps levels fs bucket)
    (hk : (search levels g bucket).k = levelOf levels fs.length) :
    Keeps levels (fs ++ [g]) fun i =>
      if i = (search levels g bucket).k then overwrite g (bucket i) else bucket i := by
  rw [hk]
  refine ⟨fun n f hf hlast => ?_, fun i hi => ?_⟩
  · rw [List.length_append, List.length_singleton] at hlast
    obtain hlt | rfl := Nat.lt_succ_iff_lt_or_eq.mp (by
      have := (List.getElem?_eq_some_iff.mp hf).1
      rwa [List.length_append, List.length_singleton] at this)
    · rw [List.getElem?_append_left hlt] at hf
      rw [if_neg (levelOf_ne hlt (by omega))]
      exact h.held n f hf (by omega)
    · rw [List.getElem?_append_right (Nat.le_refl _), Nat.sub_self] at hf
      obtain rfl := Option.some.inj hf
      rw [if_pos rfl]
      exact holds_overwrite _ _
  · rw [List.length_append, List.length_singleton] at hi
    have hne : i ≠ levelOf levels fs.length := by
      rw [levelOf, Nat.mod_eq_of_lt (by omega)]
      omega
    rw [if_neg hne]
    exact h.empty i (by omega)

theorem ofBucket_append (xs ys : List Frame) (pos : Nat) :
    ofBucket (xs ++ ys) pos = ofBucket xs pos ++ ofBucket ys pos := List.filter_append ..

theorem Distinct.left {xs ys : List Frame} (h : Distinct levels (xs ++ ys)) :
    Distinct levels xs := by
  obtain ⟨hsome, hlt⟩ := h
  refine ⟨fun f hf => hsome f (List.mem_append_left _ hf), fun pos n a b ha hb hn => ?_⟩
  have hfront : ∀ (k : Nat) (c : Frame), (ofBucket xs pos)[k]? = some c →
      (ofBucket (xs ++ ys) pos)[k]? = some c := by
    intro k c hc
    rw [ofBucket_append, List.getElem?_append_left (List.getElem?_eq_some_iff.mp hc).1, hc]
  refine hlt pos n a b (hfront n a ha) (hfront (n + 1) b hb) ?_
  rw [ofBucket_append, List.length_append]
  omega

/-- In every run the buckets keep their last frames. -/
theorem keeps_run (hlevels : 0 < levels) (hsorted : Sorted frames) (hdistinct : Distinct levels frames)
    (pos : Nat) : Keeps levels (ofBucket frames pos) fun i => duptableAfter levels frames i pos := by
  induction frames using List.reverseRecOn with
  | nil => exact ⟨fun n f hf => absurd hf (by simp [ofBucket]), fun i _ => rfl⟩
  | append_singleton frames g ih =>
    have hkeeps := ih (List.pairwise_append.mp hsorted).1 hdistinct.left
    rw [ofBucket_append, duptableAfter_snoc]
    by_cases hpos : g.pos = pos
    · subst hpos
      have hone : ofBucket [g] g.pos = [g] := by simp [ofBucket]
      have hfilter := List.Pairwise.filter (fun f => f.pos == g.pos) hsorted
      have hk := search_keeps hlevels hkeeps
        (fun f hf => hdistinct.left.1 f (List.mem_filter.mp hf).1)
        (by rw [← hone, ← ofBucket_append]; exact hfilter) fun n a b ha hb hn hne => by
          refine hdistinct.2 g.pos n a b ?_ ?_ ?_ hne
          · rw [ofBucket_append, List.getElem?_append_left (List.getElem?_eq_some_iff.mp ha).1, ha]
          · rw [ofBucket_append, List.getElem?_append_left (List.getElem?_eq_some_iff.mp hb).1, hb]
          · rw [ofBucket_append, hone, List.length_append, List.length_singleton]
            omega
      have hnext := hkeeps.next hk
      rw [hone]
      simp only [hpcapCheckDuplicate, and_true]
      exact hnext
    · have hnone : ofBucket [g] pos = [] := by simp [ofBucket, hpos]
      have hother : ∀ i, (hpcapCheckDuplicate levels g (duptableAfter levels frames)).2 i pos =
          duptableAfter levels frames i pos := fun i => if_neg fun h => hpos h.2.symm
      simp only [hnone, List.append_nil, hother]
      exact hkeeps

end Keeps

/-- Runs in which no frame takes the place of another one than the oldest flag the duplicates,
and flag nothing else. -/
theorem check_duplicate_right (levels : Nat) (hlevels : 0 < levels) (frames : List Frame)
    (hsorted : Sorted frames) (hdistinct : Distinct levels frames) : Right levels frames := by
  refine ⟨fun xs f ys g zs hframes hrepeats hfew => ?_, fun xs g zs hframes hflag => ?_⟩
  · have hsplit : frames = (xs ++ f :: ys) ++ g :: zs := by simp [hframes]
    rw [hsplit] at hsorted hdistinct
    obtain ⟨hbefore, -, hnew⟩ := List.pairwise_append.mp hsorted
    have hkeeps := keeps_run hlevels hbefore hdistinct.left g.pos
    have hbucket : ofBucket (xs ++ f :: ys) g.pos =
        ofBucket xs g.pos ++ f :: ofBucket ys g.pos := by
      simp [ofBucket, hrepeats.pos]
    have hf : (ofBucket (xs ++ f :: ys) g.pos)[(ofBucket xs g.pos).length]? = some f := by
      rw [hbucket, List.getElem?_append_right (Nat.le_refl _), Nat.sub_self]
      rfl
    have hholds := hkeeps.held _ f hf (by
      rw [hbucket, List.length_append, List.length_cons]
      omega)
    have hmem : f ∈ xs ++ f :: ys := by simp
    rw [flagged, hpcapCheckDuplicate, search_ret]
    refine ⟨levelOf levels (ofBucket xs g.pos).length, ?_, matches_of_repeats hholds
      (hnew f hmem g List.mem_cons_self) (hdistinct.left.1 f hmem) hrepeats⟩
    rw [levelOf]
    omega
  · rw [flagged, hpcapCheckDuplicate, search_ret] at hflag
    obtain ⟨i, -, hmatch⟩ := hflag
    obtain ⟨f, hf, hpos, hholds⟩ := exists_frame levels xs i g.pos hmatch.1
    rw [hframes] at hsorted
    have hle := (List.pairwise_append.mp hsorted).2.2 f hf g List.mem_cons_self
    exact ⟨f, hf, repeats_of_matches hpos hholds hle hmatch⟩

/-- A frame of zeros in the first bucket. -/
def zeros (size : Fin (2 ^ 16)) (tstamp : Fin (2 ^ 64)) : Frame :=
  ⟨0, size, fun _ => 0, tstamp, size.isLt, tstamp.isLt⟩

/-- Three frames at different times, the first again at the end. -/
theorem check_duplicate_right_three : Right 2 [zeros 60 1, zeros 61 2, zeros 60 3] := by
  refine check_duplicate_right 2 (by decide) _ ?_ ⟨by decide, fun pos n a b ha hb hn _ => ?_⟩
  · unfold Sorted
    decide
  · by_cases hpos : pos = 0
    · subst hpos
      have hall : ofBucket [zeros 60 1, zeros 61 2, zeros 60 3] 0 =
          [zeros 60 1, zeros 61 2, zeros 60 3] := rfl
      rw [hall] at ha hb hn
      obtain rfl : n = 0 := by
        simp only [List.length_cons, List.length_nil] at hn
        omega
      obtain rfl := Option.some.inj ha
      obtain rfl := Option.some.inj hb
      decide
    · have hnone : ofBucket [zeros 60 1, zeros 61 2, zeros 60 3] pos = [] := by
        simp [ofBucket, zeros, Frame.pos, Ne.symm hpos]
      rw [hnone] at ha
      cases ha

/-- Three frames at the same time: the third takes the place of the second, which comes again. -/
theorem equal_tstamps_lose : ¬ ∀ (levels : Nat) (frames : List Frame), 0 < levels →
    Sorted frames → Right levels frames := by
  intro h
  have hright := h 2 [zeros 60 1, zeros 61 1, zeros 62 1, zeros 61 1] (by decide)
    (by simp [Sorted, zeros])
  have hflag := hright.complete [zeros 60 1] (zeros 61 1) [zeros 62 1] (zeros 61 1) [] rfl
    ⟨rfl, rfl, fun _ _ => rfl, by decide⟩ (by decide)
  have hlost : flagged 2 [zeros 60 1, zeros 61 1, zeros 62 1] (zeros 61 1) = false := by
    decide +kernel
  exact Bool.false_ne_true (hlost.symm.trans hflag)

end Hpcap.Dups
