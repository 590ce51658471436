import Hpcap.Capture
import Hpcap.Patch
import Hpcap.Read

namespace Hpcap.WriteBlock

open Hpcap.Patch Hpcap.Reservation Hpcap.Transition
open Hpcap.Read (minimo)
open Hpcap.Client (Handle hpcapAdvanceRdoffBy)

/-- `HPCAP_BS`. -/
abbrev hpcapBs : Nat := 4 * 1048576

/-- How many bytes a `write` transfers, of those it was asked to. It fails if none is given. -/
def transferred (len : Nat) (outcome : Option Nat) : Nat := min (outcome.getD 0) len

/-- What it returns, as an unsigned integer. -/
def returned (len : Nat) (outcome : Option Nat) : Nat :=
  if outcome.isNone then 2 ^ 64 - 1 else transferred len outcome

structure Done where
  ret : Nat
  handle : Handle
  appended : List UInt8

variable (buf : Nat → UInt8)

def consumed (h : Handle) (ready : Nat) (appended : List UInt8) : Done :=
  let h := hpcapAdvanceRdoffBy h ready
  ⟨ready, { h with acks := add64 h.acks ready }, appended⟩

/-- `none` if it exits. `o₁` and `o₂` are the outcomes of its writes. -/
def hpcapWriteBlock (h : Handle) (fd : Int) (maxBytesToWrite : Nat) (o₁ o₂ : Option Nat) :
    Option Done :=
  let ready := minimo h.avail maxBytesToWrite
  if ready ≥ hpcapBs then
    let ready := hpcapBs
    if fd ≠ 0 ∧ ready > 0 then
      if add64 h.rdoff ready > h.bufSize then
        if h.rdoff > h.bufSize then none
        else
          let aux := sub64 h.bufSize h.rdoff
          let first := slice buf h.rdoff (transferred aux o₁)
          if returned aux o₁ ≠ aux then some ⟨2 ^ 64 - 1, h, first⟩
          else
            let second := slice buf 0 (transferred (ready - aux) o₂)
            if returned (ready - aux) o₂ ≠ ready - aux then some ⟨2 ^ 64 - 1, h, first ++ second⟩
            else some (consumed h ready (first ++ second))
      else
        let bytes := slice buf h.rdoff (transferred ready o₁)
        if returned ready o₁ ≠ ready then some ⟨2 ^ 64 - 1, h, bytes⟩
        else some (consumed h ready bytes)
    else some (consumed h ready [])
  else some ⟨0, h, []⟩

/-- A handle of a mapped buffer. -/
structure Sound (h : Handle) : Prop where
  size_le : h.bufSize ≤ 2 ^ 63
  rdoff_lt : h.rdoff < h.bufSize
  avail_le : h.avail ≤ h.bufSize
  acks_lt : h.acks < 2 ^ 64

/-- The file gets the `k` bytes that the handle moves over, and none when the call fails. -/
structure InStep (h : Handle) (o : Done) (k : Nat) : Prop where
  appended : o.appended = ring buf h.bufSize h.rdoff k
  rdoff : o.handle.rdoff = (h.rdoff + k) % h.bufSize
  acks : o.handle.acks = add64 h.acks k
  failed : o.ret = 2 ^ 64 - 1 → k = 0 ∧ o.handle = h

def WritesRight (h : Handle) (fd : Int) (maxBytesToWrite : Nat) (o₁ o₂ : Option Nat) : Prop :=
  ∃ o k, hpcapWriteBlock buf h fd maxBytesToWrite o₁ o₂ = some o ∧ InStep buf h o k

/-- The bytes of a block in front of the end of the buffer. -/
def firstPart (h : Handle) : Nat := min (h.bufSize - h.rdoff) hpcapBs

/-- There is no block to write, or its first write transfers nothing, or all of it is
transferred. -/
def Clean (h : Handle) (maxBytesToWrite : Nat) (o₁ o₂ : Option Nat) : Prop :=
  minimo h.avail maxBytesToWrite < hpcapBs ∨ o₁.getD 0 = 0 ∨
    firstPart h ≤ o₁.getD 0 ∧ hpcapBs - firstPart h ≤ o₂.getD 0

instance (h : Handle) (maxBytesToWrite : Nat) (o₁ o₂ : Option Nat) :
    Decidable (Clean h maxBytesToWrite o₁ o₂) := inferInstanceAs (Decidable (_ ∨ _))

/-- How many bytes a call has told its caller of. -/
def Done.moved (o : Done) : Nat := if o.ret = 2 ^ 64 - 1 then 0 else o.ret

/-- A handle and the file its blocks go to. `read` counts what the calls have told of. -/
structure State where
  handle : Handle
  file : List UInt8
  read : Nat

inductive Op
  | renew (avail acks : Nat)
  | block (buf : Nat → UInt8) (fd : Int) (maxBytesToWrite : Nat) (o₁ o₂ : Option Nat)

/-- An acknowledgement and a wait leave the handle with other bytes to read. -/
def step (s : State) : Op → Option State
  | .renew avail acks => some { s with handle := { s.handle with avail := avail, acks := acks } }
  | .block buf fd maxBytesToWrite o₁ o₂ =>
    (hpcapWriteBlock buf s.handle fd maxBytesToWrite o₁ o₂).map fun o =>
      ⟨o.handle, s.file ++ o.appended, s.read + o.moved⟩

variable (stream : Nat → UInt8)

/-- The bytes that the handle may read are the next ones of the stream. -/
def Shows (s : State) (buf : Nat → UInt8) : Prop :=
  ∀ j < s.handle.avail - s.handle.acks,
    buf ((s.handle.rdoff + j) % s.handle.bufSize) = stream (s.read + j)

/-- The calls are clean, and a block that is written is still to be read. -/
def Allowed (s : State) : Op → Prop
  | .renew avail acks => avail ≤ s.handle.bufSize ∧ acks ≤ avail
  | .block buf fd maxBytesToWrite o₁ o₂ =>
    fd ≠ 0 ∧ Shows stream s buf ∧ Clean s.handle maxBytesToWrite o₁ o₂ ∧
      (minimo s.handle.avail maxBytesToWrite < hpcapBs ∨
        s.handle.acks + hpcapBs ≤ s.handle.avail)

/-- The file holds the beginning of the stream, up to where the handle reads on. -/
structure Follows (h : Handle) (s : State) : Prop where
  file : s.file = slice stream 0 s.read
  rdoff : s.handle.rdoff = (h.rdoff + s.read) % h.bufSize

section Call

variable {buf} {h : Handle} {fd : Int} {maxBytesToWrite len : Nat} {o₁ o₂ outcome : Option Nat}

variable (len outcome) in
theorem returned_eq_iff (hpos : 0 < len) (hlt : len < 2 ^ 64 - 1) :
    returned len outcome = len ↔ len ≤ outcome.getD 0 := by
  cases outcome with
  | none =>
    have hret : returned len none = 2 ^ 64 - 1 := rfl
    rw [hret, Option.getD_none]
    omega
  | some k =>
    have hret : returned len (some k) = min k len := rfl
    rw [hret, Option.getD_some]
    omega

theorem transferred_of_le (hle : len ≤ outcome.getD 0) : transferred len outcome = len :=
  Nat.min_eq_right hle

theorem transferred_of_lt (hlt : outcome.getD 0 < len) :
    transferred len outcome = outcome.getD 0 :=
  Nat.min_eq_left hlt.le

theorem Sound.inStep_nothing (hs : Sound h) (ret : Nat) : InStep buf h ⟨ret, h, []⟩ 0 :=
  ⟨rfl, (Nat.mod_eq_of_lt hs.rdoff_lt).symm,
    (add64_small (b := 0) hs.acks_lt).symm, fun _ => ⟨rfl, rfl⟩⟩

/-- A call that fails is right if it has transferred nothing. -/
theorem Sound.inStep_failed (hs : Sound h) {bytes : List UInt8} :
    (∃ k, InStep buf h ⟨2 ^ 64 - 1, h, bytes⟩ k) ↔ bytes = [] := by
  constructor
  · rintro ⟨k, hk⟩
    have happended : bytes = ring buf h.bufSize h.rdoff k := hk.appended
    rw [happended, (hk.failed rfl).1]
    rfl
  · rintro rfl
    exact ⟨0, hs.inStep_nothing _⟩

theorem Sound.consumed (hs : Sound h) (k : Nat) (bytes : List UInt8) :
    Sound (consumed h k bytes).handle :=
  ⟨hs.size_le, Nat.mod_lt _ (Nat.zero_lt_of_lt hs.rdoff_lt), hs.avail_le,
    Nat.mod_lt _ (by norm_num)⟩

variable (buf) in
theorem Sound.inStep_consumed (hs : Sound h) {k : Nat} (hk : k < 2 ^ 63) :
    InStep buf h (WriteBlock.consumed h k (ring buf h.bufSize h.rdoff k)) k := by
  have hlt := hs.rdoff_lt
  have hle := hs.size_le
  have hsum : add64 h.rdoff k = h.rdoff + k := add64_small (by omega)
  refine ⟨rfl, ?_, rfl, fun hret => ?_⟩
  · change add64 h.rdoff k % h.bufSize = _
    rw [hsum]
  · have hret : k = 2 ^ 64 - 1 := hret
    omega

theorem firstPart_fits (hfit : h.rdoff + hpcapBs ≤ h.bufSize) : firstPart h = hpcapBs :=
  Nat.min_eq_right (by omega)

theorem Sound.firstPart_wraps (hs : Sound h) (hover : h.bufSize < h.rdoff + hpcapBs) :
    firstPart h = h.bufSize - h.rdoff := by
  have hlt := hs.rdoff_lt
  exact Nat.min_eq_left (by omega)

theorem Sound.firstPart_pos (hs : Sound h) : 0 < firstPart h := by
  have hlt := hs.rdoff_lt
  exact Nat.lt_min.mpr ⟨by omega, by norm_num⟩

variable (buf o₁ o₂) in
/-- A block in front of the end of the buffer takes one write. -/
theorem hpcapWriteBlock_fits (hs : Sound h) (hfd : fd ≠ 0)
    (hready : hpcapBs ≤ minimo h.avail maxBytesToWrite) (hfit : h.rdoff + hpcapBs ≤ h.bufSize) :
    hpcapWriteBlock buf h fd maxBytesToWrite o₁ o₂ = some (if hpcapBs ≤ o₁.getD 0
      then consumed h hpcapBs (ring buf h.bufSize h.rdoff hpcapBs)
      else ⟨2 ^ 64 - 1, h, slice buf h.rdoff (o₁.getD 0)⟩) := by
  have hle := hs.size_le
  have hbs : hpcapBs = 4194304 := rfl
  have hsum : add64 h.rdoff hpcapBs = h.rdoff + hpcapBs := add64_small (by omega)
  have hret := returned_eq_iff hpcapBs o₁ (by omega) (by omega)
  simp only [hpcapWriteBlock, ge_iff_le, hready, if_true, hfd, ne_eq, not_false_eq_true, true_and,
    hret]
  rw [if_pos (by omega), hsum, if_neg (by omega)]
  by_cases hall : hpcapBs ≤ o₁.getD 0
  · rw [if_neg (not_not.mpr hall), if_pos hall, transferred_of_le hall, ring_eq_slice buf hfit]
  · rw [if_pos hall, if_neg hall, transferred_of_lt (Nat.not_le.mp hall)]

variable (buf o₁ o₂) in
/-- A block that runs over the end of the buffer takes two. -/
theorem hpcapWriteBlock_wraps (hs : Sound h) (hfd : fd ≠ 0)
    (hready : hpcapBs ≤ minimo h.avail maxBytesToWrite) (hover : h.bufSize < h.rdoff + hpcapBs)
    (hsize : hpcapBs ≤ h.bufSize) :
    hpcapWriteBlock buf h fd maxBytesToWrite o₁ o₂ = some (
      let aux := h.bufSize - h.rdoff
      if aux ≤ o₁.getD 0 then
        if hpcapBs - aux ≤ o₂.getD 0
        then consumed h hpcapBs (ring buf h.bufSize h.rdoff hpcapBs)
        else ⟨2 ^ 64 - 1, h, slice buf h.rdoff aux ++ slice buf 0 (o₂.getD 0)⟩
      else ⟨2 ^ 64 - 1, h, slice buf h.rdoff (o₁.getD 0)⟩) := by
  have hle := hs.size_le
  have hlt := hs.rdoff_lt
  have hbs : hpcapBs = 4194304 := rfl
  have hsum : add64 h.rdoff hpcapBs = h.rdoff + hpcapBs := add64_small (by omega)
  have haux : sub64 h.bufSize h.rdoff = h.bufSize - h.rdoff := sub64_of_le hlt.le (by omega)
  have hret₁ := returned_eq_iff (h.bufSize - h.rdoff) o₁ (by omega) (by omega)
  have hret₂ := returned_eq_iff (hpcapBs - (h.bufSize - h.rdoff)) o₂
    (by omega) (by omega)
  have hwraps := ring_wraps buf (k := hpcapBs - (h.bufSize - h.rdoff)) hlt.le (by omega)
  have hblock : h.bufSize - h.rdoff + (hpcapBs - (h.bufSize - h.rdoff)) = hpcapBs := by omega
  rw [hblock] at hwraps
  simp only [hpcapWriteBlock, ge_iff_le, hready, if_true, hfd, ne_eq, not_false_eq_true, true_and,
    haux, hret₁, hret₂]
  rw [if_pos (by omega), hsum, if_pos hover, if_neg (by omega)]
  by_cases hfirst : h.bufSize - h.rdoff ≤ o₁.getD 0
  · rw [if_neg (not_not.mpr hfirst), if_pos hfirst, transferred_of_le hfirst]
    by_cases hsecond : hpcapBs - (h.bufSize - h.rdoff) ≤ o₂.getD 0
    · rw [if_neg (not_not.mpr hsecond), if_pos hsecond, transferred_of_le hsecond, hwraps]
    · rw [if_pos hsecond, if_neg hsecond, transferred_of_lt (Nat.not_le.mp hsecond)]
  · rw [if_pos hfirst, if_neg hfirst, transferred_of_lt (Nat.not_le.mp hfirst)]

theorem le_of_ready (hready : hpcapBs ≤ minimo h.avail maxBytesToWrite) : hpcapBs ≤ h.avail := by
  rw [minimo] at hready
  split at hready
  · exact hready
  · omega

variable (buf o₁ o₂) in
/-- A block that is ready is written if its two parts are, and else the handle stays. -/
theorem hpcapWriteBlock_ready (hs : Sound h) (hfd : fd ≠ 0)
    (hready : hpcapBs ≤ minimo h.avail maxBytesToWrite) :
    hpcapWriteBlock buf h fd maxBytesToWrite o₁ o₂ = some (if firstPart h ≤ o₁.getD 0 then
        if hpcapBs - firstPart h ≤ o₂.getD 0
        then consumed h hpcapBs (ring buf h.bufSize h.rdoff hpcapBs)
        else ⟨2 ^ 64 - 1, h, slice buf h.rdoff (firstPart h) ++ slice buf 0 (o₂.getD 0)⟩
      else ⟨2 ^ 64 - 1, h, slice buf h.rdoff (o₁.getD 0)⟩) := by
  obtain hover | hfit := Nat.lt_or_ge h.bufSize (h.rdoff + hpcapBs)
  · rw [hs.firstPart_wraps hover]
    exact hpcapWriteBlock_wraps buf o₁ o₂ hs hfd hready hover ((le_of_ready hready).trans hs.avail_le)
  · have hrest : hpcapBs - hpcapBs ≤ o₂.getD 0 := by
      rw [Nat.sub_self]
      exact Nat.zero_le _
    rw [hpcapWriteBlock_fits buf o₁ o₂ hs hfd hready hfit, firstPart_fits hfit, if_pos hrest]

variable (buf o₁ o₂) in
/-- Without a file a block is passed over. -/
theorem hpcapWriteBlock_noFile (hready : hpcapBs ≤ minimo h.avail maxBytesToWrite) :
    hpcapWriteBlock buf h 0 maxBytesToWrite o₁ o₂ = some (consumed h hpcapBs []) := by
  rw [hpcapWriteBlock, if_pos hready]
  exact if_neg fun hgo => hgo.1 rfl

variable (buf fd o₁ o₂) in
theorem hpcapWriteBlock_unready (hready : ¬ hpcapBs ≤ minimo h.avail maxBytesToWrite) :
    hpcapWriteBlock buf h fd maxBytesToWrite o₁ o₂ = some ⟨0, h, []⟩ := by
  rw [hpcapWriteBlock, if_neg hready]

theorem writesRight_of_eq {o : Done}
    (hcall : hpcapWriteBlock buf h fd maxBytesToWrite o₁ o₂ = some o) :
    WritesRight buf h fd maxBytesToWrite o₁ o₂ ↔ ∃ k, InStep buf h o k := by
  simp only [WritesRight, hcall, Option.some.injEq, exists_and_left, exists_eq_left']

/-- The file and the handle stay in step in a call just if it is clean. -/
theorem Sound.writesRight_iff (hs : Sound h) (hfd : fd ≠ 0) :
    WritesRight buf h fd maxBytesToWrite o₁ o₂ ↔ Clean h maxBytesToWrite o₁ o₂ := by
  rw [Clean]
  by_cases hready : hpcapBs ≤ minimo h.avail maxBytesToWrite
  · have hpart := hs.firstPart_pos
    rw [writesRight_of_eq (hpcapWriteBlock_ready buf o₁ o₂ hs hfd hready)]
    by_cases hfirst : firstPart h ≤ o₁.getD 0
    · rw [if_pos hfirst]
      by_cases hsecond : hpcapBs - firstPart h ≤ o₂.getD 0
      · rw [if_pos hsecond]
        exact iff_of_true ⟨_, hs.inStep_consumed buf (by norm_num)⟩ (.inr (.inr ⟨hfirst, hsecond⟩))
      · rw [if_neg hsecond, hs.inStep_failed, List.append_eq_nil_iff, slice_eq_nil]
        omega
    · rw [if_neg hfirst, hs.inStep_failed, slice_eq_nil]
      omega
  · have hcall := hpcapWriteBlock_unready buf fd o₁ o₂ hready
    exact iff_of_true ⟨_, 0, hcall, hs.inStep_nothing 0⟩ (.inl (Nat.not_le.mp hready))

theorem consumed_handle {k : Nat} {bytes : List UInt8} (hk : h.acks + k < 2 ^ 64) :
    (consumed h k bytes).handle = { hpcapAdvanceRdoffBy h k with
      acks := (hpcapAdvanceRdoffBy h k).acks + k } := by
  have hsum : add64 h.acks k = h.acks + k := add64_small hk
  simp only [consumed, hpcapAdvanceRdoffBy, hsum]

variable (buf) in
/-- A clean call leaves everything as it is, or writes a block. -/
theorem Sound.clean_call (hs : Sound h) (hfd : fd ≠ 0) (hc : Clean h maxBytesToWrite o₁ o₂) :
    (∃ ret, (ret = 0 ∨ ret = 2 ^ 64 - 1) ∧
        hpcapWriteBlock buf h fd maxBytesToWrite o₁ o₂ = some ⟨ret, h, []⟩) ∨
      hpcapBs ≤ minimo h.avail maxBytesToWrite ∧
        hpcapWriteBlock buf h fd maxBytesToWrite o₁ o₂ =
          some (WriteBlock.consumed h hpcapBs (ring buf h.bufSize h.rdoff hpcapBs)) := by
  by_cases hready : hpcapBs ≤ minimo h.avail maxBytesToWrite
  · rw [hpcapWriteBlock_ready buf o₁ o₂ hs hfd hready]
    obtain hunready | hzero | ⟨hfirst, hsecond⟩ := hc
    · exact absurd hready (Nat.not_le.mpr hunready)
    · refine .inl ⟨2 ^ 64 - 1, .inr rfl, ?_⟩
      rw [hzero, if_neg (Nat.not_le.mpr hs.firstPart_pos)]
      rfl
    · rw [if_pos hfirst, if_pos hsecond]
      exact .inr ⟨hready, rfl⟩
  · exact .inl ⟨0, .inl rfl, hpcapWriteBlock_unready buf fd o₁ o₂ hready⟩

/-- Where all writes succeed, the capture loop's block leaves the handle so. -/
theorem Sound.capture_block {s : Capture.State} (hs : Sound s.handle) (hfd : fd ≠ 0)
    (hacks : s.handle.acks + hpcapBs < 2 ^ 64) (pc : Capture.Pc) :
    (Capture.hpcapWriteBlock hpcapBs maxBytesToWrite s pc).map Capture.State.handle =
      (hpcapWriteBlock buf s.handle fd maxBytesToWrite (some hpcapBs) (some hpcapBs)).map
        Done.handle := by
  have hmin : minimo s.handle.avail maxBytesToWrite = min s.handle.avail maxBytesToWrite := by
    rw [minimo]
    split <;> omega
  rw [Capture.hpcapWriteBlock, ← hmin]
  by_cases hready : hpcapBs ≤ minimo s.handle.avail maxBytesToWrite
  · have hpart : firstPart s.handle ≤ hpcapBs := Nat.min_le_right _ _
    have hlt := hs.rdoff_lt
    have hsecond : hpcapBs - firstPart s.handle ≤ hpcapBs := Nat.sub_le _ _
    have hcall := hpcapWriteBlock_ready buf (some hpcapBs) (some hpcapBs) hs hfd hready
    rw [Option.getD_some, if_pos hpart, if_pos hsecond] at hcall
    have hexit : ¬ (s.handle.rdoff + hpcapBs > s.handle.bufSize ∧ s.handle.rdoff > s.handle.bufSize) :=
      fun hover => absurd hover.2 (Nat.not_lt.mpr hlt.le)
    rw [if_neg (Nat.not_lt.mpr hready), if_neg hexit, hcall, Option.map_some, Option.map_some,
      consumed_handle hacks]
  · rw [if_pos (Nat.not_le.mp hready), hpcapWriteBlock_unready _ _ _ _ hready]
    rfl

end Call

section Run

variable {buf stream} {h : Handle} {s t : State} {fd : Int} {maxBytesToWrite : Nat}
  {o₁ o₂ : Option Nat}

/-- A block that is still to be read comes next in the stream. -/
theorem Shows.ring (hshows : Shows stream s buf) {k : Nat}
    (hk : s.handle.acks + k ≤ s.handle.avail) :
    ring buf s.handle.bufSize s.handle.rdoff k = slice stream s.read k := by
  apply List.map_congr_left
  intro j hj
  have hj : j < k := List.mem_range.mp hj
  exact hshows j (by omega)

/-- What a run keeps. -/
structure Kept (stream : Nat → UInt8) (h : Handle) (s : State) : Prop where
  sound : Sound s.handle
  bufSize : s.handle.bufSize = h.bufSize
  follows : Follows stream h s

theorem Kept.consumed (hkept : Kept stream h s) (hshows : Shows stream s buf) {k : Nat}
    (hk : k < 2 ^ 63) (hfits : s.handle.acks + k ≤ s.handle.avail) :
    let o := WriteBlock.consumed s.handle k (Patch.ring buf s.handle.bufSize s.handle.rdoff k)
    Kept stream h ⟨o.handle, s.file ++ o.appended, s.read + k⟩ := by
  obtain ⟨hs, hsize, hfile, hrdoff⟩ := hkept
  have hin := hs.inStep_consumed buf hk
  refine ⟨hs.consumed k (Patch.ring buf s.handle.bufSize s.handle.rdoff k), hsize, ⟨?_, ?_⟩⟩
  · dsimp only
    rw [hin.appended, hshows.ring hfits, hfile, slice_add, Nat.zero_add]
  · dsimp only
    rw [hin.rdoff, hrdoff, hsize, Nat.mod_add_mod, Nat.add_assoc]

theorem Kept.step (hkept : Kept stream h s) {a : Op} (ha : Allowed stream s a)
    (hstep : step s a = some t) : Kept stream h t := by
  have ⟨hs, hsize, hfile, hrdoff⟩ := hkept
  cases a with
  | renew avail acks =>
    cases hstep
    obtain ⟨havail, hacks⟩ := ha
    have hle := hs.size_le
    have hlt : acks < 2 ^ 64 := by omega
    exact ⟨⟨hs.size_le, hs.rdoff_lt, havail, hlt⟩, hsize, hfile, hrdoff⟩
  | block buf fd maxBytesToWrite o₁ o₂ =>
    obtain ⟨hfd, hshows, hc, hleft⟩ := ha
    obtain ⟨o, ho, rfl⟩ := Option.map_eq_some_iff.mp hstep
    obtain ⟨ret, hret, hcall⟩ | ⟨hready, hcall⟩ := hs.clean_call buf hfd hc
    · have hmoved : Done.moved ⟨ret, s.handle, []⟩ = 0 := by
        obtain rfl | rfl := hret
        · rfl
        · rfl
      obtain rfl := Option.some.inj (hcall.symm.trans ho)
      rw [hmoved, List.append_nil]
      exact ⟨hs, hsize, hfile, hrdoff⟩
    · have hfits : s.handle.acks + hpcapBs ≤ s.handle.avail := by omega
      have hmoved : (WriteBlock.consumed s.handle hpcapBs (ring buf s.handle.bufSize
          s.handle.rdoff hpcapBs)).moved = hpcapBs := if_neg (by norm_num [WriteBlock.consumed])
      obtain rfl := Option.some.inj (hcall.symm.trans ho)
      rw [hmoved]
      exact hkept.consumed hshows (by norm_num) hfits

variable (buf maxBytesToWrite o₁ o₂ stream) in
/-- A call keeps file and handle in step just if it is clean, and calls that are and that find
a block to be read write the stream, whatever fails and is tried again. -/
theorem write_block_iff (h : Handle) (hs : Sound h) (hfd : fd ≠ 0) :
    (WritesRight buf h fd maxBytesToWrite o₁ o₂ ↔ Clean h maxBytesToWrite o₁ o₂) ∧
      ∀ s, Reach step (Allowed stream) (· = ⟨h, [], 0⟩) s → Follows stream h s := by
  refine ⟨hs.writesRight_iff hfd, fun s hreach => ?_⟩
  refine (hreach.invariant (Kept stream h) ?_ fun s a t hk ha hstep => hk.step ha hstep).follows
  rintro s rfl
  exact ⟨hs, rfl, ⟨rfl, (Nat.mod_eq_of_lt hs.rdoff_lt).symm⟩⟩

end Run

/-- A handle with a block to write, in a buffer of two. -/
def blockHandle : Handle := ⟨0, 0, hpcapBs, 0, 2 * hpcapBs⟩

theorem blockHandle_sound : Sound blockHandle :=
  ⟨by norm_num [blockHandle], by norm_num [blockHandle], by norm_num [blockHandle],
    by norm_num [blockHandle]⟩

/-- A write that fails, and the same block written. -/
theorem write_block_iff_retried :
    Follows (fun _ => 7) blockHandle
      ⟨⟨hpcapBs, hpcapBs, hpcapBs, hpcapBs, 2 * hpcapBs⟩,
        ring (fun _ => 7) (2 * hpcapBs) 0 hpcapBs, hpcapBs⟩ := by
  have hready : hpcapBs ≤ minimo hpcapBs hpcapBs := by norm_num [minimo]
  have hcall (o₁ : Option Nat) := hpcapWriteBlock_fits (fun _ => 7) o₁ none
    blockHandle_sound (by norm_num : (3 : Int) ≠ 0) hready (by norm_num [blockHandle])
  have hfails : step ⟨blockHandle, [], 0⟩ (.block (fun _ => 7) 3 hpcapBs none none) =
      some ⟨blockHandle, [], 0⟩ := by
    rw [step, hcall, if_neg (by norm_num)]
    rfl
  have hallowed (o₁ : Option Nat) (hc : Clean blockHandle hpcapBs o₁ none) :
      Allowed (fun _ => 7) ⟨blockHandle, [], 0⟩ (.block (fun _ => 7) 3 hpcapBs o₁ none) :=
    ⟨by norm_num, fun _ _ => rfl, hc, .inr (by norm_num [blockHandle])⟩
  refine (write_block_iff (fun _ => 7) (fun _ => 7) hpcapBs (some hpcapBs) none blockHandle
    blockHandle_sound (by norm_num : (3 : Int) ≠ 0)).2 _ ?_
  refine .next (.next (.start rfl) (hallowed none (.inr (.inl rfl))) hfails)
    (hallowed (some hpcapBs) ?_) ?_
  · refine .inr (.inr ?_)
    norm_num [firstPart, blockHandle]
  · rw [step, hcall, if_pos (by norm_num)]
    norm_num [consumed, Done.moved, blockHandle, hpcapAdvanceRdoffBy, add64]

/-- The second write of a block fails when half of it has been written. -/
theorem failed_second_write_appends :
    ¬ ∀ (buf : Nat → UInt8) (h : Handle) (fd : Int) (maxBytesToWrite : Nat) (o₁ o₂ : Option Nat),
      Sound h → fd ≠ 0 → WritesRight buf h fd maxBytesToWrite o₁ o₂ := by
  intro hall
  have hs : Sound ⟨0, 3 * 2097152, hpcapBs, 0, 2 * hpcapBs⟩ :=
    ⟨by norm_num, by norm_num, by norm_num, by norm_num⟩
  have hfd : (3 : Int) ≠ 0 := by norm_num
  have hright := hall (fun _ => 7) _ 3 hpcapBs (some 2097152) none hs hfd
  rw [hs.writesRight_iff hfd] at hright
  norm_num [Clean, minimo, firstPart] at hright

end Hpcap.WriteBlock
