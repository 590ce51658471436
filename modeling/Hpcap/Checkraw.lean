import Hpcap.Loops
import Hpcap.RawHeader
import Hpcap.Stdio

namespace Hpcap.Checkraw

open Hpcap.RawHeader Hpcap.Stdio Hpcap.Loops

abbrev nsecsPerSec : Nat := 1000000000

structure Options where
  maxErrors : UInt64
  ignoreCaplen : Bool
  fixErrors : Bool

/-- The header that is written: `bytes` have been read where the last frame starts. -/
def fixedHeader (bytes : List UInt8) (frameStartOffset fileSize : Nat) : RawHeader :=
  if bytes.length < rawHlen then ⟨0, 0, 0, 0⟩
  else
    let payloadStart := frameStartOffset + rawHlen
    let payloadStart := if payloadStart > fileSize then fileSize else payloadStart
    let payloadSize := fileSize - payloadStart
    let header := { ofBytes bytes with caplen := .ofNat payloadSize }
    if payloadSize < 60 then { header with sec := 0, nsec := 0, len := header.caplen } else header

/-- The last argument is how `fwrite` comes out. -/
def fixCapture (file : File) (frameStartOffset fileSize : Nat) (ok : Bool) : Bool × File :=
  let file := (fseek frameStartOffset file).2
  let (bytes, file) := fread rawHlen file
  let file := (fseek frameStartOffset file).2
  fwrite ok (fixedHeader bytes frameStartOffset fileSize).toBytes file

def error (p : Prop) [Decidable p] : UInt64 := if p then 1 else 0

def isPadding (header : RawHeader) : Bool := header.sec == 0 && header.nsec == 0

/-- The errors that the fields of a header give. -/
def headerErrors (o : Options) (fileTstamp : Int) (header : RawHeader) : UInt64 :=
  if isPadding header then error (header.len ≠ header.caplen)
  else
    error (header.nsec.toNat ≥ nsecsPerSec) + error (header.caplen > 1518) +
      error (¬ o.ignoreCaplen ∧ header.caplen < 60) + error (header.len < header.caplen) +
      error (((header.sec + 1).toNat : Int) < fileTstamp)

/-- The variables of the loop, and how often `fwrite` has been called. -/
structure State where
  file : File
  frameCount : Nat
  foundPadding : Bool
  errorCount : UInt64
  calls : Nat
  deriving DecidableEq

def start (content : List UInt8) : State := ⟨rewind content, 0, false, 0, 0⟩

namespace State

def error (s : State) : State := { s with errorCount := s.errorCount + 1 }

/-- The call of `fix_capture`, where `writes` says how the calls of `fwrite` come out. -/
def fix (writes : Nat → Bool) (fileSize frameStartPosition : Nat) (s : State) : Bool × State :=
  let (ok, file) := fixCapture s.file frameStartPosition fileSize (writes s.calls)
  (ok, { s with file := file, calls := s.calls + 1 })

/-- The checks of a header, and the seek to the end of the frame. -/
def check (o : Options) (fileTstamp : Int) (header : RawHeader) (s : State) : State :=
  let frameCount := s.frameCount + 1
  let (sought, file) := fseek (s.file.pos + header.caplen.toNat) s.file
  let s := { s with
    file := file
    frameCount := frameCount
    foundPadding := if isPadding header then frameCount > 1 else s.foundPadding
    errorCount := s.errorCount + headerErrors o fileTstamp header }
  if sought then s else s.error

end State

/-- That the limit of errors stops the reading. -/
def Exceeded (o : Options) (errorCount : UInt64) : Prop :=
  o.maxErrors > 0 ∧ errorCount > o.maxErrors

instance (o : Options) (errorCount : UInt64) : Decidable (Exceeded o errorCount) :=
  inferInstanceAs (Decidable (_ ∧ _))

/-- One pass of the loop. -/
def pass (o : Options) (fileTstamp : Int) (fileSize : Nat) (writes : Nat → Bool) (s : State) :
    State ⊕ State :=
  if s.file.eof then .inr s
  else
    let frameStartPosition := s.file.pos
    let (bytes, file) := fread rawHlen s.file
    let s := { s with file := file }
    if Exceeded o s.errorCount then .inr s
    else if bytes.length ≠ rawHlen then
      if bytes.length > 0 then
        if o.fixErrors then
          let (fixed, s) := s.fix writes fileSize frameStartPosition
          if fixed then .inr s else .inr s.error
        else .inr s.error
      else .inr s
    else if s.foundPadding then .inr s.error
    else
      let s := s.check o fileTstamp (ofBytes bytes)
      if s.file.pos > fileSize then
        if o.fixErrors then
          let (fixed, s) := s.fix writes fileSize frameStartPosition
          if fixed then .inr s else .inl s.error
        else .inl s.error
      else .inl s

/-- `read_raw` of a file that can be opened. -/
def ReadRaw (o : Options) (fileTstamp : Int) (writes : Nat → Bool) (content : List UInt8)
    (s : State) : Prop :=
  Returns (pass o fileTstamp content.length writes) (start content) s

/-- The header that is read at `pos`. -/
def headerAt (content : List UInt8) (pos : Nat) : RawHeader :=
  ofBytes ((content.drop pos).take rawHlen)

/-- Where the seek over the frame at `pos` leads. -/
def nextStart (content : List UInt8) (pos : Nat) : Nat :=
  if pos + rawHlen + (headerAt content pos).caplen.toNat ≤ longMax then
    pos + rawHlen + (headerAt content pos).caplen.toNat
  else pos + rawHlen

/-- The errors of the frame at `pos`, as far as it lies in the file. -/
def frameErrors (o : Options) (fileTstamp : Int) (content : List UInt8) (pos : Nat) : UInt64 :=
  headerErrors o fileTstamp (headerAt content pos) +
    error (¬ pos + rawHlen + (headerAt content pos).caplen.toNat ≤ longMax)

section Pass

variable {o : Options} {fileTstamp : Int} {fileSize : Nat} {writes : Nat → Bool}
variable {s : State} {content : List UInt8}

theorem pass_exceeded (h : Exceeded o s.errorCount) :
    ∃ r, pass o fileTstamp fileSize writes s = .inr r ∧ r.errorCount = s.errorCount := by
  unfold pass
  split
  · exact ⟨s, rfl, rfl⟩
  · exact ⟨_, if_pos h, rfl⟩

/-- There is nothing more to read. -/
theorem pass_end (hlimit : ¬ Exceeded o s.errorCount) (heof : s.file.eof = false)
    (hleft : s.file.left = []) : pass o fileTstamp fileSize writes s =
      .inr { s with file := ⟨s.file.content, s.file.pos, true⟩ } := by
  have hread := @fread_short rawHlen s.file (by simp [hleft])
  simp only [pass, heof, hread, hleft, List.length_nil]
  rw [if_neg Bool.false_ne_true, if_neg hlimit]
  rfl

/-- The file ends in a header. -/
theorem pass_short (fileTstamp : Int) (fileSize : Nat) (writes : Nat → Bool)
    (hlimit : ¬ Exceeded o s.errorCount) (heof : s.file.eof = false) (hleft : s.file.left ≠ [])
    (hshort : s.file.left.length < rawHlen) :
    pass o fileTstamp fileSize writes s =
      let t := { s with file := ⟨s.file.content, s.file.pos + s.file.left.length, true⟩ }
      if o.fixErrors then
        let (fixed, t) := t.fix writes fileSize s.file.pos
        if fixed then .inr t else .inr t.error
      else .inr t.error := by
  have hsome := List.length_pos_iff.mpr hleft
  simp only [pass, heof, fread_short hshort]
  rw [if_neg Bool.false_ne_true, if_neg hlimit, if_pos (Nat.ne_of_lt hshort), if_pos hsome]

theorem pass_found (hlimit : ¬ Exceeded o s.errorCount) (heof : s.file.eof = false)
    (hleft : rawHlen ≤ s.file.left.length) (hfound : s.foundPadding = true) :
    pass o fileTstamp fileSize writes s =
      .inr { s with file := { s.file with pos := s.file.pos + rawHlen } }.error := by
  have hlen : (s.file.left.take rawHlen).length = rawHlen := by
    rw [List.length_take]
    exact Nat.min_eq_left hleft
  simp only [pass, heof, fread_whole hleft, hlen, hfound]
  rw [if_neg Bool.false_ne_true, if_neg hlimit]
  rfl

/-- A header has been read. -/
theorem check_eq (o : Options) (fileTstamp : Int) (heof : s.file.eof = false)
    (hfound : s.foundPadding = false) :
    State.check o fileTstamp (headerAt s.file.content s.file.pos)
      { s with file := { s.file with pos := s.file.pos + rawHlen } } =
      ⟨⟨s.file.content, nextStart s.file.content s.file.pos, false⟩, s.frameCount + 1,
        isPadding (headerAt s.file.content s.file.pos) && 0 < s.frameCount,
        s.errorCount + frameErrors o fileTstamp s.file.content s.file.pos, s.calls⟩ := by
  have hclosing : (if isPadding (headerAt s.file.content s.file.pos) = true then
      decide (s.frameCount + 1 > 1) else s.foundPadding) =
        (isPadding (headerAt s.file.content s.file.pos) && decide (0 < s.frameCount)) := by
    rw [hfound]
    cases isPadding (headerAt s.file.content s.file.pos) <;> simp
  by_cases hsought : s.file.pos + rawHlen + (headerAt s.file.content s.file.pos).caplen.toNat ≤
      longMax
  · simp only [State.check, fseek_ok hsought, hclosing, nextStart, frameErrors, error,
      not_true, if_false, UInt64.add_zero, if_true, hsought]
  · simp only [State.check, fseek, hclosing, nextStart, frameErrors, error,
      not_false_eq_true, if_true, State.error, UInt64.add_assoc, hsought, heof]
    rfl

/-- A header is read. -/
theorem pass_header (hlimit : ¬ Exceeded o s.errorCount) (heof : s.file.eof = false)
    (hleft : rawHlen ≤ s.file.left.length) (hfound : s.foundPadding = false) :
    pass o fileTstamp fileSize writes s =
      let t : State := ⟨⟨s.file.content, nextStart s.file.content s.file.pos, false⟩,
        s.frameCount + 1, isPadding (headerAt s.file.content s.file.pos) && 0 < s.frameCount,
        s.errorCount + frameErrors o fileTstamp s.file.content s.file.pos, s.calls⟩
      if nextStart s.file.content s.file.pos > fileSize then
        if o.fixErrors then
          let (fixed, t) := t.fix writes fileSize s.file.pos
          if fixed then .inr t else .inl t.error
        else .inl t.error
      else .inl t := by
  have hlen : (s.file.left.take rawHlen).length = rawHlen := by
    rw [List.length_take]
    exact Nat.min_eq_left hleft
  have hheader : ofBytes (s.file.left.take rawHlen) = headerAt s.file.content s.file.pos := rfl
  simp only [pass, fread_whole hleft, hlen, hheader, check_eq o fileTstamp heof hfound]
  rw [if_neg (by rw [heof]; exact Bool.false_ne_true), if_neg hlimit, if_neg (not_not.mpr rfl),
    if_neg (by rw [hfound]; exact Bool.false_ne_true)]

theorem fix_written {frameStart : Nat} (hok : writes s.calls = true) :
    (s.fix writes fileSize frameStart).1 = true := by
  simp only [State.fix, fixCapture, hok]
  rfl

end Pass

/-- The frames that are gone through before the limit, or a padding, stops the reading: where
the next one starts, how many they are, whether the last is the closing padding, and the errors. -/
inductive Walk (o : Options) (fileTstamp : Int) (content : List UInt8) :
    Nat → Nat → Bool → UInt64 → Prop
  | start : Walk o fileTstamp content 0 0 false 0
  | next {pos frames : Nat} {errors : UInt64} : Walk o fileTstamp content pos frames false errors →
      ¬ Exceeded o errors → pos + rawHlen ≤ content.length →
      nextStart content pos ≤ content.length →
      Walk o fileTstamp content (nextStart content pos) (frames + 1)
        (isPadding (headerAt content pos) && 0 < frames)
        (errors + frameErrors o fileTstamp content pos)

/-- A frame that is no padding reaches past the end, and is looked at again and again: no
header can be written, and the errors never exceed the limit. -/
def Stuck (o : Options) (fileTstamp : Int) (content : List UInt8) (writes : Nat → Bool) : Prop :=
  o.fixErrors = true ∧ (∀ i, writes i = false) ∧
    ∃ pos frames errors, Walk o fileTstamp content pos frames false errors ∧
      pos + rawHlen ≤ content.length ∧ isPadding (headerAt content pos) = false ∧
      nextStart content pos > content.length ∧
      ∀ m : Nat, ¬ Exceeded o (errors + .ofNat m * (frameErrors o fileTstamp content pos + 1))

section Ends

variable {o : Options} {fileTstamp : Int} {writes : Nat → Bool} {content : List UInt8}
variable {pos frames calls : Nat} {found : Bool} {errors : UInt64}

/-- The state at the start of a frame. -/
def atFrame (content : List UInt8) (pos frames : Nat) (found : Bool) (errors : UInt64)
    (calls : Nat) : State :=
  ⟨⟨content, pos, false⟩, frames, found, errors, calls⟩

theorem left_length : (atFrame content pos frames found errors calls).file.left.length =
    content.length - pos :=
  List.length_drop

theorem pos_le_nextStart : pos + rawHlen ≤ nextStart content pos := by
  unfold nextStart
  split <;> omega

/-- A frame that lies in the file is gone through. -/
theorem pass_inside (hlimit : ¬ Exceeded o errors) (hpos : pos + rawHlen ≤ content.length)
    (hnext : nextStart content pos ≤ content.length) :
    pass o fileTstamp content.length writes (atFrame content pos frames false errors calls) =
      .inl (atFrame content (nextStart content pos) (frames + 1)
        (isPadding (headerAt content pos) && 0 < frames)
        (errors + frameErrors o fileTstamp content pos) calls) := by
  have hleft : rawHlen ≤ (atFrame content pos frames false errors calls).file.left.length := by
    rw [left_length]
    omega
  rw [pass_header hlimit rfl hleft rfl]
  exact if_neg (Nat.not_lt.mpr hnext)

/-- A frame that reaches past the end. -/
theorem pass_past (fileTstamp : Int) (writes : Nat → Bool) (frames calls : Nat)
    (hlimit : ¬ Exceeded o errors) (hpos : pos + rawHlen ≤ content.length)
    (hnext : nextStart content pos > content.length) :
    pass o fileTstamp content.length writes (atFrame content pos frames false errors calls) =
      let t := atFrame content (nextStart content pos) (frames + 1)
        (isPadding (headerAt content pos) && 0 < frames)
        (errors + frameErrors o fileTstamp content pos) calls
      if o.fixErrors then
        let (fixed, t) := t.fix writes content.length pos
        if fixed then .inr t else .inl t.error
      else .inl t.error := by
  have hleft : rawHlen ≤ (atFrame content pos frames false errors calls).file.left.length := by
    rw [left_length]
    omega
  rw [pass_header hlimit rfl hleft rfl]
  exact if_pos hnext

theorem fix_fails (pos : Nat) {past fileSize : Nat} (hpos : pos ≤ longMax)
    (hfail : writes calls = false) :
    (atFrame content past frames found errors calls).fix writes fileSize pos =
      (false, atFrame content pos frames found errors (calls + 1)) := by
  simp only [State.fix, fixCapture, atFrame, hfail, fwrite_fails, fseek_ok hpos]
  rfl

/-- The header of a frame that reaches past the end cannot be written. -/
theorem pass_unfixed (hlimit : ¬ Exceeded o errors) (hpos : pos + rawHlen ≤ content.length)
    (hlen : content.length ≤ longMax) (hnext : nextStart content pos > content.length)
    (hfix : o.fixErrors = true) (hfail : writes calls = false) :
    pass o fileTstamp content.length writes (atFrame content pos frames false errors calls) =
      .inl (atFrame content pos (frames + 1) (isPadding (headerAt content pos) && 0 < frames)
        (errors + (frameErrors o fileTstamp content pos + 1)) (calls + 1)) := by
  rw [pass_past fileTstamp writes frames calls hlimit hpos hnext, if_pos hfix]
  simp only [fix_fails pos (Nat.le_trans (by omega) hlen) hfail, ← UInt64.add_assoc]
  rfl

theorem ends_exceeded (h : Exceeded o errors) : Ends (pass o fileTstamp content.length writes)
    (atFrame content pos frames found errors calls) := by
  obtain ⟨r, hr, -⟩ := pass_exceeded (s := atFrame content pos frames found errors calls) h
  exact ends_done hr

/-- Less than a header is left. -/
theorem ends_short (hpos : content.length < pos + rawHlen) :
    Ends (pass o fileTstamp content.length writes)
      (atFrame content pos frames found errors calls) := by
  by_cases hlimit : Exceeded o errors
  · exact ends_exceeded hlimit
  · by_cases hleft : (atFrame content pos frames found errors calls).file.left = []
    · exact ends_done (pass_end hlimit rfl hleft)
    · have hshort : content.length - pos < rawHlen := by
        simp only [rawHlen] at hpos ⊢
        omega
      have hpass := pass_short fileTstamp content.length writes hlimit rfl hleft
        (by rw [left_length]; exact hshort)
      dsimp only at hpass
      split at hpass
      · split at hpass <;> exact ends_done hpass
      · exact ends_done hpass

theorem ends_found : Ends (pass o fileTstamp content.length writes)
    (atFrame content pos frames true errors calls) := by
  by_cases hpos : pos + rawHlen ≤ content.length
  · by_cases hlimit : Exceeded o errors
    · exact ends_exceeded hlimit
    · exact ends_done (pass_found hlimit rfl (by rw [left_length]; omega) rfl)
  · exact ends_short (Nat.not_le.mp hpos)

/-- A frame that reaches past the end, if the next pass, should there be one, ends. -/
theorem ends_past (hpos : pos + rawHlen ≤ content.length) (hlen : content.length ≤ longMax)
    (hnext : nextStart content pos > content.length)
    (hagain : o.fixErrors = true → writes calls = false →
      Ends (pass o fileTstamp content.length writes)
        (atFrame content pos (frames + 1) (isPadding (headerAt content pos) && 0 < frames)
          (errors + (frameErrors o fileTstamp content pos + 1)) (calls + 1))) :
    Ends (pass o fileTstamp content.length writes)
      (atFrame content pos frames false errors calls) := by
  by_cases hlimit : Exceeded o errors
  · exact ends_exceeded hlimit
  · by_cases hfix : o.fixErrors = true
    · by_cases hok : writes calls = true
      · have hpass := pass_past fileTstamp writes frames calls hlimit hpos hnext
        rw [if_pos hfix] at hpass
        exact ends_done (hpass.trans (if_pos (fix_written hok)))
      · have hfail := Bool.eq_false_iff.mpr hok
        exact (ends_next (pass_unfixed hlimit hpos hlen hnext hfix hfail)).mpr (hagain hfix hfail)
    · have hpass := pass_past fileTstamp writes frames calls hlimit hpos hnext
      rw [if_neg hfix] at hpass
      exact (ends_next hpass).mpr (ends_short (by omega))

/-- A padding that reaches past the end is looked at three times at most. -/
theorem ends_padding (hpos : pos + rawHlen ≤ content.length) (hlen : content.length ≤ longMax)
    (hnext : nextStart content pos > content.length)
    (hpadding : isPadding (headerAt content pos) = true) :
    Ends (pass o fileTstamp content.length writes)
      (atFrame content pos frames false errors calls) := by
  have hlater : ∀ frames errors calls, 0 < frames → Ends (pass o fileTstamp content.length writes)
      (atFrame content pos frames false errors calls) := by
    intro frames errors calls hframes
    refine ends_past hpos hlen hnext fun _ _ => ?_
    rw [hpadding, decide_eq_true hframes]
    exact ends_found
  refine ends_past hpos hlen hnext fun _ _ => ?_
  by_cases hframes : 0 < frames
  · rw [hpadding, decide_eq_true hframes]
    exact ends_found
  · rw [decide_eq_false hframes, Bool.and_false]
    exact hlater _ _ _ (Nat.succ_pos _)

/-- The errors when a frame is looked at for the `m`-th time after the first. -/
theorem errors_again (e : UInt64) (m : Nat) :
    errors + .ofNat m * e + e = errors + .ofNat (m + 1) * e := by
  rw [UInt64.ofNat_add, UInt64.add_mul, UInt64.add_assoc]
  congr 2
  exact (UInt64.one_mul e).symm

/-- A frame that reaches past the end, when it has been looked at `m` times before. -/
theorem pass_again (m : Nat) (hlimit : ¬ Exceeded o (errors +
      .ofNat m * (frameErrors o fileTstamp content pos + 1)))
    (hpos : pos + rawHlen ≤ content.length) (hlen : content.length ≤ longMax)
    (hnext : nextStart content pos > content.length)
    (hpadding : isPadding (headerAt content pos) = false) (hfix : o.fixErrors = true)
    (hfail : writes m = false) :
    pass o fileTstamp content.length writes (atFrame content pos (frames + m) false
        (errors + .ofNat m * (frameErrors o fileTstamp content pos + 1)) m) =
      .inl (atFrame content pos (frames + (m + 1)) false
        (errors + .ofNat (m + 1) * (frameErrors o fileTstamp content pos + 1)) (m + 1)) := by
  rw [pass_unfixed hlimit hpos hlen hnext hfix hfail, errors_again, hpadding]
  rfl

/-- A frame that reaches past the end, if something happens some time. -/
theorem ends_frame (hpos : pos + rawHlen ≤ content.length) (hlen : content.length ≤ longMax)
    (hnext : nextStart content pos > content.length)
    (hpadding : isPadding (headerAt content pos) = false)
    (hsome : o.fixErrors = true → (∀ i, writes i = false) →
      ∃ m : Nat, Exceeded o (errors + .ofNat m * (frameErrors o fileTstamp content pos + 1))) :
    Ends (pass o fileTstamp content.length writes)
      (atFrame content pos frames false errors 0) := by
  by_contra hno
  have hlater : ∀ m : Nat, ¬ Ends (pass o fileTstamp content.length writes)
      (atFrame content pos (frames + m) false
        (errors + .ofNat m * (frameErrors o fileTstamp content pos + 1)) m) := by
    intro m
    induction m with
    | zero => simpa using hno
    | succ m ih =>
      intro hends
      apply ih
      refine ends_past hpos hlen hnext fun _ _ => ?_
      rw [errors_again, hpadding]
      exact hends
  have hfails : ∀ m, o.fixErrors = true ∧ writes m = false := by
    intro m
    by_contra hnot
    exact hlater m (ends_past hpos hlen hnext fun hfix hfail => absurd ⟨hfix, hfail⟩ hnot)
  obtain ⟨m, hm⟩ := hsome (hfails 0).1 fun m => (hfails m).2
  exact hlater m (ends_exceeded hm)

/-- However far the frames have been gone through, the loop is at the next one. -/
theorem ends_walk (h : Walk o fileTstamp content pos frames found errors) :
    Ends (pass o fileTstamp content.length writes) (start content) ↔
      Ends (pass o fileTstamp content.length writes)
        (atFrame content pos frames found errors 0) := by
  induction h with
  | start => rfl
  | next _ hlimit hpos hnext ih => exact ih.trans (ends_next (pass_inside hlimit hpos hnext))

theorem not_ends_stuck (hlen : content.length ≤ longMax)
    (h : Stuck o fileTstamp content writes) :
    ¬ Ends (pass o fileTstamp content.length writes) (start content) := by
  obtain ⟨hfix, hfail, pos, frames, errors, hwalk, hpos, hpadding, hnext, hlimit⟩ := h
  rw [ends_walk hwalk]
  refine not_ends (fun s => ∃ m : Nat, s = atFrame content pos (frames + m) false
    (errors + .ofNat m * (frameErrors o fileTstamp content pos + 1)) m) ?_ ⟨0, ?_⟩
  · rintro s ⟨m, rfl⟩
    exact ⟨_, pass_again m (hlimit m) hpos hlen hnext hpadding hfix (hfail m), m + 1, rfl⟩
  · simp

/-- Unless a frame is looked at for ever, the frames left come to their end. -/
theorem ends_of_walk (hlen : content.length ≤ longMax) (hstuck : ¬ Stuck o fileTstamp content writes)
    (h : Walk o fileTstamp content pos frames found errors) :
    Ends (pass o fileTstamp content.length writes)
      (atFrame content pos frames found errors 0) := by
  induction hleft : content.length - pos using Nat.strongRecOn
    generalizing pos frames found errors with
  | _ left ih =>
    by_cases hpos : pos + rawHlen ≤ content.length
    · cases found with
      | true => exact ends_found
      | false =>
        by_cases hlimit : Exceeded o errors
        · exact ends_exceeded hlimit
        · by_cases hnext : nextStart content pos ≤ content.length
          · have hle := @pos_le_nextStart content pos
            refine (ends_next (pass_inside hlimit hpos hnext)).mpr
              (ih _ ?_ (.next h hlimit hpos hnext) rfl)
            simp only [rawHlen] at hle hpos
            omega
          · cases hpadding : isPadding (headerAt content pos) with
            | true => exact ends_padding hpos hlen (Nat.not_le.mp hnext) hpadding
            | false =>
              refine ends_frame hpos hlen (Nat.not_le.mp hnext) hpadding fun hfix hfail => ?_
              by_contra hno
              exact hstuck ⟨hfix, hfail, pos, frames, errors, h, hpos, hpadding,
                Nat.not_le.mp hnext, not_exists.mp hno⟩
    · exact ends_short (Nat.not_le.mp hpos)

end Ends

/-- The reading of a file ends just if no frame is looked at again and again. -/
theorem read_raw_ends_iff (o : Options) (fileTstamp : Int) (content : List UInt8)
    (writes : Nat → Bool) (hlen : content.length ≤ longMax) :
    (∃ s, ReadRaw o fileTstamp writes content s) ↔ ¬ Stuck o fileTstamp content writes := by
  constructor
  · exact fun hends hstuck => not_ends_stuck hlen hstuck hends
  · exact fun hstuck => ends_of_walk hlen hstuck .start

/-- The file ends after the header of a frame of one byte, and the header can be written at the
second try. -/
theorem read_raw_ends_iff_second : ∃ s, ReadRaw ⟨0, true, true⟩ 0 (fun i => i == 1)
    (⟨1, 0, 1, 1⟩ : RawHeader).toBytes s := by
  refine (read_raw_ends_iff ⟨0, true, true⟩ 0 _ (fun i => i == 1) (by decide)).mpr ?_
  rintro ⟨-, hfail, -⟩
  exact absurd (hfail 1) (by decide)

/-- The file ends after the header of a frame of one byte, there is no limit of errors, and the
header can never be written. -/
theorem unwritable_never_ends : ¬ ∀ (o : Options) (fileTstamp : Int) (content : List UInt8)
    (writes : Nat → Bool), content.length ≤ longMax →
      ∃ s, ReadRaw o fileTstamp writes content s := by
  intro h
  have hstuck : Stuck ⟨0, true, true⟩ 0 (⟨1, 0, 1, 1⟩ : RawHeader).toBytes fun _ => false := by
    refine ⟨rfl, fun _ => rfl, 0, 0, 0, .start, ?_, ?_, ?_, fun m hlimit => ?_⟩
    · decide
    · decide
    · decide
    · exact absurd hlimit.1 (by decide)
  exact not_ends_stuck (by decide) hstuck (h ⟨0, true, true⟩ 0 _ (fun _ => false) (by decide))

end Hpcap.Checkraw
