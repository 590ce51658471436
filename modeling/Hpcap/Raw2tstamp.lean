import Hpcap.Raw2pcap

namespace Hpcap.Raw2tstamp

open Hpcap.RawHeader
open Hpcap.Raw2pcap (fread fread_append fread_left fread_used FrameRecord PaddingRecord
  paddingBytes)

abbrev bufSize : Nat := 4096

/-- A line of the output. -/
structure Line where
  tstamp : UInt64
  len : UInt16
  caplen : UInt16
  deriving DecidableEq

/-- A pass leaves the loop, writes past the end of `buf`, or prints a line and goes on with the
epoch and what is left of the file. -/
inductive Outcome
  | leaves
  | overflows
  | prints (line : Line) (epoch : UInt64) (fraw : List UInt8)

/-- The rest of a pass, when the header is read. -/
def readPacket (epoch : UInt64) (secs nsecs caplen len : Nat) (fraw : List UInt8) : Outcome :=
  let tstamp := (.ofNat secs - epoch) * 1000000000 + .ofNat nsecs
  let (buf, fraw) := if len > 0 then fread len fraw else ([], fraw)
  if buf.length > bufSize then .overflows
  else if buf.length ≠ len then .leaves
  else .prints ⟨tstamp, .ofNat len, .ofNat caplen⟩ epoch fraw

/-- One pass of the loop. -/
def pass (epoch : UInt64) (fraw : List UInt8) : Outcome :=
  let (secs, fraw) := fread 4 fraw
  if secs.length ≠ 4 then .leaves
  else
    let (nsecs, fraw) := fread 4 fraw
    if nsecs.length ≠ 4 then .leaves
    else if ofLittleEndian secs = 0 ∧ ofLittleEndian nsecs = 0 then .leaves
    else
      let epoch := if epoch = 0 then .ofNat (ofLittleEndian secs) else epoch
      let (caplen, fraw) := fread 2 fraw
      if caplen.length ≠ 2 then .leaves
      else
        let (len, fraw) := fread 2 fraw
        if len.length ≠ 2 then .leaves
        else readPacket epoch (ofLittleEndian secs) (ofLittleEndian nsecs) (ofLittleEndian caplen)
          (ofLittleEndian len) fraw

theorem readPacket_length {epoch epoch' : UInt64} {secs nsecs caplen len : Nat}
    {fraw rest : List UInt8} {line : Line}
    (h : readPacket epoch secs nsecs caplen len fraw = .prints line epoch' rest) :
    rest.length ≤ fraw.length := by
  have hbody : (if len > 0 then fread len fraw else ([], fraw)).2.length ≤ fraw.length := by
    split
    · exact fread_left len fraw
    · exact Nat.le_refl _
  unfold readPacket at h
  generalize (if len > 0 then fread len fraw else ([], fraw)) = read at h hbody
  dsimp only at h
  split at h
  · cases h
  · split at h
    · cases h
    · cases h
      exact hbody

/-- Every pass that prints uses the file up. -/
theorem pass_length {epoch epoch' : UInt64} {fraw rest : List UInt8} {line : Line}
    (h : pass epoch fraw = .prints line epoch' rest) : rest.length < fraw.length := by
  unfold pass at h
  dsimp only at h
  split at h
  · cases h
  · rename_i hsecs
    have hfirst := fread_used (not_not.mp hsecs)
    split at h
    · cases h
    · split at h
      · cases h
      · split at h
        · cases h
        · split at h
          · cases h
          · calc rest.length ≤ _ := readPacket_length h
              _ ≤ _ := fread_left 2 _
              _ ≤ _ := fread_left 2 _
              _ ≤ (fread 4 fraw).2.length := fread_left 4 _
              _ < fraw.length := by omega

/-- The loop: how much of the file is left at each of the records, and the lines, unless bytes are
written past the end of `buf`. -/
def recordLoop (epoch : UInt64) (fraw : List UInt8) : Option (List (Nat × Line)) :=
  match _h : pass epoch fraw with
  | .leaves => some []
  | .overflows => none
  | .prints line epoch rest => (recordLoop epoch rest).map ((fraw.length, line) :: ·)
termination_by fraw.length
decreasing_by exact pass_length _h

/-- How much of the file is left at each of the records that `raw2pcap` visits. -/
def pcapLoop (fraw : List UInt8) : List Nat :=
  match _h : Raw2pcap.pass fraw with
  | none => []
  | some (_, rest) => fraw.length :: pcapLoop rest
termination_by fraw.length
decreasing_by exact Raw2pcap.pass_length _h

/-- Frames, and the padding that may follow them. -/
structure RawFile where
  frames : List FrameRecord
  trailing : Option PaddingRecord
  caplen_le : ∀ r ∈ frames, r.header.caplen ≤ r.header.len
  len_le : ∀ r ∈ frames, r.header.len.toNat ≤ Raw2pcap.maxPacketLen

def fileBytes (frames : List FrameRecord) (trailing : Option PaddingRecord) : List UInt8 :=
  frames.flatMap (fun r => r.toBytes) ++ paddingBytes trailing

def RawFile.toBytes (f : RawFile) : List UInt8 := fileBytes f.frames f.trailing

/-- The line of a frame. -/
def line (epoch : UInt64) (r : FrameRecord) : Line :=
  ⟨(.ofNat r.header.sec.toNat - epoch) * 1000000000 + .ofNat r.header.nsec.toNat, r.header.len,
    r.header.caplen⟩

/-- The seconds of the first frame. -/
def firstSecs (frames : List FrameRecord) : UInt64 :=
  (frames.head?.map fun r => UInt64.ofNat r.header.sec.toNat).getD 0

/-- Both loops visit the same records, and the lines are those of the frames. -/
def SameRecords (f : RawFile) : Prop :=
  ∃ visits, recordLoop 0 f.toBytes = some visits ∧
    visits.map Prod.fst = pcapLoop f.toBytes ∧
    visits.map Prod.snd = f.frames.map (line (firstSecs f.frames))

/-- What is left of a padding is no frame: it is too short for a header or for the bytes that the
header asks for, or has no time stamp. -/
def NoFrame (fraw : List UInt8) : Prop :=
  fraw.length < rawHlen ∨ hpcapIsHeaderPadding (ofBytes (fraw.take rawHlen)) = true ∨
    fraw.length < rawHlen + (ofBytes (fraw.take rawHlen)).len.toNat ∧
      fraw.length ≤ rawHlen + bufSize

/-- Frames are captured whole, but the last one may find the bytes it lacks in the padding. -/
def Whole (frames : List FrameRecord) (trailing : Option PaddingRecord) : Prop :=
  ∀ front r rest, frames = front ++ r :: rest → r.header.caplen = r.header.len ∨
    rest = [] ∧ r.header.len.toNat - r.header.caplen.toNat ≤ (paddingBytes trailing).length ∧
      NoFrame ((paddingBytes trailing).drop (r.header.len.toNat - r.header.caplen.toNat))

/-- The first frame comes after the beginning of time, or all come within its first second. -/
def EpochKept (frames : List FrameRecord) : Prop :=
  ∀ r rest, frames = r :: rest → r.header.sec ≠ 0 ∨ ∀ q ∈ rest, q.header.sec = 0

section Passes

variable {epoch : UInt64} {fraw rest : List UInt8}

theorem pass_short (h : fraw.length < rawHlen) : pass epoch fraw = .leaves := by
  unfold pass
  dsimp only [fread]
  split
  · rfl
  · split
    · rfl
    · split
      · rfl
      · split
        · rfl
        · split
          · rfl
          · rename_i hlen
            simp only [List.length_take, List.length_drop, not_not, rawHlen] at hlen h
            omega

/-- A pass in front of a header. -/
theorem pass_header (epoch : UInt64) (h : RawHeader) (rest : List UInt8) : pass epoch (h.toBytes ++ rest) =
    if hpcapIsHeaderPadding h then .leaves
    else readPacket (if epoch = 0 then .ofNat h.sec.toNat else epoch) h.sec.toNat h.nsec.toNat
      h.caplen.toNat h.len.toNat rest := by
  have hlen : ∀ k n, ¬ (littleEndian k n).length ≠ k := fun k n => not_not.mpr (littleEndian_length k n)
  simp only [pass, Raw2pcap.toBytes_append, fread_append (littleEndian_length _ _),
    if_neg (hlen _ _), ofLittleEndian_uint32, ofLittleEndian_uint16, ← Raw2pcap.isHeaderPadding_iff]

theorem readPacket_eq (epoch : UInt64) (secs nsecs caplen len : Nat) (fraw : List UInt8) :
    readPacket epoch secs nsecs caplen len fraw =
      if min len fraw.length > bufSize then .overflows
      else if fraw.length < len then .leaves
      else .prints ⟨(.ofNat secs - epoch) * 1000000000 + .ofNat nsecs, .ofNat len, .ofNat caplen⟩
        epoch (fraw.drop len) := by
  have hread : (if len > 0 then fread len fraw else ([], fraw)) = (fraw.take len, fraw.drop len) := by
    split
    · rfl
    · rename_i hzero
      rw [Nat.eq_zero_of_not_pos hzero]
      rfl
  have hshort : min len fraw.length ≠ len ↔ fraw.length < len := by omega
  simp only [readPacket, hread, List.length_take, hshort]

theorem readPacket_leaves_iff {secs nsecs caplen len : Nat} :
    readPacket epoch secs nsecs caplen len rest = .leaves ↔
      rest.length < len ∧ rest.length ≤ bufSize := by
  rw [readPacket_eq]
  split
  · exact iff_of_false (by simp) fun h => by omega
  · split
    · refine iff_of_true rfl ⟨by assumption, ?_⟩
      omega
    · exact iff_of_false (by simp) fun h => by omega

/-- Where the loop is left depends on what is left of the file alone. -/
theorem pass_leaves_iff : pass epoch fraw = .leaves ↔ NoFrame fraw := by
  by_cases hshort : fraw.length < rawHlen
  · exact iff_of_true (pass_short hshort) (.inl hshort)
  · have htake : (fraw.take rawHlen).length = rawHlen := by
      rw [List.length_take]
      omega
    have hsplit : (ofBytes (fraw.take rawHlen)).toBytes ++ fraw.drop rawHlen = fraw := by
      rw [toBytes_ofBytes htake, List.take_append_drop]
    have hpass := pass_header epoch (ofBytes (fraw.take rawHlen)) (fraw.drop rawHlen)
    rw [hsplit] at hpass
    rw [hpass, NoFrame, or_iff_right hshort]
    by_cases hpadding : hpcapIsHeaderPadding (ofBytes (fraw.take rawHlen)) = true
    · rw [if_pos hpadding]
      exact iff_of_true rfl (.inl hpadding)
    · rw [if_neg hpadding, or_iff_right hpadding, readPacket_leaves_iff, List.length_drop]
      omega

/-- A pass in front of a frame. -/
theorem pass_frame (epoch : UInt64) (r : FrameRecord) (rest : List UInt8)
    (hlen : r.header.len.toNat ≤ Raw2pcap.maxPacketLen) :
    pass epoch (r.toBytes ++ rest) =
      if (r.body ++ rest).length < r.header.len.toNat then .leaves
      else .prints (line (if epoch = 0 then .ofNat r.header.sec.toNat else epoch) r)
        (if epoch = 0 then .ofNat r.header.sec.toNat else epoch)
        ((r.body ++ rest).drop r.header.len.toNat) := by
  have hfits : ¬ min r.header.len.toNat (r.body ++ rest).length > bufSize := by
    rw [Raw2pcap.maxPacketLen] at hlen
    rw [bufSize]
    omega
  rw [RawRecord.toBytes, List.append_assoc, pass_header, r.not_padding,
    if_neg Bool.false_ne_true, readPacket_eq, if_neg hfits, line, UInt16.ofNat_toNat,
    UInt16.ofNat_toNat]

end Passes

section Loops

variable {epoch : UInt64} {fraw rest : List UInt8} {visits : List (Nat × Line)}
variable {frames : List FrameRecord} {trailing : Option PaddingRecord}

theorem recordLoop_leaves (h : pass epoch fraw = .leaves) : recordLoop epoch fraw = some [] := by
  rw [recordLoop]
  split
  · rfl
  · rename_i hpass
    rw [h] at hpass
    cases hpass
  · rename_i hpass
    rw [h] at hpass
    cases hpass

theorem recordLoop_prints {epoch' : UInt64} {line : Line}
    (h : pass epoch fraw = .prints line epoch' rest) :
    recordLoop epoch fraw = (recordLoop epoch' rest).map ((fraw.length, line) :: ·) := by
  rw [recordLoop]
  split
  · rename_i hpass
    rw [h] at hpass
    cases hpass
  · rename_i hpass
    rw [h] at hpass
    cases hpass
  · rename_i hpass
    rw [h] at hpass
    cases hpass
    rfl

theorem leaves_of_recordLoop (h : recordLoop epoch fraw = some []) : pass epoch fraw = .leaves := by
  rw [recordLoop] at h
  split at h
  · assumption
  · cases h
  · obtain ⟨visits, -, hcons⟩ := Option.map_eq_some_iff.mp h
    cases hcons

theorem recordLoop_head {v : Nat × Line} (h : recordLoop epoch fraw = some (v :: visits)) :
    v.1 = fraw.length := by
  rw [recordLoop] at h
  split at h
  · cases h
  · cases h
  · obtain ⟨visits', -, hcons⟩ := Option.map_eq_some_iff.mp h
    rw [← (List.cons.inj hcons).1]

theorem fileBytes_cons (r : FrameRecord) (frames : List FrameRecord)
    (trailing : Option PaddingRecord) :
    fileBytes (r :: frames) trailing = r.toBytes ++ fileBytes frames trailing := by
  rw [fileBytes, List.flatMap_cons, List.append_assoc]
  rfl

/-- How much of the file is left at each of the frames. -/
def starts (trailing : Option PaddingRecord) : List FrameRecord → List Nat
  | [] => []
  | r :: frames => (fileBytes (r :: frames) trailing).length :: starts trailing frames

/-- The lines of frames that are captured whole. -/
def printed : UInt64 → List FrameRecord → List Line
  | _, [] => []
  | epoch, r :: frames =>
    let epoch := if epoch = 0 then .ofNat r.header.sec.toNat else epoch
    line epoch r :: printed epoch frames

theorem noFrame_padding (trailing : Option PaddingRecord) : NoFrame (paddingBytes trailing) := by
  cases trailing with
  | none => exact .inl (by decide)
  | some p =>
    have hheader : ofBytes ((paddingBytes (some p)).take rawHlen) = p.header := by
      change ofBytes ((p.header.toBytes ++ p.body).take rawHlen) = p.header
      rw [List.take_left' (toBytes_length _), ofBytes_toBytes]
    exact .inr (.inl (hheader ▸ p.padding))

theorem pcapLoop_eq (trailing : Option PaddingRecord) (frames : List FrameRecord) :
    pcapLoop (fileBytes frames trailing) = starts trailing frames := by
  induction frames with
  | nil =>
    have hstop : Raw2pcap.pass (fileBytes [] trailing) = none := by
      cases trailing with
      | none => rfl
      | some p =>
        have hpass := Raw2pcap.pass_padding p []
        rw [List.append_nil] at hpass
        exact hpass
    rw [pcapLoop]
    split
    · rfl
    · rename_i hpass
      rw [hstop] at hpass
      cases hpass
  | cons r frames ih =>
    have hpass := Raw2pcap.pass_frame r (fileBytes frames trailing)
    rw [← fileBytes_cons] at hpass
    rw [pcapLoop]
    split
    · rename_i hnone
      rw [hpass] at hnone
      cases hnone
    · rename_i hsome
      rw [hpass] at hsome
      cases hsome
      rw [ih]
      rfl

/-- What is left after a frame. -/
theorem drop_frame {r : FrameRecord} (h : r.header.caplen ≤ r.header.len) (rest : List UInt8) :
    (r.body ++ rest).drop r.header.len.toNat =
      rest.drop (r.header.len.toNat - r.header.caplen.toNat) := by
  have hle := UInt16.le_iff_toNat_le.mp h
  rw [List.drop_append, r.body_length, List.drop_of_length_le (by rw [r.body_length]; exact hle),
    List.nil_append]

theorem whole_cons {r : FrameRecord} (hr : r.header.caplen = r.header.len) :
    Whole (r :: frames) trailing ↔ Whole frames trailing := by
  constructor
  · intro h front q rest hsplit
    exact h (r :: front) q rest (by rw [hsplit, List.cons_append])
  · intro h front q rest hsplit
    cases front with
    | nil =>
      obtain ⟨rfl, -⟩ := List.cons.inj hsplit
      exact .inl hr
    | cons p front => exact h front q rest (List.cons.inj hsplit).2

/-- Frames that are captured whole are visited and printed one after the other. -/
theorem recordLoop_whole (hcap : ∀ r ∈ frames, r.header.caplen ≤ r.header.len)
    (hmax : ∀ r ∈ frames, r.header.len.toNat ≤ Raw2pcap.maxPacketLen)
    (h : Whole frames trailing) (epoch : UInt64) :
    recordLoop epoch (fileBytes frames trailing) =
      some ((starts trailing frames).zip (printed epoch frames)) := by
  induction frames generalizing epoch with
  | nil => exact recordLoop_leaves (pass_leaves_iff.mpr (noFrame_padding trailing))
  | cons r frames ih =>
    have hle := hcap r List.mem_cons_self
    have hpass := pass_frame epoch r (fileBytes frames trailing) (hmax r List.mem_cons_self)
    rw [drop_frame hle, List.length_append, r.body_length] at hpass
    rw [fileBytes_cons, starts, printed, List.zip_cons_cons, fileBytes_cons]
    obtain hsame | ⟨rfl, hlen, hstop⟩ := h [] r frames rfl
    · rw [hsame, Nat.sub_self, List.drop_zero, if_neg (by omega)] at hpass
      rw [recordLoop_prints hpass, ih (fun q hq => hcap q (List.mem_cons_of_mem _ hq))
        (fun q hq => hmax q (List.mem_cons_of_mem _ hq)) ((whole_cons hsame).mp h)]
      rfl
    · have hbytes : fileBytes [] trailing = paddingBytes trailing := rfl
      rw [if_neg (by rw [hbytes]; omega)] at hpass
      rw [recordLoop_prints hpass, hbytes, recordLoop_leaves (pass_leaves_iff.mpr hstop)]
      rfl

/-- Frames are not visited at their starts where bytes in front of them are taken for others. -/
theorem last_of_starts {n : Nat} (hn : 0 < n)
    (h : recordLoop epoch ((fileBytes frames trailing).drop n) = some visits)
    (hstarts : visits.map Prod.fst = starts trailing frames) :
    frames = [] ∧ NoFrame ((paddingBytes trailing).drop n) := by
  cases frames with
  | nil =>
    have hnone : visits = [] := List.map_eq_nil_iff.mp hstarts
    rw [hnone] at h
    exact ⟨rfl, pass_leaves_iff.mp (leaves_of_recordLoop h)⟩
  | cons p frames =>
    cases visits with
    | nil => cases hstarts
    | cons v visits =>
      have hhead := recordLoop_head h
      have hfirst : v.1 = (fileBytes (p :: frames) trailing).length := (List.cons.inj hstarts).1
      rw [hfirst, List.length_drop] at hhead
      rw [fileBytes_cons, List.length_append, RawRecord.toBytes_length, rawHlen] at hhead
      omega

/-- Frames of which one is not captured whole are not visited at their starts. -/
theorem whole_of_starts (hcap : ∀ r ∈ frames, r.header.caplen ≤ r.header.len)
    (hmax : ∀ r ∈ frames, r.header.len.toNat ≤ Raw2pcap.maxPacketLen)
    (h : recordLoop epoch (fileBytes frames trailing) = some visits)
    (hstarts : visits.map Prod.fst = starts trailing frames) : Whole frames trailing := by
  induction frames generalizing epoch visits with
  | nil => exact fun front q rest hsplit => absurd hsplit (by simp)
  | cons r frames ih =>
    have hle := hcap r List.mem_cons_self
    have hpass := pass_frame epoch r (fileBytes frames trailing) (hmax r List.mem_cons_self)
    rw [drop_frame hle, List.length_append, r.body_length] at hpass
    rw [fileBytes_cons] at h
    by_cases hshort : r.header.caplen.toNat + (fileBytes frames trailing).length <
        r.header.len.toNat
    · rw [if_pos hshort] at hpass
      rw [recordLoop_leaves hpass] at h
      cases h
      cases hstarts
    · rw [if_neg hshort] at hpass
      rw [recordLoop_prints hpass] at h
      obtain ⟨visits, hvisits, rfl⟩ := Option.map_eq_some_iff.mp h
      have hstarts := (List.cons.inj hstarts).2
      by_cases hsame : r.header.caplen = r.header.len
      · rw [hsame, Nat.sub_self, List.drop_zero] at hvisits
        exact (whole_cons hsame).mpr (ih (fun q hq => hcap q (List.mem_cons_of_mem _ hq))
          (fun q hq => hmax q (List.mem_cons_of_mem _ hq)) hvisits hstarts)
      · have hlt : r.header.caplen.toNat < r.header.len.toNat :=
          Nat.lt_of_le_of_ne (UInt16.le_iff_toNat_le.mp hle) fun heq =>
            hsame (UInt16.toNat_inj.mp heq)
        obtain ⟨rfl, hstop⟩ := last_of_starts (Nat.sub_pos_of_lt hlt) hvisits hstarts
        have hroom : ¬ r.header.caplen.toNat + (paddingBytes trailing).length <
            r.header.len.toNat := hshort
        intro front q rest hsplit
        cases front with
        | nil =>
          obtain ⟨rfl, hrest⟩ := List.cons.inj hsplit
          exact .inr ⟨hrest.symm, by omega, hstop⟩
        | cons p front => exact absurd (List.cons.inj hsplit).2 (by simp)

theorem starts_length (trailing : Option PaddingRecord) (epoch : UInt64)
    (frames : List FrameRecord) : (starts trailing frames).length = (printed epoch frames).length := by
  induction frames generalizing epoch with
  | nil => rfl
  | cons r frames ih => exact congrArg (· + 1) (ih _)

end Loops

section Epoch

variable {epoch : UInt64} {frames : List FrameRecord}

theorem printed_of_ne (h : epoch ≠ 0) : printed epoch frames = frames.map (line epoch) := by
  induction frames with
  | nil => rfl
  | cons r frames ih =>
    rw [printed, if_neg h, List.map_cons]
    exact congrArg _ ih

theorem secs_toNat (sec : UInt32) : (UInt64.ofNat sec.toNat).toNat = sec.toNat :=
  UInt64.toNat_ofNat_of_lt' (Nat.lt_trans sec.toNat_lt (by decide))

theorem secs_eq_zero {sec : UInt32} : UInt64.ofNat sec.toNat = 0 ↔ sec = 0 := by
  rw [← UInt64.toNat_inj, ← UInt32.toNat_inj, secs_toNat]
  rfl

/-- Seconds do not vanish when they are turned to nanoseconds. -/
theorem nanoseconds_eq_zero {sec : UInt32} (h : UInt64.ofNat sec.toNat * 1000000000 = 0) :
    sec = 0 := by
  have hsec := sec.toNat_lt
  have hlt : sec.toNat * 1000000000 < 2 ^ 64 := by omega
  have hfactor : (1000000000 : UInt64).toNat = 1000000000 := by simp
  have hzero := congrArg UInt64.toNat h
  rw [UInt64.toNat_mul, secs_toNat, hfactor, UInt64.toNat_zero, Nat.mod_eq_of_lt hlt] at hzero
  have hnone : sec.toNat = 0 := by omega
  exact UInt32.toNat_inj.mp hnone

theorem printed_zero_iff : printed 0 frames = frames.map (line 0) ↔
    ∀ r ∈ frames, r.header.sec = 0 := by
  induction frames with
  | nil => simp [printed]
  | cons r frames ih =>
    rw [printed, if_pos rfl, List.map_cons, List.forall_mem_cons]
    by_cases hsec : r.header.sec = 0
    · rw [secs_eq_zero.mpr hsec]
      simp only [List.cons.injEq, true_and, ih, hsec]
    · refine iff_of_false (fun hno => ?_) fun hno => hsec hno.1
      have hstamp := congrArg Line.tstamp (List.cons.inj hno).1
      simp only [line, UInt64.sub_self, UInt64.sub_zero, UInt64.zero_mul, UInt64.zero_add] at hstamp
      have hnone : UInt64.ofNat r.header.sec.toNat * 1000000000 = 0 := by
        exact UInt64.add_eq_right.mp hstamp.symm
      exact hsec (nanoseconds_eq_zero hnone)

/-- The lines are relative to the seconds of the first frame just if those are kept. -/
theorem printed_iff : printed 0 frames = frames.map (line (firstSecs frames)) ↔
    EpochKept frames := by
  cases frames with
  | nil => exact iff_of_true rfl fun r rest hsplit => absurd hsplit (by simp)
  | cons r frames =>
    have hfirst : firstSecs (r :: frames) = .ofNat r.header.sec.toNat := rfl
    have hkept : EpochKept (r :: frames) ↔ r.header.sec ≠ 0 ∨ ∀ q ∈ frames, q.header.sec = 0 := by
      constructor
      · exact fun h => h r frames rfl
      · intro h q rest hsplit
        obtain ⟨rfl, rfl⟩ := List.cons.inj hsplit
        exact h
    rw [hkept, hfirst, printed, if_pos rfl, List.map_cons, List.cons.injEq, and_iff_right rfl]
    by_cases hsec : r.header.sec = 0
    · rw [secs_eq_zero.mpr hsec, printed_zero_iff, or_iff_right (not_not.mpr hsec)]
    · exact iff_of_true (printed_of_ne fun hno => hsec (secs_eq_zero.mp hno)) (.inl hsec)

end Epoch

/-- Both tools visit the same records, and the lines are right, just if the frames are captured
whole and the epoch is kept. -/
theorem same_records_iff (f : RawFile) :
    SameRecords f ↔ Whole f.frames f.trailing ∧ EpochKept f.frames := by
  constructor
  · rintro ⟨visits, hvisits, hstarts, hlines⟩
    rw [RawFile.toBytes, pcapLoop_eq] at hstarts
    have hwhole := whole_of_starts f.caplen_le f.len_le hvisits hstarts
    refine ⟨hwhole, printed_iff.mp ?_⟩
    rw [RawFile.toBytes, recordLoop_whole f.caplen_le f.len_le hwhole] at hvisits
    cases hvisits
    rw [← hlines, List.map_snd_zip (Nat.le_of_eq (starts_length _ _ _).symm)]
  · rintro ⟨hwhole, hepoch⟩
    refine ⟨_, recordLoop_whole f.caplen_le f.len_le hwhole 0, ?_, ?_⟩
    · rw [RawFile.toBytes, pcapLoop_eq, List.map_fst_zip (Nat.le_of_eq (starts_length _ _ _))]
    · rw [List.map_snd_zip (Nat.le_of_eq (starts_length _ _ _).symm)]
      exact printed_iff.mpr hepoch

/-- A frame of 60 bytes of which one is captured, and another. -/
def captured : RawFile where
  frames := [⟨⟨⟨1, 3, 1, 60⟩, [9], rfl⟩, rfl, by decide⟩, ⟨⟨⟨1, 5, 1, 60⟩, [9], rfl⟩, rfl, by decide⟩]
  trailing := none
  caplen_le := by decide
  len_le := by decide

theorem short_capture_desynchronises : ¬ ∀ f : RawFile, SameRecords f := by
  intro h
  obtain ⟨visits, hvisits, hstarts, -⟩ := h captured
  rw [RawFile.toBytes, pcapLoop_eq] at hstarts
  have hwhole := whole_of_starts captured.caplen_le captured.len_le hvisits hstarts
  obtain hsame | ⟨hrest, -⟩ := hwhole [] _ _ rfl
  · exact absurd hsame (by decide)
  · cases hrest

end Hpcap.Raw2tstamp
