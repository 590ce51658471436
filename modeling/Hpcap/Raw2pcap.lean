import Hpcap.RawHeader

namespace Hpcap.Raw2pcap

open Hpcap.RawHeader

abbrev maxPacketLen : Nat := 2048

/-- `struct pcap_pkthdr`. -/
structure PcapPkthdr where
  tvSec : Nat
  tvUsec : Nat
  caplen : Nat
  len : Nat
  deriving DecidableEq

/-- The variables of the loop at the call of `pcap_dump`; of `buf`, the `caplen` bytes dumped. -/
structure Visit where
  secs : UInt32
  nsecs : UInt32
  caplen : UInt16
  len : UInt16
  buf : List UInt8
  deriving DecidableEq

/-- The header that goes to `pcap_dump`. -/
def Visit.h (v : Visit) : PcapPkthdr :=
  ⟨v.secs.toNat, v.nsecs.toNat / 1000, v.caplen.toNat, v.len.toNat⟩

/-- What is read, and what is left of the file. -/
def fread (n : Nat) (fraw : List UInt8) : List UInt8 × List UInt8 := (fraw.take n, fraw.drop n)

/-- One pass of the loop, `none` if it leaves the loop. -/
def pass (fraw : List UInt8) : Option (Visit × List UInt8) :=
  let (secs, fraw) := fread 4 fraw
  if secs.length ≠ 4 then none
  else
    let (nsecs, fraw) := fread 4 fraw
    if nsecs.length ≠ 4 then none
    else if ofLittleEndian secs = 0 ∧ ofLittleEndian nsecs = 0 then none
    else
      let (caplen, fraw) := fread 2 fraw
      if caplen.length ≠ 2 then none
      else
        let (len, fraw) := fread 2 fraw
        if len.length ≠ 2 then none
        else if ofLittleEndian caplen > maxPacketLen then none
        else
          let (buf, fraw) := if ofLittleEndian caplen > 0 then fread (ofLittleEndian caplen) fraw
            else ([], fraw)
          if buf.length ≠ ofLittleEndian caplen then none
          else some (⟨.ofNat (ofLittleEndian secs), .ofNat (ofLittleEndian nsecs),
            .ofNat (ofLittleEndian caplen), .ofNat (ofLittleEndian len), buf⟩, fraw)

structure FrameRecord extends RawRecord where
  not_padding : hpcapIsHeaderPadding header = false
  caplen_le : header.caplen.toNat ≤ maxPacketLen

structure PaddingRecord extends RawRecord where
  padding : hpcapIsHeaderPadding header = true
  len_eq : header.len = header.caplen

/-- A file as the capture writes it. -/
structure RawFile where
  leading : Option PaddingRecord
  frames : List FrameRecord
  trailing : Option PaddingRecord

def paddingBytes (p : Option PaddingRecord) : List UInt8 := p.elim [] fun p => p.toBytes

def RawFile.toBytes (f : RawFile) : List UInt8 :=
  paddingBytes f.leading ++ (f.frames.flatMap (fun r => r.toBytes) ++ paddingBytes f.trailing)

/-- What the loop is to make of a frame. -/
def FrameRecord.visit (r : FrameRecord) : Visit :=
  ⟨r.header.sec, r.header.nsec, r.header.caplen, r.header.len, r.body⟩

theorem fread_append {n : Nat} {a b : List UInt8} (h : a.length = n) : fread n (a ++ b) = (a, b) := by
  rw [fread, List.take_left' h, List.drop_left' h]

theorem fread_left (n : Nat) (fraw : List UInt8) : (fread n fraw).2.length ≤ fraw.length := by
  rw [fread, List.length_drop]
  exact Nat.sub_le _ _

theorem fread_used {n : Nat} {fraw : List UInt8} (h : (fread n fraw).1.length = n) :
    (fread n fraw).2.length + n = fraw.length := by
  rw [fread, List.length_take] at h
  rw [fread, List.length_drop]
  omega

/-- Every pass uses the file up. -/
theorem pass_length {fraw rest : List UInt8} {v : Visit} (h : pass fraw = some (v, rest)) :
    rest.length < fraw.length := by
  have hbody : ∀ n g, (if n > 0 then fread n g else ([], g)).2.length ≤ g.length := by
    intro n g
    split
    · exact fread_left n g
    · exact Nat.le_refl _
  simp only [pass] at h
  obtain ⟨hsecs, h⟩ := Option.ite_none_left_eq_some.mp h
  obtain ⟨-, h⟩ := Option.ite_none_left_eq_some.mp h
  obtain ⟨-, h⟩ := Option.ite_none_left_eq_some.mp h
  obtain ⟨-, h⟩ := Option.ite_none_left_eq_some.mp h
  obtain ⟨-, h⟩ := Option.ite_none_left_eq_some.mp h
  obtain ⟨-, h⟩ := Option.ite_none_left_eq_some.mp h
  obtain ⟨-, h⟩ := Option.ite_none_left_eq_some.mp h
  obtain ⟨-, rfl⟩ := Prod.mk.inj (Option.some.inj h)
  have hfirst := fread_used (not_not.mp hsecs)
  calc _ ≤ _ := hbody _ _
    _ ≤ _ := fread_left 2 _
    _ ≤ _ := fread_left 2 _
    _ ≤ (fread 4 fraw).2.length := fread_left 4 _
    _ < fraw.length := by omega

/-- The loop: what it dumps. -/
def recordLoop (fraw : List UInt8) : List Visit :=
  match _h : pass fraw with
  | none => []
  | some (v, rest) => v :: recordLoop rest
termination_by fraw.length
decreasing_by exact pass_length _h

theorem toBytes_append (h : RawHeader) (rest : List UInt8) :
    h.toBytes ++ rest = littleEndian 4 h.sec.toNat ++ (littleEndian 4 h.nsec.toNat ++
      (littleEndian 2 h.caplen.toNat ++ (littleEndian 2 h.len.toNat ++ rest))) := by
  simp [RawHeader.toBytes]

theorem isHeaderPadding_iff (h : RawHeader) :
    hpcapIsHeaderPadding h = true ↔ h.sec.toNat = 0 ∧ h.nsec.toNat = 0 := by
  rw [hpcapIsHeaderPadding_iff, ← UInt32.toNat_inj, ← UInt32.toNat_inj]
  exact and_comm

/-- A pass in front of a header. -/
theorem pass_header (h : RawHeader) (rest : List UInt8) : pass (h.toBytes ++ rest) =
    if hpcapIsHeaderPadding h then none
    else if h.caplen.toNat > maxPacketLen then none
    else
      let (buf, fraw) := if h.caplen.toNat > 0 then fread h.caplen.toNat rest else ([], rest)
      if buf.length ≠ h.caplen.toNat then none
      else some (⟨h.sec, h.nsec, h.caplen, h.len, buf⟩, fraw) := by
  have hlen : ∀ k n, ¬ (littleEndian k n).length ≠ k := fun k n => not_not.mpr (littleEndian_length k n)
  simp only [pass, toBytes_append, fread_append (littleEndian_length _ _), if_neg (hlen _ _),
    ofLittleEndian_uint32, ofLittleEndian_uint16, ← isHeaderPadding_iff, UInt32.ofNat_toNat,
    UInt16.ofNat_toNat]

theorem pass_padding (p : PaddingRecord) (rest : List UInt8) : pass (p.toBytes ++ rest) = none := by
  rw [RawRecord.toBytes, List.append_assoc, pass_header, if_pos p.padding]

theorem pass_frame (r : FrameRecord) (rest : List UInt8) :
    pass (r.toBytes ++ rest) = some (r.visit, rest) := by
  have hread : (if r.header.caplen.toNat > 0 then fread r.header.caplen.toNat (r.body ++ rest)
      else ([], r.body ++ rest)) = (r.body, rest) := by
    split
    · exact fread_append r.body_length
    · rename_i hzero
      have hnil : r.body = [] := List.length_eq_zero_iff.mp (by rw [r.body_length]; omega)
      rw [hnil, List.nil_append]
  rw [RawRecord.toBytes, List.append_assoc, pass_header, r.not_padding, if_neg Bool.false_ne_true,
    if_neg (Nat.not_lt.mpr r.caplen_le), hread]
  exact if_neg (not_not.mpr r.body_length)

theorem recordLoop_stop {fraw : List UInt8} (h : pass fraw = none) : recordLoop fraw = [] := by
  rw [recordLoop]
  split
  · rfl
  · rename_i hsome
    rw [h] at hsome
    cases hsome

theorem recordLoop_next {fraw rest : List UInt8} {v : Visit} (h : pass fraw = some (v, rest)) :
    recordLoop fraw = v :: recordLoop rest := by
  rw [recordLoop]
  split
  · rename_i hnone
    rw [h] at hnone
    cases hnone
  · rename_i hsome
    rw [h] at hsome
    obtain ⟨rfl, rfl⟩ := Prod.mk.inj (Option.some.inj hsome)
    rfl

/-- The loop goes through the frames, however the file goes on. -/
theorem recordLoop_frames (frames : List FrameRecord) (rest : List UInt8) :
    recordLoop (frames.flatMap (fun r => r.toBytes) ++ rest) =
      frames.map FrameRecord.visit ++ recordLoop rest := by
  induction frames with
  | nil => rfl
  | cons r frames ih =>
    rw [List.flatMap_cons, List.append_assoc, recordLoop_next (pass_frame r _), ih]
    rfl

theorem recordLoop_padding (p : Option PaddingRecord) (rest : List UInt8) :
    recordLoop (paddingBytes p ++ rest) = if p = none then recordLoop rest else [] := by
  cases p with
  | none => rfl
  | some p => exact recordLoop_stop (pass_padding p rest)

theorem recordLoop_trailing (p : Option PaddingRecord) : recordLoop (paddingBytes p) = [] := by
  have hpad := recordLoop_padding p []
  rw [List.append_nil] at hpad
  rw [hpad]
  split
  · exact recordLoop_stop rfl
  · rfl

/-- Every frame is visited, in order, if no padding record comes first; else none is. -/
theorem visits_frames_iff (f : RawFile) :
    recordLoop f.toBytes = f.frames.map FrameRecord.visit ↔ f.leading = none ∨ f.frames = [] := by
  rw [RawFile.toBytes, recordLoop_padding, recordLoop_frames, recordLoop_trailing, List.append_nil]
  split
  · rename_i hnone
    exact ⟨fun _ => .inl hnone, fun _ => rfl⟩
  · rename_i hsome
    rw [eq_comm, List.map_eq_nil_iff, or_iff_right hsome]

/-- A padding record of four bytes, left over from the file before, and a frame of one byte. -/
def paddingFirst : RawFile where
  leading := some ⟨⟨⟨0, 0, 4, 4⟩, [0, 0, 0, 0], rfl⟩, rfl, rfl⟩
  frames := [⟨⟨⟨1, 0, 1, 60⟩, [7], rfl⟩, rfl, by decide⟩]
  trailing := none

theorem leading_padding_hides_frames :
    ¬ ∀ f : RawFile, recordLoop f.toBytes = f.frames.map FrameRecord.visit := by
  intro h
  have hlost := h paddingFirst
  rw [RawFile.toBytes, recordLoop_padding] at hlost
  cases hlost

end Hpcap.Raw2pcap
