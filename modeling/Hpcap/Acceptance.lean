import Hpcap.Raw2pcap
import Hpcap.Repair

namespace Hpcap.Acceptance

open Hpcap.RawHeader Hpcap.Stdio Hpcap.Checkraw Hpcap.Repair
open Hpcap.Raw2pcap (FrameRecord PaddingRecord RawFile paddingBytes maxPacketLen)

variable {o : Options} {fileTstamp : Int} {n : Nat}

/-- The padding of a file, if there is one. -/
def paddings (p : Option PaddingRecord) : List RawRecord := p.elim [] fun p => [p.toRawRecord]

/-- The records of a file. -/
def records (f : RawFile) : List RawRecord :=
  paddings f.leading ++ (f.frames.map FrameRecord.toRawRecord ++ paddings f.trailing)

theorem recordBytes_paddings (p : Option PaddingRecord) :
    recordBytes (paddings p) = paddingBytes p := by
  cases p with
  | none => rfl
  | some p => exact List.append_nil _

theorem recordBytes_records (f : RawFile) : recordBytes (records f) = f.toBytes := by
  have hframes : recordBytes (f.frames.map FrameRecord.toRawRecord) =
      f.frames.flatMap (fun r => r.toBytes) := by
    rw [recordBytes, List.flatMap_map]
  rw [records, recordBytes_append, recordBytes_append, recordBytes_paddings, recordBytes_paddings,
    hframes]
  rfl

theorem isPadding_eq (header : RawHeader) : isPadding header = hpcapIsHeaderPadding header :=
  Bool.and_comm _ _

/-- A padding that leaves room for the frames, or a last one. -/
theorem fine_paddings (p : Option PaddingRecord) : Fine o fileTstamp (n, false) (paddings p) := by
  cases p with
  | none => trivial
  | some p =>
    refine ⟨rfl, ?_, trivial⟩
    rw [padding_errors ((isPadding_eq _).trans p.padding)]
    exact p.len_eq

theorem fine_frames (fs : List FrameRecord) :
    Fine o fileTstamp (n, false) (fs.map FrameRecord.toRawRecord) ↔
      ∀ r ∈ fs, headerErrors o fileTstamp r.header = 0 := by
  induction fs generalizing n with
  | nil => exact iff_of_true trivial fun _ h => nomatch h
  | cons r fs ih =>
    have hnext : passed (n, false) r.toRawRecord = (n + 1, false) := by
      simp only [passed, isPadding_eq, r.not_padding, Bool.false_and]
    simp only [List.map_cons, Fine, hnext, ih, List.forall_mem_cons, true_and]

theorem passed_frames (fs : List FrameRecord) :
    (fs.map FrameRecord.toRawRecord).foldl passed (n, false) = (n + fs.length, false) := by
  induction fs generalizing n with
  | nil => rfl
  | cons r fs ih =>
    have hnext : passed (n, false) r.toRawRecord = (n + 1, false) := by
      simp only [passed, isPadding_eq, r.not_padding, Bool.false_and]
    rw [List.map_cons, List.foldl_cons, hnext, ih, List.length_cons, Nat.add_right_comm]
    rfl

theorem passed_leading (p : Option PaddingRecord) :
    ∃ m, (paddings p).foldl passed (0, false) = (m, false) := by
  cases p with
  | none => exact ⟨0, rfl⟩
  | some p => exact ⟨1, congrArg (Prod.mk 1) (Bool.and_false _)⟩

/-- The errors of a file are those of the headers of its frames. -/
theorem fine_records (f : RawFile) : Fine o fileTstamp (0, false) (records f) ↔
    ∀ r ∈ f.frames, headerErrors o fileTstamp r.header = 0 := by
  obtain ⟨m, hm⟩ := passed_leading f.leading
  rw [records, fine_append, fine_append, hm, fine_frames, passed_frames]
  constructor
  · exact fun h => h.2.1
  · exact fun h => ⟨fine_paddings _, h, fine_paddings _⟩

/-- Of a frame that has no errors. -/
theorem exists_frame {r : RawRecord} (hpad : isPadding r.header = false)
    (h : headerErrors o fileTstamp r.header = 0) : ∃ q : FrameRecord, q.toRawRecord = r := by
  obtain ⟨-, hlarge, -⟩ := (frame_errors hpad).mp h
  have hcap : r.header.caplen.toNat ≤ 1518 := UInt16.le_iff_toNat_le.mp (UInt16.not_lt.mp hlarge)
  exact ⟨⟨r, (isPadding_eq _).symm.trans hpad, Nat.le_trans hcap (by decide)⟩, rfl⟩

theorem exists_padding {r : RawRecord} (hpad : isPadding r.header = true)
    (h : headerErrors o fileTstamp r.header = 0) : ∃ q : PaddingRecord, q.toRawRecord = r :=
  ⟨⟨r, (isPadding_eq _).symm.trans hpad, (padding_errors hpad).mp h⟩, rfl⟩

/-- Behind the first record there are frames, and then a padding or none. -/
theorem exists_frames {rs : List RawRecord} (h : Fine o fileTstamp (n + 1, false) rs) :
    ∃ (fs : List FrameRecord) (trailing : Option PaddingRecord),
      rs = fs.map FrameRecord.toRawRecord ++ paddings trailing := by
  induction rs generalizing n with
  | nil => exact ⟨[], none, rfl⟩
  | cons r rs ih =>
    obtain ⟨-, herrors, hrest⟩ := h
    cases hpad : isPadding r.header with
    | false =>
      rw [passed, hpad, Bool.false_and] at hrest
      obtain ⟨q, rfl⟩ := exists_frame hpad herrors
      obtain ⟨fs, trailing, rfl⟩ := ih hrest
      exact ⟨q :: fs, trailing, rfl⟩
    | true =>
      -- nothing may follow the closing padding
      rw [passed, hpad, decide_eq_true (Nat.succ_pos n)] at hrest
      obtain ⟨q, rfl⟩ := exists_padding hpad herrors
      cases rs with
      | nil => exact ⟨[], some q, rfl⟩
      | cons r' rs => exact absurd hrest.1.symm Bool.false_ne_true

theorem exists_file {rs : List RawRecord} (h : Fine o fileTstamp (0, false) rs) :
    ∃ f, records f = rs := by
  cases rs with
  | nil => exact ⟨⟨none, [], none⟩, rfl⟩
  | cons r rs =>
    obtain ⟨-, herrors, hrest⟩ := h
    have hnext : passed (0, false) r = (0 + 1, false) :=
      congrArg (Prod.mk 1) (Bool.and_false _)
    rw [hnext] at hrest
    obtain ⟨fs, trailing, rfl⟩ := exists_frames hrest
    cases hpad : isPadding r.header with
    | false =>
      obtain ⟨q, rfl⟩ := exists_frame hpad herrors
      exact ⟨⟨none, q :: fs, trailing⟩, rfl⟩
    | true =>
      obtain ⟨q, rfl⟩ := exists_padding hpad herrors
      exact ⟨⟨some q, fs, trailing⟩, rfl⟩

/-- `read_raw` has no errors to report of a file just if there are none in its frames. -/
theorem clean_toBytes (o : Options) (fileTstamp : Int) (f : RawFile)
    (hlen : f.toBytes.length ≤ longMax) :
    Clean o fileTstamp f.toBytes ↔ ∀ r ∈ f.frames, headerErrors o fileTstamp r.header = 0 := by
  rw [← recordBytes_records] at hlen ⊢
  rw [← fine_records]
  constructor
  · intro h
    obtain ⟨rs, hrs, hfine⟩ := exists_records hlen h
    rw [recordBytes_inj hrs]
    exact hfine
  · intro h
    obtain ⟨s, hrun, hzero, -⟩ := clean_again false h hlen
    exact ⟨s, hrun, hzero⟩

/-- `read_raw` has no errors to report just of files as the capture writes them: a padding or
none, frames without errors, a padding or none, and nothing more. -/
theorem clean_iff_file (o : Options) (fileTstamp : Int) (content : List UInt8)
    (hlen : content.length ≤ longMax) : Clean o fileTstamp content ↔
      ∃ f : RawFile, f.toBytes = content ∧ ∀ r ∈ f.frames, headerErrors o fileTstamp r.header = 0 := by
  constructor
  · intro h
    obtain ⟨rs, rfl, hfine⟩ := exists_records hlen h
    obtain ⟨f, rfl⟩ := exists_file hfine
    exact ⟨f, (recordBytes_records f).symm, (fine_records f).mp hfine⟩
  · rintro ⟨f, rfl, hf⟩
    exact (clean_toBytes o fileTstamp f hlen).mpr hf

/-- A frame of 64 bytes, and a padding to the end. -/
def oneFrame : RawFile where
  leading := none
  frames := [⟨frame64, rfl, by decide⟩]
  trailing := some ⟨padding100, rfl, rfl⟩

theorem clean_iff_file_one_frame : Clean ⟨0, false, false⟩ 0 oneFrame.toBytes := by
  have hlen : oneFrame.toBytes.length ≤ longMax := by
    simp [oneFrame, RawFile.toBytes, paddingBytes, frame64, padding100, rawHlen, longMax]
  exact (clean_iff_file ⟨0, false, false⟩ 0 oneFrame.toBytes hlen).mpr ⟨oneFrame, rfl, by decide⟩

end Hpcap.Acceptance
