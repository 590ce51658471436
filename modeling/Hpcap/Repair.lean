import Mathlib.Data.List.Induction
import Hpcap.Checkraw

namespace Hpcap.Repair

open Hpcap.RawHeader Hpcap.Stdio Hpcap.Loops Hpcap.Checkraw

def written : Nat → Bool := fun _ => true

def checking (o : Options) (fixErrors : Bool) : Options := { o with fixErrors := fixErrors }

/-- `read_raw`, which is not to repair anything, reports no error. -/
def Clean (o : Options) (fileTstamp : Int) (content : List UInt8) : Prop :=
  ∃ s, ReadRaw (checking o false) fileTstamp written content s ∧ s.errorCount = 0

/-- Where a record starts, or the last one ends. -/
inductive Boundary (content : List UInt8) : Nat → Prop
  | start : Boundary content 0
  | next {pos : Nat} : Boundary content pos → pos + rawHlen ≤ content.length →
      Boundary content (pos + rawHlen + (headerAt content pos).caplen.toNat)

/-- The first `k` bytes of the file are repaired: what comes of them has no errors, whether or
not it is to be repaired again, and the records that are whole are the same as before. -/
def Repaired (o : Options) (fileTstamp : Int) (content : List UInt8) (k : Nat) : Prop :=
  ∃ s, ReadRaw (checking o true) fileTstamp written (content.take k) s ∧
    (∀ fixErrors, ∃ s', ReadRaw (checking o fixErrors) fileTstamp written s.file.content s' ∧
      s'.errorCount = 0 ∧ s'.file.content = s.file.content) ∧
    ∀ pos, Boundary content pos → pos ≤ k → s.file.content.take pos = content.take pos

/-- So much is left of a padding that it is taken for a frame. -/
def CutsPadding (content : List UInt8) (k : Nat) : Prop :=
  ∃ pos, Boundary content pos ∧ pos + rawHlen ≤ content.length ∧
    isPadding (headerAt content pos) = true ∧ pos + rawHlen + 60 ≤ k ∧
    k < pos + rawHlen + (headerAt content pos).caplen.toNat

def recordBytes (records : List RawRecord) : List UInt8 := records.flatMap RawRecord.toBytes

/-- How many records there are, and whether the last is the closing padding. -/
def passed : Nat × Bool → RawRecord → Nat × Bool
  | (frames, _), r => (frames + 1, isPadding r.header && 0 < frames)

/-- Records without errors. -/
def Fine (o : Options) (fileTstamp : Int) : Nat × Bool → List RawRecord → Prop
  | _, [] => True
  | s, r :: records => s.2 = false ∧ headerErrors o fileTstamp r.header = 0 ∧
      Fine o fileTstamp (passed s r) records

section Records

variable {o : Options} {fileTstamp : Int} {front rest : List UInt8} {r : RawRecord}
variable {records ps qs : List RawRecord}

@[simp] theorem recordBytes_nil : recordBytes [] = [] := rfl

@[simp] theorem recordBytes_cons (r : RawRecord) (records : List RawRecord) :
    recordBytes (r :: records) = r.toBytes ++ recordBytes records :=
  List.flatMap_cons

@[simp] theorem recordBytes_append (ps qs : List RawRecord) :
    recordBytes (ps ++ qs) = recordBytes ps ++ recordBytes qs :=
  List.flatMap_append

theorem headerAt_front (r : RawRecord) (front rest : List UInt8) :
    headerAt (front ++ (r.toBytes ++ rest)) front.length = r.header := by
  rw [headerAt, List.drop_left, RawRecord.toBytes, List.append_assoc,
    List.take_left' (toBytes_length _), ofBytes_toBytes]

theorem toBytes_inj {q : RawRecord} (h : r.toBytes ++ front = q.toBytes ++ rest) :
    r = q ∧ front = rest := by
  have hr := headerAt_front r [] front
  have hq := headerAt_front q [] rest
  rw [h] at hr
  have hheader : r.header = q.header := hr.symm.trans hq
  have hlen : r.toBytes.length = q.toBytes.length := by
    rw [RawRecord.toBytes_length, RawRecord.toBytes_length, hheader]
  obtain ⟨hbytes, hrest⟩ := List.append_inj h hlen
  obtain ⟨-, hbody⟩ := List.append_inj hbytes (by rw [toBytes_length, toBytes_length])
  obtain ⟨header, body, hr⟩ := r
  obtain ⟨header', body', hq⟩ := q
  obtain rfl : header = header' := hheader
  obtain rfl : body = body' := hbody
  exact ⟨rfl, hrest⟩

theorem recordBytes_inj (h : recordBytes ps = recordBytes qs) : ps = qs := by
  have hsome : ∀ (r : RawRecord) (bytes : List UInt8), r.toBytes ++ bytes ≠ [] := by
    intro r bytes hnil
    have hlen := congrArg List.length hnil
    rw [List.length_append, RawRecord.toBytes_length, List.length_nil, rawHlen] at hlen
    omega
  induction ps generalizing qs with
  | nil =>
    cases qs with
    | nil => rfl
    | cons q qs => exact absurd h.symm (hsome q _)
  | cons p ps ih =>
    cases qs with
    | nil => exact absurd h (hsome p _)
    | cons q qs =>
      obtain ⟨rfl, hrest⟩ := toBytes_inj h
      rw [ih hrest]

theorem fine_append (s : Nat × Bool) : Fine o fileTstamp s (ps ++ qs) ↔
    Fine o fileTstamp s ps ∧ Fine o fileTstamp (ps.foldl passed s) qs := by
  induction ps generalizing s with
  | nil => simp [Fine]
  | cons p ps ih => simp only [List.cons_append, Fine, ih, List.foldl_cons, and_assoc]

theorem fine_checking (fixErrors : Bool) (s : Nat × Bool) :
    Fine (checking o fixErrors) fileTstamp s records ↔ Fine o fileTstamp s records := by
  induction records generalizing s with
  | nil => rfl
  | cons r records ih => exact and_congr_right fun _ => and_congr_right fun _ => ih _

/-- The records that a cut leaves whole. -/
theorem exists_cut (records : List RawRecord) (k : Nat) :
    ∃ ps qs, records = ps ++ qs ∧ (recordBytes ps).length ≤ k ∧
      ∀ q qs', qs = q :: qs' → k < (recordBytes ps).length + q.toBytes.length := by
  induction records generalizing k with
  | nil => exact ⟨[], [], rfl, Nat.zero_le _, fun _ _ h => nomatch h⟩
  | cons r records ih =>
    by_cases hk : k < r.toBytes.length
    · refine ⟨[], r :: records, rfl, Nat.zero_le _, fun q qs' h => ?_⟩
      obtain ⟨rfl, -⟩ := List.cons.inj h
      simpa using hk
    · obtain ⟨ps, qs, rfl, hle, hlt⟩ := ih (k - r.toBytes.length)
      refine ⟨r :: ps, qs, rfl, ?_, fun q qs' h => ?_⟩
      · rw [recordBytes_cons, List.length_append]
        omega
      · have := hlt q qs' h
        rw [recordBytes_cons, List.length_append]
        omega

theorem boundary_split {pos : Nat} (h : Boundary (recordBytes records) pos) :
    ∃ ps qs, records = ps ++ qs ∧ pos = (recordBytes ps).length := by
  induction h with
  | start => exact ⟨[], records, rfl, rfl⟩
  | next _ hpos ih =>
    obtain ⟨ps, qs, rfl, rfl⟩ := ih
    cases qs with
    | nil =>
      rw [List.append_nil, rawHlen] at hpos
      omega
    | cons q qs =>
      refine ⟨ps ++ [q], qs, by simp, ?_⟩
      rw [recordBytes_append, recordBytes_cons, headerAt_front]
      simp
      omega

theorem boundary_of_split (ps qs : List RawRecord) :
    Boundary (recordBytes (ps ++ qs)) (recordBytes ps).length := by
  induction ps using List.reverseRecOn generalizing qs with
  | nil => exact .start
  | append_singleton ps p ih =>
    have hcontent : recordBytes (ps ++ [p] ++ qs) =
        recordBytes ps ++ (p.toBytes ++ recordBytes qs) := by simp
    have hstart := ih (p :: qs)
    rw [recordBytes_append, recordBytes_cons, ← hcontent] at hstart
    have hpos : (recordBytes ps).length + rawHlen ≤ (recordBytes (ps ++ [p] ++ qs)).length := by
      rw [hcontent, List.length_append, List.length_append, RawRecord.toBytes_length]
      omega
    have hnext := Boundary.next hstart hpos
    rw [hcontent, headerAt_front, ← hcontent] at hnext
    have hend : (recordBytes (ps ++ [p])).length =
        (recordBytes ps).length + rawHlen + p.header.caplen.toNat := by
      simp
      omega
    rw [hend]
    exact hnext

/-- Of the records that start within a cut, the last is the one that is cut. -/
theorem boundary_cut {k pos : Nat} (hcut : ∀ q qs', qs = q :: qs' →
      k < (recordBytes ps).length + q.toBytes.length)
    (h : Boundary (recordBytes (ps ++ qs)) pos) (hk : pos ≤ k) :
    pos ≤ (recordBytes ps).length ∧
      (pos + rawHlen + (headerAt (recordBytes (ps ++ qs)) pos).caplen.toNat ≤
        (recordBytes ps).length ∨ pos = (recordBytes ps).length) := by
  obtain ⟨ps', qs', hsplit, rfl⟩ := boundary_split h
  obtain ⟨rs, rfl, rfl⟩ | ⟨rs, rfl, rfl⟩ := List.append_eq_append_iff.mp hsplit
  · cases rs with
    | nil => exact ⟨by simp, .inr (by simp)⟩
    | cons q rs =>
      have := hcut q (rs ++ qs') rfl
      simp at this hk
      omega
  · cases rs with
    | nil => exact ⟨by simp, .inr (by simp)⟩
    | cons q rs =>
      have hbytes : recordBytes (ps' ++ q :: rs ++ qs) =
          recordBytes ps' ++ (q.toBytes ++ recordBytes (rs ++ qs)) := by simp
      rw [hbytes, headerAt_front]
      simp
      omega

end Records

section Runs

variable {o : Options} {fileTstamp : Int} {writes : Nat → Bool}
variable {front content : List UInt8} {frames calls k : Nat} {found : Bool} {s t r : State}
variable {records ps qs : List RawRecord}

theorem not_exceeded_zero : ¬ Exceeded o 0 := fun h => absurd h.2 (UInt64.not_lt.mpr (UInt64.zero_le))

/-- The frame of a record that is whole. -/
theorem frame_whole (o : Options) (fileTstamp : Int) {q : RawRecord} {rest : List UInt8}
    (hcontent : content = front ++ (q.toBytes ++ rest)) (hlen : content.length ≤ longMax) :
    headerAt content front.length = q.header ∧
      nextStart content front.length = (front ++ q.toBytes).length ∧
      frameErrors o fileTstamp content front.length = headerErrors o fileTstamp q.header := by
  have hheader : headerAt content front.length = q.header := hcontent ▸ headerAt_front q front rest
  have hin : front.length + rawHlen + q.header.caplen.toNat ≤ longMax := by
    refine Nat.le_trans ?_ hlen
    simp [hcontent]
    omega
  rw [nextStart, frameErrors, hheader, if_pos hin, error, if_neg (not_not.mpr hin)]
  refine ⟨rfl, ?_, UInt64.add_zero _⟩
  simp
  omega

/-- Records without errors are gone through, whatever follows them. -/
theorem returns_fine {rest : List UInt8} (h : Fine o fileTstamp (frames, found) records)
    (hcontent : content = front ++ (recordBytes records ++ rest)) (hlen : content.length ≤ longMax) :
    Returns (pass o fileTstamp content.length writes)
      (atFrame content front.length frames found 0 calls) r ↔
    Returns (pass o fileTstamp content.length writes)
      (atFrame content (front ++ recordBytes records).length
        (records.foldl passed (frames, found)).1 (records.foldl passed (frames, found)).2 0 calls)
      r := by
  induction records generalizing front frames found with
  | nil => rw [recordBytes_nil, List.append_nil, List.foldl_nil]
  | cons q records ih =>
    obtain ⟨hfound, herrors, h⟩ := h
    obtain rfl : found = false := hfound
    have hnext : content = (front ++ q.toBytes) ++ (recordBytes records ++ rest) := by
      simp [hcontent]
    obtain ⟨hheader, hend, hframe⟩ := frame_whole o fileTstamp
      (hnext.trans (List.append_assoc _ _ _)) hlen
    have hlast : (front ++ q.toBytes).length ≤ content.length := by
      rw [hnext]
      exact (List.prefix_append _ _).length_le
    have hpos : front.length + rawHlen ≤ content.length := by
      rw [List.length_append, RawRecord.toBytes_length] at hlast
      omega
    rw [returns_next (pass_inside not_exceeded_zero hpos (hend ▸ hlast)), hheader, hend, hframe,
      herrors, recordBytes_cons, ← List.append_assoc, List.foldl_cons]
    exact ih h hnext

/-- A file of records without errors. -/
theorem clean_of_fine (h : Fine o fileTstamp (0, false) records)
    (hlen : (recordBytes records).length ≤ longMax) :
    ∃ s, ReadRaw o fileTstamp writes (recordBytes records) s ∧ s.errorCount = 0 ∧
      s.file.content = recordBytes records := by
  have hcontent : recordBytes records = [] ++ (recordBytes records ++ []) := by simp
  refine ⟨_, (returns_fine h hcontent hlen).mpr (.done (pass_end not_exceeded_zero rfl ?_)),
    rfl, rfl⟩
  exact List.drop_length

/-- The header that a frame gets of which `payloadSize` bytes are left. -/
def shortened (header : RawHeader) (payloadSize : Nat) : RawHeader :=
  let header := { header with caplen := .ofNat payloadSize }
  if payloadSize < 60 then { header with sec := 0, nsec := 0, len := header.caplen } else header

/-- The end of the file lies in a header. -/
theorem fix_short {part : List UInt8} (fileSize : Nat) (hcontent : s.file.content = front ++ part)
    (hpart : part.length < rawHlen) (hlen : front.length ≤ longMax) :
    s.fix written fileSize front.length = (true, { s with
      file := ⟨front ++ (⟨0, 0, 0, 0⟩ : RawHeader).toBytes, front.length + rawHlen, false⟩
      calls := s.calls + 1 }) := by
  have hleft : (⟨s.file.content, front.length, false⟩ : File).left = part := by
    rw [File.left, hcontent, List.drop_left]
  have hread := @fread_short rawHlen ⟨s.file.content, front.length, false⟩ (by rw [hleft]; exact hpart)
  have hheader : fixedHeader part front.length fileSize = ⟨0, 0, 0, 0⟩ := if_pos hpart
  have hwrite := @fwrite_over ⟨s.file.content, front.length, false⟩ front
    (⟨0, 0, 0, 0⟩ : RawHeader).toBytes [] part (by rw [hcontent, List.append_nil]) rfl
    (.inr ⟨by rw [toBytes_length]; exact Nat.le_of_lt hpart, rfl⟩)
  rw [List.append_nil, toBytes_length] at hwrite
  simp only [State.fix, fixCapture, fseek_ok hlen, hread, hleft, hheader, written, hwrite]

/-- The end of the file lies in a frame. -/
theorem fix_whole {part : List UInt8} {header : RawHeader}
    (hcontent : s.file.content = front ++ (header.toBytes ++ part)) (hlen : front.length ≤ longMax) :
    s.fix written s.file.content.length front.length = (true, { s with
      file := ⟨front ++ ((shortened header part.length).toBytes ++ part), front.length + rawHlen,
        false⟩
      calls := s.calls + 1 }) := by
  have hleft : (⟨s.file.content, front.length, false⟩ : File).left = header.toBytes ++ part := by
    rw [File.left, hcontent, List.drop_left]
  have hread := @fread_whole rawHlen ⟨s.file.content, front.length, false⟩ (by
    rw [hleft, List.length_append, toBytes_length]
    exact Nat.le_add_right _ _)
  rw [hleft, List.take_left' (toBytes_length _)] at hread
  have hsize : s.file.content.length = front.length + rawHlen + part.length := by
    rw [hcontent, List.length_append, List.length_append, toBytes_length, Nat.add_assoc]
  have hheader : fixedHeader header.toBytes front.length s.file.content.length =
      shortened header part.length := by
    have hwhole : ¬ header.toBytes.length < rawHlen := by
      rw [toBytes_length]
      exact Nat.lt_irrefl _
    have hstart : ¬ front.length + rawHlen > front.length + rawHlen + part.length := by omega
    rw [fixedHeader, if_neg hwhole, hsize]
    simp only [if_neg hstart, Nat.add_sub_cancel_left, ofBytes_toBytes]
    rfl
  have hwrite := @fwrite_over ⟨s.file.content, front.length, false⟩ front
    (shortened header part.length).toBytes part header.toBytes hcontent rfl
    (.inl (by rw [toBytes_length, toBytes_length]))
  rw [toBytes_length] at hwrite
  simp only [State.fix, fixCapture, fseek_ok hlen, hread, hheader, written, hwrite]

theorem error_le (p : Prop) [Decidable p] : (error p).toNat ≤ 1 := by
  unfold error
  split <;> decide

theorem error_eq_zero {p : Prop} [Decidable p] : error p = 0 ↔ ¬ p := by
  unfold error
  split
  · simp [*]
  · simp [*]

theorem add_le (a b : UInt64) : (a + b).toNat ≤ a.toNat + b.toNat := by
  rw [UInt64.toNat_add]
  exact Nat.mod_le _ _

theorem eq_zero_of_add {a b : UInt64} (ha : a.toNat ≤ 6) (hb : b.toNat ≤ 6) (h : a + b = 0) :
    a = 0 ∧ b = 0 := by
  have hsum := congrArg UInt64.toNat h
  rw [UInt64.toNat_add, Nat.mod_eq_of_lt (by omega), UInt64.toNat_zero] at hsum
  exact ⟨UInt64.toNat_inj.mp (Nat.eq_zero_of_add_eq_zero_right hsum),
    UInt64.toNat_inj.mp (Nat.eq_zero_of_add_eq_zero_left hsum)⟩

theorem headerErrors_le (o : Options) (fileTstamp : Int) (header : RawHeader) :
    (headerErrors o fileTstamp header).toNat ≤ 5 := by
  unfold headerErrors
  split
  · exact Nat.le_trans (error_le _) (by decide)
  · refine Nat.le_trans (add_le _ _) (Nat.add_le_add (b := 4) ?_ (error_le _))
    refine Nat.le_trans (add_le _ _) (Nat.add_le_add (b := 3) ?_ (error_le _))
    refine Nat.le_trans (add_le _ _) (Nat.add_le_add (b := 2) ?_ (error_le _))
    exact Nat.le_trans (add_le _ _) (Nat.add_le_add (error_le _) (error_le _))

/-- What a pass does that is not to repair anything. -/
theorem pass_checking (fileSize : Nat) (hfix : o.fixErrors = false) (heof : s.file.eof = false) :
    (∃ r, pass o fileTstamp fileSize writes s = .inr r ∧
      (r.errorCount = s.errorCount ∧ (Exceeded o s.errorCount ∨ s.file.left = []) ∨
        r.errorCount = s.errorCount + 1)) ∨
    (rawHlen ≤ s.file.left.length ∧ s.foundPadding = false ∧
      pass o fileTstamp fileSize writes s = .inl
        ⟨⟨s.file.content, nextStart s.file.content s.file.pos, false⟩, s.frameCount + 1,
          isPadding (headerAt s.file.content s.file.pos) && 0 < s.frameCount,
          s.errorCount + (frameErrors o fileTstamp s.file.content s.file.pos +
            error (nextStart s.file.content s.file.pos > fileSize)), s.calls⟩) := by
  have hnofix : ¬ o.fixErrors = true := by rw [hfix]; exact Bool.false_ne_true
  by_cases hlimit : Exceeded o s.errorCount
  · obtain ⟨r, hr, hcount⟩ := @pass_exceeded o fileTstamp fileSize writes s hlimit
    exact .inl ⟨r, hr, .inl ⟨hcount, .inl hlimit⟩⟩
  · by_cases hleft : s.file.left = []
    · exact .inl ⟨_, pass_end hlimit heof hleft, .inl ⟨rfl, .inr hleft⟩⟩
    · by_cases hshort : s.file.left.length < rawHlen
      · have hpass := pass_short fileTstamp fileSize writes hlimit heof hleft hshort
        exact .inl ⟨_, hpass.trans (if_neg hnofix), .inr rfl⟩
      · have hwhole := Nat.not_lt.mp hshort
        cases hfound : s.foundPadding with
        | true => exact .inl ⟨_, pass_found hlimit heof hwhole hfound, .inr rfl⟩
        | false =>
          refine .inr ⟨hwhole, rfl, ?_⟩
          rw [pass_header hlimit heof hwhole hfound, ← UInt64.add_assoc]
          by_cases hpast : nextStart s.file.content s.file.pos > fileSize
          · have hone : error (nextStart s.file.content s.file.pos > fileSize) = 1 := if_pos hpast
            rw [hone]
            exact (if_pos hpast).trans (if_neg hnofix)
          · have hzero : error (nextStart s.file.content s.file.pos > fileSize) = 0 := if_neg hpast
            rw [hzero, UInt64.add_zero]
            exact if_neg hpast

theorem frameErrors_le (o : Options) (fileTstamp : Int) (content : List UInt8) (pos : Nat) :
    (frameErrors o fileTstamp content pos).toNat ≤ 6 :=
  Nat.le_trans (add_le _ _) (Nat.add_le_add (headerErrors_le _ _ _) (error_le _))

theorem nextStart_le (content : List UInt8) (pos : Nat) :
    nextStart content pos ≤ pos + rawHlen + 65535 := by
  have hcaplen := (headerAt content pos).caplen.toNat_lt
  unfold nextStart
  split <;> omega

/-- The record that is gone through if no error is found. -/
theorem exists_record {file : File} (hleft : rawHlen ≤ file.left.length)
    (hnext : nextStart file.content file.pos ≤ file.content.length)
    (herrors : frameErrors o fileTstamp file.content file.pos = 0) :
    ∃ q : RawRecord, q.header = headerAt file.content file.pos ∧
      headerErrors o fileTstamp q.header = 0 ∧
      file.left = q.toBytes ++ file.content.drop (nextStart file.content file.pos) := by
  have hbound : headerErrors o fileTstamp (headerAt file.content file.pos) = 0 ∧
      file.pos + rawHlen + (headerAt file.content file.pos).caplen.toNat ≤ longMax := by
    obtain ⟨hheader, hseek⟩ := eq_zero_of_add
      (Nat.le_trans (headerErrors_le o fileTstamp _) (by decide))
      (Nat.le_trans (error_le _) (by decide)) herrors
    exact ⟨hheader, not_not.mp (error_eq_zero.mp hseek)⟩
  obtain ⟨hheader, hseek⟩ := hbound
  rw [nextStart, if_pos hseek] at hnext ⊢
  have hlen : ((file.left.drop rawHlen).take
      (headerAt file.content file.pos).caplen.toNat).length =
        (headerAt file.content file.pos).caplen.toNat := by
    rw [List.length_take, File.left, List.length_drop, List.length_drop]
    omega
  have htake : (file.left.take rawHlen).length = rawHlen := by
    rw [List.length_take]
    exact Nat.min_eq_left hleft
  refine ⟨⟨headerAt file.content file.pos, _, hlen⟩, rfl, hheader, ?_⟩
  have hbytes : (headerAt file.content file.pos).toBytes = file.left.take rawHlen :=
    toBytes_ofBytes htake
  have hrest : file.content.drop (file.pos + rawHlen +
      (headerAt file.content file.pos).caplen.toNat) =
        (file.left.drop rawHlen).drop (headerAt file.content file.pos).caplen.toNat := by
    rw [File.left, List.drop_drop, List.drop_drop, Nat.add_assoc]
  rw [RawRecord.toBytes, hbytes, hrest, List.append_assoc, List.take_append_drop,
    List.take_append_drop]

/-- What holds between the passes of a check: the errors that the position leaves room for
are far from `2 ^ 64`. -/
structure Between (content : List UInt8) (s : State) : Prop where
  content_eq : s.file.content = content
  eof : s.file.eof = false
  pos_le : s.file.pos ≤ content.length + 65535
  count_le : 12 * s.errorCount.toNat ≤ 7 * s.file.pos

theorem Between.toNat_add (hs : Between content s) (hlen : content.length ≤ longMax) {x : UInt64}
    (hx : x.toNat ≤ 7) : (s.errorCount + x).toNat = s.errorCount.toNat + x.toNat := by
  have hmax : longMax = 9223372036854775807 := rfl
  have hpos := hs.pos_le
  have hcount := hs.count_le
  rw [UInt64.toNat_add, Nat.mod_eq_of_lt (by omega)]

/-- A check that leaves the loop without errors is at the end. -/
theorem Between.done (hs : Between content s) (hlen : content.length ≤ longMax)
    (hpass : pass (checking o false) fileTstamp content.length writes s = .inr r) :
    s.errorCount.toNat ≤ r.errorCount.toNat ∧ (r.errorCount = 0 → s.file.left = []) := by
  obtain ⟨r', hr', hresult⟩ | ⟨-, -, hnext⟩ := @pass_checking (checking o false) fileTstamp writes s
    content.length rfl hs.eof
  · rw [hpass] at hr'
    obtain rfl := Sum.inr.inj hr'
    obtain ⟨hsame, hend⟩ | hone := hresult
    · refine ⟨Nat.le_of_eq (congrArg UInt64.toNat hsame.symm), fun hzero => ?_⟩
      obtain hlimit | hleft := hend
      · rw [← hsame, hzero] at hlimit
        exact absurd hlimit not_exceeded_zero
      · exact hleft
    · have hcount := hs.toNat_add hlen (x := 1) (by decide)
      rw [← hone] at hcount
      refine ⟨Nat.le.intro hcount.symm, fun hzero => ?_⟩
      rw [hzero] at hcount
      exact absurd hcount (by simp)
  · rw [hpass] at hnext
    cases hnext

/-- A pass that goes on finds no more errors just where it goes over a record that has none. -/
theorem Between.next (hs : Between content s) (hlen : content.length ≤ longMax)
    (hpass : pass (checking o false) fileTstamp content.length writes s = .inl t) :
    Between content t ∧ s.errorCount.toNat ≤ t.errorCount.toNat ∧
      (t.errorCount.toNat = s.errorCount.toNat → t.file.pos ≤ content.length ∧
        s.foundPadding = false ∧ ∃ q : RawRecord, headerErrors o fileTstamp q.header = 0 ∧
          s.file.left = q.toBytes ++ t.file.left ∧
            (t.frameCount, t.foundPadding) = passed (s.frameCount, s.foundPadding) q) := by
  obtain ⟨r', hr', -⟩ | ⟨hleft, hfound, hnext⟩ := @pass_checking (checking o false) fileTstamp
    writes s content.length rfl hs.eof
  · rw [hpass] at hr'
    cases hr'
  · rw [hpass] at hnext
    obtain rfl := Sum.inl.inj hnext
    have hcontent := hs.content_eq
    have hcount := hs.count_le
    have hraw : rawHlen = 12 := rfl
    have hstart : s.file.pos + rawHlen ≤ content.length := by
      rw [File.left, List.length_drop, hcontent] at hleft
      omega
    have hlow := @pos_le_nextStart s.file.content s.file.pos
    have hhigh := nextStart_le s.file.content s.file.pos
    have hframe := frameErrors_le (checking o false) fileTstamp s.file.content s.file.pos
    have hpast := error_le (nextStart s.file.content s.file.pos > content.length)
    have hadd := add_le (frameErrors (checking o false) fileTstamp s.file.content s.file.pos)
      (error (nextStart s.file.content s.file.pos > content.length))
    have hsum := hs.toNat_add hlen (Nat.le_trans hadd (by omega))
    refine ⟨⟨hcontent, rfl, by dsimp only; omega, by dsimp only; omega⟩, by dsimp only; omega,
      fun hsame => ?_⟩
    have hnone := (UInt64.toNat_inj (b := 0)).mp (Nat.add_left_cancel (hsum.symm.trans hsame))
    obtain ⟨hinside, hnext⟩ := eq_zero_of_add (b := error _) hframe
      (Nat.le_trans hpast (by decide)) hnone
    have hnext := Nat.not_lt.mp (error_eq_zero.mp hnext)
    obtain ⟨q, hq, hheader, hbytes⟩ := exists_record (o := o) hleft (hcontent ▸ hnext) hinside
    exact ⟨hnext, hfound, q, hheader, hbytes, by rw [passed, hq]⟩

/-- The errors only become more, and there is none only if the records left have none. -/
theorem errors_grow (hlen : content.length ≤ longMax)
    (h : Returns (pass (checking o false) fileTstamp content.length writes) s r)
    (hs : Between content s) : s.errorCount.toNat ≤ r.errorCount.toNat ∧
      (r.errorCount = 0 → s.file.pos ≤ content.length →
        ∃ records, s.file.left = recordBytes records ∧
          Fine o fileTstamp (s.frameCount, s.foundPadding) records) := by
  induction h with
  | done hpass =>
    obtain ⟨hle, hend⟩ := hs.done hlen hpass
    exact ⟨hle, fun hzero _ => ⟨[], hend hzero, trivial⟩⟩
  | @next s t r hpass _ ih =>
    obtain ⟨ht, hle, hrecord⟩ := hs.next hlen hpass
    obtain ⟨hgrow, hfine⟩ := ih ht
    refine ⟨Nat.le_trans hle hgrow, fun hzero _ => ?_⟩
    rw [hzero] at hgrow
    obtain ⟨hpos, hfound, q, hheader, hbytes, hpassed⟩ := hrecord (by
      have hnone : t.errorCount.toNat = 0 := Nat.le_zero.mp hgrow
      omega)
    obtain ⟨records, hrecords, hfine⟩ := hfine hzero hpos
    refine ⟨q :: records, ?_, hfound, hheader, ?_⟩
    · rw [hbytes, hrecords, recordBytes_cons]
    · rw [← hpassed]
      exact hfine

theorem exists_records (hlen : content.length ≤ longMax) (h : Clean o fileTstamp content) :
    ∃ records, content = recordBytes records ∧ Fine o fileTstamp (0, false) records := by
  obtain ⟨s, hrun, hzero⟩ := h
  obtain ⟨-, hfine⟩ := errors_grow hlen hrun ⟨rfl, rfl, Nat.zero_le _, Nat.zero_le _⟩
  exact hfine hzero (Nat.zero_le _)

/-- The file is all the same after the repair of a file whose records have no errors. -/
theorem clean_again (fixErrors : Bool) (h : Fine o fileTstamp (0, false) records)
    (hlen : (recordBytes records).length ≤ longMax) :
    ∃ s, ReadRaw (checking o fixErrors) fileTstamp writes (recordBytes records) s ∧
      s.errorCount = 0 ∧ s.file.content = recordBytes records :=
  clean_of_fine ((fine_checking fixErrors _).mpr h) hlen

/-- A run to repair `bytes` leaves the records `qs`. -/
structure Leaves (o : Options) (fileTstamp : Int) (bytes : List UInt8) (qs : List RawRecord)
    (s : State) : Prop where
  run : ReadRaw (checking o true) fileTstamp written bytes s
  content_eq : s.file.content = recordBytes qs
  length_le : (recordBytes qs).length ≤ longMax

theorem Leaves.fine (hl : Leaves o fileTstamp (content.take k) qs s)
    (h : Repaired o fileTstamp content k) : Fine o fileTstamp (0, false) qs := by
  obtain ⟨s', hrun', hagain, -⟩ := h
  obtain rfl := hl.run.unique hrun'
  obtain ⟨s', hcheck, hzero, -⟩ := hagain false
  rw [hl.content_eq] at hcheck
  obtain ⟨qs', hqs, hfine⟩ := exists_records hl.length_le ⟨s', hcheck, hzero⟩
  rw [recordBytes_inj hqs]
  exact hfine

/-- What is repaired is right just if its records have no errors. -/
theorem Leaves.repaired_iff (hl : Leaves o fileTstamp (content.take k) qs s)
    (hsame : ∀ pos, Boundary content pos → pos ≤ k →
      (recordBytes qs).take pos = content.take pos) :
    Repaired o fileTstamp content k ↔ Fine o fileTstamp (0, false) qs := by
  refine ⟨hl.fine, fun h => ⟨s, hl.run, fun fixErrors => ?_, ?_⟩⟩
  · rw [hl.content_eq]
    exact clean_again fixErrors h hl.length_le
  · rw [hl.content_eq]
    exact hsame

/-- A record after others can be without errors in itself just if they leave it be. -/
theorem fine_last {q : RawRecord} (hps : Fine o fileTstamp (0, false) ps)
    (hopen : (ps.foldl passed (0, false)).2 = false) :
    Fine o fileTstamp (0, false) (ps ++ [q]) ↔ headerErrors o fileTstamp q.header = 0 := by
  rw [fine_append]
  constructor
  · exact fun h => h.2.2.1
  · exact fun h => ⟨hps, hopen, h, trivial⟩

theorem zero_errors : headerErrors o fileTstamp ⟨0, 0, 0, 0⟩ = 0 := rfl

theorem frame_errors {header : RawHeader} (h : isPadding header = false) :
    headerErrors o fileTstamp header = 0 ↔ ¬ header.nsec.toNat ≥ nsecsPerSec ∧
      ¬ header.caplen > 1518 ∧ ¬ (¬ o.ignoreCaplen ∧ header.caplen < 60) ∧
      ¬ header.len < header.caplen ∧ ¬ ((header.sec + 1).toNat : Int) < fileTstamp := by
  rw [headerErrors, if_neg (by rw [h]; exact Bool.false_ne_true)]
  constructor
  · intro hsum
    have htwo := Nat.le_trans (add_le _ _) (Nat.add_le_add (error_le (header.nsec.toNat ≥ nsecsPerSec))
      (error_le (header.caplen > 1518)))
    have hthree := Nat.le_trans (add_le _ _) (Nat.add_le_add htwo
      (error_le (¬ o.ignoreCaplen ∧ header.caplen < 60)))
    have hfour := Nat.le_trans (add_le _ _) (Nat.add_le_add hthree
      (error_le (header.len < header.caplen)))
    have hone : ∀ (p : Prop) [Decidable p], (error p).toNat ≤ 6 := fun p _ =>
      Nat.le_trans (error_le p) (by decide)
    obtain ⟨hsum, htstamp⟩ := eq_zero_of_add (Nat.le_trans hfour (by decide)) (hone _) hsum
    obtain ⟨hsum, hlen⟩ := eq_zero_of_add (Nat.le_trans hthree (by decide)) (hone _) hsum
    obtain ⟨hsum, hsmall⟩ := eq_zero_of_add (Nat.le_trans htwo (by decide)) (hone _) hsum
    obtain ⟨hnsec, hlarge⟩ := eq_zero_of_add (hone _) (hone _) hsum
    exact ⟨error_eq_zero.mp hnsec, error_eq_zero.mp hlarge, error_eq_zero.mp hsmall,
      error_eq_zero.mp hlen, error_eq_zero.mp htstamp⟩
  · rintro ⟨hnsec, hlarge, hsmall, hlen, htstamp⟩
    rw [error_eq_zero.mpr hnsec, error_eq_zero.mpr hlarge, error_eq_zero.mpr hsmall,
      error_eq_zero.mpr hlen, error_eq_zero.mpr htstamp]
    rfl

theorem padding_errors {header : RawHeader} (h : isPadding header = true) :
    headerErrors o fileTstamp header = 0 ↔ header.len = header.caplen := by
  rw [headerErrors, if_pos h, error_eq_zero, not_not]

/-- A frame that is cut short has no errors, unless it is a padding that is taken for a frame. -/
theorem shortened_errors {header : RawHeader} {n : Nat} (h : headerErrors o fileTstamp header = 0)
    (hn : n < header.caplen.toNat) :
    headerErrors o fileTstamp (shortened header n) = 0 ↔ ¬ (isPadding header = true ∧ 60 ≤ n) := by
  have hcaplen : (UInt16.ofNat n).toNat = n := by
    rw [UInt16.toNat_ofNat']
    exact Nat.mod_eq_of_lt (Nat.lt_trans hn header.caplen.toNat_lt)
  by_cases hsmall : n < 60
  · rw [shortened, if_pos hsmall, padding_errors rfl]
    exact iff_of_true rfl fun hno => absurd hno.2 (Nat.not_le.mpr hsmall)
  · have hkept : isPadding { header with caplen := .ofNat n } = isPadding header := rfl
    rw [shortened, if_neg hsmall]
    by_cases hpadding : isPadding header = true
    · rw [padding_errors hpadding] at h
      rw [padding_errors (hkept.trans hpadding)]
      refine iff_of_false (fun hno => ?_) fun hno => hno ⟨hpadding, Nat.not_lt.mp hsmall⟩
      have hsame := congrArg UInt16.toNat (h.symm.trans hno)
      rw [hcaplen] at hsame
      omega
    · have hframe := Bool.eq_false_iff.mpr hpadding
      obtain ⟨hnsec, hlarge, -, hlen, htstamp⟩ := (frame_errors hframe).mp h
      refine iff_of_true ((frame_errors (hkept.trans hframe)).mpr ⟨hnsec, ?_, ?_, ?_, htstamp⟩)
        fun hno => hpadding hno.1
      · rw [gt_iff_lt, UInt16.lt_iff_toNat_lt] at hlarge ⊢
        rw [hcaplen]
        omega
      · rw [UInt16.lt_iff_toNat_lt, hcaplen]
        exact fun hno => hsmall hno.2
      · rw [UInt16.lt_iff_toNat_lt] at hlen ⊢
        change ¬ header.len.toNat < (UInt16.ofNat n).toNat
        omega

/-- The cut is in a header. -/
theorem pass_short_cut {part : List UInt8} (fileSize : Nat) (hsome : part ≠ [])
    (hpart : part.length < rawHlen) (hlen : front.length ≤ longMax) :
    ∃ r, pass (checking o true) fileTstamp fileSize written
        (atFrame (front ++ part) front.length frames found 0 calls) = .inr r ∧
      r.file.content = front ++ (⟨0, 0, 0, 0⟩ : RawHeader).toBytes := by
  have hleft : (atFrame (front ++ part) front.length frames found 0 calls).file.left = part :=
    List.drop_left
  have hlimit : ¬ Exceeded (checking o true)
      (atFrame (front ++ part) front.length frames found 0 calls).errorCount := not_exceeded_zero
  have hfix := fix_short (s := ⟨⟨front ++ part, front.length + part.length, true⟩, frames, found, 0,
    calls⟩) fileSize rfl hpart hlen
  rw [← hleft] at hsome hpart
  rw [pass_short fileTstamp fileSize written hlimit rfl hsome hpart, hleft]
  simp only [atFrame, checking, if_true, hfix]
  exact ⟨_, rfl, rfl⟩

/-- The cut is in a frame. -/
theorem pass_whole_cut {part : List UInt8} {header : RawHeader}
    (hpart : part.length < header.caplen.toNat)
    (hlen : front.length + rawHlen + header.caplen.toNat ≤ longMax) :
    ∃ r, pass (checking o true) fileTstamp (front ++ (header.toBytes ++ part)).length written
        (atFrame (front ++ (header.toBytes ++ part)) front.length frames false 0 calls) = .inr r ∧
      r.file.content = front ++ ((shortened header part.length).toBytes ++ part) := by
  have hheader : headerAt (front ++ (header.toBytes ++ part)) front.length = header := by
    rw [headerAt, List.drop_left, List.take_left' (toBytes_length _), ofBytes_toBytes]
  have hsize : (front ++ (header.toBytes ++ part)).length = front.length + rawHlen + part.length := by
    rw [List.length_append, List.length_append, toBytes_length, Nat.add_assoc]
  have hnext : nextStart (front ++ (header.toBytes ++ part)) front.length >
      (front ++ (header.toBytes ++ part)).length := by
    rw [nextStart, hheader, if_pos hlen, hsize]
    omega
  have hpos : front.length + rawHlen ≤ (front ++ (header.toBytes ++ part)).length := by
    rw [hsize]
    exact Nat.le_add_right _ _
  have hfix := fix_whole (s := atFrame (front ++ (header.toBytes ++ part))
    (nextStart (front ++ (header.toBytes ++ part)) front.length) (frames + 1)
    (isPadding header && 0 < frames)
    (0 + frameErrors (checking o true) fileTstamp (front ++ (header.toBytes ++ part)) front.length)
    calls) rfl (Nat.le_trans (by omega) hlen)
  rw [pass_past fileTstamp written frames calls not_exceeded_zero hpos hnext, hheader]
  have hon : (checking o true).fixErrors = true := rfl
  simp only [atFrame] at hfix
  simp only [atFrame, hon, if_true, hfix]
  exact ⟨_, rfl, rfl⟩

/-- The last pass is the one at the cut. -/
theorem returns_cut {part : List UInt8} (h : Fine o fileTstamp (0, false) ps)
    (hlen : (recordBytes ps ++ part).length ≤ longMax)
    (hpass : pass (checking o true) fileTstamp (recordBytes ps ++ part).length written
      (atFrame (recordBytes ps ++ part) (recordBytes ps).length (ps.foldl passed (0, false)).1
        (ps.foldl passed (0, false)).2 0 0) = .inr r) :
    ReadRaw (checking o true) fileTstamp written (recordBytes ps ++ part) r := by
  have hstart : recordBytes ps ++ part = [] ++ (recordBytes ps ++ part) := rfl
  exact (returns_fine ((fine_checking true _).mpr h) hstart hlen).mpr (.done hpass)

theorem length_last (ps : List RawRecord) (q : RawRecord) : (recordBytes (ps ++ [q])).length =
    (recordBytes ps).length + (rawHlen + q.header.caplen.toNat) := by
  simp

theorem shortened_caplen (header : RawHeader) {n : Nat} (hn : n < 2 ^ 16) :
    (shortened header n).caplen.toNat = n := by
  unfold shortened
  split <;> exact UInt16.toNat_ofNat_of_lt' hn

/-- The cut is between two records. -/
theorem leaves_whole (hps : Fine o fileTstamp (0, false) ps)
    (hlen : (recordBytes ps).length ≤ longMax) :
    ∃ s, Leaves o fileTstamp (recordBytes ps) ps s := by
  obtain ⟨s, hrun, -, hs⟩ := clean_again true hps hlen
  exact ⟨s, hrun, hs, hlen⟩

/-- The cut is in a header, of which a padding is made. -/
theorem leaves_padding {part : List UInt8} (hps : Fine o fileTstamp (0, false) ps)
    (hsome : part ≠ []) (hpart : part.length < rawHlen)
    (hlen : (recordBytes ps).length + rawHlen ≤ longMax) :
    ∃ s, Leaves o fileTstamp (recordBytes ps ++ part) (ps ++ [⟨⟨0, 0, 0, 0⟩, [], rfl⟩]) s := by
  have hcut : (recordBytes ps ++ part).length ≤ longMax := by
    rw [List.length_append]
    omega
  obtain ⟨r, hpass, hr⟩ := pass_short_cut _ hsome hpart (Nat.le_trans (Nat.le_add_right _ _) hlen)
  refine ⟨r, returns_cut hps hcut hpass, ?_, ?_⟩
  · rw [hr]
    simp [RawRecord.toBytes]
  · rw [length_last]
    exact hlen

/-- The cut is behind the header of a frame, which is shortened. -/
theorem leaves_shortened {header : RawHeader} {part : List UInt8}
    (hps : Fine o fileTstamp (0, false) ps) (hopen : (ps.foldl passed (0, false)).2 = false)
    (hpart : part.length < header.caplen.toNat)
    (hlen : (recordBytes ps).length + rawHlen + header.caplen.toNat ≤ longMax) :
    ∃ s body, Leaves o fileTstamp (recordBytes ps ++ (header.toBytes ++ part))
      (ps ++ [⟨shortened header part.length, part, body⟩]) s := by
  have hcaplen := shortened_caplen header (Nat.lt_trans hpart header.caplen.toNat_lt)
  have hcut : (recordBytes ps ++ (header.toBytes ++ part)).length ≤ longMax := by
    rw [List.length_append, List.length_append, RawHeader.toBytes_length]
    omega
  obtain ⟨r, hpass, hr⟩ := pass_whole_cut hpart hlen
  refine ⟨r, hcaplen.symm, returns_cut hps hcut ?_, ?_, ?_⟩
  · rw [hopen]
    exact hpass
  · rw [hr]
    simp [RawRecord.toBytes]
  · rw [length_last, hcaplen]
    omega

/-- What the repair makes of a cut: the records that are whole, and at most one more. -/
theorem exists_repair {q : RawRecord} {rest : List RawRecord}
    (h : Fine o fileTstamp (0, false) (ps ++ q :: rest))
    (hlen : (recordBytes (ps ++ q :: rest)).length ≤ longMax)
    (hle : (recordBytes ps).length ≤ k) (hlt : k < (recordBytes ps).length + q.toBytes.length) :
    ∃ s rs, Leaves o fileTstamp ((recordBytes (ps ++ q :: rest)).take k) (ps ++ rs) s ∧
      (Fine o fileTstamp (0, false) (ps ++ rs) ↔
        ¬ (isPadding q.header = true ∧ (recordBytes ps).length + rawHlen + 60 ≤ k)) := by
  obtain ⟨hps, hopen, herrors, -⟩ := (fine_append _).mp h
  obtain ⟨j, rfl⟩ := Nat.exists_eq_add_of_le hle
  have htake : (recordBytes (ps ++ q :: rest)).take ((recordBytes ps).length + j) =
      recordBytes ps ++ q.toBytes.take j := by
    rw [recordBytes_append, List.take_length_add_append, recordBytes_cons,
      List.take_append_of_le_length (by omega)]
  have hall : (recordBytes ps).length + rawHlen + q.header.caplen.toNat ≤ longMax := by
    refine Nat.le_trans ?_ hlen
    simp
    omega
  rw [RawRecord.toBytes_length] at hlt
  have hpart : (q.toBytes.take j).length = j := by
    rw [List.length_take, RawRecord.toBytes_length]
    omega
  rw [htake]
  by_cases hnone : j = 0
  · obtain ⟨s, hs⟩ := leaves_whole hps (by omega)
    refine ⟨s, [], ?_, ?_⟩
    · rw [hnone, List.take_zero, List.append_nil, List.append_nil]
      exact hs
    · rw [List.append_nil]
      exact iff_of_true hps fun hno => by omega
  · by_cases hheader : j < rawHlen
    · obtain ⟨s, hs⟩ := leaves_padding hps (List.ne_nil_of_length_pos (by omega))
        (hpart.symm ▸ hheader) (by omega)
      refine ⟨s, _, hs, ?_⟩
      rw [fine_last hps hopen]
      exact iff_of_true zero_errors fun hno => by omega
    · obtain ⟨n, rfl⟩ := Nat.exists_eq_add_of_le (Nat.not_lt.mp hheader)
      have hn : n < q.header.caplen.toNat := by omega
      have hwhole : q.toBytes.take (rawHlen + n) = q.header.toBytes ++ q.body.take n := by
        rw [RawRecord.toBytes, ← toBytes_length q.header, List.take_length_add_append]
      have hbody : (q.body.take n).length = n := by
        rw [List.length_take, q.body_length]
        omega
      obtain ⟨s, _, hs⟩ := leaves_shortened hps hopen (hbody.symm ▸ hn) hall
      rw [hwhole]
      refine ⟨s, _, hs, ?_⟩
      rw [fine_last hps hopen, shortened_errors herrors (hbody.symm ▸ hn), hbody]
      refine not_congr (and_congr_right fun _ => ?_)
      omega

/-- The records that a cut leaves whole stay as they are. -/
theorem take_same {rs : List RawRecord} {pos : Nat} (h : pos ≤ (recordBytes ps).length) :
    (recordBytes (ps ++ rs)).take pos = (recordBytes (ps ++ qs)).take pos := by
  rw [recordBytes_append, recordBytes_append, List.take_append_of_le_length h,
    List.take_append_of_le_length h]

end Runs

/-- A cut of a file without errors is repaired just if it does not leave so much of a padding
that it is taken for a frame. -/
theorem truncation_repaired_iff (o : Options) (fileTstamp : Int) (content : List UInt8) (k : Nat)
    (hlen : content.length ≤ longMax) (hclean : Clean o fileTstamp content) :
    Repaired o fileTstamp content k ↔ ¬ CutsPadding content k := by
  obtain ⟨records, rfl, hfine⟩ := exists_records hlen hclean
  obtain ⟨ps, qs, rfl, hle, hcut⟩ := exists_cut records k
  cases qs with
  | nil =>
    have hnil : recordBytes (ps ++ []) = recordBytes ps := by rw [List.append_nil]
    obtain ⟨s, hl⟩ := leaves_whole hfine hlen
    have hall : (recordBytes (ps ++ [])).take k = recordBytes (ps ++ []) :=
      List.take_of_length_le (hnil ▸ hle)
    rw [Leaves.repaired_iff (hall.symm ▸ hl) fun _ _ _ => rfl]
    refine iff_of_true hfine fun ⟨pos, hpos, hheader, _, hk, hend⟩ => ?_
    obtain ⟨-, hbefore | rfl⟩ := boundary_cut hcut hpos (by omega)
    · omega
    · rw [hnil, rawHlen] at hheader
      omega
  | cons q rest =>
    have hbytes : recordBytes (ps ++ q :: rest) =
        recordBytes ps ++ (q.toBytes ++ recordBytes rest) := by simp
    have hheader : headerAt (recordBytes (ps ++ q :: rest)) (recordBytes ps).length = q.header := by
      rw [hbytes, headerAt_front]
    obtain ⟨s, rs, hl, hiff⟩ := exists_repair hfine hlen hle (hcut q rest rfl)
    rw [hl.repaired_iff fun pos hpos hk => take_same (boundary_cut hcut hpos hk).1, hiff]
    refine not_congr ⟨fun ⟨hpadding, hk⟩ => ?_, fun ⟨pos, hpos, _, hpadding, hk, hend⟩ => ?_⟩
    · have hlt := hcut q rest rfl
      rw [RawRecord.toBytes_length, ← Nat.add_assoc] at hlt
      refine ⟨_, boundary_of_split ps (q :: rest), ?_, hheader ▸ hpadding, hk, hheader.symm ▸ hlt⟩
      rw [hbytes, List.length_append, List.length_append, RawRecord.toBytes_length]
      omega
    · obtain ⟨-, hbefore | rfl⟩ := boundary_cut hcut hpos (by omega)
      · omega
      · rw [hheader] at hpadding
        exact ⟨hpadding, hk⟩

/-- A frame of 64 bytes. -/
def frame64 : RawRecord := ⟨⟨1, 0, 64, 64⟩, List.replicate 64 0, List.length_replicate⟩

/-- A padding of 100 bytes. -/
def padding100 : RawRecord := ⟨⟨0, 0, 100, 100⟩, List.replicate 100 0, List.length_replicate⟩

theorem frame_padding_fine :
    Fine ⟨20, true, false⟩ 0 (0, false) ([frame64] ++ padding100 :: []) :=
  ⟨rfl, by decide, rfl, by decide, trivial⟩

theorem frame_padding_length :
    (recordBytes ([frame64] ++ padding100 :: [])).length ≤ longMax := by
  simp [frame64, padding100, rawHlen, longMax]

/-- The cut is in the frame. -/
theorem truncation_repaired_iff_frame :
    Repaired ⟨20, true, false⟩ 0 (recordBytes [frame64, padding100]) 30 := by
  obtain ⟨s, hrun, hzero, -⟩ := @clean_again _ _ written _ false frame_padding_fine
    frame_padding_length
  refine (truncation_repaired_iff _ _ _ 30 frame_padding_length ⟨s, hrun, hzero⟩).mpr ?_
  rintro ⟨pos, -, -, -, hk, -⟩
  omega

/-- Of the padding after a frame, 88 bytes are left: it is written with the length it had. -/
theorem cut_padding_errs : ¬ ∀ (o : Options) (fileTstamp : Int) (content : List UInt8) (k : Nat),
    o.ignoreCaplen = true → content.length ≤ longMax → Clean o fileTstamp content →
      Repaired o fileTstamp content k := by
  intro h
  have hlen := frame_padding_length
  obtain ⟨s, hclean, hzero, -⟩ := @clean_again _ _ written _ false frame_padding_fine hlen
  have hcut : (recordBytes [frame64]).length = 76 := by simp [frame64]
  obtain ⟨s', rs, hl, hiff⟩ := exists_repair (k := 176) frame_padding_fine hlen
    (by rw [hcut]; decide) (by rw [hcut, RawRecord.toBytes_length]; decide)
  have hrepaired := h ⟨20, true, false⟩ 0 _ 176 rfl hlen ⟨s, hclean, hzero⟩
  exact hiff.mp (hl.fine hrepaired) ⟨rfl, by rw [hcut]; decide⟩

end Hpcap.Repair
