import Hpcap.Acceptance
import Hpcap.Files

namespace Hpcap.Decoding

open Hpcap.Patch Hpcap.RawHeader Hpcap.Rx Hpcap.Stream Hpcap.Inked Hpcap.Recording Hpcap.Files
open Hpcap.Listeners Hpcap.Registry Hpcap.Transition Hpcap.Opening Hpcap.Raw2pcap
open Hpcap.Capture (joinPos size)

variable {cfg : Config}

/-- A record as the entry leaves it. Behind the header of a padding is whatever was there. -/
structure IsRecord (cfg : Config) (e : Entry) (r : RawRecord) : Prop where
  header : r.header = e.header cfg
  body : ∀ f, e = .frame f → r.body = payload cfg f

section Entries

variable {p : Nat} {e : Entry} {es : List Entry}

theorem size_pos (cfg : Config) (e : Entry) : 0 < e.size cfg :=
  Nat.lt_of_lt_of_le (by decide) (Nat.le_add_right rawHlen _)

theorem calcCaplen_le (cap len : Nat) : calcCaplen cap len ≤ len := by
  rw [calcCaplen]
  split
  · exact le_rfl
  · exact min_le_right _ _

/-- The header says how many bytes there are behind it. -/
theorem header_caplen (h : Placed cfg p e) : (e.header cfg).caplen.toNat = e.caplen cfg := by
  cases e with
  | padding room =>
    change (rawHlen + room - rawHlen) % 2 ^ 16 = room
    have hmax := h.1
    rw [Nat.add_sub_cancel_left, Nat.mod_eq_of_lt (by omega)]
  | frame f =>
    have hle := calcCaplen_le cfg.caplen f.size
    have hmax : f.size ≤ 2048 := h.1
    exact Nat.mod_eq_of_lt (by omega)

theorem payload_length {f : Frame} (h : f.size ≤ maxDescrSize) :
    (payload cfg f).length = calcCaplen cfg.caplen f.size := by
  have hle := calcCaplen_le cfg.caplen f.size
  rw [payload, List.length_take, min_eq_left (hle.trans h), min_eq_left hle]

theorem placed_size_le (h : Placed cfg p e) :
    p % cfg.fileSize + e.size cfg ≤ cfg.fileSize := by
  cases e with
  | padding room => exact h.2.1
  | frame f =>
    have hfile := h.2.2
    simp only [Entry.size, Entry.caplen]
    omega

/-- An entry that starts before a file boundary ends before it. -/
theorem split_at_file (h : Tidy cfg p es) {k : Nat} (hk : cfg.fileSize ∣ p + k)
    (hle : k ≤ total (layout cfg) es) :
    ∃ ps qs, es = ps ++ qs ∧ total (layout cfg) ps = k := by
  induction es generalizing p k with
  | nil => exact ⟨[], [], rfl, (Nat.le_zero.mp hle).symm⟩
  | cons e es ih =>
    obtain ⟨hplaced, hrest⟩ := h
    by_cases hzero : k = 0
    · exact ⟨[], e :: es, rfl, hzero.symm⟩
    · obtain ⟨m, hm⟩ := hk
      have hsize := placed_size_le hplaced
      have hb := boundary_le (n := cfg.fileSize) (p := p) (k := m) (by rw [Nat.mul_comm]; omega)
      rw [Nat.mul_comm] at hb
      rw [total_cons] at hle
      change k ≤ e.size cfg + _ at hle
      obtain ⟨ps, qs, rfl, hps⟩ := ih (k := k - e.size cfg) hrest
        ⟨m, by omega⟩ (by omega)
      refine ⟨e :: ps, qs, rfl, ?_⟩
      rw [total_cons, hps]
      change e.size cfg + _ = k
      omega

/-- What an entry is written with starts the bytes. -/
theorem take_bytes {bytes : List UInt8} (hc : Copied cfg 0 (e :: es) bytes)
    (hle : e.size cfg ≤ bytes.length) :
    bytes.take ((layout cfg).bytes e).length = (layout cfg).bytes e := by
  have hsize : ((layout cfg).bytes e).length ≤ e.size cfg := (layout cfg).bytes_le e
  apply List.ext_getElem
  · rw [List.length_take]
    omega
  · intro i hi hb
    rw [List.getElem_take]
    refine hc i _ ?_ (by omega)
    rw [Nat.zero_add, ink_cons_of_lt _ _ (hb.trans_le hsize), List.getElem?_eq_getElem hb]

/-- Bytes that start with an entry start with a record. -/
theorem exists_record {bytes : List UInt8} (h : Placed cfg p e) (hc : Copied cfg 0 (e :: es) bytes)
    (hle : e.size cfg ≤ bytes.length) :
    ∃ r, bytes = r.toBytes ++ bytes.drop (e.size cfg) ∧ IsRecord cfg e r := by
  have htake := take_bytes hc hle
  have hcaplen := header_caplen h
  have hsize : e.size cfg = rawHlen + e.caplen cfg := rfl
  have hbytes : (layout cfg).bytes e = (e.header cfg).toBytes ++ e.body cfg := rfl
  rw [hbytes, List.length_append, RawHeader.toBytes_length] at htake
  have hheader : bytes.take rawHlen = (e.header cfg).toBytes := by
    have hfront := congrArg (List.take rawHlen) htake
    rwa [List.take_take, Nat.min_eq_left (Nat.le_add_right _ _),
      List.take_left' (RawHeader.toBytes_length _)] at hfront
  have hlen : ((bytes.drop rawHlen).take (e.caplen cfg)).length = (e.header cfg).caplen.toNat := by
    rw [List.length_take, List.length_drop, hcaplen]
    omega
  refine ⟨⟨e.header cfg, (bytes.drop rawHlen).take (e.caplen cfg), hlen⟩, ?_, rfl, ?_⟩
  · rw [RawRecord.toBytes, ← hheader, hsize, ← List.take_add, List.take_append_drop]
  · rintro f rfl
    have hbody := congrArg (List.drop rawHlen) htake
    rw [List.drop_take, Nat.add_sub_cancel_left, List.drop_left' (RawHeader.toBytes_length _)] at hbody
    have hpay : (payload cfg f).length = Entry.caplen cfg (.frame f) := payload_length h.1
    change List.take (payload cfg f).length _ = payload cfg f at hbody
    rwa [hpay] at hbody

/-- Bytes that are as the log puts them are records. -/
theorem exists_records {bytes : List UInt8} (h : Tidy cfg p es) (hc : Copied cfg 0 es bytes)
    (hlen : bytes.length = total (layout cfg) es) :
    ∃ rs, bytes = rs.flatMap RawRecord.toBytes ∧ List.Forall₂ (IsRecord cfg) es rs := by
  induction es generalizing p bytes with
  | nil => exact ⟨[], List.length_eq_zero_iff.mp hlen, .nil⟩
  | cons e es ih =>
    obtain ⟨hplaced, hrest⟩ := h
    have htotal : bytes.length = e.size cfg + total (layout cfg) es := hlen
    obtain ⟨r, hr, hrec⟩ := exists_record hplaced hc (by omega)
    have hcopied : Copied cfg 0 es (bytes.drop (e.size cfg)) := by
      intro i b hb hi
      rw [List.getElem_drop]
      rw [Nat.zero_add] at hb
      refine hc _ b ?_ _
      rw [Nat.zero_add]
      exact (ink_cons_add (layout cfg) e es i).trans hb
    obtain ⟨rs, hrs, hall⟩ := ih hrest hcopied (by rw [List.length_drop]; omega)
    refine ⟨r :: rs, ?_, .cons hrec hall⟩
    rw [List.flatMap_cons, ← hrs]
    exact hr

/-- Behind the start of a file there are frames, and a padding to its end. -/
theorem tail_shape (h : Tidy cfg p es) (hp : 0 < p % cfg.fileSize)
    (hend : p % cfg.fileSize + total (layout cfg) es = cfg.fileSize) :
    ∃ (fs : List Frame) (room : Nat), es = fs.map .frame ++ [.padding room] := by
  have hfs : 0 < cfg.fileSize := by omega
  induction es generalizing p with
  | nil =>
    have hlt := Nat.mod_lt p hfs
    rw [total_nil] at hend
    omega
  | cons e es ih =>
    obtain ⟨hplaced, hrest⟩ := h
    have hend : p % cfg.fileSize + (e.size cfg + total (layout cfg) es) = cfg.fileSize := hend
    cases e with
    | padding room =>
      cases es with
      | nil => exact ⟨[], room, rfl⟩
      | cons e' es =>
        have hpos := size_pos cfg e'
        have hedge := hplaced.2.2
        have htotal : total (layout cfg) (e' :: es) = e'.size cfg + total (layout cfg) es := rfl
        have hsize : Entry.size cfg (.padding room) = rawHlen + room := rfl
        omega
    | frame f =>
      have hnext : (p + Entry.size cfg (.frame f)) % cfg.fileSize =
          p % cfg.fileSize + Entry.size cfg (.frame f) := by
        have hroom := hplaced.2.2
        refine asFileOffset_add ?_
        simp only [Entry.size, Entry.caplen]
        have hR : rawHlen = 12 := rfl
        omega
      obtain ⟨fs, room, rfl⟩ := ih hrest (by rw [hnext]; omega) (by rw [hnext]; omega)
      exact ⟨f :: fs, room, rfl⟩

/-- A file is made of a padding or none, frames, and a padding. -/
theorem file_shape (h : Tidy cfg p es) (hp : cfg.fileSize ∣ p) (hfs : 0 < cfg.fileSize)
    (hend : total (layout cfg) es = cfg.fileSize) :
    ∃ (lead : Option Nat) (fs : List Frame) (room : Nat),
      es = (lead.map .padding).toList ++ (fs.map .frame ++ [.padding room]) := by
  have hzero := Nat.mod_eq_zero_of_dvd hp
  cases es with
  | nil =>
    rw [total_nil] at hend
    omega
  | cons e es =>
    obtain ⟨hplaced, hrest⟩ := h
    have hend : e.size cfg + total (layout cfg) es = cfg.fileSize := hend
    have hpos := size_pos cfg e
    by_cases hfull : e.size cfg = cfg.fileSize
    · have hnil : es = [] := by
        cases es with
        | nil => rfl
        | cons e' es =>
          have hpos := size_pos cfg e'
          have htotal : total (layout cfg) (e' :: es) = e'.size cfg + total (layout cfg) es := rfl
          omega
      subst hnil
      cases e with
      | padding room => exact ⟨none, [], room, rfl⟩
      | frame f =>
        have hroom := hplaced.2.2
        simp only [Entry.size, Entry.caplen] at hfull
        have hR : rawHlen = 12 := rfl
        omega
    · have hle := placed_size_le hplaced
      have hnext : (p + e.size cfg) % cfg.fileSize = e.size cfg := by
        rw [asFileOffset_add (by omega), hzero, Nat.zero_add]
      obtain ⟨fs, room, rfl⟩ := tail_shape hrest (by rw [hnext]; exact hpos) (by rw [hnext]; exact hend)
      cases e with
      | padding room' => exact ⟨some room', fs, room, rfl⟩
      | frame f => exact ⟨none, f :: fs, room, rfl⟩

end Entries

/-- A file as the capture writes it, with these frames. -/
structure Captured (cfg : Config) (bytes : List UInt8) (fs : List Frame) (r : RawFile) : Prop where
  length : bytes.length = cfg.fileSize
  bytes : r.toBytes = bytes
  frames : r.frames.map (fun r => (⟨r.header, r.body⟩ : Record)) = fs.map (frameRecord cfg)

section Records

variable {p : Nat} {es : List Entry} {rs : List RawRecord}

/-- A padding is a padding record. -/
theorem padding_record {room : Nat} {r : RawRecord} (h : IsRecord cfg (.padding room) r) :
    ∃ q : PaddingRecord, q.toRawRecord = r := by
  have hh : r.header = paddingHeader (rawHlen + room) := h.header
  exact ⟨⟨r, by rw [hh]; rfl, by rw [hh]; rfl⟩, rfl⟩

/-- Frames are frame records. -/
theorem frame_records {fs : List Frame} (h : Tidy cfg p (fs.map .frame))
    (hall : List.Forall₂ (IsRecord cfg) (fs.map .frame) rs) :
    ∃ qs : List FrameRecord, qs.flatMap (fun q => q.toBytes) = rs.flatMap RawRecord.toBytes ∧
      qs.map (fun q => (⟨q.header, q.body⟩ : Record)) = fs.map (frameRecord cfg) := by
  induction fs generalizing p rs with
  | nil =>
    cases hall
    exact ⟨[], rfl, rfl⟩
  | cons f fs ih =>
    obtain ⟨hplaced, hrest⟩ := h
    cases hall with
    | cons hr hall =>
      rename_i r rs
      obtain ⟨qs, hbytes, hmap⟩ := ih hrest hall
      have hh : r.header = frameHeader cfg f := hr.header
      have hpad : hpcapIsHeaderPadding r.header = false := by
        rw [hh]
        exact Stamped.not_padding hplaced.2.1
      have hcap : r.header.caplen.toNat ≤ maxPacketLen := by
        have hle := header_caplen hplaced
        rw [hr.header, hle]
        exact (calcCaplen_le _ _).trans hplaced.1
      refine ⟨⟨r, hpad, hcap⟩ :: qs, ?_, ?_⟩
      · rw [List.flatMap_cons, List.flatMap_cons, hbytes]
      · rw [List.map_cons, List.map_cons, hmap]
        exact congrArg (· :: _) (congrArg₂ Record.mk hh (hr.body f rfl))

theorem frames_file (lead : Option Nat) (fs : List Frame) (room : Nat) :
    frames ((lead.map .padding).toList ++ (fs.map .frame ++ [.padding room])) = fs := by
  have hlead : frames (lead.map .padding).toList = [] := by
    cases lead with
    | none => rfl
    | some room' => rfl
  have hfs : frames (fs.map .frame) = fs := by
    induction fs with
    | nil => rfl
    | cons f fs ih => exact congrArg (f :: ·) ih
  rw [frames_append, frames_append, hlead, hfs]
  exact List.append_nil fs

/-- The bytes of a file of the stream. -/
theorem exists_captured {bytes : List UInt8} (h : Tidy cfg p es) (hp : cfg.fileSize ∣ p)
    (hfs : 0 < cfg.fileSize) (hend : total (layout cfg) es = cfg.fileSize)
    (hc : Copied cfg 0 es bytes) (hlen : bytes.length = cfg.fileSize) :
    ∃ r, Captured cfg bytes (frames es) r := by
  obtain ⟨rs, hbytes, hall⟩ := exists_records h hc (hlen.trans hend.symm)
  obtain ⟨lead, fs, room, rfl⟩ := file_shape h hp hfs hend
  obtain ⟨us, vs, rfl, hus, hvs⟩ := Slots.forall₂_split hall
  obtain ⟨ws, zs, rfl, hws, hzs⟩ := Slots.forall₂_split hvs
  obtain ⟨-, hrest⟩ := h.of_append
  obtain ⟨qs, hqs, hmap⟩ := frame_records hrest.of_append.1 hws
  obtain ⟨z, rfl, hz⟩ : ∃ z, zs = [z] ∧ IsRecord cfg (.padding room) z := by
    cases hzs with
    | cons hz hnil =>
      cases hnil
      exact ⟨_, rfl, hz⟩
  obtain ⟨trailing, rfl⟩ := padding_record hz
  obtain ⟨leading, hleading⟩ : ∃ q : Option PaddingRecord, paddingBytes q =
      us.flatMap RawRecord.toBytes := by
    cases lead with
    | none =>
      cases hus
      exact ⟨none, rfl⟩
    | some room' =>
      cases hus with
      | cons hu hnil =>
        cases hnil
        obtain ⟨q, rfl⟩ := padding_record hu
        exact ⟨some q, (List.append_nil _).symm⟩
  refine ⟨⟨leading, qs, some trailing⟩, hlen, ?_, ?_⟩
  · rw [hbytes, List.flatMap_append, List.flatMap_append, RawFile.toBytes, hleading, hqs]
    exact congrArg _ (congrArg _ (List.append_nil _).symm)
  · rw [frames_file]
    exact hmap

end Records

section Files

variable {es : List Entry} {bytes : List UInt8}

theorem copied_behind {pre : List Entry} {j : Nat} (h : Copied cfg j (pre ++ es) bytes)
    (hj : total (layout cfg) pre = j) : Copied cfg 0 es bytes := by
  intro i b hb hi
  subst hj
  rw [Nat.zero_add] at hb
  exact h i b ((ink_behind _ pre es i).trans hb) hi

theorem copied_drop {pre : List Entry} {front : List UInt8}
    (h : Copied cfg 0 (pre ++ es) (front ++ bytes))
    (hlen : total (layout cfg) pre = front.length) : Copied cfg 0 es bytes := by
  intro i b hb hi
  rw [Nat.zero_add] at hb
  have hat := h (front.length + i) b ?_ (by rw [List.length_append]; omega)
  · rwa [List.getElem_append_right (Nat.le_add_right _ _), getElem_congr_idx
      (Nat.add_sub_cancel_left ..)] at hat
  · rw [Nat.zero_add, ← hlen]
    exact (ink_behind _ pre es i).trans hb

theorem copied_front {post : List Entry} {back : List UInt8}
    (h : Copied cfg 0 (es ++ post) (bytes ++ back)) : Copied cfg 0 es bytes := by
  intro i b hb hi
  have hat := h i b (ink_mono _ post hb) (by rw [List.length_append]; omega)
  rwa [List.getElem_append_left hi] at hat

/-- Complete files, one after the other, hold the frames of the stream. -/
theorem files_captured {full : List (List UInt8)} {back : List UInt8} {p : Nat}
    (h : Tidy cfg p es) (hp : cfg.fileSize ∣ p) (hfs : 0 < cfg.fileSize)
    (hc : Copied cfg 0 es (full.flatten ++ back)) (hlen : ∀ c ∈ full, c.length = cfg.fileSize)
    (hle : full.flatten.length ≤ total (layout cfg) es) :
    ∃ fss after, frames es = fss.flatten ++ after ∧
      List.Forall₂ (fun c fs => ∃ r, Captured cfg c fs r) full fss := by
  induction full generalizing p es with
  | nil => exact ⟨[], frames es, rfl, .nil⟩
  | cons c full ih =>
    have hlen' : c.length = cfg.fileSize := hlen c List.mem_cons_self
    rw [List.flatten_cons, List.append_assoc] at hc
    rw [List.flatten_cons, List.length_append] at hle
    obtain ⟨mid, rest, rfl, hmid⟩ := split_at_file h (k := cfg.fileSize)
      (Nat.dvd_add hp (Nat.dvd_refl _)) (by omega)
    obtain ⟨ht, htr⟩ := h.of_append
    rw [total_append, hmid] at hle
    rw [hmid] at htr
    obtain ⟨r, hr⟩ := exists_captured ht hp hfs hmid (copied_front hc) hlen'
    obtain ⟨fss, after, hframes, hall⟩ := ih htr (Nat.dvd_add hp (Nat.dvd_refl _))
      (copied_drop hc (hmid.trans hlen'.symm)) (fun c' h' => hlen c' (List.mem_cons_of_mem _ h'))
      (by omega)
    refine ⟨frames mid :: fss, after, ?_, .cons ⟨r, hr⟩ hall⟩
    rw [frames_append, hframes, List.flatten_cons, List.append_assoc]

/-- Of two logs of one stream the shorter one starts the other. -/
theorem prefix_of_total_le {ps qs : List Entry} (hp : ps <+: es) (hq : qs <+: es)
    (hle : total (layout cfg) ps ≤ total (layout cfg) qs) : ps <+: qs := by
  obtain h | ⟨more, rfl⟩ := List.prefix_or_prefix_of_prefix hp hq
  · exact h
  · cases more with
    | nil => exact ⟨[], (List.append_nil _).trans (List.append_nil _)⟩
    | cons e more =>
      have hpos := size_pos cfg e
      have hmore : total (layout cfg) (e :: more) = e.size cfg + total (layout cfg) more := rfl
      rw [total_append] at hle
      omega

theorem frames_prefix {ps qs : List Entry} (h : ps <+: qs) : frames ps <+: frames qs := by
  obtain ⟨more, rfl⟩ := h
  rw [frames_append]
  exact List.prefix_append _ _

/-- The closed files but for the one that was closed to stop. -/
theorem complete_closed {s : Files.State} (h : Complete cfg s.proc)
    (hclosed : s.disk.closed.map List.length = s.proc.files.map size) :
    ∃ full rest, s.disk.closed = full ++ rest ∧ (∀ c ∈ full, c.length = cfg.fileSize) ∧
      (rest ≠ [] → s.proc.stop = true ∧ rest.length = 1) := by
  have hsizes : ∀ (full : List (List UInt8)) (fs : List (List Capture.Block)),
      full.map List.length = fs.map size → (∀ f ∈ fs, size f = cfg.fileSize) →
      ∀ c ∈ full, c.length = cfg.fileSize := by
    intro full fs hmap hall c hc
    have hmem : c.length ∈ fs.map size := hmap ▸ List.mem_map_of_mem hc
    obtain ⟨f, hf, he⟩ := List.mem_map.mp hmem
    exact he ▸ hall f hf
  obtain hall | ⟨hstop, -, fs, f, hfiles, hall⟩ := h
  · exact ⟨s.disk.closed, [], (List.append_nil _).symm, hsizes _ _ hclosed hall, fun h => absurd rfl h⟩
  · rw [hfiles, List.map_append] at hclosed
    obtain ⟨full, rest, hcl, hfull, hrest⟩ := List.map_eq_append_iff.mp hclosed
    refine ⟨full, rest, hcl, hsizes _ _ hfull hall, fun _ => ⟨hstop, ?_⟩⟩
    have hone := congrArg List.length hrest
    rwa [List.length_map] at hone

end Files

/-- `hpcapdd` has opened the device at a file boundary, in the state `q`, and has come to `s`. -/
structure Dumps (cfg : Config) (bs : Nat) (id : Int) (q : Poll.State) (s : Files.State) : Prop where
  opened : ∃ buf, Reach (Poll.step cfg) Opening.Received (fun t => t = Poll.init cfg buf) q
  id_ne : id ≠ listenerEmpty
  new : hpcapGetListener q.lstnr id = none
  slot : (joinSlot q.lstnr id).isSome
  boundary : cfg.fileSize ∣ joinPos q
  run : Reach (step cfg bs id) Received (fun t => t = start cfg q id) s

/-- The complete files hold what the stream has from the boundary on. -/
structure Dumped (cfg : Config) (q : Poll.State) (s : Files.State) (full rest : List (List UInt8))
    (pre es : List Entry) : Prop where
  closed : s.disk.closed = full ++ rest
  stopped : rest ≠ [] → s.proc.stop = true ∧ rest.length = 1
  length : ∀ c ∈ full, c.length = cfg.fileSize
  accepted : frames pre ++ frames es = s.proc.queue.rx.trace.accepted.reverse
  before : frames pre <+: q.rx.trace.accepted.reverse
  tidy : Tidy cfg (total (layout cfg) pre) es
  boundary : cfg.fileSize ∣ total (layout cfg) pre
  copied : ∃ back, Copied cfg 0 es (full.flatten ++ back)
  le : full.flatten.length ≤ total (layout cfg) es

section Run

variable {bs : Nat} {id : Int} {q : Poll.State} {s : Files.State}
variable {full rest : List (List UInt8)} {pre es : List Entry}

theorem Dumps.dumped (h : Dumps cfg bs id q s) (hb : cfg.bufSize ∣ cfg.fileSize)
    (hd : cfg.bufSize ∣ 2 ^ 32) (hbs : 0 < bs) (hsound : Sound cfg s.proc.queue.rx.trace) :
    ∃ full rest pre es, Dumped cfg q s full rest pre es := by
  obtain ⟨buf, hq⟩ := h.opened
  obtain ⟨j, hj, hjle, hstart⟩ := start_inv hb hd (Intact.reach_inv hb hd hq)
    (Opening.reach_inv hb hd hq) h.id_ne h.new h.slot h.boundary
  obtain ⟨p, hcore, -, hsaved⟩ : Inv cfg id q j s := by
    refine h.run.invariant (Inv cfg id q j) ?_ fun _ _ _ hu ha hs => hu.step hb hd hbs h.id_ne ha hs
    rintro t rfl
    exact hstart
  obtain ⟨es₀, es, h₀, hpre, hk, hcopied⟩ := hsaved.log hsound
  obtain ⟨full, rest, hclosed, hlen, hrest⟩ := complete_closed hsaved.complete hsaved.closed
  have hupTo := hsaved.upTo
  have hreserved := hcore.acks_le
  have htotal := hk.total_eq
  rw [Disk.content, hclosed, List.flatten_append, List.append_assoc] at hcopied hupTo
  rw [List.length_append] at hupTo
  obtain ⟨pre, post, rfl, hpos⟩ := split_at_file hk.tidy (k := j)
    (by rw [Nat.zero_add]; exact hj) (by omega)
  obtain ⟨-, htidy⟩ := hk.tidy.of_append
  rw [Nat.zero_add] at htidy
  rw [total_append, hpos] at htotal
  have hle : total (layout cfg) pre ≤ total (layout cfg) es₀ := by
    rw [hpos, h₀.total_eq]
    exact hjle
  have hfirst := frames_prefix (prefix_of_total_le (List.prefix_append pre post) hpre hle)
  rw [h₀.accepted] at hfirst
  refine ⟨full, rest, pre, post, hclosed, hrest, hlen, ?_, hfirst, htidy, hpos ▸ hj,
    ⟨_, copied_behind hcopied hpos⟩, by omega⟩
  rw [← frames_append]
  exact hk.accepted

theorem Dumped.captured (h : Dumped cfg q s full rest pre es) (hfs : 0 < cfg.fileSize) :
    ∃ fss after, frames es = fss.flatten ++ after ∧
      List.Forall₂ (fun c fs => ∃ r, Captured cfg c fs r) full fss := by
  obtain ⟨back, hcopied⟩ := h.copied
  exact files_captured h.tidy h.boundary hfs hcopied h.length h.le

end Run

/-- What the loop of `raw2pcap` is to make of a frame that was accepted. -/
def visit (cfg : Config) (f : Frame) : Visit :=
  ⟨(frameHeader cfg f).sec, (frameHeader cfg f).nsec, (frameHeader cfg f).caplen,
    (frameHeader cfg f).len, payload cfg f⟩

/-- That the first header of a file is that of a padding. -/
def startsPadded (bytes : List UInt8) : Bool := hpcapIsHeaderPadding (Checkraw.headerAt bytes 0)

section Tools

variable {bytes : List UInt8} {fs : List Frame} {r : RawFile}

theorem Captured.visits (h : Captured cfg bytes fs r) :
    r.frames.map FrameRecord.visit = fs.map (visit cfg) := by
  have hmap := congrArg (List.map fun x : Record =>
    (⟨x.header.sec, x.header.nsec, x.header.caplen, x.header.len, x.body⟩ : Visit)) h.frames
  rw [List.map_map, List.map_map] at hmap
  exact hmap

theorem startsPadded_padding (p : PaddingRecord) (rest : List UInt8) :
    startsPadded (p.toBytes ++ rest) = true := by
  have hhead := Repair.headerAt_front p.toRawRecord [] rest
  exact (congrArg hpcapIsHeaderPadding hhead).trans p.padding

theorem startsPadded_frame (q : FrameRecord) (rest : List UInt8) :
    startsPadded (q.toBytes ++ rest) = false := by
  have hhead := Repair.headerAt_front q.toRawRecord [] rest
  exact (congrArg hpcapIsHeaderPadding hhead).trans q.not_padding

/-- `raw2pcap` dumps the frames of a file, unless the file starts with a padding. -/
theorem Captured.recordLoop_eq (h : Captured cfg bytes fs r) :
    recordLoop bytes = if startsPadded bytes then [] else fs.map (visit cfg) := by
  rw [← h.visits, ← h.bytes, RawFile.toBytes, recordLoop_padding, recordLoop_frames,
    recordLoop_trailing, List.append_nil]
  obtain ⟨leading, frames, trailing⟩ := r
  cases leading with
  | some p => rw [paddingBytes, Option.elim_some, startsPadded_padding, if_pos rfl,
    if_neg (Option.some_ne_none p)]
  | none =>
    rw [if_pos rfl, paddingBytes, Option.elim_none, List.nil_append]
    cases frames with
    | nil => rw [List.map_nil, ite_self]
    | cons q frames =>
      rw [List.flatMap_cons, List.append_assoc, startsPadded_frame, if_neg Bool.false_ne_true]

/-- `checkraw` reports no error of a file just if there is none in the headers of its frames. -/
theorem Captured.clean_frames (h : Captured cfg bytes fs r) (hlen : cfg.fileSize ≤ Stdio.longMax)
    (o : Checkraw.Options) (fileTstamp : Int) : Repair.Clean o fileTstamp bytes ↔
      ∀ f ∈ fs, Checkraw.headerErrors o fileTstamp (frameHeader cfg f) = 0 := by
  have hheaders := congrArg (List.map Record.header) h.frames
  rw [List.map_map, List.map_map] at hheaders
  have hiff := Acceptance.clean_toBytes o fileTstamp r
    (by rw [h.bytes, h.length]; exact hlen)
  rw [h.bytes] at hiff
  rw [hiff, ← List.forall_mem_map (f := fun q : FrameRecord => q.header)
    (P := fun header => Checkraw.headerErrors o fileTstamp header = 0)]
  exact (congrArg (fun hs => ∀ header ∈ hs, Checkraw.headerErrors o fileTstamp header = 0)
    hheaders).to_iff.trans List.forall_mem_map

end Tools

/-- A run that closes a file of two blocks, in which two frames are received. -/
theorem tiny_run : ∃ s, Dumps Capture.tiny 32 1 (Poll.init Capture.tiny blank) s ∧
    Sound Capture.tiny s.proc.queue.rx.trace ∧ s.proc.stop = false ∧ s.disk.closed.length = 1 ∧
    s.proc.queue.rx.trace.accepted.length = 2 := by
  have hrun : (run (guard (step Capture.tiny 32 1) Received)
      (start Capture.tiny (Poll.init Capture.tiny blank) 1) Capture.firstCapture).map
      (fun s => (decide (Sound Capture.tiny s.proc.queue.rx.trace), s.proc.stop,
        s.disk.closed.length, s.proc.queue.rx.trace.accepted.length)) =
          some (true, false, 1, 2) := by
    decide +kernel
  obtain ⟨s, hs, he⟩ := Option.map_eq_some_iff.mp hrun
  simp only [Prod.mk.injEq, decide_eq_true_eq] at he
  obtain ⟨hsound, hstop, hone, htwo⟩ := he
  exact ⟨s, ⟨⟨blank, .start rfl⟩, by decide, rfl, rfl, by decide, .run_guard (.start rfl) hs⟩, hsound,
    hstop, hone, htwo⟩

/-- Of each complete file `raw2pcap` makes the accepted frames that went into it, as they came in,
or nothing if the file starts with the padding that the one before left over. -/
theorem raw2pcap_dumps_frames (cfg : Config) (hb : cfg.bufSize ∣ cfg.fileSize)
    (hd : cfg.bufSize ∣ 2 ^ 32) (hfs : 0 < cfg.fileSize) (bs : Nat) (hbs : 0 < bs)
    (id : Int) (q : Poll.State) (s : Files.State) (h : Dumps cfg bs id q s)
    (hsound : Sound cfg s.proc.queue.rx.trace) :
    ∃ full rest before fss after, s.disk.closed = full ++ rest ∧
      (rest ≠ [] → s.proc.stop = true ∧ rest.length = 1) ∧
      s.proc.queue.rx.trace.accepted.reverse = before ++ (fss.flatten ++ after) ∧
      List.Forall₂ (fun c fs => recordLoop c = if startsPadded c then [] else fs.map (visit cfg))
        full fss := by
  obtain ⟨full, rest, pre, es, hdumped⟩ := h.dumped hb hd hbs hsound
  obtain ⟨fss, after, hframes, hall⟩ := hdumped.captured hfs
  refine ⟨full, rest, frames pre, fss, after, hdumped.closed, hdumped.stopped,
    hframes ▸ hdumped.accepted.symm, hall.imp fun c fs hc => ?_⟩
  obtain ⟨r, hr⟩ := hc
  exact hr.recordLoop_eq

theorem raw2pcap_dumps_frames_first :
    ∃ (s : Files.State) (full rest : List (List UInt8)) (fss : List (List Frame)),
      s.disk.closed = full ++ rest ∧ s.disk.closed.length = 1 ∧
      List.Forall₂ (fun c fs => recordLoop c =
        if startsPadded c then [] else fs.map (visit Capture.tiny)) full fss := by
  obtain ⟨s, hs, hsound, -, hone, -⟩ := tiny_run
  obtain ⟨full, rest, -, fss, -, hclosed, -, -, hall⟩ :=
    raw2pcap_dumps_frames Capture.tiny (by decide) (by decide) (by decide) 32 (by decide) 1
      (Poll.init Capture.tiny blank) s hs hsound
  exact ⟨s, full, rest, fss, hclosed, hone, hall⟩

/-- `checkraw` reports errors of a complete file just if the driver has stamped one of its frames
with a header that has some: there are none in how the frames and the paddings lie. -/
theorem checkraw_passes_files (cfg : Config) (hb : cfg.bufSize ∣ cfg.fileSize)
    (hd : cfg.bufSize ∣ 2 ^ 32) (hfs : 0 < cfg.fileSize) (hlen : cfg.fileSize ≤ Stdio.longMax)
    (bs : Nat) (hbs : 0 < bs) (id : Int) (q : Poll.State) (s : Files.State)
    (h : Dumps cfg bs id q s) (hsound : Sound cfg s.proc.queue.rx.trace) :
    ∃ full rest before fss after, s.disk.closed = full ++ rest ∧
      (rest ≠ [] → s.proc.stop = true ∧ rest.length = 1) ∧
      s.proc.queue.rx.trace.accepted.reverse = before ++ (fss.flatten ++ after) ∧
      List.Forall₂ (fun c fs => ∀ o fileTstamp, Repair.Clean o fileTstamp c ↔
        ∀ f ∈ fs, Checkraw.headerErrors o fileTstamp (frameHeader cfg f) = 0) full fss := by
  obtain ⟨full, rest, pre, es, hdumped⟩ := h.dumped hb hd hbs hsound
  obtain ⟨fss, after, hframes, hall⟩ := hdumped.captured hfs
  refine ⟨full, rest, frames pre, fss, after, hdumped.closed, hdumped.stopped,
    hframes ▸ hdumped.accepted.symm, hall.imp fun c fs hc => ?_⟩
  obtain ⟨r, hr⟩ := hc
  exact hr.clean_frames hlen

theorem checkraw_passes_files_first :
    ∃ (s : Files.State) (full rest : List (List UInt8)) (fss : List (List Frame)),
      s.disk.closed = full ++ rest ∧ s.disk.closed.length = 1 ∧
      List.Forall₂ (fun c fs => ∀ o fileTstamp, Repair.Clean o fileTstamp c ↔
        ∀ f ∈ fs, Checkraw.headerErrors o fileTstamp (frameHeader Capture.tiny f) = 0) full fss := by
  obtain ⟨s, hs, hsound, -, hone, -⟩ := tiny_run
  obtain ⟨full, rest, -, fss, -, hclosed, -, -, hall⟩ :=
    checkraw_passes_files Capture.tiny (by decide) (by decide) (by decide) (by decide) 32 (by decide)
      1 (Poll.init Capture.tiny blank) s hs hsound
  exact ⟨s, full, rest, fss, hclosed, hone, hall⟩

end Hpcap.Decoding
