import Hpcap.Consumption
import Hpcap.Decoding

namespace Hpcap.Feed

open Hpcap.Patch Hpcap.Reservation Hpcap.Rx Hpcap.Stream Hpcap.Inked Hpcap.Recording
open Hpcap.Listeners Hpcap.Registry Hpcap.Transition Hpcap.Opening Hpcap.Intact Hpcap.Client
open Hpcap.ReadPacket Hpcap.Decoding
open Hpcap.Capture (Core Reading Elsewhere joinPos)
open Hpcap.Consumption (Moved)
open Hpcap.Files (Copied)

section Read

variable {buf : Nat → UInt8} {h : Handle} {rs : List RawRecord}

/-- No record runs over the end of the buffer. -/
def Clear (h : Handle) (rs : List RawRecord) : Prop :=
  ∀ (ps : List RawRecord) r qs, rs = ps ++ r :: qs →
    (h.rdoff + (ps.flatMap RawRecord.toBytes).length) % h.bufSize + r.toBytes.length ≤ h.bufSize

/-- Where no record runs over the end, the headers lead over paddings to a packet. -/
theorem leads_packet {size off n k target : Nat} {rawh : Nat → UInt8} {hd : RawHeader}
    (hl : Leads buf size k rawh off target hd)
    (hb : ring buf size off n = rs.flatMap RawRecord.toBytes)
    (hw : ∀ (ps : List RawRecord) r qs, rs = ps ++ r :: qs →
      (off + (ps.flatMap RawRecord.toBytes).length) % size + rawHlen ≤ size)
    (hsec : ∀ r ∈ rs, r.header.sec = 0 → r.isPadding = true)
    (hend : target + rawHlen ≤ off + n) :
    ∃ (ps : List RawRecord) (r : RawRecord) (qs : List RawRecord), rs = ps ++ r :: qs ∧
      target = off + (ps.flatMap RawRecord.toBytes).length ∧ hd = r.header ∧
      ∀ p ∈ ps, p.isPadding = true := by
  induction k generalizing off n rawh rs with
  | zero =>
    obtain ⟨r, qs, rfl, hfirst⟩ := Consumption.first_record hl.le hb hw hend rawh
    exact ⟨[], r, qs, rfl, hl.1.symm, hl.2.symm.trans hfirst, nofun⟩
  | succ k ih =>
    obtain ⟨r, qs, rfl, hfirst⟩ := Consumption.first_record hl.le hb hw hend rawh
    obtain ⟨hzero, hrest⟩ := hl
    have hnext : off + rawHlen + r.header.caplen.toNat = off + r.toBytes.length := by
      rw [RawRecord.toBytes_length, Nat.add_assoc]
    have hn := congrArg List.length hb
    rw [ring_length, List.flatMap_cons, List.length_append] at hn
    rw [hfirst] at hzero
    rw [hfirst, hnext] at hrest
    have hb' : ring buf size (off + r.toBytes.length) (qs.flatMap RawRecord.toBytes).length =
        qs.flatMap RawRecord.toBytes := (ring_split hb).2
    have hw' : ∀ (ps : List RawRecord) r' qs', qs = ps ++ r' :: qs' →
        (off + r.toBytes.length + (ps.flatMap RawRecord.toBytes).length) % size + rawHlen ≤ size := by
      intro ps r' qs' hqs
      have hfit := hw (r :: ps) r' qs' (by rw [hqs]; rfl)
      rwa [List.flatMap_cons, List.length_append, ← Nat.add_assoc] at hfit
    obtain ⟨ps, r', qs', rfl, htarget, hhd, hps⟩ := ih hrest hb' hw'
      (fun q hq => hsec q (List.mem_cons_of_mem _ hq)) (by omega)
    refine ⟨r :: ps, r', qs', rfl, ?_, hhd, ?_⟩
    · rw [htarget, List.flatMap_cons, List.length_append, Nat.add_assoc]
    · exact List.forall_mem_cons.mpr ⟨hsec r List.mem_cons_self hzero, hps⟩

/-- What a call gives, if it does not abort: the first packet of the window. -/
structure Gives (buf : Nat → UInt8) (h : Handle) (rs : List RawRecord) (readHeader : Bool)
    (o : Result) : Prop where
  pbuffer : o.pbuffer ≠ .null
  packet : ∃ ps r qs, rs = ps ++ r :: qs ∧ (∀ p ∈ ps, p.isPadding = true) ∧ r.isPadding = false ∧
    Moved h o.handle ((ps.flatMap RawRecord.toBytes).length + r.toBytes.length) ∧
    Delivers buf readHeader r o

/-- Where a call comes to something, the handle has moved over it. -/
theorem read_moved {auxbuf stack : Nat → UInt8} {readHeader : Bool} {o : Result}
    (hs : WriteBlock.Sound h) (hlt : h.acks < h.avail)
    (ho : hpcapReadPacket buf h auxbuf readHeader stack = some o) :
    o.pbuffer = .null ∧ o.handle = h ∨ ∃ s d, Arrived h d s ∧
      (∃ k < 4, Leads buf h.bufSize k stack h.rdoff (h.rdoff + d) (headerOf s.rawh)) ∧
      h.acks + (d + rawHlen + (headerOf s.rawh).caplen.toNat) ≤ h.avail ∧
      Moved h o.handle (d + rawHlen + (headerOf s.rawh).caplen.toNat) ∧
      o = packetData buf readHeader auxbuf s := by
  by_cases hle : h.avail < rawHlen
  · rw [hpcapReadPacket, if_neg (Nat.not_le.mpr hlt), if_pos hle] at ho
    obtain rfl := Option.some.inj ho
    exact .inl ⟨rfl, rfl⟩
  · have hmax := hs.size_le
    have havail := hs.avail_le
    have hle := Nat.not_lt.mp hle
    obtain ⟨s, d, hloop, ha, hl, rfl⟩ := hpcapReadPacket_some hlt hle (hle.trans havail) hmax
      hs.rdoff_lt ho
    obtain ⟨hfits, hsame⟩ := (Head.init hs.rdoff_lt stack).paddingLoop_fits (hle.trans havail) hmax
      (by omega) hlt.le (by norm_num) ha hloop
    obtain ⟨hacks, hrdoff⟩ := ha.advanced buf hmax (Nat.zero_lt_of_lt hs.rdoff_lt) readHeader auxbuf
    refine .inr ⟨s, d, ha, hl, hfits, ⟨?_, ?_, ?_, ?_⟩, rfl⟩
    · rw [hacks]
      exact add64_small (by omega)
    · rw [packetData_handle]
      exact hsame
    · rw [packetData_handle]
      exact ha.bufSize
    · rw [hrdoff]
      congr 1
      omega

/-- A packet that lies in the buffer as a whole is one from where its bytes start on. -/
theorem packet_fits {off size : Nat} {r : RawRecord} (readHeader : Bool) (hpos : 0 < size)
    (hfit : off % size + r.toBytes.length ≤ size) :
    (off + packetStart readHeader) % size + (packetBytes readHeader r).length ≤ size := by
  rw [RawRecord.toBytes_length] at hfit
  rw [packetBytes_length]
  cases readHeader with
  | false => exact hfit
  | true =>
    change (off + rawHlen) % size + r.header.caplen.toNat ≤ size
    rw [← Nat.mod_add_mod]
    obtain hlt | heq := Nat.lt_or_eq_of_le (show off % size + rawHlen ≤ size by omega)
    · rw [Nat.mod_eq_of_lt hlt]
      omega
    · rw [heq, Nat.mod_self]
      omega

/-- A call on a window of records, none of which runs over the end, aborts or gives the first
packet of them. -/
theorem read_gives {auxbuf stack : Nat → UInt8} {readHeader : Bool} {o : Result}
    (w : Complete buf h rs) (hs : WriteBlock.Sound h) (hw : Clear h rs)
    (hsec : ∀ r ∈ rs, r.header.sec = 0 → r.isPadding = true)
    (ho : hpcapReadPacket buf h auxbuf readHeader stack = some o) : Gives buf h rs readHeader o := by
  have hheader := w.header_le
  obtain ⟨hnull, -⟩ | ⟨s, d, ha, ⟨k, -, hl⟩, hfits, hm, rfl⟩ := read_moved hs w.acks_lt ho
  · obtain ⟨s, d, -, -, -, rfl⟩ := w.call_some ho
    exact absurd hnull (packetData_pbuffer readHeader auxbuf s)
  · have hlt := w.acks_lt
    have hpos : 0 < h.bufSize := Nat.zero_lt_of_lt w.rdoff_lt
    obtain ⟨ps, r, qs, rfl, hd, hhd, hps⟩ := leads_packet hl w.bytes (fun ps r qs hrs => by
      have hfit := hw ps r qs hrs
      rw [RawRecord.toBytes_length] at hfit
      omega) hsec (by omega)
    have hd : d = (ps.flatMap RawRecord.toBytes).length := Nat.add_left_cancel hd
    subst hd
    have hfit := packet_fits readHeader hpos (hw ps r qs rfl)
    have hfirst : First buf h (ps.flatMap RawRecord.toBytes).length r := by
      rw [hhd] at hfits
      exact ⟨by omega, ring_record w.bytes⟩
    have hpad : r.isPadding = false := by
      rw [Bool.eq_false_iff]
      intro hpad
      refine ha.sec ?_
      rw [hhd]
      exact ((RawHeader.hpcapIsHeaderPadding_iff _).mp hpad).2
    refine ⟨packetData_pbuffer _ _ _, ps, r, qs, rfl, hps, hpad, ?_, ?_, ?_, ?_⟩
    · rw [hhd] at hm
      rw [RawRecord.toBytes_length, ← Nat.add_assoc]
      exact hm
    · rw [packetData_ret, hhd]
    · rw [packetData_header, hhd]
    · have hpointed := ha.pointed buf w.size_le hpos readHeader auxbuf
      rw [hhd, ← packetBytes_length] at hpointed
      rw [hpointed]
      dsimp only
      rw [if_neg (Nat.not_lt.mpr hfit), ← ring_eq_slice buf hfit, ring_mod]
      exact hfirst.packet readHeader

end Read

/-- The record of a frame. -/
def frameBytes (cfg : Config) (f : Frame) : List UInt8 :=
  (frameHeader cfg f).toBytes ++ payload cfg f

/-- The seconds of the time stamp are not zero, which is all that `hpcap_read_packet` looks at. -/
def Timed (fs : List Frame) : Prop := ∀ f ∈ fs, UInt32.ofNat f.tvSec ≠ 0

instance (fs : List Frame) : Decidable (Timed fs) := inferInstanceAs (Decidable (∀ _ ∈ _, _))

section Records

variable {cfg : Config} {x : Nat} {e : Entry} {es : List Entry} {r : RawRecord} {rs : List RawRecord}

theorem record_length (h : Recording.Placed cfg x e) (hr : IsRecord cfg e r) :
    r.toBytes.length = e.size cfg := by
  rw [RawRecord.toBytes_length, hr.header, header_caplen h]
  rfl

theorem records_length (h : Tidy cfg x es) (hr : List.Forall₂ (IsRecord cfg) es rs) :
    (rs.flatMap RawRecord.toBytes).length = total (layout cfg) es := by
  induction hr generalizing x with
  | nil => rfl
  | cons hrec _ ih =>
    rw [List.flatMap_cons, List.length_append, ih h.2, record_length h.1 hrec]
    rfl

/-- The entries on either side of a record. -/
theorem split_records {ps qs : List RawRecord}
    (hr : List.Forall₂ (IsRecord cfg) es (ps ++ r :: qs)) :
    ∃ as e bs, es = as ++ e :: bs ∧ List.Forall₂ (IsRecord cfg) as ps ∧ IsRecord cfg e r ∧
      List.Forall₂ (IsRecord cfg) bs qs := by
  obtain ⟨as, es', rfl, has, hes⟩ := Slots.forall₂_split hr.flip
  cases hes with
  | cons he hbs => exact ⟨as, _, _, rfl, has.flip, he, hbs.flip⟩

/-- In a buffer as long as a file no record runs over the end. -/
theorem clear_of_tidy {h : Handle} (hsame : cfg.bufSize = cfg.fileSize)
    (hsize : h.bufSize = cfg.bufSize) (hrd : h.rdoff = x % cfg.bufSize) (ht : Tidy cfg x es)
    (hr : List.Forall₂ (IsRecord cfg) es rs) : Clear h rs := by
  rintro ps r qs rfl
  obtain ⟨as, e, bs, rfl, has, he, -⟩ := split_records hr
  obtain ⟨hpre, hplaced, -⟩ := ht.of_append
  have hfit := placed_size_le hplaced
  rw [records_length hpre has, record_length hplaced he, hsize, hrd, Nat.mod_add_mod, hsame]
  exact hfit

theorem padding_isPadding (hr : IsRecord cfg (.padding x) r) : r.isPadding = true := by
  rw [RawRecord.isPadding, hr.header]
  rfl

theorem frame_sec {f : Frame} (hr : IsRecord cfg (.frame f) r) (hsec : UInt32.ofNat f.tvSec ≠ 0) :
    r.header.sec ≠ 0 ∧ r.isPadding = false := by
  have hh : r.header.sec ≠ 0 := by
    rw [hr.header]
    exact hsec
  refine ⟨hh, Bool.eq_false_iff.mpr fun hpad => hh ?_⟩
  exact ((RawHeader.hpcapIsHeaderPadding_iff _).mp hpad).2

theorem frame_bytes {f : Frame} (hr : IsRecord cfg (.frame f) r) :
    r.toBytes = frameBytes cfg f := by
  rw [RawRecord.toBytes, hr.header, hr.body f rfl]
  rfl

/-- A record without seconds is a padding. -/
theorem sec_zero (htimed : Timed (frames es)) (hr : List.Forall₂ (IsRecord cfg) es rs) :
    ∀ r ∈ rs, r.header.sec = 0 → r.isPadding = true := by
  induction hr with
  | nil => nofun
  | @cons e r es rs hrec _ ih =>
    rw [List.forall_mem_cons]
    cases e with
    | padding room => exact ⟨fun _ => padding_isPadding hrec, ih htimed⟩
    | frame f =>
      obtain ⟨hsec, hrest⟩ := List.forall_mem_cons.mp htimed
      exact ⟨fun hzero => absurd hzero (frame_sec hrec hsec).1, ih hrest⟩

/-- Paddings have no frames. -/
theorem frames_paddings (htimed : Timed (frames es)) (hr : List.Forall₂ (IsRecord cfg) es rs)
    (hpad : ∀ r ∈ rs, r.isPadding = true) : frames es = [] := by
  induction hr with
  | nil => rfl
  | @cons e r es rs hrec _ ih =>
    obtain ⟨hhead, hrest⟩ := List.forall_mem_cons.mp hpad
    cases e with
    | padding room => exact ih htimed hrest
    | frame f =>
      have hno := (frame_sec hrec (List.forall_mem_cons.mp htimed).1).2
      rw [hhead] at hno
      cases hno

theorem Timed.of_append {fs gs : List Frame} (h : Timed (fs ++ gs)) : Timed fs ∧ Timed gs :=
  List.forall_mem_append.mp h

theorem tidy_frames {cfg : Config} {x : Nat} {es : List Entry} (h : Tidy cfg x es) :
    ∀ f ∈ frames es, f.size ≤ maxDescrSize ∧ Stamped f := by
  induction es generalizing x with
  | nil => nofun
  | cons e es ih =>
    obtain ⟨hplaced, hrest⟩ := h
    cases e with
    | padding room => exact ih hrest
    | frame f => exact List.forall_mem_cons.mpr ⟨⟨hplaced.1, hplaced.2.1⟩, ih hrest⟩

end Records

/-- What a client of the queue shares with `hpcapdd`. -/
def client (queue : Poll.State) (handle : Handle) : Capture.State :=
  ⟨queue, handle, .waiting, false, 0, [], []⟩

/-- In a buffer that is as long as a file no record runs over the end; in others none of the
window is to. -/
def Unbroken (cfg : Config) (queue : Poll.State) (handle : Handle) : Prop :=
  cfg.bufSize = cfg.fileSize ∨
    ∀ rs, ring queue.rx.dstBuf cfg.bufSize handle.rdoff (handle.avail - handle.acks) =
      rs.flatMap RawRecord.toBytes → Clear handle rs

/-- The log of the stream when the device was opened in state `q`, and now. -/
structure Since (cfg : Config) (q queue : Poll.State) (es₀ es : List Entry) : Prop where
  start : Kept cfg (released q) q.rx es₀
  grown : es₀ <+: es
  kept : Kept cfg (released queue) queue.rx es

/-- The stream from `j` on, at a time when the listener has acknowledged it up to `p`: what has
been read of it, and what is left of the last look. -/
structure Split (cfg : Config) (j p : Nat) (handle : Handle) (mid seen : List Entry) : Prop where
  taken : j + total (layout cfg) mid = p + handle.acks
  seen : j + total (layout cfg) mid + total (layout cfg) seen = p + handle.avail

/-- What the client has of the packets is what it has read of the stream. -/
def Taken (cfg : Config) (j p : Nat) (handle : Handle) (holds : List Frame → Prop)
    (es : List Entry) : Prop :=
  ∃ pre mid seen post, es = pre ++ (mid ++ (seen ++ post)) ∧ total (layout cfg) pre = j ∧
    Split cfg j p handle mid seen ∧ holds (frames mid)

structure Saved (cfg : Config) (q : Poll.State) (j p : Nat) (queue : Poll.State) (handle : Handle)
    (holds : List Frame → Prop) (es₀ es : List Entry) : Prop extends Since cfg q queue es₀ es where
  taken : Timed (frames es) → Taken cfg j p handle holds es

/-- A client that has opened the device in state `q`, at position `j` of the stream. -/
def Fed (cfg : Config) (id : Int) (q : Poll.State) (j : Nat) (queue : Poll.State)
    (handle : Handle) (holds : List Frame → Prop) : Prop :=
  ∃ p, Core cfg id (client queue handle) p ∧ (Sound cfg queue.rx.trace →
    ∃ es₀ es, Saved cfg q j p queue handle holds es₀ es)

section Run

variable {cfg : Config} {id : Int} {q queue : Poll.State} {handle : Handle} {j p : Nat}
variable {holds holds' : List Frame → Prop} {es₀ es : List Entry}

theorem client_core {s : Capture.State} (h : Core cfg id s p) :
    Core cfg id (client s.queue s.handle) p :=
  ⟨h.queue, h.listener, h.handle, nofun⟩

/-- While a listener is registered the stream does not start again. -/
theorem not_restarts {s : Capture.State} (h : Core cfg id s p) (hid : id ≠ listenerEmpty)
    (a : Poll.Op) : ¬ Restarts s.queue a := by
  have hcount := (Files.registered h hid).1
  cases a with
  | poll frames => exact hcount
  | add id | del id | pop id count | ack id count => exact not_false

/-- What is done to the queue makes the log longer. -/
theorem Since.step {t : Poll.State} {a : Poll.Op} (h : Since cfg q queue es₀ es)
    (hb : cfg.bufSize ∣ cfg.fileSize) (hd : cfg.bufSize ∣ 2 ^ 32) (hopen : Opening.Inv cfg queue)
    (hgo : ¬ Restarts queue a) (ha : Opening.Received queue a) (hs : Poll.step cfg queue a = some t)
    (hsound : Sound cfg t.rx.trace) : ∃ more, Since cfg q t es₀ (es ++ more) := by
  obtain ⟨es', hk, hgrow⟩ := step_kept hb hd hopen.queue (fun _ => h.kept) ha hs hsound
  obtain ⟨more, rfl⟩ := hgrow hgo
  exact ⟨more, h.start, h.grown.trans (List.prefix_append _ _), hk⟩

/-- The device is opened. -/
theorem Since.opened (hb : cfg.bufSize ∣ cfg.fileSize) (hd : cfg.bufSize ∣ 2 ^ 32)
    (h : Intact.Inv cfg q) (hid : id ≠ listenerEmpty) (hnew : hpcapGetListener q.lstnr id = none)
    (hsound : Sound cfg q.rx.trace) : ∃ es₀ es,
      Since cfg q { q with lstnr := (hpcapAddListener q.lstnr id).1 } es₀ es := by
  obtain ⟨es, hes⟩ := h.log hsound
  have hstep : Poll.step cfg q (.add id) =
      some { q with lstnr := (hpcapAddListener q.lstnr id).1 } := if_pos ⟨hid, hnew⟩
  obtain ⟨es', hk, hgrow⟩ := step_kept hb hd h.queue (fun _ => hes)
    (show Opening.Received q (.add id) from trivial) hstep hsound
  exact ⟨es, es', hes, hgrow not_false, hk⟩

theorem Taken.mono {p' : Nat} {handle' : Handle} (h : Taken cfg j p handle holds es)
    (htaken : p + handle.acks = p' + handle'.acks) (havail : p + handle.avail = p' + handle'.avail)
    (hholds : ∀ fs, holds fs → holds' fs) : Taken cfg j p' handle' holds' es := by
  obtain ⟨pre, mid, seen, post, hes, hpre, hs, hfs⟩ := h
  exact ⟨pre, mid, seen, post, hes, hpre, ⟨hs.taken.trans htaken, hs.seen.trans havail⟩,
    hholds _ hfs⟩

theorem Fed.mono (h : Fed cfg id q j queue handle holds) (hholds : ∀ fs, holds fs → holds' fs) :
    Fed cfg id q j queue handle holds' := by
  obtain ⟨p, hcore, hsaved⟩ := h
  refine ⟨p, hcore, fun hsound => ?_⟩
  obtain ⟨es₀, es, hes⟩ := hsaved hsound
  exact ⟨es₀, es, hes.toSince, fun htimed => (hes.taken htimed).mono rfl rfl hholds⟩

/-- An acknowledgement. -/
theorem Fed.acknowledge {t : Capture.State} (h : Fed cfg id q j queue handle holds)
    (hb : cfg.bufSize ∣ cfg.fileSize) (hd : cfg.bufSize ∣ 2 ^ 32) (hid : id ≠ listenerEmpty)
    (ht : Capture.acknowledge id (client queue handle) .waiting = some t) :
    Fed cfg id q j t.queue t.handle holds ∧ t.handle.acks = 0 ∧
      t.handle.avail = handle.avail - handle.acks := by
  obtain ⟨p, hcore, hsaved⟩ := h
  obtain ⟨hcore', -, hacks, hrx⟩ := hcore.acknowledged hb hd hid ht
  have hrel := Files.released_acknowledge ht
  have hle : handle.acks ≤ handle.avail := hcore.handle.acks_le
  have havail : t.handle.avail = handle.avail - handle.acks := by
    obtain ⟨-, ht⟩ := Option.ite_none_left_eq_some.mp ht
    obtain rfl := Option.some.inj ht
    rfl
  refine ⟨⟨p + handle.acks, client_core hcore', fun hsound => ?_⟩, hacks, havail⟩
  obtain ⟨es₀, es, hes⟩ := hsaved (hrx ▸ hsound)
  have hrx : t.queue.rx = queue.rx := hrx
  have hrel : released t.queue = released queue := hrel
  refine ⟨es₀, es, ⟨hes.start, hes.grown, ?_⟩, fun htimed => ?_⟩
  · rw [hrx, hrel]
    exact hes.kept
  · exact (hes.taken htimed).mono (by omega) (by omega) fun _ hfs => hfs

/-- The answer to a wait. -/
theorem Fed.look {expect : Nat} {t : Capture.State} (h : Fed cfg id q j queue handle holds)
    (hd : cfg.bufSize ∣ 2 ^ 32) (hacks : handle.acks = 0)
    (ht : Capture.look id expect (client queue handle) .waiting = some t) :
    Fed cfg id q j queue t.handle holds := by
  obtain ⟨p, hcore, hsaved⟩ := h
  obtain ⟨hcore', he, -⟩ := hcore.looked hd hacks ht
  rw [he] at hcore'
  refine ⟨p, ⟨hcore'.queue, hcore'.listener, hcore'.handle, nofun⟩, fun hsound => ?_⟩
  obtain ⟨es₀, es, hes⟩ := hsaved hsound
  refine ⟨es₀, es, hes.toSince, fun htimed => ?_⟩
  obtain ⟨i, l, hl, hr⟩ := hcore.listener
  obtain ⟨slot, hslot, rfl⟩ := Option.map_eq_some_iff.mp ht
  obtain rfl := Option.some.inj (hl.symm.trans hslot)
  dsimp only
  by_cases hfound : usedBytes l ≥ expect
  · obtain ⟨pre, mid, seen, post, rfl, hpre, hs, hfs⟩ := hes.taken htimed
    have htotal := hes.kept.total_eq
    have htaken := hs.taken
    have hused : usedBytes l = queue.rx.trace.reserved - p := hr.used
    have hle : p ≤ queue.rx.trace.reserved := hr.le
    rw [total_append, total_append, hpre] at htotal
    rw [if_pos hfound]
    refine ⟨pre, mid, seen ++ post, [], by rw [List.append_nil], hpre, ⟨htaken, ?_⟩, hfs⟩
    change _ = p + usedBytes l
    rw [hused]
    omega
  · rw [if_neg hfound]
    exact hes.taken htimed

theorem sound_handle (h : Core cfg id (client queue handle) p) (hd : cfg.bufSize ∣ 2 ^ 32) :
    WriteBlock.Sound handle := by
  obtain ⟨-, l, -, hr⟩ := h.listener
  have hmax : cfg.bufSize ≤ 2 ^ 32 := Nat.le_of_dvd (by norm_num) hd
  have hsize : handle.bufSize = cfg.bufSize := h.handle.bufSize
  have hrdoff : handle.rdoff < cfg.bufSize := h.handle.rdoff_lt
  have hacks : handle.acks ≤ handle.avail := h.handle.acks_le
  have havail : p + handle.avail ≤ queue.rx.trace.reserved := h.handle.avail_le
  have hfits : queue.rx.trace.reserved < p + cfg.bufSize := hr.fits
  exact ⟨by omega, by omega, by omega, by omega⟩

/-- The handle moves over what it has been told of. -/
theorem moved_core {handle' : Handle} {n : Nat} (h : Core cfg id (client queue handle) p)
    (hm : Moved handle handle' n) (hn : handle.acks + n ≤ handle.avail) :
    Core cfg id (client queue handle') p := by
  obtain ⟨bufSize, -, -, avail_le, rdoff⟩ := h.handle
  have hrd := hm.rdoff
  have hacks := hm.acks
  have havail := hm.avail
  have bufSize : handle.bufSize = cfg.bufSize := bufSize
  refine ⟨h.queue, h.listener, ⟨hm.bufSize.trans bufSize, ?_, ?_, ?_, fun hpos => ?_⟩, h.files⟩
  · change handle'.rdoff < _
    rw [hrd, bufSize]
    exact Nat.mod_lt _ h.pos
  · change handle'.acks ≤ handle'.avail
    rw [hacks, havail]
    exact hn
  · change p + handle'.avail ≤ _
    rw [havail]
    exact avail_le
  · have hpos : 0 < handle'.avail := hpos
    have hrd₀ : handle.rdoff = (p + handle.acks) % cfg.bufSize := rdoff (havail ▸ hpos)
    change handle'.rdoff = (p + handle'.acks) % _
    rw [hrd, hacks, bufSize, hrd₀, Nat.mod_add_mod, Nat.add_assoc]

/-- The window is made of the records that have been seen and not been read. -/
theorem exists_window {pre mid seen post : List Entry} (h : Core cfg id (client queue handle) p)
    (hid : id ≠ listenerEmpty) (hd : cfg.bufSize ∣ 2 ^ 32)
    (hk : Kept cfg (released queue) queue.rx (pre ++ (mid ++ (seen ++ post))))
    (hpre : total (layout cfg) pre = j) (hsplit : Split cfg j p handle mid seen)
    (hlt : handle.acks < handle.avail) :
    ∃ rs, Tidy cfg (p + handle.acks) seen ∧ List.Forall₂ (IsRecord cfg) seen rs ∧
      Complete queue.rx.dstBuf handle rs ∧ handle.rdoff = (p + handle.acks) % cfg.bufSize := by
  have htaken := hsplit.taken
  have hseen := hsplit.seen
  have hreleased : released queue ≤ p := (Files.registered h hid).2
  have hrdoff : handle.rdoff = (p + handle.acks) % cfg.bufSize :=
    h.handle.rdoff (by change 0 < handle.avail; omega)
  have hsize : handle.bufSize = cfg.bufSize := h.handle.bufSize
  have hsound := sound_handle h hd
  have hmax := hsound.size_le
  have hle := hsound.avail_le
  have hbehind : total (layout cfg) (pre ++ mid) = p + handle.acks := by
    rw [total_append, hpre, htaken]
  obtain ⟨-, htidy⟩ := hk.tidy.of_append
  obtain ⟨-, htidy⟩ := htidy.of_append
  obtain ⟨htidy, -⟩ := htidy.of_append
  rw [Nat.zero_add, hpre, htaken] at htidy
  have hcopied : Copied cfg (p + handle.acks) (pre ++ (mid ++ (seen ++ post)))
      (ring queue.rx.dstBuf cfg.bufSize (p + handle.acks) (handle.avail - handle.acks)) :=
    Copied.ring hk.toRecorded (hreleased.trans (Nat.le_add_right _ _))
  rw [← List.append_assoc] at hcopied
  have hback := copied_behind hcopied hbehind
  obtain ⟨rs, hbytes, hrs⟩ := exists_records htidy
    (fun i b hb hi => hback i b (ink_mono _ post hb) hi) (by rw [ring_length]; omega)
  rw [← ring_mod, ← hrdoff, ← hsize] at hbytes
  obtain ⟨-, l, -, hr⟩ := h.listener
  have hfits : queue.rx.trace.reserved < p + cfg.bufSize := hr.fits
  have havail : p + handle.avail ≤ queue.rx.trace.reserved := h.handle.avail_le
  exact ⟨rs, htidy, hrs, ⟨hlt, by omega, hmax, hsound.rdoff_lt, by omega, hbytes⟩, hrdoff⟩

/-- The next frame of the stream is read, and the paddings before it are skipped. -/
theorem Taken.read {auxbuf stack : Nat → UInt8} {readHeader : Bool} {o : Result}
    (h : Taken cfg j p handle holds es) (hcore : Core cfg id (client queue handle) p)
    (hid : id ≠ listenerEmpty) (hd : cfg.bufSize ∣ 2 ^ 32)
    (hk : Kept cfg (released queue) queue.rx es) (htimed : Timed (frames es))
    (hlt : handle.acks < handle.avail) (hwhole : Unbroken cfg queue handle)
    (ho : hpcapReadPacket queue.rx.dstBuf handle auxbuf readHeader stack = some o)
    (hnext : ∀ fs f r, holds fs → o.pbuffer ≠ .null → IsRecord cfg (.frame f) r →
      Delivers queue.rx.dstBuf readHeader r o → holds' (fs ++ [f])) :
    Taken cfg j p o.handle holds' es := by
  obtain ⟨pre, mid, seen, post, rfl, hpre, hs, hfs⟩ := h
  obtain ⟨rs, htidy, hrs, w, hrdoff⟩ := exists_window hcore hid hd hk hpre hs hlt
  have hsize : handle.bufSize = cfg.bufSize := hcore.handle.bufSize
  have hclear : Clear handle rs := by
    obtain hsame | hclear := hwhole
    · exact clear_of_tidy hsame hsize hrdoff htidy hrs
    · exact hclear rs (hsize ▸ w.bytes)
  rw [frames_append, frames_append, frames_append] at htimed
  have htimed := htimed.of_append.2.of_append.2.of_append.1
  obtain ⟨hnull, ps, r, qs, rfl, hps, hno, hm, hd'⟩ :=
    read_gives w (sound_handle hcore hd) hclear (sec_zero htimed hrs) ho
  obtain ⟨as, e, bs, rfl, has, he, hbs⟩ := split_records hrs
  obtain ⟨hfront, hplaced, -⟩ := htidy.of_append
  rw [frames_append] at htimed
  have hmore : total (layout cfg) (as ++ [e]) =
      (ps.flatMap RawRecord.toBytes).length + r.toBytes.length := by
    rw [total_append, total_singleton, records_length hfront has, record_length hplaced he]
  cases e with
  | padding room =>
    rw [padding_isPadding he] at hno
    cases hno
  | frame f =>
    have hacks := hm.acks
    have havail := hm.avail
    have htaken := hs.taken
    have hseen := hs.seen
    have hall : total (layout cfg) (as ++ .frame f :: bs) =
        total (layout cfg) (as ++ [.frame f]) + total (layout cfg) bs := by
      rw [← total_append, List.append_assoc]
      rfl
    have hframes : frames (mid ++ (as ++ [.frame f])) = frames mid ++ [f] := by
      rw [frames_append, frames_append, frames_paddings htimed.of_append.1 has hps]
      rfl
    refine ⟨pre, mid ++ (as ++ [.frame f]), bs, post, by simp, hpre, ⟨?_, ?_⟩, ?_⟩
    · rw [total_append, hmore, hacks]
      omega
    · rw [total_append, havail, ← hseen, hall]
      omega
    · rw [hframes]
      exact hnext _ f r hfs hnull he hd'

/-- A packet is read. -/
theorem Fed.read {auxbuf stack : Nat → UInt8} {readHeader : Bool} {o : Result}
    (h : Fed cfg id q j queue handle holds) (hid : id ≠ listenerEmpty) (hd : cfg.bufSize ∣ 2 ^ 32)
    (hlt : handle.acks < handle.avail) (hwhole : Unbroken cfg queue handle)
    (ho : hpcapReadPacket queue.rx.dstBuf handle auxbuf readHeader stack = some o)
    (hnext : ∀ fs f r, holds fs → o.pbuffer ≠ .null → IsRecord cfg (.frame f) r →
      Delivers queue.rx.dstBuf readHeader r o → holds' (fs ++ [f])) :
    Fed cfg id q j queue o.handle holds' := by
  obtain ⟨p, hcore, hsaved⟩ := h
  refine ⟨p, ?_, fun hsound => ?_⟩
  · obtain ⟨-, he⟩ | ⟨_, _, -, -, hfits, hm, -⟩ := read_moved (sound_handle hcore hd) hlt ho
    · rw [he]
      exact hcore
    · exact moved_core hcore hm hfits
  · obtain ⟨es₀, es, hes⟩ := hsaved hsound
    exact ⟨es₀, es, hes.toSince, fun htimed =>
      (hes.taken htimed).read hcore hid hd hes.kept htimed hlt hwhole ho hnext⟩

/-- What is done elsewhere leaves the client what it has. -/
theorem Fed.op {a : Poll.Op} {t : Poll.State} (h : Fed cfg id q j queue handle holds)
    (hb : cfg.bufSize ∣ cfg.fileSize) (hd : cfg.bufSize ∣ 2 ^ 32) (hid : id ≠ listenerEmpty)
    (helse : Elsewhere id a) (ha : Opening.Received queue a) (hs : Poll.step cfg queue a = some t) :
    Fed cfg id q j t handle holds := by
  obtain ⟨p, hcore, hsaved⟩ := h
  obtain ⟨i, l, hl, hr⟩ := hcore.listener
  obtain ⟨m, hm, hrm, hle⟩ := hr.step hd hcore.queue.queue hid hl helse hs
  have hh := hcore.handle
  have hgo := not_restarts hcore hid a
  refine ⟨p, ⟨hcore.queue.step hb hd ha hs, ⟨i, m, hm, hrm⟩,
    ⟨hh.bufSize, hh.rdoff_lt, hh.acks_le, hh.avail_le.trans hle, hh.rdoff⟩, nofun⟩, fun hsound => ?_⟩
  obtain ⟨es₀, es, hes⟩ := hsaved (step_sound hgo hs hsound)
  obtain ⟨more, hsince⟩ := hes.toSince.step hb hd hcore.queue hgo ha hs hsound
  refine ⟨es₀, es ++ more, hsince, fun htimed => ?_⟩
  rw [frames_append] at htimed
  obtain ⟨pre, mid, seen, post, rfl, hpre, hsplit, hfs⟩ := hes.taken htimed.of_append.1
  exact ⟨pre, mid, seen, post ++ more, by simp, hpre, hsplit, hfs⟩

end Run

/-- Whatever log the stream is, the new listener is to start where an entry does, or the next
one will. -/
def OnEntry (cfg : Config) (q : Poll.State) : Prop :=
  ∀ es, Kept cfg (released q) q.rx es → ∃ pre, pre <+: es ∧ total (layout cfg) pre = joinPos q

theorem onEntry_boundary {cfg : Config} {q : Poll.State} (hle : joinPos q ≤ q.rx.trace.reserved)
    (h : cfg.fileSize ∣ joinPos q) : OnEntry cfg q := by
  intro es hes
  obtain ⟨pre, post, rfl, hpre⟩ := split_at_file hes.tidy (k := joinPos q)
    (by rw [Nat.zero_add]; exact h) (by rw [hes.total_eq]; exact hle)
  exact ⟨pre, List.prefix_append _ _, hpre⟩

/-- A client opens the device at an entry of the stream, in the state `q`. -/
structure Opens (cfg : Config) (id : Int) (q : Poll.State) : Prop where
  opened : ∃ buf, Reach (Poll.step cfg) Opening.Received (fun t => t = Poll.init cfg buf) q
  id_ne : id ≠ listenerEmpty
  new : hpcapGetListener q.lstnr id = none
  slot : (joinSlot q.lstnr id).isSome
  onEntry : OnEntry cfg q

section Opened

variable {cfg : Config} {id : Int} {q queue : Poll.State} {handle : Handle}
variable {holds : List Frame → Prop}

theorem Opens.core (h : Opens cfg id q) (hb : cfg.bufSize ∣ cfg.fileSize)
    (hd : cfg.bufSize ∣ 2 ^ 32) : Core cfg id (Capture.opened cfg q id) (joinPos q) := by
  obtain ⟨buf, hq⟩ := h.opened
  exact Capture.opened_core hb hd (Opening.reach_inv hb hd hq) h.id_ne h.new h.slot

/-- At first the client has nothing. -/
theorem Opens.fed (h : Opens cfg id q) (hb : cfg.bufSize ∣ cfg.fileSize) (hd : cfg.bufSize ∣ 2 ^ 32)
    (hholds : holds []) : Fed cfg id q (joinPos q) { q with lstnr := (hpcapAddListener q.lstnr id).1 }
      ⟨0, 0, 0, 0, cfg.bufSize⟩ holds := by
  obtain ⟨buf, hq⟩ := h.opened
  refine ⟨joinPos q, client_core (h.core hb hd), fun hsound => ?_⟩
  obtain ⟨es₀, es, hes⟩ := Since.opened hb hd (Intact.reach_inv hb hd hq) h.id_ne h.new hsound
  refine ⟨es₀, es, hes, fun _ => ?_⟩
  obtain ⟨pre, hpre₀, hpre⟩ := h.onEntry es₀ hes.start
  obtain ⟨post, rfl⟩ := hpre₀.trans hes.grown
  exact ⟨pre, [], [], post, rfl, hpre, ⟨rfl, rfl⟩, hholds⟩

/-- What precedes the client's entries is made of frames accepted before it opened the device. -/
theorem Opens.before {es₀ pre post : List Entry} (h : Opens cfg id q)
    (hb : cfg.bufSize ∣ cfg.fileSize) (hd : cfg.bufSize ∣ 2 ^ 32)
    (hs : Since cfg q queue es₀ (pre ++ post)) (hpre : total (layout cfg) pre = joinPos q) :
    frames pre <+: q.rx.trace.accepted.reverse := by
  obtain ⟨-, l, -, hr⟩ := (h.core hb hd).listener
  have hle : total (layout cfg) pre ≤ total (layout cfg) es₀ := by
    rw [hpre, hs.start.total_eq]
    exact hr.le
  rw [← hs.start.accepted]
  exact frames_prefix (prefix_of_total_le (List.prefix_append _ _) hs.grown hle)

/-- What the client has is a part of the accepted frames, from one accepted before on. -/
theorem Opens.frames (h : Opens cfg id q) (hb : cfg.bufSize ∣ cfg.fileSize)
    (hd : cfg.bufSize ∣ 2 ^ 32) (hfed : Fed cfg id q (joinPos q) queue handle holds)
    (hsound : Sound cfg queue.rx.trace) (htimed : Timed queue.rx.trace.accepted) :
    ∃ before got after, queue.rx.trace.accepted.reverse = before ++ (got ++ after) ∧
      before <+: q.rx.trace.accepted.reverse ∧ holds got ∧
      ∀ f ∈ got, f.size ≤ maxDescrSize ∧ Stamped f := by
  obtain ⟨p, -, hsaved⟩ := hfed
  obtain ⟨es₀, es, hes⟩ := hsaved hsound
  have haccepted := hes.kept.accepted
  obtain ⟨pre, mid, seen, post, rfl, hpre, -, hfs⟩ := hes.taken (by
    rw [haccepted]
    exact fun f hf => htimed f (List.mem_reverse.mp hf))
  refine ⟨Recording.frames pre, Recording.frames mid, Recording.frames (seen ++ post), ?_,
    h.before hb hd hes.toSince hpre, hfs, fun f hf => tidy_frames hes.kept.tidy f ?_⟩
  · rw [← haccepted, frames_append, frames_append]
  · rw [frames_append, frames_append]
    exact List.mem_append_right _ (List.mem_append_left _ hf)

end Opened

end Hpcap.Feed
