import Hpcap.ReadNext

namespace Hpcap.Readers

open Hpcap.Patch Hpcap.CircularBuffer Hpcap.Reservation Hpcap.Client
open Hpcap.ReadPacket Hpcap.ReadNext
open Hpcap.ReadPacket (hpcapReadPacket)

variable (buf : Nat → UInt8)

/-- Both readers come to one record and leave the handle at one place. -/
def Same (h : Handle) (readHeader forCopy : Bool) (auxbuf stack mem : Nat → UInt8) : Prop :=
  ∃ o p, hpcapReadPacket buf h auxbuf readHeader stack = some o ∧
    readUnpadded buf h forCopy mem = some p ∧ Delivers buf readHeader p.record o ∧
    o.handle.rdoff = p.handle.rdoff ∧ o.handle.fileOffset = p.handle.fileOffset ∧
    o.handle.acks = p.handle.acks

/-- Both readers are led to `hd`, `d` bytes on, whatever their copies are mixed with. -/
def BothLed (h : Handle) (forCopy : Bool) (d : Nat) (hd : RawHeader) : Prop :=
  (∀ stack, ∃ k < 4, Leads buf h.bufSize k stack h.rdoff (h.rdoff + d) hd) ∧
    ∀ mem, ∃ k, LeadsNext buf h.bufSize forCopy k mem h.rdoff d hd

/-- There is a header whose seconds are not zero, what it announces is in the window and does
not run over the end of the buffer, and it is that of `r` behind the paddings `ps`, with no
header up to its own running over the end, or the mixed copies lead both readers to it none the
less. -/
def Aligned (h : Handle) (ps : List RawRecord) (r : RawRecord) (qs : List RawRecord)
    (readHeader forCopy : Bool) : Prop :=
  ∃ d hd, hd.sec ≠ 0 ∧ d + rawHlen + hd.caplen.toNat ≤ h.avail - h.acks ∧
    (h.rdoff + d + packetStart readHeader) % h.bufSize + packetLen readHeader hd ≤ h.bufSize ∧
    (d = (ps.flatMap RawRecord.toBytes).length ∧ hd = r.header ∧
        HeadersWhole h.bufSize h.rdoff (ps ++ r :: qs) ∨
      BothLed buf h forCopy d hd)

section Packet

variable {buf} {h : Handle} {rs : List RawRecord} {readHeader : Bool} {s : Loop} {d : Nat}

/-- The loop stops behind a header whose packet is in the window, and has gone as far in the
file as in the buffer. -/
theorem arrived_room (w : Complete buf h rs) (havail : h.avail < h.bufSize) {stack : Nat → UInt8}
    (ha : Arrived h d s) (hp : paddingLoop buf 4 ⟨h, h.rdoff, 0, stack, 0, false⟩ = some s) :
    d + rawHlen + (headerOf s.rawh).caplen.toNat ≤ h.avail - h.acks ∧
      s.handle.fileOffset % hpcapFilesize = (h.fileOffset + d) % hpcapFilesize := by
  have hle := w.acks_lt.le
  have hmax := w.size_le
  have hstep (t t' : Loop) (hh : Head h t) (hacks : t.acks + 2 ^ 17 ≤ 2 ^ 19)
      (hfile : t.handle.fileOffset % hpcapFilesize = (h.fileOffset + t.acks) % hpcapFilesize)
      (ht : pass buf t = some t') (hpad : t'.hasPadding = true) :
      t'.handle.fileOffset % hpcapFilesize = (h.fileOffset + t'.acks) % hpcapFilesize := by
    have hfits := hh.pass_fits (by omega) hle (by omega) ht
    obtain ⟨-, ⟨-, -, -, hnext⟩ | harrived⟩ := hh.pass_moves w.size_ge hmax (by omega) ht
    · rw [hh.pass_fileOffset w.size_ge hmax ht (by omega), if_pos hpad, Nat.add_mod, hfile,
        ← Nat.add_mod, hnext, Nat.add_assoc, Nat.add_assoc]
    · rw [harrived.hasPadding] at hpad
      cases hpad
  have hinit := Head.init w.rdoff_lt stack
  obtain ⟨hfits, -⟩ := hinit.paddingLoop_fits w.size_ge hmax (by omega) hle (by norm_num) ha hp
  obtain ⟨t, hh, hacks, hfile, ht⟩ := hinit.paddingLoop_last
    (fun t => t.handle.fileOffset % hpcapFilesize = (h.fileOffset + t.acks) % hpcapFilesize)
    w.size_ge hmax (by norm_num) rfl hstep hp
  refine ⟨by omega, ?_⟩
  rw [hh.pass_fileOffset w.size_ge hmax ht (by omega), ha.hasPadding,
    ← hh.acks_eq w.size_ge hmax (by omega) ha ht]
  exact hfile

/-- Behind a packet the handle is where it is past the packet's bytes. -/
theorem packet_behind (w : Complete buf h rs) (ha : Arrived h d s)
    (hroom : d + rawHlen + (headerOf s.rawh).caplen.toNat ≤ h.avail - h.acks)
    (hfile : s.handle.fileOffset % hpcapFilesize = (h.fileOffset + d) % hpcapFilesize)
    (readHeader : Bool) (auxbuf : Nat → UInt8) :
    let h' := (packetData buf readHeader auxbuf s).handle
    let t := past h (d + (rawHlen + (headerOf s.rawh).caplen.toNat))
    h'.rdoff = t.rdoff ∧ h'.fileOffset = t.fileOffset ∧ h'.acks = t.acks := by
  have hpos := Nat.zero_lt_of_lt w.rdoff_lt
  have hshort := w.shorter
  have hmax := w.size_le
  obtain ⟨hacks, hrdoff⟩ := ha.advanced buf hmax hpos readHeader auxbuf
  refine ⟨?_, ?_, ?_⟩
  · rw [hrdoff]
    simp only [past, Nat.add_assoc]
  · have hlt := Nat.mod_lt (h.rdoff + d + rawHlen) hpos
    have hr : s.handle.rdoff < s.handle.bufSize := by
      rw [ha.rdoff, ha.bufSize]
      exact Nat.mod_lt _ hpos
    have hcaplen := (headerOf s.rawh).caplen.toNat_lt
    have hoffs : add64 s.offs (headerOf s.rawh).caplen.toNat % s.handle.bufSize =
        (s.handle.rdoff + (rawHlen + (headerOf s.rawh).caplen.toNat)) % s.handle.bufSize := by
      rw [ha.offs, add64_small (by omega), ha.rdoff, ha.bufSize, Nat.mod_add_mod, Nat.mod_add_mod,
        Nat.add_assoc (h.rdoff + d)]
    rw [packetData_handle, hoffs, advanceRdoffTo_ahead (ha.bufSize ▸ hmax) hr (by
      rw [ha.bufSize]
      omega)]
    change add64 s.handle.fileOffset _ % hpcapFilesize = _
    rw [add64_mod_filesize, Nat.add_mod, hfile, ← Nat.add_mod, Nat.add_assoc]
    rfl
  · rw [hacks, Nat.add_assoc]
    rfl

end Packet

section Same

variable {buf} {h : Handle} {rs : List RawRecord} {readHeader forCopy : Bool}
  {auxbuf stack mem : Nat → UInt8} {ps qs : List RawRecord} {r : RawRecord}

variable (buf) in
/-- Where the two readers come, `d` bytes on. -/
structure Meet (h : Handle) (readHeader forCopy : Bool) (auxbuf stack mem : Nat → UInt8) (s : Loop)
    (d : Nat) (p : Delivery) : Prop where
  loop : paddingLoop buf 4 ⟨h, h.rdoff, 0, stack, 0, false⟩ = some s
  arrived : Arrived h d s
  room : d + rawHlen + (headerOf s.rawh).caplen.toNat ≤ h.avail - h.acks
  leads : ∃ k < 4, Leads buf h.bufSize k stack h.rdoff (h.rdoff + d) (headerOf s.rawh)
  read : readUnpadded buf h forCopy mem = some p
  leadsNext : ∃ k, LeadsNext buf h.bufSize forCopy k mem h.rdoff d p.record.header
  acks : p.handle.acks = h.acks + (d + (rawHlen + p.record.header.caplen.toNat))
  delivers : Delivers buf readHeader p.record (packetData buf readHeader auxbuf s)

theorem Same.meet (w : Complete buf h rs) (havail : h.avail < h.bufSize)
    (hs : Same buf h readHeader forCopy auxbuf stack mem) :
    ∃ s d p, Meet buf h readHeader forCopy auxbuf stack mem s d p := by
  obtain ⟨o, p, ho, hp, hdel, -, -, hacks⟩ := hs
  obtain ⟨s, d, hs, ha, hl, rfl⟩ := w.call_some ho
  have hlt := w.acks_lt
  have hmax := w.size_le
  obtain ⟨hroom, hfile⟩ := arrived_room w havail ha hs
  obtain ⟨-, -, hplace⟩ := packet_behind w ha hroom hfile readHeader auxbuf
  obtain ⟨k, d', hln, hend, hhandle⟩ := skipPaddings_ends (by omega) w.rdoff_lt hmax hp
  have hcaplen := hdel.caplen
  have hlt' := (headerOf s.rawh).caplen.toNat_lt
  have hraw : rawHlen = 12 := rfl
  rw [hplace, hhandle, past, past] at hacks
  dsimp only at hacks
  rw [← hcaplen, add64_small (by omega), add64_small (by omega)] at hacks
  obtain rfl : d = d' := by omega
  refine ⟨s, d, p, hs, ha, hroom, hl, hp, ⟨k, hln⟩, ?_, hdel⟩
  rw [hhandle, past, ← hcaplen]
  exact add64_small (by omega)

/-- Without a copy, what is delivered has the header that both have read. -/
theorem Same.meet_whole (w : Complete buf h rs) (havail : h.avail < h.bufSize)
    (hs : ∀ auxbuf, Same buf h readHeader forCopy auxbuf stack mem) :
    ∃ s d p, Meet buf h readHeader forCopy (fun _ => 0) stack mem s d p ∧
      headerOf s.rawh = p.record.header ∧
      (h.rdoff + d + packetStart readHeader) % h.bufSize + packetLen readHeader p.record.header ≤
        h.bufSize := by
  have hpos := Nat.zero_lt_of_lt w.rdoff_lt
  obtain ⟨s, d, p, m⟩ := (hs fun _ => 0).meet w havail
  have hall (auxbuf : Nat → UInt8) : Delivers buf readHeader p.record
      (packetData buf readHeader auxbuf s) := by
    obtain ⟨s', d', p', m'⟩ := (hs auxbuf).meet w havail
    obtain rfl := Option.some.inj (m.loop.symm.trans m'.loop)
    obtain rfl := Option.some.inj (m.read.symm.trans m'.read)
    exact m'.delivers
  have hfit := m.arrived.fits buf w.size_le hpos m.delivers.length fun auxbuf => (hall auxbuf).bytes
  obtain ⟨k, -, hl⟩ := m.leads
  refine ⟨s, d, p, m, m.delivers.read m.arrived w.size_le hpos hl hfit, ?_⟩
  rwa [packetBytes_length] at hfit

variable (ps r qs) in
theorem Same.aligned (w : Complete buf h rs) (havail : h.avail < h.bufSize)
    (hs : ∀ auxbuf stack mem, Same buf h readHeader forCopy auxbuf stack mem) :
    Aligned buf h ps r qs readHeader forCopy := by
  obtain ⟨s, d, p, m, hhd, hfit⟩ := meet_whole w havail fun auxbuf =>
    hs auxbuf (fun _ => 0) fun _ => 0
  refine ⟨d, p.record.header, ?_, ?_, hfit, .inr ⟨fun stack => ?_, fun mem => ?_⟩⟩
  · rw [← hhd]
    exact m.arrived.sec
  · rw [← hhd]
    exact m.room
  · obtain ⟨s', d', p', m', hhd', -⟩ := meet_whole w havail fun auxbuf => hs auxbuf stack fun _ => 0
    obtain rfl := Option.some.inj (m.read.symm.trans m'.read)
    have hacks := m.acks.symm.trans m'.acks
    obtain rfl : d = d' := by omega
    rw [← hhd']
    exact m'.leads
  · obtain ⟨s', d', p', m', hhd', -⟩ := meet_whole w havail fun auxbuf => hs auxbuf (fun _ => 0) mem
    obtain rfl := Option.some.inj (m.loop.symm.trans m'.loop)
    obtain rfl : d = d' := Nat.add_right_cancel (m.arrived.acks.symm.trans m'.arrived.acks)
    rw [← hhd, hhd']
    exact m'.leadsNext

/-- Headers that do not run over the end lead to the first packet. -/
theorem leadsNext_of_whole {size off n : Nat} (hmax : size ≤ 2 ^ 63)
    (hw : HeadersWhole size off (ps ++ r :: qs))
    (hb : ring buf size off n = (ps ++ r :: qs).flatMap RawRecord.toBytes)
    (hps : ∀ p ∈ ps, p.isPadding = true) (mem : Nat → UInt8) :
    LeadsNext buf size forCopy ps.length mem off (ps.flatMap RawRecord.toBytes).length r.header := by
  induction ps generalizing off n with
  | nil =>
    obtain ⟨hfound, -⟩ := found_whole buf forCopy mem hw.1 hmax
    refine ⟨rfl, ?_⟩
    rw [hfound, ring_header (ring_split hb).1, RawHeader.ofBytes_toBytes]
  | cons p ps ih =>
    have hp := hps p List.mem_cons_self
    obtain ⟨hfound, hmem⟩ := found_whole buf forCopy mem hw.1 hmax
    rw [ring_header (ring_split hb).1, RawHeader.ofBytes_toBytes] at hfound
    have hrest := ih (hw.2 hp) (ring_split hb).2 fun q hq => hps q (List.mem_cons_of_mem _ hq)
    rw [RawRecord.toBytes_length] at hrest
    rw [List.length_cons, LeadsNext, hfound, hmem]
    refine ⟨hp, _, ?_, hrest⟩
    rw [List.flatMap_cons, List.length_append, RawRecord.toBytes_length]

/-- The bytes of a record that does not run over the end, with the frame behind the header. -/
theorem slice_packet {size off : Nat} (hpos : 0 < size) {p : RawRecord}
    (hhd : off % size + rawHlen ≤ size → p.header = .ofBytes (ring buf size off rawHlen))
    (hbody : (off + rawHlen) % size + p.header.caplen.toNat ≤ size →
      p.body = slice buf ((off + rawHlen) % size) p.header.caplen.toNat)
    (hfit : (off + packetStart readHeader) % size + packetLen readHeader p.header ≤ size) :
    slice buf ((off + packetStart readHeader) % size) (packetLen readHeader p.header) =
      packetBytes readHeader p := by
  cases readHeader with
  | true => exact (hbody hfit).symm
  | false =>
    simp only [packetStart, packetLen, packetBytes, Bool.false_eq_true, if_false, Nat.add_zero]
      at hfit ⊢
    have hlt := Nat.mod_lt off hpos
    have hheader : slice buf (off % size) rawHlen = p.header.toBytes := by
      rw [hhd (by omega), ← ring_mod, ring_eq_slice buf (by omega),
        RawHeader.toBytes_ofBytes (slice_length _ _ _)]
    have hframe : slice buf (off % size + rawHlen) p.header.caplen.toNat = p.body := by
      obtain hlt | heq := Nat.lt_or_eq_of_le (by omega : off % size + rawHlen ≤ size)
      · have hmod : (off + rawHlen) % size = off % size + rawHlen := by
          rw [← Nat.mod_add_mod, Nat.mod_eq_of_lt hlt]
        rw [hbody (by omega), hmod]
      · have hnone : p.header.caplen.toNat = 0 := by omega
        have hlen := p.body_length
        rw [hnone] at hlen ⊢
        exact (List.eq_nil_of_length_eq_zero hlen).symm
    rw [slice_add, hheader, hframe, RawRecord.toBytes]

theorem Aligned.same (w : Complete buf h (ps ++ r :: qs)) (havail : h.avail < h.bufSize)
    (hps : ∀ p ∈ ps, p.isPadding = true) (hfew : ps.length ≤ 2)
    (ha : Aligned buf h ps r qs readHeader forCopy) (auxbuf stack mem : Nat → UInt8) :
    Same buf h readHeader forCopy auxbuf stack mem := by
  obtain ⟨d, hd, hsec, hroom, hfit, hled⟩ := ha
  have hled : BothLed buf h forCopy d hd := by
    obtain ⟨rfl, rfl, hw⟩ | hled := hled
    · exact ⟨fun stack => ⟨ps.length, by omega, hw.leads w.bytes hps stack⟩,
        fun mem => ⟨ps.length, leadsNext_of_whole w.size_le hw w.bytes hps mem⟩⟩
    · exact hled
  have hmax := w.size_le
  have hlt := w.acks_lt
  have hraw : rawHlen = 12 := rfl
  obtain ⟨k, hk, hl⟩ := hled.1 stack
  obtain ⟨k', hl'⟩ := hled.2 mem
  obtain ⟨s, hs, hcall, harrived, hhd⟩ := w.call_arrives hk hl hsec hroom auxbuf readHeader
  have hle : 12 * k' ≤ d := hl'.le
  have hrec : ¬ hd.hpcapIsHeaderPadding = true := fun hpad =>
    hsec ((RawHeader.hpcapIsHeaderPadding_iff hd).mp hpad).2
  obtain ⟨p, hp, hbody, hread⟩ := skipPaddings_arrives (n := h.avail + 1) (by omega) w.rdoff_lt hmax
    (by omega) hl' hrec (by omega)
  have hroom' := hroom
  rw [← hhd] at hroom'
  obtain ⟨hrdoff, hfile, hacks⟩ := packet_behind w harrived hroom'
    (arrived_room w havail harrived hs).2 readHeader auxbuf
  rw [hhd] at hrdoff hfile hacks
  refine ⟨_, _, hcall, hread, ⟨?_, ?_, ?_⟩, hrdoff, hfile, hacks⟩
  · rw [packetData_ret, hhd, hp]
  · rw [packetData_header, hhd, hp]
  · have hpointed := harrived.pointed buf hmax (Nat.zero_lt_of_lt w.rdoff_lt) readHeader auxbuf
    rw [hhd, ← hp] at hpointed
    rw [← hp] at hfit hbody
    dsimp only at hpointed
    rw [packetBytes_length, hpointed, if_neg (Nat.not_lt.mpr hfit)]
    refine slice_packet (Nat.zero_lt_of_lt w.rdoff_lt) (fun hw => ?_) hbody hfit
    rw [hp]
    exact hl.whole hw

/-- Whatever the memory holds that is copied to, the two readers come to one record just if the
window is aligned. -/
theorem readers_agree_iff (h : Handle) (ps : List RawRecord) (r : RawRecord) (qs : List RawRecord)
    (readHeader forCopy : Bool) (w : Complete buf h (ps ++ r :: qs)) (havail : h.avail < h.bufSize)
    (hps : ∀ p ∈ ps, p.isPadding = true) (hfew : ps.length ≤ 2) :
    (∀ auxbuf stack mem, Same buf h readHeader forCopy auxbuf stack mem) ↔
      Aligned buf h ps r qs readHeader forCopy :=
  ⟨fun hs => Same.aligned ps qs r w havail hs, fun ha => ha.same w havail hps hfew⟩

end Same

/-- A padding and a frame behind it. -/
theorem readers_agree_iff_padded :
    Same paddedBuf paddedHandle true true (fun _ => 0) (fun _ => 0) fun _ => 0 := by
  have hps : ∀ p ∈ [(⟨⟨0, 0, 2, 2⟩, [9, 9], rfl⟩ : RawRecord)], p.isPadding = true := by
    intro p hp
    rw [List.mem_singleton.mp hp]
    rfl
  refine (readers_agree_iff paddedHandle [⟨⟨0, 0, 2, 2⟩, [9, 9], rfl⟩]
    ⟨⟨5, 7, 2, 60⟩, [1, 2], rfl⟩ [] true true padded_window.complete (by decide) hps
    (by decide)).mpr ?_ _ _ _
  exact ⟨14, ⟨5, 7, 2, 60⟩, by decide, by decide, by decide, .inl ⟨rfl, rfl, by decide,
    fun _ => ⟨by decide, fun h => absurd h (by decide)⟩⟩⟩

def fractionBuf (i : Nat) : UInt8 := (RawHeader.toBytes ⟨0, 7, 0, 60⟩).getD i 0

/-- A record of the first second is a padding to `hpcap_read_packet` alone. -/
theorem first_second_aborts :
    ¬ ∀ (buf : Nat → UInt8) (h : Handle) (ps : List RawRecord) (r : RawRecord)
      (qs : List RawRecord) (readHeader forCopy : Bool), Complete buf h (ps ++ r :: qs) →
      h.avail < h.bufSize → (∀ p ∈ ps, p.isPadding = true) → r.isPadding = false →
      ps.length ≤ 2 → ∀ auxbuf stack mem, Same buf h readHeader forCopy auxbuf stack mem := by
  intro hall
  have w : Complete fractionBuf ⟨0, 0, 12, 0, 4096⟩ [⟨⟨0, 7, 0, 60⟩, [], rfl⟩] :=
    ⟨by decide, by norm_num, by norm_num, by decide, by decide, by decide +kernel⟩
  obtain ⟨o, p, ho, -⟩ := hall _ _ [] _ [] true true w (by decide) (fun _ hp => nomatch hp) (by decide)
    (by decide) (fun _ => 0) (fun _ => 0) fun _ => 0
  have habort : (hpcapReadPacket fractionBuf ⟨0, 0, 12, 0, 4096⟩ (fun _ => 0) true
      fun _ => 0).isNone = true := by decide +kernel
  rw [ho] at habort
  cases habort

end Hpcap.Readers
