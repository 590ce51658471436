import Hpcap.ReadNext
import Hpcap.WriteBlock

namespace Hpcap.Consumption

open Hpcap.Patch Hpcap.Reservation Hpcap.Client
open Hpcap.ReadPacket Hpcap.ReadNext Hpcap.WriteBlock
open Hpcap.Read (minimo)
open Hpcap.ReadPacket (hpcapReadPacket)

/-- The calls that take bytes of the buffer without acknowledging them. Each finds the memory
as it is then. -/
inductive Call
  | writeBlock (buf : Nat → UInt8) (fd : Int) (maxBytesToWrite : Nat) (o₁ o₂ : Option Nat)
  | readPacket (buf auxbuf : Nat → UInt8) (readHeader : Bool) (stack : Nat → UInt8)
  | readNext (buf : Nat → UInt8) (frame forCopy : Bool) (mem : Nat → UInt8)

/-- The handle afterwards, if the call returns. -/
def after (h : Handle) : Call → Option Handle
  | .writeBlock buf fd maxBytesToWrite o₁ o₂ =>
    (hpcapWriteBlock buf h fd maxBytesToWrite o₁ o₂).map WriteBlock.Done.handle
  | .readPacket buf auxbuf readHeader stack =>
    (hpcapReadPacket buf h auxbuf readHeader stack).map Result.handle
  | .readNext buf frame forCopy mem => some (hpcapReadNext buf h frame forCopy mem).handle

/-- The memory that a call finds in the buffer. -/
def Call.buf : Call → Nat → UInt8
  | .writeBlock buf _ _ _ _ | .readPacket buf _ _ _ | .readNext buf _ _ _ => buf

/-- The call reads packet by packet. -/
def Call.isRead : Call → Bool
  | .writeBlock _ _ _ _ _ => false
  | .readPacket _ _ _ _ | .readNext _ _ _ _ => true

/-- What `copy_from_circ_buffer` reads. -/
def circSpans (srcOffset srcSize toCopy : Nat) : List (Nat × Nat) :=
  if srcOffset + toCopy > srcSize then
    [(srcOffset, srcSize - srcOffset), (0, toCopy - (srcSize - srcOffset))]
  else [(srcOffset, toCopy)]

/-- What `hpcap_write_block` writes to the file. -/
def writeBlockSpans (h : Handle) (fd : Int) (maxBytesToWrite : Nat) (o₁ o₂ : Option Nat) :
    List (Nat × Nat) :=
  if minimo h.avail maxBytesToWrite ≥ hpcapBs ∧ fd ≠ 0 then
    if add64 h.rdoff hpcapBs > h.bufSize then
      if h.rdoff > h.bufSize then []
      else
        let aux := sub64 h.bufSize h.rdoff
        (h.rdoff, transferred aux o₁) ::
          if returned aux o₁ ≠ aux then [] else [(0, transferred (hpcapBs - aux) o₂)]
    else [(h.rdoff, transferred hpcapBs o₁)]
  else []

variable (buf : Nat → UInt8)

/-- What the loop that skips the paddings reads. -/
def headerSpans : Nat → Loop → List (Nat × Nat)
  | 0, _ => []
  | n + 1, s => circSpans s.offs s.handle.bufSize rawHlen ++ (pass buf s).elim [] fun s' =>
      if s'.hasPadding ∧ HasNext s' then headerSpans n s' else []

/-- What is copied to `auxbuf`. -/
def packetSpans (readHeader : Bool) (s : Loop) : List (Nat × Nat) :=
  let caplen := (headerOf s.rawh).caplen.toNat
  if readHeader then
    if add64 s.offs caplen > s.handle.bufSize then circSpans s.offs s.handle.bufSize caplen else []
  else
    if add64 (add64 s.handle.rdoff rawHlen) caplen > s.handle.bufSize then
      circSpans s.headerBegin s.handle.bufSize (rawHlen + caplen)
    else []

/-- What `hpcap_read_packet` reads. -/
def readPacketSpans (h : Handle) (readHeader : Bool) (stack : Nat → UInt8) : List (Nat × Nat) :=
  if h.acks ≥ h.avail ∨ h.avail < rawHlen then []
  else
    let s : Loop := ⟨h, h.rdoff, 0, stack, 0, false⟩
    headerSpans buf 4 s ++ (paddingLoop buf 4 s).elim [] fun s' =>
      if s'.hasPadding ∧ ¬ HasNext s' then [] else packetSpans readHeader s'

/-- What `_hpcap_read_next` reads: the header where it is copied, else its `caplen`, and the
time stamp where it looks for a padding. -/
def readNextSpans (h : Handle) (frame forCopy : Bool) (mem : Nat → UInt8) : List (Nat × Nat) :=
  if (hpcapReadNext buf h frame forCopy mem).ret = 0 then []
  else
    let header := found buf h.bufSize h.rdoff forCopy mem
    let h' := hpcapAdvanceRdoffBy h rawHlen
    (if add64 h.rdoff rawHlen > h.bufSize ∧ forCopy then circSpans h.rdoff h.bufSize rawHlen
      else if frame then [(h.rdoff + 8, 2), (h.rdoff, 8)] else [(h.rdoff + 8, 2)]) ++
    if (frame ∧ ¬ header.hpcapIsHeaderPadding) ∧
        add64 h'.rdoff header.caplen.toNat > h'.bufSize ∧ forCopy then
      circSpans h'.rdoff h'.bufSize header.caplen.toNat
    else []

/-- The stretches of the buffer whose bytes a call reads or writes to the file. -/
def spans (h : Handle) : Call → List (Nat × Nat)
  | .writeBlock _ fd maxBytesToWrite o₁ o₂ => writeBlockSpans h fd maxBytesToWrite o₁ o₂
  | .readPacket buf _ readHeader stack => readPacketSpans buf h readHeader stack
  | .readNext buf frame forCopy mem => readNextSpans buf h frame forCopy mem

/-- The bytes that are available and not taken yet. -/
def window (h : Handle) : Set Nat := arc h.bufSize h.rdoff (h.avail - h.acks)

/-- A call keeps to the window, takes no more than there is, and an acknowledgement does not
abort behind it. -/
structure Budgeted (h : Handle) (c : Call) : Prop where
  reads : cells (spans h c) ⊆ window h
  acks : ∀ h', after h c = some h' → h'.acks ≤ h'.avail
  ack : ∀ h', after h c = some h' → ∀ driver consumed e, (hpcapAck ⟨driver, h', consumed⟩ e).isSome

/-- What a call of `hpcap_write_block` takes of a block. -/
def taken (h : Handle) (fd : Int) (o₁ o₂ : Option Nat) : Nat :=
  if fd = 0 then hpcapBs
  else if firstPart h ≤ o₁.getD 0 then firstPart h + min (o₂.getD 0) (hpcapBs - firstPart h)
  else o₁.getD 0

/-- There is no block, or what is taken of it is left; there is nothing to read, or a header
is left; no header is left, or one that is not read past the end of the buffer, with all the
bytes it announces. -/
def Fits (h : Handle) : Call → Prop
  | .writeBlock _ fd maxBytesToWrite o₁ o₂ =>
    minimo h.avail maxBytesToWrite < hpcapBs ∨ h.acks + taken h fd o₁ o₂ ≤ h.avail
  | .readPacket _ _ _ _ => h.avail ≤ h.acks ∨ h.avail < rawHlen ∨ h.acks + rawHlen ≤ h.avail
  | .readNext buf _ forCopy mem => h.avail < h.acks + rawHlen ∨
      (h.rdoff + 10 ≤ h.bufSize ∨ forCopy = true) ∧
        h.acks + (rawHlen + (found buf h.bufSize h.rdoff forCopy mem).caplen.toNat) ≤ h.avail

/-- The bytes left are those of records whose headers do not run over the end of the buffer. -/
structure Records (h : Handle) (rs : List RawRecord) : Prop where
  bytes : ring buf h.bufSize h.rdoff (h.avail - h.acks) = rs.flatMap RawRecord.toBytes
  whole : ∀ ps r qs, rs = ps ++ r :: qs →
    (h.rdoff + (ps.flatMap RawRecord.toBytes).length) % h.bufSize + rawHlen ≤ h.bufSize

/-- `P` holds of every call of a sequence, and of the handle that it finds. -/
def Along (P : Handle → Call → Prop) : Handle → List Call → Prop
  | _, [] => True
  | h, c :: cs => P h c ∧ ∀ h', after h c = some h' → Along P h' cs

/-- Where no more is taken than is available, an acknowledgement does not abort. -/
theorem ack_isSome {h : Handle} (hle : h.acks ≤ h.avail) (driver : Driver) (consumed : Nat)
    (e : Client.Env) : (hpcapAck ⟨driver, h, consumed⟩ e).isSome := by
  rw [hpcapAck, hpcapDoListenerOp, if_neg (fun hgo => absurd hgo.2 (Nat.not_lt.mpr hle))]
  rfl

/-- From `h` to `h'` `n` bytes are taken. -/
structure Moved (h h' : Handle) (n : Nat) : Prop where
  acks : h'.acks = h.acks + n
  avail : h'.avail = h.avail
  bufSize : h'.bufSize = h.bufSize
  rdoff : h'.rdoff = (h.rdoff + n) % h.bufSize

theorem Moved.sound {h h' : Handle} {n : Nat} (hm : Moved h h' n) (hs : Sound h)
    (hn : h.acks + n < 2 ^ 64) : Sound h' := by
  refine ⟨?_, ?_, ?_, ?_⟩
  · rw [hm.bufSize]
    exact hs.size_le
  · rw [hm.rdoff, hm.bufSize]
    exact Nat.mod_lt _ (Nat.zero_lt_of_lt hs.rdoff_lt)
  · rw [hm.avail, hm.bufSize]
    exact hs.avail_le
  · rw [hm.acks]
    exact hn

theorem Moved.refl {h : Handle} (hs : Sound h) : Moved h h 0 :=
  ⟨rfl, rfl, rfl, (Nat.mod_eq_of_lt hs.rdoff_lt).symm⟩

theorem Budgeted.of_le {h : Handle} {c : Call} (hreads : cells (spans h c) ⊆ window h)
    (hacks : ∀ h', after h c = some h' → h'.acks ≤ h'.avail) : Budgeted h c :=
  ⟨hreads, hacks, fun h' ha => ack_isSome (hacks h' ha)⟩

section WriteBlock

variable {buf} {h : Handle} {fd : Int} {maxBytesToWrite : Nat} {o₁ o₂ : Option Nat}

variable (h fd o₁ o₂) in
theorem taken_le : taken h fd o₁ o₂ ≤ hpcapBs := by
  have hpart : firstPart h ≤ hpcapBs := Nat.min_le_right _ _
  rw [taken]
  split
  · exact Nat.le_refl _
  · split
    · omega
    · omega

/-- What is taken with a file is what the writes transfer. -/
theorem taken_eq (hfd : fd ≠ 0) : taken h fd o₁ o₂ = transferred (firstPart h) o₁ +
    if firstPart h ≤ o₁.getD 0 then transferred (hpcapBs - firstPart h) o₂ else 0 := by
  rw [taken, if_neg hfd]
  split
  · rename_i hfirst
    rw [transferred_of_le hfirst, transferred]
  · rename_i hfirst
    rw [transferred_of_lt (Nat.not_le.mp hfirst), Nat.add_zero]

theorem transferred_le (len : Nat) (outcome : Option Nat) : transferred len outcome ≤ len :=
  Nat.min_le_right _ _

theorem writeBlock_cells (hs : Sound h) (hready : hpcapBs ≤ minimo h.avail maxBytesToWrite)
    (hfd : fd ≠ 0) : cells (writeBlockSpans h fd maxBytesToWrite o₁ o₂) =
      arc h.bufSize h.rdoff (taken h fd o₁ o₂) := by
  have hsize := (le_of_ready hready).trans hs.avail_le
  have hlt := hs.rdoff_lt
  have hle := hs.size_le
  have hbs : hpcapBs = 4194304 := rfl
  have hsum : add64 h.rdoff hpcapBs = h.rdoff + hpcapBs := add64_small (by omega)
  have hfirst := transferred_le (firstPart h) o₁
  have hsecond := transferred_le (hpcapBs - firstPart h) o₂
  have hstart : firstPart h ≤ h.bufSize - h.rdoff := Nat.min_le_left _ _
  have harc : arc h.bufSize h.rdoff (transferred (firstPart h) o₁) =
      Set.Ico h.rdoff (h.rdoff + transferred (firstPart h) o₁) := arc_eq_Ico (by omega)
  rw [writeBlockSpans, if_pos ⟨hready, hfd⟩, hsum, taken_eq hfd]
  by_cases hfit : h.rdoff + hpcapBs ≤ h.bufSize
  · have hpart := firstPart_fits hfit
    rw [hpart] at harc ⊢
    have hnone : (if hpcapBs ≤ o₁.getD 0 then transferred (hpcapBs - hpcapBs) o₂ else 0) = 0 := by
      rw [Nat.sub_self, transferred, Nat.min_zero, ite_self]
    rw [if_neg (Nat.not_lt.mpr hfit), hnone, Nat.add_zero, harc, cells_singleton]
  · have hpart := hs.firstPart_wraps (Nat.not_le.mp hfit)
    have haux : sub64 h.bufSize h.rdoff = h.bufSize - h.rdoff := sub64_of_le hlt.le (by omega)
    have hret := returned_eq_iff (h.bufSize - h.rdoff) o₁ (by omega) (by omega)
    rw [hpart] at harc hsecond ⊢
    rw [if_pos (Nat.not_le.mp hfit), if_neg (Nat.not_lt.mpr hlt.le), haux]
    dsimp only
    by_cases hall : h.bufSize - h.rdoff ≤ o₁.getD 0
    · rw [if_pos hall, if_neg (not_not.mpr (hret.mpr hall)), transferred_of_le hall]
      exact cells_wraps hlt.le (by omega)
    · rw [if_neg hall, if_pos fun heq => hall (hret.mp heq), Nat.add_zero, harc, cells_singleton]

/-- The handle moves over a whole block or over nothing. -/
theorem after_writeBlock (hs : Sound h) (hready : hpcapBs ≤ minimo h.avail maxBytesToWrite)
    {h' : Handle} (ha : after h (.writeBlock buf fd maxBytesToWrite o₁ o₂) = some h') :
    h' = h ∧ taken h fd o₁ o₂ < hpcapBs ∨
      taken h fd o₁ o₂ = hpcapBs ∧ ∃ bytes, h' = (WriteBlock.consumed h hpcapBs bytes).handle := by
  have hlt := hs.rdoff_lt
  obtain ⟨o, ho, rfl⟩ := Option.map_eq_some_iff.mp ha
  by_cases hfd : fd = 0
  · subst hfd
    rw [hpcapWriteBlock_noFile buf o₁ o₂ hready] at ho
    cases ho
    exact .inr ⟨if_pos rfl, [], rfl⟩
  · have hpart : firstPart h ≤ hpcapBs := Nat.min_le_right _ _
    rw [hpcapWriteBlock_ready buf o₁ o₂ hs hfd hready] at ho
    rw [taken, if_neg hfd]
    cases ho
    by_cases hfirst : firstPart h ≤ o₁.getD 0
    · rw [if_pos hfirst, if_pos hfirst]
      by_cases hsecond : hpcapBs - firstPart h ≤ o₂.getD 0
      · rw [if_pos hsecond]
        exact .inr ⟨by omega, _, rfl⟩
      · rw [if_neg hsecond]
        exact .inl ⟨rfl, by omega⟩
    · rw [if_neg hfirst, if_neg hfirst]
      exact .inl ⟨rfl, by omega⟩

theorem consumed_acks (hs : Sound h) (hle : h.acks ≤ h.avail) {k : Nat} (hk : k ≤ 2 ^ 62)
    (bytes : List UInt8) : (WriteBlock.consumed h k bytes).handle.acks = h.acks + k := by
  have havail := hs.avail_le
  have hmax := hs.size_le
  have hsum : add64 h.acks k = h.acks + k := add64_small (by omega)
  exact hsum

theorem consumed_acks_le (hs : Sound h) (hle : h.acks ≤ h.avail) {k : Nat} (hk : k ≤ 2 ^ 62)
    (bytes : List UInt8) : (WriteBlock.consumed h k bytes).handle.acks ≤
      (WriteBlock.consumed h k bytes).handle.avail ↔ h.acks + k ≤ h.avail := by
  rw [consumed_acks hs hle hk]
  rfl

theorem budgeted_writeBlock (hs : Sound h) (hle : h.acks ≤ h.avail) :
    Budgeted h (.writeBlock buf fd maxBytesToWrite o₁ o₂) ↔
      Fits h (.writeBlock buf fd maxBytesToWrite o₁ o₂) := by
  by_cases hready : hpcapBs ≤ minimo h.avail maxBytesToWrite
  · have hsize := (le_of_ready hready).trans hs.avail_le
    have htaken := (taken_le h fd o₁ o₂).trans hsize
    have hwindow : arc h.bufSize h.rdoff (taken h fd o₁ o₂) ⊆ window h ↔
        taken h fd o₁ o₂ ≤ h.avail - h.acks := arc_subset_iff htaken
    constructor
    · intro hb
      right
      by_cases hfd : fd = 0
      · subst hfd
        have ha : after h (.writeBlock buf 0 maxBytesToWrite o₁ o₂) =
            some (WriteBlock.consumed h hpcapBs []).handle :=
          congrArg (Option.map WriteBlock.Done.handle) (hpcapWriteBlock_noFile buf o₁ o₂ hready)
        have hacks := hb.acks _ ha
        rw [consumed_acks_le hs hle (by norm_num)] at hacks
        rw [taken, if_pos rfl]
        exact hacks
      · have hreads := hb.reads
        rw [spans, writeBlock_cells hs hready hfd, hwindow] at hreads
        omega
    · rintro (hunready | hfits)
      · exact absurd hready (Nat.not_le.mpr hunready)
      · refine .of_le ?_ fun h' ha => ?_
        · by_cases hfd : fd = 0
          · rw [spans, writeBlockSpans, if_neg (fun hgo => hgo.2 hfd)]
            exact cells_nil_subset _
          · rw [spans, writeBlock_cells hs hready hfd, hwindow]
            omega
        · obtain ⟨rfl, -⟩ | ⟨hall, bytes, rfl⟩ := after_writeBlock hs hready ha
          · exact hle
          · rw [hall] at hfits
            exact (consumed_acks_le hs hle (by norm_num) bytes).mpr hfits
  · refine iff_of_true (.of_le ?_ fun h' ha => ?_) (.inl (Nat.not_le.mp hready))
    · rw [spans, writeBlockSpans, if_neg (fun hgo => hready hgo.1)]
      exact cells_nil_subset _
    · rw [after, hpcapWriteBlock_unready buf fd o₁ o₂ hready] at ha
      cases ha
      exact hle

end WriteBlock

theorem cells_circSpans {size off n : Nat} (ho : off ≤ size) (hn : n ≤ size) :
    cells (circSpans off size n) = arc size off n := by
  rw [circSpans]
  split
  · have hsplit : n = size - off + (n - (size - off)) := by omega
    rw [cells_wraps ho (by omega), ← hsplit]
  · rw [cells_singleton, arc_eq_Ico (by omega)]

/-- A copy of bytes that lie `d` bytes on and are left keeps to the window. -/
theorem circSpans_subset {h : Handle} (hs : Sound h) {d n : Nat} (hfits : d + n ≤ h.avail - h.acks) :
    cells (circSpans ((h.rdoff + d) % h.bufSize) h.bufSize n) ⊆ window h := by
  have havail := hs.avail_le
  have hlt := Nat.mod_lt (h.rdoff + d) (Nat.zero_lt_of_lt hs.rdoff_lt)
  rw [cells_circSpans hlt.le (by omega), arc_mod]
  exact arc_subset hfits

section ReadPacket

variable {buf} {h : Handle} {auxbuf stack : Nat → UInt8} {readHeader : Bool} {s : Loop}

theorem headerSpans_subset {n : Nat} (hs : Sound h) (hh : Head h s) (hsize : rawHlen ≤ h.bufSize)
    (hacks : s.acks + n * 2 ^ 17 ≤ 2 ^ 19) (hfits : h.acks + s.acks + rawHlen ≤ h.avail) :
    cells (headerSpans buf n s) ⊆ window h := by
  have hmax := hs.size_le
  have havail := hs.avail_le
  induction n generalizing s with
  | zero => exact cells_nil_subset _
  | succ n ih =>
    rw [headerSpans, cells_append]
    apply Set.union_subset
    · rw [hh.offs, hh.bufSize]
      exact circSpans_subset hs (by omega)
    · cases hp : pass buf s with
      | none => exact cells_nil_subset _
      | some t =>
        rw [Option.elim_some]
        split
        · rename_i hgo
          obtain ⟨-, ⟨-, -, hhead, hacks'⟩ | harrived⟩ := hh.pass_moves hsize hmax (by omega) hp
          · have hcaplen := (headerOf t.rawh).caplen.toNat_lt
            have hraw : rawHlen = 12 := rfl
            have hnext : add64 (add64 t.handle.acks t.acks) rawHlen ≤ t.handle.avail := hgo.2
            have hsum : add64 h.acks t.acks = h.acks + t.acks := add64_small (by omega)
            rw [hhead.acks, hhead.avail, hsum, add64_small (by omega)] at hnext
            exact ih hhead (by omega) hnext
          · rw [harrived.hasPadding] at hgo
            exact absurd hgo.1 Bool.false_ne_true
        · exact cells_nil_subset _

theorem packetSpans_subset {d : Nat} (hs : Sound h) (ha : Arrived h d s)
    (hroom : d + rawHlen + (headerOf s.rawh).caplen.toNat ≤ h.avail - h.acks) :
    cells (packetSpans readHeader s) ⊆ window h := by
  rw [packetSpans]
  split
  · split
    · rw [ha.offs, ha.bufSize, Nat.add_assoc]
      exact circSpans_subset hs (by omega)
    · exact cells_nil_subset _
  · split
    · rw [ha.headerBegin, ha.bufSize]
      exact circSpans_subset hs (by omega)
    · exact cells_nil_subset _

theorem after_readPacket_nothing (hgo : h.acks ≥ h.avail ∨ h.avail < rawHlen) :
    after h (.readPacket buf auxbuf readHeader stack) = some h := by
  rw [after, hpcapReadPacket]
  by_cases hall : h.acks ≥ h.avail
  · rw [if_pos hall]
    rfl
  · rw [if_neg hall, if_pos (hgo.resolve_left hall)]
    rfl

/-- A packet that is read has been available, and is where the headers lead. -/
theorem after_readPacket (hs : Sound h) (hlt : h.acks < h.avail) (hle : rawHlen ≤ h.avail)
    {h' : Handle} (ha : after h (.readPacket buf auxbuf readHeader stack) = some h') :
    ∃ d hd, (∃ k < 4, Leads buf h.bufSize k stack h.rdoff (h.rdoff + d) hd) ∧
      h.acks + (d + rawHlen + hd.caplen.toNat) ≤ h.avail ∧
      Moved h h' (d + rawHlen + hd.caplen.toNat) := by
  have hmax := hs.size_le
  have havail := hs.avail_le
  obtain ⟨o, ho, rfl⟩ := Option.map_eq_some_iff.mp ha
  obtain ⟨s, d, hloop, harrived, hl, rfl⟩ := hpcapReadPacket_some hlt hle (hle.trans havail) hmax
    hs.rdoff_lt ho
  obtain ⟨hfits, hsame⟩ := (Head.init hs.rdoff_lt stack).paddingLoop_fits (hle.trans havail) hmax
    (by omega) hlt.le (by norm_num) harrived hloop
  obtain ⟨hacks, hrdoff⟩ := harrived.advanced buf hmax (Nat.zero_lt_of_lt hs.rdoff_lt) readHeader
    auxbuf
  rw [packetData_handle] at hacks hrdoff ⊢
  refine ⟨d, headerOf s.rawh, hl, hfits, ?_, hsame, harrived.bufSize, ?_⟩
  · rw [hacks]
    exact add64_small (by omega)
  · rw [hrdoff]
    congr 1
    omega

theorem readPacket_reads (hs : Sound h) (hfits : h.acks + rawHlen ≤ h.avail) :
    cells (readPacketSpans buf h readHeader stack) ⊆ window h := by
  have hmax := hs.size_le
  have havail := hs.avail_le
  have hsize : rawHlen ≤ h.bufSize := by omega
  have hinit := Head.init hs.rdoff_lt stack
  have hraw : rawHlen = 12 := rfl
  rw [readPacketSpans, if_neg (by omega)]
  dsimp only
  rw [cells_append]
  apply Set.union_subset
  · exact headerSpans_subset hs hinit hsize (by norm_num) (by omega)
  · cases hp : paddingLoop buf 4 ⟨h, h.rdoff, 0, stack, 0, false⟩ with
    | none => exact cells_nil_subset _
    | some s =>
      rw [Option.elim_some]
      split
      · exact cells_nil_subset _
      · rename_i hgo
        obtain hend | ⟨-, -, d, -, harrived⟩ := hinit.paddingLoop_ends hsize hmax (by norm_num) hp
        · exact absurd hend hgo
        · obtain ⟨hroom, -⟩ := hinit.paddingLoop_fits hsize hmax (by omega) (by omega) (by norm_num)
            harrived hp
          exact packetSpans_subset hs harrived (by omega)

theorem budgeted_readPacket (hs : Sound h) (hle : h.acks ≤ h.avail) :
    Budgeted h (.readPacket buf auxbuf readHeader stack) ↔
      Fits h (.readPacket buf auxbuf readHeader stack) := by
  have havail := hs.avail_le
  by_cases hgo : h.acks ≥ h.avail ∨ h.avail < rawHlen
  · refine iff_of_true (.of_le ?_ fun h' ha => ?_) (hgo.imp_right Or.inl)
    · rw [spans, readPacketSpans, if_pos hgo]
      exact cells_nil_subset _
    · rw [after_readPacket_nothing hgo] at ha
      cases ha
      exact hle
  · have hlt : h.acks < h.avail := by omega
    have hraw : rawHlen ≤ h.avail := by omega
    have hwindow : arc h.bufSize h.rdoff rawHlen ⊆ window h ↔ rawHlen ≤ h.avail - h.acks :=
      arc_subset_iff (hraw.trans havail)
    constructor
    · intro hb
      have hreads := hb.reads
      rw [spans, readPacketSpans, if_neg hgo] at hreads
      dsimp only at hreads
      rw [headerSpans, cells_append, cells_append, cells_circSpans hs.rdoff_lt.le (hraw.trans havail)]
        at hreads
      have hheader := hwindow.mp ((Set.subset_union_left.trans Set.subset_union_left).trans hreads)
      exact .inr (.inr (by omega))
    · rintro (hnone | hshort | hfits)
      · omega
      · omega
      · refine .of_le (readPacket_reads hs hfits) fun h' ha => ?_
        obtain ⟨d, hd, -, hroom, hm⟩ := after_readPacket hs hlt hraw ha
        rw [hm.acks, hm.avail]
        exact hroom

end ReadPacket

section ReadNext

variable {buf} {h : Handle} {frame forCopy : Bool} {mem : Nat → UInt8}

/-- Without a header left nothing is read, else the header and what it announces. -/
theorem after_readNext (hs : Sound h) {h' : Handle}
    (ha : after h (.readNext buf frame forCopy mem) = some h') :
    h.avail < h.acks + rawHlen ∧ h' = h ∨ h.acks + rawHlen ≤ h.avail ∧
      Moved h h' (rawHlen + (found buf h.bufSize h.rdoff forCopy mem).caplen.toNat) := by
  have havail := hs.avail_le
  have hmax := hs.size_le
  obtain rfl := Option.some.inj ha
  by_cases hleft : h.avail < h.acks + rawHlen
  · rw [readNext_refuses _ _ _ _ (by omega) hleft]
    exact .inl ⟨hleft, rfl⟩
  · have hleft := Nat.not_lt.mp hleft
    rw [readNext_handle hleft (by omega) hs.rdoff_lt hmax]
    have hacks := past_acks (havail.trans hmax) hleft
      (found buf h.bufSize h.rdoff forCopy mem)
    exact .inr ⟨hleft, hacks, rfl, rfl, rfl⟩

/-- Where a header is left, reading it keeps to the window unless its `caplen` lies past the
end of the buffer. -/
theorem header_reads (hs : Sound h) (hleft : h.acks + rawHlen ≤ h.avail) :
    cells (if add64 h.rdoff rawHlen > h.bufSize ∧ forCopy then
        circSpans h.rdoff h.bufSize rawHlen
      else if frame then [(h.rdoff + 8, 2), (h.rdoff, 8)] else [(h.rdoff + 8, 2)]) ⊆ window h ↔
      h.rdoff + 10 ≤ h.bufSize ∨ forCopy = true := by
  have hlt := hs.rdoff_lt
  have hmax := hs.size_le
  have hraw : rawHlen = 12 := rfl
  have hsum : add64 h.rdoff rawHlen = h.rdoff + rawHlen := add64_small (by omega)
  rw [hsum]
  by_cases hcopy : h.rdoff + rawHlen > h.bufSize ∧ forCopy = true
  · have hcells := circSpans_subset hs (d := 0) (n := rawHlen) (by omega)
    rw [Nat.add_zero, Nat.mod_eq_of_lt hlt] at hcells
    rw [if_pos hcopy]
    exact iff_of_true hcells (.inr hcopy.2)
  · rw [if_neg hcopy]
    by_cases hfit : h.rdoff + 10 ≤ h.bufSize
    · have hten : Set.Ico h.rdoff (h.rdoff + 10) ⊆ window h := by
        rw [← arc_eq_Ico hfit]
        exact arc_subset (d := 0) (by omega)
      refine iff_of_true (Set.Subset.trans ?_ hten) (.inl hfit)
      rintro c ⟨p, hp, hlow, hhigh⟩
      have hp : p = (h.rdoff + 8, 2) ∨ p = (h.rdoff, 8) := by
        split at hp
        · simpa using hp
        · exact .inl (List.mem_singleton.mp hp)
      obtain rfl | rfl := hp
      · exact ⟨by omega, hhigh⟩
      · exact ⟨hlow, by omega⟩
    · have hno : forCopy = false := by
        cases forCopy with
        | true => exact absurd ⟨by omega, rfl⟩ hcopy
        | false => rfl
      refine iff_of_false (fun hsub => ?_) (by simp [hfit, hno])
      have hmem : h.rdoff + 9 ∈ cells
          (if frame then [(h.rdoff + 8, 2), (h.rdoff, 8)] else [(h.rdoff + 8, 2)]) := by
        refine ⟨(h.rdoff + 8, 2), ?_, by omega, by omega⟩
        split <;> simp
      obtain ⟨k, -, hk⟩ := hsub hmem
      have hin := Nat.mod_lt (h.rdoff + k) (Nat.zero_lt_of_lt hlt)
      omega

theorem frame_reads (hs : Sound h) {c : Nat} {p : Prop} [Decidable p]
    (hfits : h.acks + (rawHlen + c) ≤ h.avail) :
    cells (if p then circSpans (hpcapAdvanceRdoffBy h rawHlen).rdoff
      (hpcapAdvanceRdoffBy h rawHlen).bufSize c else []) ⊆ window h := by
  have hlt := hs.rdoff_lt
  have hmax := hs.size_le
  have hraw : rawHlen = 12 := rfl
  split
  · rw [advanceRdoffBy_eq (by omega)]
    exact circSpans_subset hs (by omega)
  · exact cells_nil_subset _

theorem budgeted_readNext (hs : Sound h) (hle : h.acks ≤ h.avail) :
    Budgeted h (.readNext buf frame forCopy mem) ↔ Fits h (.readNext buf frame forCopy mem) := by
  have havail := hs.avail_le
  have hmax := hs.size_le
  by_cases hleft : h.avail < h.acks + rawHlen
  · refine iff_of_true (.of_le ?_ fun h' ha => ?_) (.inl hleft)
    · rw [spans, readNextSpans, readNext_refuses _ _ _ _ (by omega) hleft, if_pos rfl]
      exact cells_nil_subset _
    · obtain ⟨-, rfl⟩ | ⟨hno, -⟩ := after_readNext hs ha
      · exact hle
      · omega
  · have hleft := Nat.not_lt.mp hleft
    have hspans : readNextSpans buf h frame forCopy mem = _ :=
      if_neg (by rw [readNext_ret hleft (by omega) hs.rdoff_lt hmax]; exact Nat.one_ne_zero)
    constructor
    · intro hb
      have hreads := hb.reads
      have hbound := hb.acks _ rfl
      rw [spans, hspans, cells_append] at hreads
      obtain ⟨hno, -⟩ | ⟨-, hm⟩ := after_readNext hs
        (rfl : after h (.readNext buf frame forCopy mem) = some _)
      · omega
      · rw [hm.acks, hm.avail] at hbound
        exact .inr ⟨(header_reads hs hleft).mp (Set.subset_union_left.trans hreads), hbound⟩
    · rintro (hnone | ⟨hheader, hfits⟩)
      · omega
      · refine .of_le ?_ fun h' ha => ?_
        · rw [spans, hspans, cells_append]
          exact Set.union_subset ((header_reads hs hleft).mpr hheader) (frame_reads hs hfits)
        · obtain ⟨hno, -⟩ | ⟨-, hm⟩ := after_readNext hs ha
          · omega
          · rw [hm.acks, hm.avail]
            exact hfits

end ReadNext

section Along

variable {h h' : Handle} {c : Call} {cs : List Call}

theorem budgeted_iff (hs : Sound h) (hle : h.acks ≤ h.avail) (c : Call) :
    Budgeted h c ↔ Fits h c := by
  cases c with
  | writeBlock => exact budgeted_writeBlock hs hle
  | readPacket => exact budgeted_readPacket hs hle
  | readNext => exact budgeted_readNext hs hle

theorem sound_after (hs : Sound h) (hle : h.acks ≤ h.avail) (ha : after h c = some h') :
    Sound h' := by
  have havail := hs.avail_le
  have hmax := hs.size_le
  cases c with
  | writeBlock buf fd maxBytesToWrite o₁ o₂ =>
    by_cases hready : hpcapBs ≤ minimo h.avail maxBytesToWrite
    · obtain ⟨rfl, -⟩ | ⟨-, bytes, rfl⟩ := after_writeBlock hs hready ha
      · exact hs
      · exact hs.consumed _ bytes
    · rw [after, hpcapWriteBlock_unready buf fd o₁ o₂ hready] at ha
      cases ha
      exact hs
  | readPacket buf auxbuf readHeader stack =>
    by_cases hgo : h.acks ≥ h.avail ∨ h.avail < rawHlen
    · rw [after_readPacket_nothing hgo] at ha
      cases ha
      exact hs
    · obtain ⟨d, hd, -, hroom, hm⟩ := after_readPacket hs (by omega) (by omega) ha
      exact hm.sound hs (by omega)
  | readNext buf frame forCopy mem =>
    obtain ⟨-, rfl⟩ | ⟨-, hm⟩ := after_readNext hs ha
    · exact hs
    · have hcaplen := (found buf h.bufSize h.rdoff forCopy mem).caplen.toNat_lt
      have hraw : rawHlen = 12 := rfl
      exact hm.sound hs (by omega)

theorem along_iff (hs : Sound h) (hle : h.acks ≤ h.avail) (cs : List Call) :
    Along Budgeted h cs ↔ Along Fits h cs := by
  induction cs generalizing h with
  | nil => exact Iff.rfl
  | cons c cs ih =>
    constructor
    · rintro ⟨hb, hrest⟩
      refine ⟨(budgeted_iff hs hle c).mp hb, fun h' ha => ?_⟩
      exact (ih (sound_after hs hle ha) (hb.acks h' ha)).mp (hrest h' ha)
    · rintro ⟨hf, hrest⟩
      have hb := (budgeted_iff hs hle c).mpr hf
      refine ⟨hb, fun h' ha => ?_⟩
      exact (ih (sound_after hs hle ha) (hb.acks h' ha)).mpr (hrest h' ha)

end Along

section Records

variable {buf} {h h' : Handle} {rs ps qs : List RawRecord}

theorem Records.length (hr : Records buf h rs) :
    h.avail - h.acks = (rs.flatMap RawRecord.toBytes).length := by
  rw [← hr.bytes, ring_length]

/-- What is left behind some of the records are the others. -/
theorem Records.moved (hr : Records buf h (ps ++ qs))
    (hm : Moved h h' (ps.flatMap RawRecord.toBytes).length) : Records buf h' qs := by
  have hlen := hr.length
  have hb := hr.bytes
  rw [List.flatMap_append] at hb hlen
  rw [List.length_append] at hlen
  refine ⟨?_, fun ps' r qs' hqs => ?_⟩
  · have hleft : h'.avail - h'.acks = (qs.flatMap RawRecord.toBytes).length := by
      rw [hm.avail, hm.acks]
      omega
    rw [hleft, hm.bufSize, hm.rdoff, ring_mod]
    exact (ring_split hb).2
  · have hw := hr.whole (ps ++ ps') r qs' (by rw [hqs, List.append_assoc])
    rw [List.flatMap_append, List.length_append, ← Nat.add_assoc] at hw
    rw [hm.bufSize, hm.rdoff, Nat.mod_add_mod]
    exact hw

theorem first_record {size off n target : Nat} (hle : off ≤ target)
    (hb : ring buf size off n = rs.flatMap RawRecord.toBytes)
    (hw : ∀ (ps : List RawRecord) r qs, rs = ps ++ r :: qs →
      (off + (ps.flatMap RawRecord.toBytes).length) % size + rawHlen ≤ size)
    (hend : target + rawHlen ≤ off + n) (rawh : Nat → UInt8) :
    ∃ r qs, rs = r :: qs ∧ headerOf (copied buf size off rawh) = r.header := by
  have hraw : rawHlen = 12 := rfl
  cases rs with
  | nil =>
    have hn : n = 0 := by simpa using congrArg List.length hb
    omega
  | cons r qs => exact ⟨r, qs, rfl, headerOf_first (hw [] r qs rfl) hb rawh⟩

/-- Where no header runs over the end, the headers lead from record to record. -/
theorem leads_record {size off n k target : Nat} {rawh : Nat → UInt8} {hd : RawHeader}
    (hl : Leads buf size k rawh off target hd)
    (hb : ring buf size off n = rs.flatMap RawRecord.toBytes)
    (hw : ∀ (ps : List RawRecord) r qs, rs = ps ++ r :: qs →
      (off + (ps.flatMap RawRecord.toBytes).length) % size + rawHlen ≤ size)
    (hend : target + rawHlen ≤ off + n) :
    ∃ (ps : List RawRecord) (r : RawRecord) (qs : List RawRecord), rs = ps ++ r :: qs ∧
      target = off + (ps.flatMap RawRecord.toBytes).length ∧ hd = r.header := by
  induction k generalizing off n rawh rs with
  | zero =>
    obtain ⟨r, qs, rfl, hfirst⟩ := first_record hl.le hb hw hend rawh
    exact ⟨[], r, qs, rfl, hl.1.symm, hl.2.symm.trans hfirst⟩
  | succ k ih =>
    obtain ⟨r, qs, rfl, hfirst⟩ := first_record hl.le hb hw hend rawh
    obtain ⟨-, hrest⟩ := hl
    have hnext : off + rawHlen + r.header.caplen.toNat = off + r.toBytes.length := by
      rw [RawRecord.toBytes_length, Nat.add_assoc]
    have hn := congrArg List.length hb
    rw [ring_length, List.flatMap_cons, List.length_append] at hn
    rw [hfirst, hnext] at hrest
    have hb' : ring buf size (off + r.toBytes.length) (qs.flatMap RawRecord.toBytes).length =
        qs.flatMap RawRecord.toBytes := (ring_split hb).2
    obtain ⟨ps, r', qs', rfl, htarget, hhd⟩ := ih hrest hb' (fun ps' r' qs' hqs => by
      have hw' := hw (r :: ps') r' qs' (by rw [hqs]; rfl)
      rwa [List.flatMap_cons, List.length_append, ← Nat.add_assoc] at hw') (by omega)
    refine ⟨r :: ps, r', qs', rfl, ?_, hhd⟩
    rw [htarget, List.flatMap_cons, List.length_append, Nat.add_assoc]

theorem Records.found {r : RawRecord} (hr : Records buf h (r :: qs)) (forCopy : Bool)
    (mem : Nat → UInt8) (hmax : h.bufSize ≤ 2 ^ 63) :
    ReadNext.found buf h.bufSize h.rdoff forCopy mem = r.header := by
  obtain ⟨hfound, -⟩ := found_whole buf forCopy mem (hr.whole [] r qs rfl) hmax
  have hheader := ring_header (ring_split hr.bytes).1
  rw [← RawHeader.ofBytes_toBytes r.header, ← hheader]
  exact hfound

/-- A call that reads packet by packet takes some of the records. -/
theorem Records.taken {c : Call} (hr : Records c.buf h rs) (hs : Sound h) (hle : h.acks ≤ h.avail)
    (hc : c.isRead = true) (ha : after h c = some h') :
    ∃ ps qs, rs = ps ++ qs ∧ Moved h h' (ps.flatMap RawRecord.toBytes).length := by
  have hmax := hs.size_le
  have havail := hs.avail_le
  cases c with
  | writeBlock => cases hc
  | readPacket buf auxbuf readHeader stack =>
    by_cases hgo : h.acks ≥ h.avail ∨ h.avail < rawHlen
    · rw [after_readPacket_nothing hgo] at ha
      cases ha
      exact ⟨[], rs, rfl, .refl hs⟩
    · obtain ⟨d, hd, ⟨k, -, hl⟩, hroom, hm⟩ := after_readPacket hs (by omega) (by omega) ha
      obtain ⟨ps, r, qs, rfl, htarget, rfl⟩ := leads_record hl hr.bytes hr.whole (by omega)
      refine ⟨ps ++ [r], qs, by simp, ?_⟩
      have hn : ((ps ++ [r]).flatMap RawRecord.toBytes).length =
          d + rawHlen + r.header.caplen.toNat := by
        rw [List.flatMap_append, List.flatMap_singleton, List.length_append,
          RawRecord.toBytes_length]
        omega
      rw [hn]
      exact hm
  | readNext buf frame forCopy mem =>
    obtain ⟨-, rfl⟩ | ⟨hleft, hm⟩ := after_readNext hs ha
    · exact ⟨[], rs, rfl, .refl hs⟩
    · obtain ⟨r, qs, rfl, -⟩ := first_record (Nat.le_refl _) hr.bytes hr.whole (by omega) mem
      have hr : Records buf h (r :: qs) := hr
      rw [hr.found forCopy mem hmax] at hm
      refine ⟨[r], qs, rfl, ?_⟩
      rw [List.flatMap_singleton, RawRecord.toBytes_length]
      exact hm

/-- Records that are left are left with all their bytes. -/
theorem Records.fits {c : Call} (hr : Records c.buf h rs) (hs : Sound h) (hc : c.isRead = true) :
    Fits h c := by
  have hlt := hs.rdoff_lt
  have hraw : rawHlen = 12 := rfl
  have hlen := hr.length
  cases rs with
  | nil =>
    have hnone : h.avail - h.acks = 0 := hlen
    cases c with
    | writeBlock => cases hc
    | readPacket => exact .inl (by omega)
    | readNext => exact .inl (by omega)
  | cons r qs =>
    rw [List.flatMap_cons, List.length_append, RawRecord.toBytes_length] at hlen
    cases c with
    | writeBlock => cases hc
    | readPacket => exact .inr (.inr (by omega))
    | readNext buf frame forCopy mem =>
      have hr : Records buf h (r :: qs) := hr
      have hw := hr.whole [] r qs rfl
      rw [List.flatMap_nil, List.length_nil, Nat.add_zero, Nat.mod_eq_of_lt hlt] at hw
      refine .inr ⟨.inl (by omega), ?_⟩
      rw [hr.found forCopy mem hs.size_le]
      omega

theorem Records.along {cs : List Call} (hr : ∀ c ∈ cs, c.isRead = true ∧ Records c.buf h rs)
    (hs : Sound h) (hle : h.acks ≤ h.avail) : Along Fits h cs := by
  induction cs generalizing h rs with
  | nil => trivial
  | cons c cs ih =>
    obtain ⟨hc, hrecords⟩ := hr c List.mem_cons_self
    have hfits := hrecords.fits hs hc
    refine ⟨hfits, fun h' ha => ?_⟩
    obtain ⟨ps, qs, rfl, hm⟩ := hrecords.taken hs hle hc ha
    have hb := (budgeted_iff hs hle c).mpr hfits
    have hrest : ∀ c' ∈ cs, c'.isRead = true ∧ Records c'.buf h' qs := by
      intro c' hc'
      obtain ⟨hread, hrecords'⟩ := hr c' (List.mem_cons_of_mem c hc')
      exact ⟨hread, hrecords'.moved hm⟩
    exact ih hrest (sound_after hs hle ha) (hb.acks h' ha)

/-- The calls of a sequence keep to what is available just if each fits, and those that read
packet by packet do so as long as no header runs over the end of the buffer. -/
theorem consumption_iff (h : Handle) (hs : Sound h) (hle : h.acks ≤ h.avail) (cs : List Call) :
    (Along Budgeted h cs ↔ Along Fits h cs) ∧
      ∀ rs, (∀ c ∈ cs, c.isRead = true ∧ Records c.buf h rs) → Along Budgeted h cs :=
  ⟨along_iff hs hle cs, fun _ hr => (along_iff hs hle cs).mpr (Records.along hr hs hle)⟩

end Records

theorem padded_records : Records paddedBuf paddedHandle paddedRecords := by
  refine ⟨padded_window.bytes, fun ps r qs hrs => ?_⟩
  have hlen : (paddedRecords.flatMap RawRecord.toBytes).length = 28 := by decide
  rw [hrs, List.flatMap_append, List.length_append] at hlen
  have hraw : rawHlen = 12 := rfl
  change (0 + (ps.flatMap RawRecord.toBytes).length) % 4096 + rawHlen ≤ 4096
  omega

/-- A padding, a packet, and nothing more. -/
theorem consumption_iff_padded : Along Budgeted paddedHandle
    [.readNext paddedBuf true false fun _ => 0, .readPacket paddedBuf (fun _ => 0) true fun _ => 0,
      .readNext paddedBuf true false fun _ => 0] := by
  have hs : Sound paddedHandle :=
    ⟨by norm_num [paddedHandle], by decide, by decide, by norm_num [paddedHandle]⟩
  refine (consumption_iff paddedHandle hs (by decide) _).2 paddedRecords ?_
  intro c hc
  simp only [List.mem_cons, List.not_mem_nil, or_false] at hc
  obtain rfl | rfl | rfl := hc
  · exact ⟨rfl, padded_records⟩
  · exact ⟨rfl, padded_records⟩
  · exact ⟨rfl, padded_records⟩

/-- A buffer of zeros holds empty paddings. -/
theorem ring_zeros (size a n : Nat) : ring (fun _ => 0) size a (n * rawHlen) =
    (List.replicate n (⟨⟨0, 0, 0, 0⟩, [], rfl⟩ : RawRecord)).flatMap RawRecord.toBytes := by
  have hzeros : RawRecord.toBytes ⟨⟨0, 0, 0, 0⟩, [], rfl⟩ = List.replicate rawHlen 0 := by decide
  rw [List.flatMap_replicate, hzeros, List.flatten_replicate_replicate]
  refine List.eq_replicate_iff.mpr ⟨ring_length _ _ _ _, fun b hb => ?_⟩
  obtain ⟨i, -, rfl⟩ := List.mem_map.mp hb
  rfl

/-- More than a block of paddings, in a buffer of two blocks. -/
def fullHandle : Handle := ⟨0, 0, 349526 * rawHlen, 0, 2 * hpcapBs⟩

def blockCall : Call := .writeBlock (fun _ => 0) 3 hpcapBs (some hpcapBs) none

/-- A second block is written although what is left is not one. -/
theorem second_block_overruns :
    ¬ ∀ (h : Handle) (rs : List RawRecord) (cs : List Call), Sound h → h.acks ≤ h.avail →
      (∀ c ∈ cs, ring c.buf h.bufSize h.rdoff (h.avail - h.acks) = rs.flatMap RawRecord.toBytes) →
      Along Budgeted h cs := by
  intro hall
  have hs : Sound fullHandle := ⟨by norm_num [fullHandle], by norm_num [fullHandle],
    by norm_num [fullHandle], by norm_num [fullHandle]⟩
  have hready : hpcapBs ≤ minimo fullHandle.avail hpcapBs := by norm_num [minimo, fullHandle]
  have hwindow : ∀ c ∈ [blockCall, blockCall], ring c.buf fullHandle.bufSize fullHandle.rdoff
      (fullHandle.avail - fullHandle.acks) =
        (List.replicate 349526 (⟨⟨0, 0, 0, 0⟩, [], rfl⟩ : RawRecord)).flatMap RawRecord.toBytes := by
    intro c hc
    simp only [List.mem_cons, List.not_mem_nil, or_false, or_self] at hc
    rw [hc]
    exact ring_zeros _ _ _
  obtain ⟨-, hrest⟩ := hall _ _ _ hs (Nat.zero_le _) hwindow
  have ha : after fullHandle blockCall = some (WriteBlock.consumed fullHandle hpcapBs
      (ring (fun _ => 0) fullHandle.bufSize fullHandle.rdoff hpcapBs)).handle := by
    rw [blockCall, after, hpcapWriteBlock_fits _ _ _ hs (by norm_num) hready
      (by norm_num [fullHandle]), if_pos (by norm_num), Option.map_some]
  obtain ⟨hb, -⟩ := hrest _ ha
  have hle := (consumed_acks_le hs (Nat.zero_le _) (by norm_num : hpcapBs ≤ 2 ^ 62)
    (ring (fun _ => 0) fullHandle.bufSize fullHandle.rdoff hpcapBs)).mpr (by norm_num [fullHandle])
  have hfits := (budgeted_iff (hs.consumed _ _) hle _).mp hb
  norm_num [Fits, blockCall, minimo, taken, firstPart, WriteBlock.consumed, hpcapAdvanceRdoffBy,
    fullHandle, add64] at hfits

end Hpcap.Consumption
