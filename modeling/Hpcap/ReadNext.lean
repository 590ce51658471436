import Hpcap.ReadPacket

namespace Hpcap.ReadNext

open Hpcap.Patch Hpcap.CircularBuffer Hpcap.Reservation Hpcap.Client

/-- What `*rawh` and `*frame` point to: a byte of the buffer, or of `for_copy`. -/
inductive Pointer where
  | buf (offset : Nat)
  | forCopy (offset : Nat)
  deriving DecidableEq

/-- `rawh` and `frame` are nothing where they are not assigned. `mem` is the memory that
`for_copy` points to. -/
structure Done where
  ret : Nat
  handle : Handle
  rawh : Option Pointer
  frame : Option Pointer
  mem : Nat → UInt8

variable (buf : Nat → UInt8)

/-- The `n` bytes at a pointer. -/
def Pointer.bytes (mem : Nat → UInt8) : Pointer → Nat → List UInt8
  | .buf offset, n => slice buf offset n
  | .forCopy offset, n => slice mem offset n

def headerAt (mem : Nat → UInt8) (p : Pointer) : RawHeader := .ofBytes (p.bytes buf mem rawHlen)

/-- `copy_from_circ_buffer` to `for_copy + start`. -/
def copyTo (off size : Nat) (mem : Nat → UInt8) (start toCopy : Nat) : Nat → UInt8 := fun i =>
  if i < start then mem i
  else (copyFromCircBuffer buf off size (fun j => mem (start + j)) toCopy).1 (i - start)

/-- Where the next `n` bytes are found, and the memory of `for_copy` then. They are copied if
they run over the end of the buffer and `for_copy` is not `NULL`. -/
def locate (off size : Nat) (forCopy : Bool) (mem : Nat → UInt8) (start n : Nat) :
    Pointer × (Nat → UInt8) :=
  if add64 off n > size ∧ forCopy then (.forCopy start, copyTo buf off size mem start n)
  else (.buf off, mem)

/-- `frame` and `forCopy` say whether the arguments are other than `NULL`. -/
def hpcapReadNext (handle : Handle) (frame forCopy : Bool) (mem : Nat → UInt8) : Done :=
  if handle.avail < rawHlen ∨ handle.avail ≤ handle.acks ∨
      sub64 handle.avail rawHlen < handle.acks then
    ⟨0, handle, none, none, mem⟩
  else
    let (rawh, mem) := locate buf handle.rdoff handle.bufSize forCopy mem 0 rawHlen
    let copyBufferOffset := if rawh = .forCopy 0 then rawHlen else 0
    let handle := hpcapAdvanceRdoffBy handle rawHlen
    let header := headerAt buf mem rawh
    let frameSize := header.caplen.toNat
    let (framePtr, mem) :=
      if frame ∧ ¬ header.hpcapIsHeaderPadding then
        let r := locate buf handle.rdoff handle.bufSize forCopy mem copyBufferOffset frameSize
        (some r.1, r.2)
      else (none, mem)
    let handle := hpcapAdvanceRdoffBy handle frameSize
    ⟨1, { handle with acks := add64 handle.acks (add64 rawHlen frameSize) }, some rawh, framePtr, mem⟩

theorem Pointer.bytes_length (mem : Nat → UInt8) (p : Pointer) (n : Nat) :
    (p.bytes buf mem n).length = n := by
  cases p with
  | buf offset => exact slice_length buf offset n
  | forCopy offset => exact slice_length mem offset n

/-- A header and the frame at a pointer. -/
def recordAt (mem : Nat → UInt8) (header : RawHeader) (p : Pointer) : RawRecord :=
  ⟨header, p.bytes buf mem header.caplen.toNat, p.bytes_length buf mem _⟩

/-- What comes out of reading on until `hpcap_is_header_padding` does not hold. -/
structure Delivery where
  handle : Handle
  record : RawRecord

/-- Reads on and skips the paddings, as long as the number of reads lasts. -/
def skipPaddings (forCopy : Bool) : Nat → Handle → (Nat → UInt8) → Option Delivery
  | 0, _, _ => none
  | n + 1, h, mem =>
    let o := hpcapReadNext buf h true forCopy mem
    if o.ret = 0 then none
    else o.rawh.bind fun p =>
      let header := headerAt buf o.mem p
      if header.hpcapIsHeaderPadding then skipPaddings forCopy n o.handle o.mem
      else o.frame.map fun q => ⟨o.handle, recordAt buf o.mem header q⟩

/-- A read takes `RAW_HLEN` bytes at least, so that there are not more of them than bytes. -/
def readUnpadded (h : Handle) (forCopy : Bool) (mem : Nat → UInt8) : Option Delivery :=
  skipPaddings buf forCopy (h.avail + 1) h mem

/-- The header that is read at `off`. -/
def found (size off : Nat) (forCopy : Bool) (mem : Nat → UInt8) : RawHeader :=
  let r := locate buf (off % size) size forCopy mem 0 rawHlen
  headerAt buf r.2 r.1

/-- The memory of `for_copy` when it has been read. -/
def memAfter (size off : Nat) (forCopy : Bool) (mem : Nat → UInt8) : Nat → UInt8 :=
  (locate buf (off % size) size forCopy mem 0 rawHlen).2

/-- The handle `n` bytes further. -/
def past (h : Handle) (n : Nat) : Handle :=
  { h with
    rdoff := (h.rdoff + n) % h.bufSize
    fileOffset := (h.fileOffset + n) % hpcapFilesize
    acks := add64 h.acks n }

/-- The record a read comes to, where the header found is none of a padding. -/
def readRecord (h : Handle) (forCopy : Bool) (mem : Nat → UInt8) : RawRecord :=
  let p := locate buf h.rdoff h.bufSize forCopy mem 0 rawHlen
  let header := headerAt buf p.2 p.1
  let q := locate buf ((h.rdoff + rawHlen) % h.bufSize) h.bufSize forCopy p.2
    (if p.1 = .forCopy 0 then rawHlen else 0) header.caplen.toNat
  recordAt buf q.2 header q.1

/-- Skipping `n` headers, as they are found, leads from `off` to `d` bytes behind it, where
`hd` is found. -/
def LeadsNext (size : Nat) (forCopy : Bool) : Nat → (Nat → UInt8) → Nat → Nat → RawHeader → Prop
  | 0, mem, off, d, hd => d = 0 ∧ found buf size off forCopy mem = hd
  | n + 1, mem, off, d, hd =>
    (found buf size off forCopy mem).hpcapIsHeaderPadding ∧
      ∃ d', d = rawHlen + (found buf size off forCopy mem).caplen.toNat + d' ∧
        LeadsNext size forCopy n (memAfter buf size off forCopy mem)
          (off + (rawHlen + (found buf size off forCopy mem).caplen.toNat)) d' hd

section Call

variable {buf} {h : Handle} {frame forCopy : Bool} {mem : Nat → UInt8}

theorem past_past (h : Handle) (n k : Nat) : past (past h n) k = past h (n + k) := by
  simp only [past, Nat.mod_add_mod, Nat.add_assoc, add64_assoc]

theorem past_rdoff_lt (hr : h.rdoff < h.bufSize) (n : Nat) :
    (past h n).rdoff < (past h n).bufSize :=
  Nat.mod_lt _ (Nat.zero_lt_of_lt hr)

@[simp] theorem past_bufSize (h : Handle) (n : Nat) : (past h n).bufSize = h.bufSize := rfl

@[simp] theorem past_avail (h : Handle) (n : Nat) : (past h n).avail = h.avail := rfl

theorem past_acks (havail : h.avail ≤ 2 ^ 63) (hleft : h.acks + rawHlen ≤ h.avail)
    (hd : RawHeader) : (past h (rawHlen + hd.caplen.toNat)).acks =
      h.acks + (rawHlen + hd.caplen.toNat) := by
  have hcaplen := hd.caplen.toNat_lt
  have hraw : rawHlen = 12 := rfl
  exact add64_small (by omega)

variable (buf frame forCopy mem) in
/-- Without room for a header nothing is read. -/
theorem readNext_refuses (havail : h.avail < 2 ^ 64) (hleft : h.avail < h.acks + rawHlen) :
    hpcapReadNext buf h frame forCopy mem = ⟨0, h, none, none, mem⟩ := by
  rw [hpcapReadNext, if_pos]
  by_cases hshort : h.avail < rawHlen
  · exact .inl hshort
  · have hsub : sub64 h.avail rawHlen = h.avail - rawHlen :=
      sub64_of_le (Nat.not_lt.mp hshort) havail
    rw [hsub]
    omega

/-- A header is read, and the handle goes past the frame it announces. -/
theorem readNext_reads (hleft : h.acks + rawHlen ≤ h.avail) (havail : h.avail < 2 ^ 64)
    (hr : h.rdoff < h.bufSize) (hmax : h.bufSize ≤ 2 ^ 63) :
    hpcapReadNext buf h frame forCopy mem =
      let hd := found buf h.bufSize h.rdoff forCopy mem
      let p := (locate buf h.rdoff h.bufSize forCopy mem 0 rawHlen).1
      let m := memAfter buf h.bufSize h.rdoff forCopy mem
      let r := if frame ∧ ¬ hd.hpcapIsHeaderPadding then
          let r := locate buf ((h.rdoff + rawHlen) % h.bufSize) h.bufSize forCopy m
            (if p = .forCopy 0 then rawHlen else 0) hd.caplen.toNat
          (some r.1, r.2)
        else (none, m)
      ⟨1, past h (rawHlen + hd.caplen.toNat), some p, r.1, r.2⟩ := by
  have hraw : rawHlen = 12 := rfl
  have hsub : sub64 h.avail rawHlen = h.avail - rawHlen := sub64_of_le (by omega) havail
  have hgo : ¬ (h.avail < rawHlen ∨ h.avail ≤ h.acks ∨ sub64 h.avail rawHlen < h.acks) := by
    rw [hsub]
    omega
  have hmod : h.rdoff % h.bufSize = h.rdoff := Nat.mod_eq_of_lt hr
  have hnext := Nat.mod_lt (h.rdoff + rawHlen) (Nat.zero_lt_of_lt hr)
  have hcaplen := (found buf h.bufSize h.rdoff forCopy mem).caplen.toNat_lt
  rw [hpcapReadNext, if_neg hgo, advanceRdoffBy_eq (by omega)]
  simp only [found, memAfter, hmod] at hcaplen ⊢
  rw [advanceRdoffBy_eq (by dsimp only; omega)]
  have hsize := add64_small (a := rawHlen)
    ((Nat.add_lt_add_left hcaplen rawHlen).trans (by norm_num : rawHlen + 2 ^ 16 < 2 ^ 64))
  simp only [past, hsize, Nat.mod_add_mod, Nat.add_assoc]

theorem readNext_ret (hleft : h.acks + rawHlen ≤ h.avail) (havail : h.avail < 2 ^ 64)
    (hr : h.rdoff < h.bufSize) (hmax : h.bufSize ≤ 2 ^ 63) :
    (hpcapReadNext buf h frame forCopy mem).ret = 1 := by
  rw [readNext_reads hleft havail hr hmax]

theorem readNext_handle (hleft : h.acks + rawHlen ≤ h.avail) (havail : h.avail < 2 ^ 64)
    (hr : h.rdoff < h.bufSize) (hmax : h.bufSize ≤ 2 ^ 63) :
    (hpcapReadNext buf h frame forCopy mem).handle =
      past h (rawHlen + (found buf h.bufSize h.rdoff forCopy mem).caplen.toNat) := by
  rw [readNext_reads hleft havail hr hmax]

variable (buf) in
/-- A copy behind the header leaves the header. -/
theorem slice_copyTo (off size : Nat) (mem : Nat → UInt8) (n : Nat) :
    slice (copyTo buf off size mem rawHlen n) 0 rawHlen = slice mem 0 rawHlen := by
  apply slice_congr
  intro i _ hi
  rw [copyTo, if_pos (by omega)]

variable (buf) in
theorem locate_cases (off size : Nat) (forCopy : Bool) (mem : Nat → UInt8) (start n : Nat) :
    locate buf off size forCopy mem start n = (.forCopy start, copyTo buf off size mem start n) ∨
      locate buf off size forCopy mem start n = (.buf off, mem) := by
  rw [locate]
  split
  · exact .inl rfl
  · exact .inr rfl

variable (buf) in
theorem locate_fits {off size start n : Nat} (hfit : off + n ≤ size) (hmax : size ≤ 2 ^ 63) :
    locate buf off size forCopy mem start n = (.buf off, mem) := by
  have hsum : add64 off n = off + n := add64_small (by omega)
  rw [locate, hsum, if_neg (by omega)]

variable (buf forCopy mem) in
theorem found_whole {size off : Nat} (hw : off % size + rawHlen ≤ size) (hmax : size ≤ 2 ^ 63) :
    found buf size off forCopy mem = .ofBytes (ring buf size off rawHlen) ∧
      memAfter buf size off forCopy mem = mem := by
  rw [found, memAfter, locate_fits buf hw hmax]
  refine ⟨?_, rfl⟩
  rw [← ring_mod, ring_eq_slice buf hw]
  rfl

variable (buf forCopy mem) in
/-- Where a frame lies that is found behind its header, the header is as it was. -/
theorem headerAt_frame (off size n : Nat) :
    let r := locate buf off size forCopy mem 0 rawHlen
    let q := locate buf ((off + rawHlen) % size) size forCopy r.2
      (if r.1 = .forCopy 0 then rawHlen else 0) n
    headerAt buf q.2 r.1 = headerAt buf r.2 r.1 := by
  obtain hcopied | hpointed := locate_cases buf off size forCopy mem 0 rawHlen
  · obtain hagain | hbehind := locate_cases buf ((off + rawHlen) % size) size forCopy
      (copyTo buf off size mem 0 rawHlen) rawHlen n
    · rw [hcopied]
      simp only [if_pos, hagain, headerAt, Pointer.bytes, slice_copyTo]
    · rw [hcopied]
      simp only [if_pos, hbehind]
  · rw [hpointed]
    rfl

theorem skipPaddings_refuses (havail : h.avail < 2 ^ 64) (hleft : h.avail < h.acks + rawHlen)
    (n : Nat) : skipPaddings buf forCopy n h mem = none := by
  cases n with
  | zero => rfl
  | succ n =>
    rw [skipPaddings, readNext_refuses _ _ _ _ havail hleft]
    rfl

section Reads

variable (hleft : h.acks + rawHlen ≤ h.avail) (havail : h.avail < 2 ^ 64)
  (hr : h.rdoff < h.bufSize) (hmax : h.bufSize ≤ 2 ^ 63)

include hleft havail hr hmax

theorem skipPaddings_padding
    (hpad : (found buf h.bufSize h.rdoff forCopy mem).hpcapIsHeaderPadding = true) (n : Nat) :
    skipPaddings buf forCopy (n + 1) h mem = skipPaddings buf forCopy n
      (past h (rawHlen + (found buf h.bufSize h.rdoff forCopy mem).caplen.toNat))
      (memAfter buf h.bufSize h.rdoff forCopy mem) := by
  have hhd : headerAt buf (memAfter buf h.bufSize h.rdoff forCopy mem)
      (locate buf h.rdoff h.bufSize forCopy mem 0 rawHlen).1 =
        found buf h.bufSize h.rdoff forCopy mem := by
    rw [found, memAfter, Nat.mod_eq_of_lt hr]
  have hframe : ¬ (true = true ∧
      ¬ (found buf h.bufSize h.rdoff forCopy mem).hpcapIsHeaderPadding = true) :=
    fun hno => hno.2 hpad
  rw [skipPaddings, readNext_reads hleft havail hr hmax]
  dsimp only
  rw [if_neg hframe, if_neg (by norm_num), Option.bind_some, hhd, if_pos hpad]

theorem skipPaddings_record
    (hrec : ¬ (found buf h.bufSize h.rdoff forCopy mem).hpcapIsHeaderPadding = true) (n : Nat) :
    skipPaddings buf forCopy (n + 1) h mem =
      some ⟨past h (rawHlen + (found buf h.bufSize h.rdoff forCopy mem).caplen.toNat),
        readRecord buf h forCopy mem⟩ := by
  have hm : memAfter buf h.bufSize h.rdoff forCopy mem =
      (locate buf h.rdoff h.bufSize forCopy mem 0 rawHlen).2 := by
    rw [memAfter, Nat.mod_eq_of_lt hr]
  have hhd : headerAt buf (locate buf h.rdoff h.bufSize forCopy mem 0 rawHlen).2
      (locate buf h.rdoff h.bufSize forCopy mem 0 rawHlen).1 =
        found buf h.bufSize h.rdoff forCopy mem := by
    rw [found, Nat.mod_eq_of_lt hr]
  have hkept := headerAt_frame buf forCopy mem h.rdoff h.bufSize
    (found buf h.bufSize h.rdoff forCopy mem).caplen.toNat
  dsimp only at hkept
  rw [skipPaddings, readNext_reads hleft havail hr hmax]
  dsimp only
  rw [if_neg Nat.one_ne_zero, if_pos ⟨rfl, hrec⟩, Option.bind_some, hm, hkept, hhd, if_neg hrec,
    Option.map_some, readRecord, hhd]

end Reads

variable (buf forCopy mem) in
@[simp] theorem readRecord_header (hr : h.rdoff < h.bufSize) :
    (readRecord buf h forCopy mem).header = found buf h.bufSize h.rdoff forCopy mem := by
  rw [found, Nat.mod_eq_of_lt hr]
  rfl

variable (buf) in
theorem readRecord_body (hr : h.rdoff < h.bufSize) (hmax : h.bufSize ≤ 2 ^ 63)
    (hfit : (h.rdoff + rawHlen) % h.bufSize +
      (found buf h.bufSize h.rdoff forCopy mem).caplen.toNat ≤ h.bufSize) :
    (readRecord buf h forCopy mem).body = slice buf ((h.rdoff + rawHlen) % h.bufSize)
      (found buf h.bufSize h.rdoff forCopy mem).caplen.toNat := by
  rw [found, Nat.mod_eq_of_lt hr] at hfit ⊢
  rw [readRecord, locate_fits buf hfit hmax]
  rfl

end Call

section Loop

variable {buf} {h : Handle} {forCopy : Bool} {mem : Nat → UInt8} {size off n k d : Nat}
  {hd : RawHeader}

theorem LeadsNext.le (hl : LeadsNext buf size forCopy k mem off d hd) : rawHlen * k ≤ d := by
  induction k generalizing mem off d with
  | zero => exact Nat.zero_le d
  | succ k ih =>
    obtain ⟨-, d', rfl, hrest⟩ := hl
    have hle := ih hrest
    rw [Nat.mul_succ]
    omega

variable (buf forCopy mem) in
theorem found_congr {off' : Nat} (hoff : off % size = off' % size) :
    found buf size off forCopy mem = found buf size off' forCopy mem ∧
      memAfter buf size off forCopy mem = memAfter buf size off' forCopy mem := by
  simp only [found, memAfter, hoff, and_self]

theorem LeadsNext.congr {off' : Nat} (hoff : off % size = off' % size)
    (hl : LeadsNext buf size forCopy k mem off d hd) :
    LeadsNext buf size forCopy k mem off' d hd := by
  induction k generalizing mem off off' d with
  | zero =>
    rw [LeadsNext, ← (found_congr buf forCopy mem hoff).1]
    exact hl
  | succ k ih =>
    obtain ⟨hpad, d', hd', hrest⟩ := hl
    obtain ⟨hfound, hmem⟩ := found_congr buf forCopy mem hoff
    rw [LeadsNext, ← hfound, ← hmem]
    refine ⟨hpad, d', hd', ih ?_ hrest⟩
    rw [Nat.add_mod, hoff, ← Nat.add_mod]

/-- Reading on ends behind the record that the headers lead to. -/
theorem skipPaddings_ends (havail : h.avail ≤ 2 ^ 63) (hr : h.rdoff < h.bufSize)
    (hmax : h.bufSize ≤ 2 ^ 63) {p : Delivery} (hp : skipPaddings buf forCopy n h mem = some p) :
    ∃ k d, LeadsNext buf h.bufSize forCopy k mem h.rdoff d p.record.header ∧
      h.acks + d + rawHlen ≤ h.avail ∧
      p.handle = past h (d + (rawHlen + p.record.header.caplen.toNat)) := by
  induction n generalizing h mem with
  | zero => cases hp
  | succ n ih =>
    by_cases hleft : h.avail < h.acks + rawHlen
    · rw [skipPaddings_refuses (by omega) hleft] at hp
      cases hp
    · have hleft := Nat.not_lt.mp hleft
      by_cases hpad : (found buf h.bufSize h.rdoff forCopy mem).hpcapIsHeaderPadding = true
      · rw [skipPaddings_padding hleft (by omega) hr hmax hpad] at hp
        obtain ⟨k, d, hl, hend, hhandle⟩ := ih (h := past h _) ((past_avail _ _).trans_le havail)
          (past_rdoff_lt hr _) hmax hp
        refine ⟨k + 1, _, ⟨hpad, d, rfl, hl.congr (Nat.mod_mod _ _)⟩, ?_, ?_⟩
        · rw [past_acks havail hleft, past_avail] at hend
          omega
        · rw [hhandle, past_past, Nat.add_assoc (rawHlen + _)]
      · rw [skipPaddings_record hleft (by omega) hr hmax hpad] at hp
        cases hp
        have hhd := readRecord_header buf forCopy mem hr
        refine ⟨0, 0, ⟨rfl, hhd.symm⟩, hleft, ?_⟩
        rw [hhd, Nat.zero_add]

/-- Where the headers lead to a record, reading on gets there. -/
theorem skipPaddings_arrives (havail : h.avail ≤ 2 ^ 63) (hr : h.rdoff < h.bufSize)
    (hmax : h.bufSize ≤ 2 ^ 63) (hk : k < n)
    (hl : LeadsNext buf h.bufSize forCopy k mem h.rdoff d hd)
    (hrec : ¬ hd.hpcapIsHeaderPadding = true) (hend : h.acks + d + rawHlen ≤ h.avail) :
    ∃ r : RawRecord, r.header = hd ∧
      ((h.rdoff + d + rawHlen) % h.bufSize + hd.caplen.toNat ≤ h.bufSize →
        r.body = slice buf ((h.rdoff + d + rawHlen) % h.bufSize) hd.caplen.toNat) ∧
      skipPaddings buf forCopy n h mem = some ⟨past h (d + (rawHlen + hd.caplen.toNat)), r⟩ := by
  induction n generalizing h mem d k with
  | zero => exact absurd hk (Nat.not_lt_zero k)
  | succ n ih =>
    cases k with
    | zero =>
      obtain ⟨rfl, rfl⟩ := hl
      refine ⟨readRecord buf h forCopy mem, readRecord_header buf forCopy mem hr, fun hfit => ?_, ?_⟩
      · exact readRecord_body buf hr hmax hfit
      · rw [skipPaddings_record hend (by omega) hr hmax hrec, Nat.zero_add]
    | succ k =>
      obtain ⟨hpad, d', rfl, hrest⟩ := hl
      have hleft : h.acks + rawHlen ≤ h.avail := by omega
      obtain ⟨r, hhd, hbody, hcall⟩ := ih (h := past h (rawHlen +
          (found buf h.bufSize h.rdoff forCopy mem).caplen.toNat)) (d := d')
        ((past_avail _ _).trans_le havail) (past_rdoff_lt hr _)
        ((past_bufSize _ _).trans_le hmax) (Nat.lt_of_succ_lt_succ hk)
        (hrest.congr (Nat.mod_mod _ _).symm) (by
          rw [past_acks havail hleft, past_avail]
          omega)
      have hpos : ((past h (rawHlen + (found buf h.bufSize h.rdoff forCopy mem).caplen.toNat)).rdoff +
          d' + rawHlen) % h.bufSize = (h.rdoff + (rawHlen + (found buf h.bufSize h.rdoff forCopy
            mem).caplen.toNat + d') + rawHlen) % h.bufSize := by
        simp only [past, Nat.add_assoc, Nat.mod_add_mod]
      refine ⟨r, hhd, ?_, ?_⟩
      · rw [← hpos]
        exact hbody
      · rw [skipPaddings_padding hleft (by omega) hr hmax hpad, hcall, past_past,
          Nat.add_assoc (rawHlen + _)]

/-- More reads than there are bytes for find nothing more. -/
theorem skipPaddings_enough (havail : h.avail ≤ 2 ^ 63) (hr : h.rdoff < h.bufSize)
    (hmax : h.bufSize ≤ 2 ^ 63) (hn : h.avail < h.acks + rawHlen * n) (m : Nat) :
    skipPaddings buf forCopy (n + m) h mem = skipPaddings buf forCopy n h mem := by
  induction n generalizing h mem with
  | zero =>
    have hleft : h.avail < h.acks + rawHlen := by omega
    rw [skipPaddings_refuses (by omega) hleft, skipPaddings_refuses (by omega) hleft]
  | succ n ih =>
    by_cases hleft : h.avail < h.acks + rawHlen
    · rw [skipPaddings_refuses (by omega) hleft, skipPaddings_refuses (by omega) hleft]
    · have hleft := Nat.not_lt.mp hleft
      rw [Nat.add_right_comm]
      by_cases hpad : (found buf h.bufSize h.rdoff forCopy mem).hpcapIsHeaderPadding = true
      · rw [skipPaddings_padding hleft (by omega) hr hmax hpad,
          skipPaddings_padding hleft (by omega) hr hmax hpad]
        refine ih (h := past h _) ((past_avail _ _).trans_le havail)
          (past_rdoff_lt hr _) hmax ?_
        rw [Nat.mul_succ] at hn
        rw [past_acks havail hleft, past_avail]
        omega
      · rw [skipPaddings_record hleft (by omega) hr hmax hpad,
          skipPaddings_record hleft (by omega) hr hmax hpad]

end Loop

end Hpcap.ReadNext
