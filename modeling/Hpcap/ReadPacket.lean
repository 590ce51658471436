import Hpcap.CircularBuffer
import Hpcap.Client

namespace Hpcap.ReadPacket

open Hpcap.Patch Hpcap.CircularBuffer Hpcap.Reservation Hpcap.Client

/-- What `*pbuffer` points to: nothing, a byte of the buffer, the start of `auxbuf`. -/
inductive PBuffer where
  | null
  | buf (offset : Nat)
  | auxbuf
  deriving DecidableEq

/-- What goes to `header`: a `u16`, or what `read_header` is called with. -/
inductive HeaderOut where
  | caplen (caplen : UInt16)
  | readHeader (sec nsec : UInt32) (len caplen : UInt16)
  deriving DecidableEq

structure Result where
  ret : Nat
  pbuffer : PBuffer
  header : Option HeaderOut
  auxbuf : Nat → UInt8
  handle : Handle

/-- The variables of the loop that skips the paddings. `rawh` is the memory of the header. -/
structure Loop where
  handle : Handle
  offs : Nat
  acks : Nat
  rawh : Nat → UInt8
  headerBegin : Nat
  hasPadding : Bool

def headerOf (rawh : Nat → UInt8) : RawHeader := .ofBytes (slice rawh 0 rawHlen)

variable (buf : Nat → UInt8)

/-- One pass of the loop, `none` if it aborts. -/
def pass (s : Loop) : Option Loop :=
  let (rawh, offs) := copyFromCircBuffer buf s.offs s.handle.bufSize s.rawh rawHlen
  let acks := add64 s.acks rawHlen
  let caplen := (headerOf rawh).caplen.toNat
  if s.handle.avail < add64 (add64 s.handle.acks acks) caplen then none
  else if (headerOf rawh).sec = 0 ∧ (headerOf rawh).sec = 0 then
    let offs' := add64 offs caplen % s.handle.bufSize
    some ⟨hpcapAdvanceRdoffTo s.handle offs', offs', add64 acks caplen, rawh, s.offs, true⟩
  else some ⟨s.handle, offs, acks, rawh, s.offs, false⟩

/-- Whether another header is available. -/
def HasNext (s : Loop) : Prop :=
  s.handle.avail ≥ add64 (add64 s.handle.acks s.acks) rawHlen

instance (s : Loop) : Decidable (HasNext s) := inferInstanceAs (Decidable (_ ≥ _))

/-- The loop. The number is that of the passes left before `num_paddings >= 4` aborts. -/
def paddingLoop : Nat → Loop → Option Loop
  | 0, _ => none
  | n + 1, s => (pass buf s).bind fun s' =>
      if s'.hasPadding ∧ HasNext s' then paddingLoop n s' else some s'

/-- What follows the loop. `readHeader` says whether the argument is other than `NULL`. -/
def packetData (readHeader : Bool) (auxbuf : Nat → UInt8) (s : Loop) : Result :=
  let h := headerOf s.rawh
  let caplen := h.caplen.toNat
  let offs := add64 s.offs caplen % s.handle.bufSize
  let handle := hpcapAdvanceRdoffTo s.handle offs
  let handle := { handle with acks := add64 handle.acks (add64 s.acks caplen) }
  let ret := h.sec.toNat * 1000000000 + h.nsec.toNat
  if readHeader then
    let header := some (.readHeader h.sec h.nsec h.len h.caplen)
    if add64 s.offs caplen > s.handle.bufSize then
      ⟨ret, .auxbuf, header,
        (copyFromCircBuffer buf s.offs s.handle.bufSize auxbuf caplen).1, handle⟩
    else ⟨ret, .buf s.offs, header, auxbuf, handle⟩
  else
    let header := some (.caplen h.caplen)
    if add64 (add64 s.handle.rdoff rawHlen) caplen > s.handle.bufSize then
      ⟨ret, .auxbuf, header,
        (copyFromCircBuffer buf s.headerBegin s.handle.bufSize auxbuf (rawHlen + caplen)).1, handle⟩
    else ⟨ret, .buf s.headerBegin, header, auxbuf, handle⟩

/-- `none` if the call aborts. `stack` is what `rawh` holds before it is filled in. -/
def hpcapReadPacket (handle : Handle) (auxbuf : Nat → UInt8) (readHeader : Bool)
    (stack : Nat → UInt8) : Option Result :=
  if handle.acks ≥ handle.avail then some ⟨2 ^ 64 - 1, .null, none, auxbuf, handle⟩
  else if handle.avail < rawHlen then some ⟨0, .null, none, auxbuf, handle⟩
  else (paddingLoop buf 4 ⟨handle, handle.rdoff, 0, stack, 0, false⟩).bind fun s =>
    if s.hasPadding ∧ ¬ HasNext s then none
    else some (packetData buf readHeader auxbuf s)

/-- The `n` bytes at `*pbuffer`. -/
def Result.pointed (o : Result) (n : Nat) : List UInt8 :=
  match o.pbuffer with
  | .null => []
  | .buf offset => slice buf offset n
  | .auxbuf => slice o.auxbuf 0 n

/-- The first record that is no padding, and how many bytes precede it. -/
def firstPacket : List RawRecord → Option (Nat × RawRecord)
  | [] => none
  | r :: rs =>
    if r.isPadding then (firstPacket rs).map fun p => (r.toBytes.length + p.1, p.2)
    else some (0, r)

/-- A handle whose unread bytes are records. -/
structure Window (h : Handle) (rs : List RawRecord) : Prop where
  acks_lt : h.acks < h.avail
  avail_lt : h.avail < 2 ^ 64
  size_le : h.bufSize ≤ 2 ^ 63
  rdoff_lt : h.rdoff < h.bufSize
  shorter : h.avail - h.acks < h.bufSize
  bytes : ring buf h.bufSize h.rdoff (h.avail - h.acks) = rs.flatMap RawRecord.toBytes
  paddings : ∀ a b c, [a, b, c] <:+: rs → ¬ (a.isPadding ∧ b.isPadding ∧ c.isPadding)

structure Advanced (h h' : Handle) (n : Nat) : Prop where
  acks : h'.acks = h.acks + n
  rdoff : h'.rdoff = (h.rdoff + n) % h.bufSize

/-- What `*pbuffer` is to point to. -/
def packetBytes (readHeader : Bool) (r : RawRecord) : List UInt8 :=
  if readHeader then r.body else r.toBytes

/-- How far behind the record's first byte that starts. -/
def packetStart (readHeader : Bool) : Nat := if readHeader then rawHlen else 0

structure Delivers (readHeader : Bool) (r : RawRecord) (o : Result) : Prop where
  ret : o.ret = r.header.sec.toNat * 1000000000 + r.header.nsec.toNat
  header : o.header = some (if readHeader
    then .readHeader r.header.sec r.header.nsec r.header.len r.header.caplen
    else .caplen r.header.caplen)
  bytes : o.pointed buf (packetBytes readHeader r).length = packetBytes readHeader r

def Correct (h : Handle) (rs : List RawRecord) (readHeader : Bool) (call : Option Result) : Prop :=
  ∃ o, call = some o ∧ match firstPacket rs with
    | none => o.pbuffer = .null ∧ o.ret = 0 ∧
        Advanced h o.handle (rs.flatMap RawRecord.toBytes).length
    | some (d, r) => Delivers buf readHeader r o ∧ Advanced h o.handle (d + r.toBytes.length)

/-- No header of the records from `off` on, up to the first packet's, runs over the end. -/
def HeadersWhole (size : Nat) : Nat → List RawRecord → Prop
  | _, [] => True
  | off, r :: rs =>
    off % size + rawHlen ≤ size ∧ (r.isPadding → HeadersWhole size (off + r.toBytes.length) rs)

/-- `rawh` after the header at `off` was copied to it. -/
def copied (size off : Nat) (rawh : Nat → UInt8) : Nat → UInt8 :=
  (copyFromCircBuffer buf (off % size) size rawh rawHlen).1

/-- Skipping `n` headers, as they are copied to `rawh`, leads from `off` to `target`, where
the copy gives `hd`. -/
def Leads (size : Nat) : Nat → (Nat → UInt8) → Nat → Nat → RawHeader → Prop
  | 0, rawh, off, target, hd => off = target ∧ headerOf (copied buf size off rawh) = hd
  | n + 1, rawh, off, target, hd =>
    (headerOf (copied buf size off rawh)).sec = 0 ∧
      Leads size n (copied buf size off rawh)
        (off + rawHlen + (headerOf (copied buf size off rawh)).caplen.toNat) target hd

/-- There is a packet, its seconds are not zero, its bytes do not run over the end of the
buffer, and no header up to its own does, or the mixed copies lead to it none the less. -/
def Readable (h : Handle) (rs : List RawRecord) (readHeader : Bool) : Prop :=
  ∃ d r, firstPacket rs = some (d, r) ∧ r.header.sec ≠ 0 ∧
    (h.rdoff + d + packetStart readHeader) % h.bufSize + (packetBytes readHeader r).length ≤
      h.bufSize ∧
    (HeadersWhole h.bufSize h.rdoff rs ∨
      ∀ rawh, ∃ n < 4, Leads buf h.bufSize n rawh h.rdoff (h.rdoff + d) r.header)

theorem advanceRdoffTo_mod {h : Handle} {pos : Nat} (hmax : h.bufSize ≤ 2 ^ 63)
    (hr : h.rdoff < h.bufSize) :
    (hpcapAdvanceRdoffTo h (pos % h.bufSize)).rdoff = pos % h.bufSize :=
  advanceRdoffTo_rdoff hmax hr (Nat.mod_lt _ (Nat.zero_lt_of_lt hr))

section Loop

variable {buf} {h : Handle} {s s' : Loop}

/-- In front of a header, `s.acks` bytes behind where `h` reads. -/
structure Head (h : Handle) (s : Loop) : Prop where
  bufSize : s.handle.bufSize = h.bufSize
  avail : s.handle.avail = h.avail
  acks : s.handle.acks = h.acks
  rdoff : s.handle.rdoff = (h.rdoff + s.acks) % h.bufSize
  offs : s.offs = (h.rdoff + s.acks) % h.bufSize

/-- Behind the header of a packet that starts `d` bytes behind where `h` reads. -/
structure Arrived (h : Handle) (d : Nat) (s : Loop) : Prop where
  bufSize : s.handle.bufSize = h.bufSize
  handleAcks : s.handle.acks = h.acks
  rdoff : s.handle.rdoff = (h.rdoff + d) % h.bufSize
  headerBegin : s.headerBegin = (h.rdoff + d) % h.bufSize
  offs : s.offs = (h.rdoff + d + rawHlen) % h.bufSize
  acks : s.acks = d + rawHlen
  acks_lt : s.acks < 2 ^ 63
  hasPadding : s.hasPadding = false
  sec : (headerOf s.rawh).sec ≠ 0

theorem Head.init (hr : h.rdoff < h.bufSize) (stack : Nat → UInt8) :
    Head h ⟨h, h.rdoff, 0, stack, 0, false⟩ := by
  have hmod := (Nat.mod_eq_of_lt hr).symm
  exact ⟨rfl, rfl, rfl, hmod, hmod⟩

theorem Head.read (hh : Head h s) :
    (copyFromCircBuffer buf s.offs s.handle.bufSize s.rawh rawHlen).1 =
      copied buf h.bufSize (h.rdoff + s.acks) s.rawh := by
  rw [hh.offs, hh.bufSize, copied]

/-- A pass goes behind a padding, or to the packet. -/
theorem Head.pass_moves (hh : Head h s) (hsize : rawHlen ≤ h.bufSize) (hmax : h.bufSize ≤ 2 ^ 63)
    (hacks : s.acks + 2 ^ 17 ≤ 2 ^ 63) (hp : pass buf s = some s') :
    s'.rawh = copied buf h.bufSize (h.rdoff + s.acks) s.rawh ∧
      ((headerOf s'.rawh).sec = 0 ∧ s'.hasPadding = true ∧ Head h s' ∧
          s'.acks = s.acks + rawHlen + (headerOf s'.rawh).caplen.toNat ∨
        Arrived h s.acks s') := by
  have hraw : rawHlen = 12 := rfl
  have hlt : ∀ pos, pos % h.bufSize < h.bufSize := fun pos => Nat.mod_lt pos (by omega)
  have hoffs : (copyFromCircBuffer buf s.offs s.handle.bufSize s.rawh rawHlen).2 =
      (h.rdoff + s.acks + rawHlen) % h.bufSize := by
    rw [hh.offs, hh.bufSize, copyFromCircBuffer_offset _ _ (hlt _) hsize, Nat.mod_add_mod]
  simp only [pass, hoffs, hh.read] at hp
  obtain ⟨-, hp⟩ := Option.ite_none_left_eq_some.mp hp
  have hcaplen := (headerOf (copied buf h.bufSize (h.rdoff + s.acks) s.rawh)).caplen.toNat_lt
  have hlen : add64 s.acks rawHlen = s.acks + rawHlen := add64_small (by omega)
  rw [hlen] at hp
  split at hp
  · rename_i hsec
    have hskip := hlt (h.rdoff + s.acks + rawHlen)
    rw [hh.bufSize, add64_small (by omega), Nat.mod_add_mod, add64_small (by omega)] at hp
    cases hp
    have hpos : h.rdoff + (s.acks + rawHlen + (headerOf (copied buf h.bufSize
        (h.rdoff + s.acks) s.rawh)).caplen.toNat) = h.rdoff + s.acks + rawHlen + (headerOf
          (copied buf h.bufSize (h.rdoff + s.acks) s.rawh)).caplen.toNat := by omega
    refine ⟨rfl, .inl ⟨hsec.1, rfl, ⟨(advanceRdoffTo_bufSize _ _).trans hh.bufSize,
      (advanceRdoffTo_avail _ _).trans hh.avail, (advanceRdoffTo_acks _ _).trans hh.acks, ?_, ?_⟩,
      rfl⟩⟩
    · rw [← hh.bufSize, advanceRdoffTo_mod, hh.bufSize, hpos]
      · rw [hh.bufSize]
        exact hmax
      · rw [hh.rdoff, hh.bufSize]
        exact hlt _
    · rw [hpos]
  · rename_i hsec
    cases hp
    refine ⟨rfl, .inr ⟨hh.bufSize, hh.acks, hh.rdoff, hh.offs, rfl, rfl, ?_, rfl, ?_⟩⟩
    · change s.acks + rawHlen < 2 ^ 63
      omega
    · exact fun h₀ => hsec ⟨h₀, h₀⟩

/-- A pass that does not abort has found room for what it read the header of. -/
theorem Head.pass_fits (hh : Head h s) (havail : h.avail ≤ 2 ^ 63) (hle : h.acks ≤ h.avail)
    (hacks : s.acks + 2 ^ 17 ≤ 2 ^ 63) (hp : pass buf s = some s') :
    h.acks + (s.acks + rawHlen + (headerOf s'.rawh).caplen.toNat) ≤ h.avail := by
  have hraw : rawHlen = 12 := rfl
  have hlen : add64 s.acks rawHlen = s.acks + rawHlen := add64_small (by omega)
  have hsum : add64 h.acks (s.acks + rawHlen) = h.acks + (s.acks + rawHlen) := add64_small (by omega)
  simp only [pass, hh.acks, hh.avail, hlen, hsum] at hp
  obtain ⟨hroom, hp⟩ := Option.ite_none_left_eq_some.mp hp
  have hcaplen := (headerOf (copyFromCircBuffer buf s.offs s.handle.bufSize s.rawh
    rawHlen).1).caplen.toNat_lt
  rw [add64_small (by omega)] at hroom
  have hrawh : s'.rawh = (copyFromCircBuffer buf s.offs s.handle.bufSize s.rawh rawHlen).1 := by
    split at hp
    · cases hp
      rfl
    · cases hp
      rfl
  rw [hrawh]
  omega

/-- A padding is skipped by as many bytes in the file as in the buffer. -/
theorem Head.pass_fileOffset (hh : Head h s) (hsize : rawHlen ≤ h.bufSize)
    (hmax : h.bufSize ≤ 2 ^ 63) (hp : pass buf s = some s')
    (hshort : rawHlen + (headerOf s'.rawh).caplen.toNat < h.bufSize) :
    s'.handle.fileOffset % hpcapFilesize = (s.handle.fileOffset +
      if s'.hasPadding then rawHlen + (headerOf s'.rawh).caplen.toNat else 0) % hpcapFilesize := by
  have hr : s.handle.rdoff < s.handle.bufSize := by
    rw [hh.rdoff, hh.bufSize]
    exact Nat.mod_lt _ (by omega)
  have hoffs : s.offs = s.handle.rdoff := hh.offs.trans hh.rdoff.symm
  have hread := copyFromCircBuffer_offset buf s.rawh hr (hh.bufSize ▸ hsize)
  have hcaplen := (headerOf (copyFromCircBuffer buf s.handle.rdoff s.handle.bufSize s.rawh
    rawHlen).1).caplen.toNat_lt
  have hlt := Nat.mod_lt (s.handle.rdoff + rawHlen) (Nat.zero_lt_of_lt hr)
  simp only [pass, hoffs, hread] at hp
  obtain ⟨-, hp⟩ := Option.ite_none_left_eq_some.mp hp
  split at hp
  · cases hp
    dsimp only at hshort ⊢
    have hskip := add64_small (a := (s.handle.rdoff + rawHlen) % s.handle.bufSize)
      (b := (headerOf (copyFromCircBuffer buf s.handle.rdoff s.handle.bufSize s.rawh
        rawHlen).1).caplen.toNat) (by rw [hh.bufSize] at *; omega)
    have hgo := advanceRdoffTo_ahead (hh.bufSize.trans_le hmax) hr (hshort.trans_eq hh.bufSize.symm)
    rw [if_pos rfl, hskip, Nat.mod_add_mod, Nat.add_assoc, hgo]
    exact (Nat.mod_mod _ _).trans (add64_mod_filesize _ _)
  · cases hp
    rfl

variable (buf) in
theorem Head.pass_some (hh : Head h s) (havail : h.avail < 2 ^ 64)
    (hfit : h.acks + (s.acks + rawHlen + (headerOf (copied buf h.bufSize
      (h.rdoff + s.acks) s.rawh)).caplen.toNat) ≤ h.avail) : ∃ s', pass buf s = some s' := by
  have hacks : add64 s.acks rawHlen = s.acks + rawHlen := add64_small (by omega)
  have hsum : add64 h.acks (s.acks + rawHlen) = h.acks + (s.acks + rawHlen) := add64_small (by omega)
  simp only [pass, hh.read, hh.acks, hh.avail, hacks, hsum]
  rw [add64_small (by omega), if_neg (by omega)]
  split
  · exact ⟨_, rfl⟩
  · exact ⟨_, rfl⟩

theorem Leads.le {size k off target : Nat} {rawh : Nat → UInt8} {hd : RawHeader}
    (hl : Leads buf size k rawh off target hd) : off ≤ target := by
  induction k generalizing off rawh with
  | zero => exact Nat.le_of_eq hl.1
  | succ k ih =>
    have hrest := ih hl.2
    omega

/-- The loop ends where it reads no more headers, or behind the header of a packet. -/
theorem Head.paddingLoop_ends {n : Nat} (hh : Head h s) (hsize : rawHlen ≤ h.bufSize)
    (hmax : h.bufSize ≤ 2 ^ 63) (hacks : s.acks + n * 2 ^ 17 ≤ 2 ^ 19)
    (hp : paddingLoop buf n s = some s') :
    s'.hasPadding = true ∧ ¬ HasNext s' ∨
      ∃ k < n, ∃ d, Leads buf h.bufSize k s.rawh (h.rdoff + s.acks) (h.rdoff + d)
        (headerOf s'.rawh) ∧ Arrived h d s' := by
  induction n generalizing s with
  | zero => cases hp
  | succ n ih =>
    obtain ⟨t, ht, hp⟩ := Option.bind_eq_some_iff.mp hp
    obtain ⟨hrawh, ⟨hsec, hpad, hhead, hacks'⟩ | harrived⟩ := hh.pass_moves hsize hmax (by omega) ht
    · split at hp
      · have hcaplen := (headerOf t.rawh).caplen.toNat_lt
        have hraw : rawHlen = 12 := rfl
        obtain hend | ⟨k, hk, d, hl, hd⟩ := ih hhead (by omega) hp
        · exact .inl hend
        · refine .inr ⟨k + 1, Nat.succ_lt_succ hk, d, ⟨?_, ?_⟩, hd⟩
          · rw [← hrawh]
            exact hsec
          · rw [hacks', ← Nat.add_assoc, ← Nat.add_assoc] at hl
            rw [← hrawh]
            exact hl
      · rename_i hno
        cases hp
        exact .inl ⟨hpad, fun hnext => hno ⟨hpad, hnext⟩⟩
    · rw [if_neg (by simp [harrived.hasPadding])] at hp
      cases hp
      refine .inr ⟨0, Nat.succ_pos n, s.acks, ⟨rfl, ?_⟩, harrived⟩
      rw [hrawh]

/-- Where the headers lead to a packet, the loop gets there. -/
theorem Head.paddingLoop_arrives {n k d : Nat} {hd : RawHeader} (hh : Head h s) (hk : k < n)
    (hsize : rawHlen ≤ h.bufSize) (hmax : h.bufSize ≤ 2 ^ 63)
    (hacks : s.acks + n * 2 ^ 17 ≤ 2 ^ 19) (havail : h.avail < 2 ^ 64)
    (hl : Leads buf h.bufSize k s.rawh (h.rdoff + s.acks) (h.rdoff + d) hd) (hsec : hd.sec ≠ 0)
    (hfit : h.acks + (d + rawHlen + hd.caplen.toNat) ≤ h.avail) :
    ∃ s', paddingLoop buf n s = some s' ∧ Arrived h d s' ∧ headerOf s'.rawh = hd := by
  induction n generalizing s k with
  | zero => exact absurd hk (Nat.not_lt_zero k)
  | succ n ih =>
    cases k with
    | zero =>
      obtain ⟨htarget, hhd⟩ := hl
      have hd' : s.acks = d := Nat.add_left_cancel htarget
      obtain ⟨t, ht⟩ := hh.pass_some buf havail (by rw [hhd, hd']; exact hfit)
      obtain ⟨hrawh, ⟨hpadding, -⟩ | harrived⟩ := hh.pass_moves hsize hmax (by omega) ht
      · rw [hrawh, hhd] at hpadding
        exact absurd hpadding hsec
      · refine ⟨t, ?_, hd' ▸ harrived, by rw [hrawh, hhd]⟩
        rw [paddingLoop, ht, Option.bind_some, if_neg (by simp [harrived.hasPadding])]
    | succ k =>
      obtain ⟨hpadding, hrest⟩ := hl
      have hle := hrest.le
      obtain ⟨t, ht⟩ := hh.pass_some buf havail (by omega)
      obtain ⟨hrawh, ⟨-, hpad, hhead, hacks'⟩ | harrived⟩ := hh.pass_moves hsize hmax (by omega) ht
      · have hcaplen := (headerOf t.rawh).caplen.toNat_lt
        have hraw : rawHlen = 12 := rfl
        rw [← hrawh] at hrest hle
        have hnext : HasNext t := by
          change add64 (add64 t.handle.acks t.acks) rawHlen ≤ t.handle.avail
          have hsum : add64 h.acks t.acks = h.acks + t.acks := add64_small (by omega)
          rw [hhead.acks, hhead.avail, hsum, add64_small (by omega)]
          omega
        rw [paddingLoop, ht, Option.bind_some, if_pos ⟨hpad, hnext⟩]
        refine ih hhead (Nat.lt_of_succ_lt_succ hk) (by omega) ?_
        rw [hacks', ← Nat.add_assoc, ← Nat.add_assoc]
        exact hrest
      · have hsec' := harrived.sec
        rw [hrawh] at hsec'
        exact absurd hpadding hsec'

/-- What skipping a padding keeps holds when the last header is read. -/
theorem Head.paddingLoop_last {n : Nat} (hh : Head h s) (inv : Loop → Prop)
    (hsize : rawHlen ≤ h.bufSize) (hmax : h.bufSize ≤ 2 ^ 63)
    (hacks : s.acks + n * 2 ^ 17 ≤ 2 ^ 19) (hinv : inv s)
    (hstep : ∀ t t', Head h t → t.acks + 2 ^ 17 ≤ 2 ^ 19 → inv t → pass buf t = some t' →
      t'.hasPadding = true → inv t')
    (hp : paddingLoop buf n s = some s') :
    ∃ t, Head h t ∧ t.acks + 2 ^ 17 ≤ 2 ^ 19 ∧ inv t ∧ pass buf t = some s' := by
  induction n generalizing s with
  | zero => cases hp
  | succ n ih =>
    obtain ⟨t, ht, hp⟩ := Option.bind_eq_some_iff.mp hp
    split at hp
    · rename_i hgo
      obtain ⟨-, ⟨-, -, hhead, hacks'⟩ | harrived⟩ := hh.pass_moves hsize hmax (by omega) ht
      · have hcaplen := (headerOf t.rawh).caplen.toNat_lt
        have hraw : rawHlen = 12 := rfl
        exact ih hhead (by omega) (hstep s t hh (by omega) hinv ht hgo.1) hp
      · rw [harrived.hasPadding] at hgo
        exact absurd hgo.1 Bool.false_ne_true
    · cases hp
      exact ⟨s, hh, by omega, hinv, ht⟩

theorem pass_avail (hp : pass buf s = some s') : s'.handle.avail = s.handle.avail := by
  obtain ⟨-, hp⟩ := Option.ite_none_left_eq_some.mp hp
  split at hp
  · cases hp
    rfl
  · cases hp
    rfl

/-- Where a pass comes to a packet it has read the packet's header. -/
theorem Head.acks_eq {d : Nat} (hh : Head h s) (hsize : rawHlen ≤ h.bufSize)
    (hmax : h.bufSize ≤ 2 ^ 63) (hacks : s.acks + 2 ^ 17 ≤ 2 ^ 63) (ha : Arrived h d s')
    (hp : pass buf s = some s') : s.acks = d := by
  obtain ⟨-, ⟨-, hpad, -⟩ | harrived⟩ := hh.pass_moves hsize hmax hacks hp
  · rw [ha.hasPadding] at hpad
    cases hpad
  · exact Nat.add_right_cancel (harrived.acks.symm.trans ha.acks)

/-- The loop stops behind a header whose packet is in the window. -/
theorem Head.paddingLoop_fits {n d : Nat} (hh : Head h s) (hsize : rawHlen ≤ h.bufSize)
    (hmax : h.bufSize ≤ 2 ^ 63) (havail : h.avail ≤ 2 ^ 63) (hle : h.acks ≤ h.avail)
    (hacks : s.acks + n * 2 ^ 17 ≤ 2 ^ 19) (ha : Arrived h d s')
    (hp : paddingLoop buf n s = some s') :
    h.acks + (d + rawHlen + (headerOf s'.rawh).caplen.toNat) ≤ h.avail ∧
      s'.handle.avail = h.avail := by
  obtain ⟨t, ht, htacks, -, htp⟩ := hh.paddingLoop_last (fun _ => True) hsize hmax hacks trivial
    (fun _ _ _ _ _ _ _ => trivial) hp
  have hfits := ht.pass_fits havail hle (by omega) htp
  rw [ht.acks_eq hsize hmax (by omega) ha htp] at hfits
  exact ⟨hfits, (pass_avail htp).trans ht.avail⟩

/-- How many bytes there are to be at `*pbuffer`. -/
def packetLen (readHeader : Bool) (hd : RawHeader) : Nat :=
  if readHeader then hd.caplen.toNat else rawHlen + hd.caplen.toNat

theorem packetData_handle (readHeader : Bool) (auxbuf : Nat → UInt8) (s : Loop) :
    (packetData buf readHeader auxbuf s).handle =
      { hpcapAdvanceRdoffTo s.handle
          (add64 s.offs (headerOf s.rawh).caplen.toNat % s.handle.bufSize) with
        acks := add64 s.handle.acks (add64 s.acks (headerOf s.rawh).caplen.toNat) } := by
  simp only [packetData]
  split <;> split <;> rfl

theorem packetData_ret (readHeader : Bool) (auxbuf : Nat → UInt8) (s : Loop) :
    (packetData buf readHeader auxbuf s).ret =
      (headerOf s.rawh).sec.toNat * 1000000000 + (headerOf s.rawh).nsec.toNat := by
  simp only [packetData]
  split <;> split <;> rfl

theorem packetData_header (readHeader : Bool) (auxbuf : Nat → UInt8) (s : Loop) :
    (packetData buf readHeader auxbuf s).header = some (if readHeader
      then .readHeader (headerOf s.rawh).sec (headerOf s.rawh).nsec (headerOf s.rawh).len
        (headerOf s.rawh).caplen
      else .caplen (headerOf s.rawh).caplen) := by
  simp only [packetData]
  split <;> split <;> rfl

theorem packetData_pbuffer (readHeader : Bool) (auxbuf : Nat → UInt8) (s : Loop) :
    (packetData buf readHeader auxbuf s).pbuffer ≠ .null := by
  simp only [packetData]
  split <;> split <;> exact fun h => nomatch h

variable (buf) in
theorem Arrived.advanced {d : Nat} (ha : Arrived h d s) (hmax : h.bufSize ≤ 2 ^ 63)
    (hpos : 0 < h.bufSize) (readHeader : Bool) (auxbuf : Nat → UInt8) :
    (packetData buf readHeader auxbuf s).handle.acks =
        add64 h.acks (d + rawHlen + (headerOf s.rawh).caplen.toNat) ∧
      (packetData buf readHeader auxbuf s).handle.rdoff =
        (h.rdoff + d + rawHlen + (headerOf s.rawh).caplen.toNat) % h.bufSize := by
  have hcaplen := (headerOf s.rawh).caplen.toNat_lt
  have hoffs := Nat.mod_lt (h.rdoff + d + rawHlen) hpos
  have hacks : add64 s.acks (headerOf s.rawh).caplen.toNat =
      d + rawHlen + (headerOf s.rawh).caplen.toNat := by
    have hlt := ha.acks_lt
    rw [add64_small (by omega), ha.acks]
  have hmove : (hpcapAdvanceRdoffTo s.handle (add64 s.offs (headerOf s.rawh).caplen.toNat %
      s.handle.bufSize)).rdoff =
        (h.rdoff + d + rawHlen + (headerOf s.rawh).caplen.toNat) % h.bufSize := by
    rw [ha.offs, add64_small (by omega), ha.bufSize, Nat.mod_add_mod, ← ha.bufSize,
      advanceRdoffTo_mod]
    · rw [ha.bufSize]
      exact hmax
    · rw [ha.rdoff, ha.bufSize]
      exact Nat.mod_lt _ hpos
  rw [packetData_handle]
  refine ⟨?_, hmove⟩
  change add64 s.handle.acks _ = _
  rw [ha.handleAcks, hacks]

variable (buf) in
/-- The packet's bytes are in the buffer, or copied where they run over its end. -/
theorem Arrived.pointed {d : Nat} (ha : Arrived h d s) (hmax : h.bufSize ≤ 2 ^ 63)
    (hpos : 0 < h.bufSize) (readHeader : Bool) (auxbuf : Nat → UInt8) :
    (packetData buf readHeader auxbuf s).pointed buf (packetLen readHeader (headerOf s.rawh)) =
      let start := (h.rdoff + d + packetStart readHeader) % h.bufSize
      let n := packetLen readHeader (headerOf s.rawh)
      if start + n > h.bufSize then
        slice (copyFromCircBuffer buf start h.bufSize auxbuf n).1 0 n
      else slice buf start n := by
  have hcaplen := (headerOf s.rawh).caplen.toNat_lt
  have hoffs := Nat.mod_lt (h.rdoff + d + rawHlen) hpos
  have hbegin := Nat.mod_lt (h.rdoff + d) hpos
  have hraw : rawHlen = 12 := rfl
  cases readHeader with
  | true =>
    simp only [packetData, packetLen, packetStart, if_true, ha.offs, ha.bufSize]
    rw [add64_small (by omega)]
    split <;> rfl
  | false =>
    have hsum : add64 ((h.rdoff + d) % h.bufSize) rawHlen = (h.rdoff + d) % h.bufSize + rawHlen :=
      add64_small (by omega)
    simp only [packetData, packetLen, packetStart, Bool.false_eq_true, if_false, ha.rdoff,
      ha.headerBegin, ha.bufSize, hsum, Nat.add_zero]
    rw [add64_small (by omega), Nat.add_assoc]
    split <;> rfl

variable (buf) in
/-- Bytes that run over the end come out with the last one of `auxbuf`. -/
theorem Arrived.fits {d : Nat} (ha : Arrived h d s) (hmax : h.bufSize ≤ 2 ^ 63)
    (hpos : 0 < h.bufSize) {readHeader : Bool} {bytes : List UInt8}
    (hlen : bytes.length = packetLen readHeader (headerOf s.rawh))
    (hp : ∀ auxbuf, (packetData buf readHeader auxbuf s).pointed buf bytes.length = bytes) :
    (h.rdoff + d + packetStart readHeader) % h.bufSize + bytes.length ≤ h.bufSize := by
  by_contra hover
  have hstart := Nat.mod_lt (h.rdoff + d + packetStart readHeader) hpos
  have hlast : bytes.length - 1 < bytes.length := by omega
  have hread : ∀ b : UInt8, b = bytes[bytes.length - 1] := by
    intro b
    have hpointed := ha.pointed buf hmax hpos readHeader fun _ => b
    rw [← hlen, hp] at hpointed
    dsimp only at hpointed
    rw [if_pos (Nat.not_le.mp hover)] at hpointed
    have hbyte := List.getElem_of_eq hpointed hlast
    rw [slice_getElem, Nat.zero_add, copyFromCircBuffer_last _ _ hstart (Nat.not_le.mp hover)]
      at hbyte
    exact hbyte.symm
  exact absurd ((hread 0).trans (hread 1).symm) (by decide)

end Loop

/-- What the header at `off` reads as, where it does not run over the end. -/
theorem headerOf_copied {size off : Nat} (hfit : off % size + rawHlen ≤ size) (rawh : Nat → UInt8) :
    headerOf (copied buf size off rawh) = .ofBytes (ring buf size off rawHlen) := by
  rw [headerOf, copied, copyFromCircBuffer_fits _ _ hfit, ring_mod]

section Records

variable {buf} {size off n d : Nat} {rs ps qs : List RawRecord} {r : RawRecord}

theorem firstPacket_split (h : firstPacket rs = some (d, r)) :
    ∃ ps qs, rs = ps ++ r :: qs ∧ d = (ps.flatMap RawRecord.toBytes).length ∧
      ∀ p ∈ ps, p.isPadding = true := by
  induction rs generalizing d with
  | nil => cases h
  | cons p rs ih =>
    rw [firstPacket] at h
    split at h
    · rename_i hp
      obtain ⟨⟨d', r'⟩, h', heq⟩ := Option.map_eq_some_iff.mp h
      obtain ⟨rfl, rfl⟩ := Prod.mk.inj heq
      obtain ⟨ps, qs, rfl, rfl, hps⟩ := ih h'
      refine ⟨p :: ps, qs, rfl, ?_, ?_⟩
      · rw [List.flatMap_cons, List.length_append]
      · intro q hq
        obtain rfl | hq := List.mem_cons.mp hq
        · exact hp
        · exact hps q hq
    · obtain ⟨rfl, rfl⟩ := Prod.mk.inj (Option.some.inj h)
      exact ⟨[], rs, rfl, rfl, fun _ hq => nomatch hq⟩

theorem ring_record (h : ring buf size off n = (ps ++ r :: qs).flatMap RawRecord.toBytes) :
    ring buf size (off + (ps.flatMap RawRecord.toBytes).length) r.toBytes.length = r.toBytes := by
  rw [List.flatMap_append, List.flatMap_cons] at h
  exact (ring_split (ring_split h).2).1

theorem ring_header (h : ring buf size off r.toBytes.length = r.toBytes) :
    ring buf size off rawHlen = r.header.toBytes := by
  have hs := (ring_split h).1
  rwa [RawHeader.toBytes_length] at hs

theorem ring_body (h : ring buf size off r.toBytes.length = r.toBytes) :
    ring buf size (off + rawHlen) r.body.length = r.body := by
  have hs := (ring_split h).2
  rwa [RawHeader.toBytes_length] at hs

theorem headerOf_first (hw : off % size + rawHlen ≤ size)
    (h : ring buf size off n = (r :: qs).flatMap RawRecord.toBytes) (rawh : Nat → UInt8) :
    headerOf (copied buf size off rawh) = r.header := by
  rw [headerOf_copied buf hw, ring_header (ring_split h).1, RawHeader.ofBytes_toBytes]

/-- Headers that do not run over the end lead to the first packet. -/
theorem HeadersWhole.leads (hw : HeadersWhole size off (ps ++ r :: qs))
    (h : ring buf size off n = (ps ++ r :: qs).flatMap RawRecord.toBytes)
    (hps : ∀ p ∈ ps, p.isPadding = true) (rawh : Nat → UInt8) :
    Leads buf size ps.length rawh off (off + (ps.flatMap RawRecord.toBytes).length) r.header := by
  induction ps generalizing off n rawh with
  | nil => exact ⟨rfl, headerOf_first hw.1 h rawh⟩
  | cons p ps ih =>
    have hp := hps p List.mem_cons_self
    have hhd := headerOf_first hw.1 h rawh
    have hrest := ih (hw.2 hp) (ring_split h).2 (fun q hq => hps q (List.mem_cons_of_mem _ hq))
      (copied buf size off rawh)
    have hnext : off + rawHlen + p.header.caplen.toNat = off + p.toBytes.length := by
      rw [RawRecord.toBytes_length, Nat.add_assoc]
    refine ⟨?_, ?_⟩
    · rw [hhd]
      exact ((RawHeader.hpcapIsHeaderPadding_iff _).mp hp).2
    · rw [hhd, hnext, List.flatMap_cons, List.length_append, ← Nat.add_assoc]
      exact hrest

end Records

section Call

variable {buf} {h : Handle} {rs : List RawRecord}

/-- A window, whatever its paddings are. -/
structure Complete (buf : Nat → UInt8) (h : Handle) (rs : List RawRecord) : Prop where
  acks_lt : h.acks < h.avail
  avail_lt : h.avail < 2 ^ 64
  size_le : h.bufSize ≤ 2 ^ 63
  rdoff_lt : h.rdoff < h.bufSize
  shorter : h.avail - h.acks < h.bufSize
  bytes : ring buf h.bufSize h.rdoff (h.avail - h.acks) = rs.flatMap RawRecord.toBytes

theorem Window.complete (w : Window buf h rs) : Complete buf h rs :=
  ⟨w.acks_lt, w.avail_lt, w.size_le, w.rdoff_lt, w.shorter, w.bytes⟩

theorem Complete.length (w : Complete buf h rs) :
    h.avail - h.acks = (rs.flatMap RawRecord.toBytes).length := by
  rw [← w.bytes, ring_length]

theorem Complete.header_le (w : Complete buf h rs) : rawHlen ≤ h.avail - h.acks := by
  have hlt := w.acks_lt
  have hlen := w.length
  cases rs with
  | nil =>
    rw [List.flatMap_nil, List.length_nil] at hlen
    omega
  | cons r rs =>
    rw [List.flatMap_cons, List.length_append, RawRecord.toBytes_length] at hlen
    omega

theorem Complete.size_ge (w : Complete buf h rs) : rawHlen ≤ h.bufSize :=
  w.header_le.trans w.shorter.le

theorem Complete.call (w : Complete buf h rs) (auxbuf : Nat → UInt8) (readHeader : Bool)
    (stack : Nat → UInt8) : hpcapReadPacket buf h auxbuf readHeader stack =
      (paddingLoop buf 4 ⟨h, h.rdoff, 0, stack, 0, false⟩).bind fun s =>
        if s.hasPadding ∧ ¬ HasNext s then none
        else some (packetData buf readHeader auxbuf s) := by
  have hlt := w.acks_lt
  have hle := w.header_le
  rw [hpcapReadPacket, if_neg (by omega), if_neg (by omega)]

/-- A call that has something to read and does not abort comes to a packet. -/
theorem hpcapReadPacket_some {auxbuf stack : Nat → UInt8} {readHeader : Bool} {o : Result}
    (hlt : h.acks < h.avail) (hle : rawHlen ≤ h.avail) (hsize : rawHlen ≤ h.bufSize)
    (hmax : h.bufSize ≤ 2 ^ 63) (hr : h.rdoff < h.bufSize)
    (hc : hpcapReadPacket buf h auxbuf readHeader stack = some o) :
    ∃ s d, paddingLoop buf 4 ⟨h, h.rdoff, 0, stack, 0, false⟩ = some s ∧ Arrived h d s ∧
      (∃ k < 4, Leads buf h.bufSize k stack h.rdoff (h.rdoff + d) (headerOf s.rawh)) ∧
      o = packetData buf readHeader auxbuf s := by
  rw [hpcapReadPacket, if_neg (by omega), if_neg (by omega)] at hc
  obtain ⟨s, hs, ho⟩ := Option.bind_eq_some_iff.mp hc
  obtain ⟨hgo, ho⟩ := Option.ite_none_left_eq_some.mp ho
  obtain hend | ⟨k, hk, d, hl, ha⟩ := (Head.init hr stack).paddingLoop_ends hsize hmax
    (by norm_num) hs
  · exact absurd hend hgo
  · exact ⟨s, d, hs, ha, ⟨k, hk, hl⟩, (Option.some.inj ho).symm⟩

theorem Complete.call_some (w : Complete buf h rs) {auxbuf stack : Nat → UInt8} {readHeader : Bool}
    {o : Result} (hc : hpcapReadPacket buf h auxbuf readHeader stack = some o) :
    ∃ s d, paddingLoop buf 4 ⟨h, h.rdoff, 0, stack, 0, false⟩ = some s ∧ Arrived h d s ∧
      (∃ k < 4, Leads buf h.bufSize k stack h.rdoff (h.rdoff + d) (headerOf s.rawh)) ∧
      o = packetData buf readHeader auxbuf s :=
  hpcapReadPacket_some w.acks_lt (w.header_le.trans (Nat.sub_le _ _)) w.size_ge w.size_le w.rdoff_lt hc

/-- Where the headers lead to a packet of the window, the call comes to it. -/
theorem Complete.call_arrives (w : Complete buf h rs) {d k : Nat} {hd : RawHeader} (hk : k < 4)
    {stack : Nat → UInt8} (hl : Leads buf h.bufSize k stack h.rdoff (h.rdoff + d) hd)
    (hsec : hd.sec ≠ 0)
    (hfit : d + rawHlen + hd.caplen.toNat ≤ h.avail - h.acks) (auxbuf : Nat → UInt8)
    (readHeader : Bool) : ∃ s, paddingLoop buf 4 ⟨h, h.rdoff, 0, stack, 0, false⟩ = some s ∧
      hpcapReadPacket buf h auxbuf readHeader stack = some (packetData buf readHeader auxbuf s) ∧
      Arrived h d s ∧ headerOf s.rawh = hd := by
  have hlt := w.acks_lt
  obtain ⟨s, hs, ha, hhd⟩ := (Head.init w.rdoff_lt stack).paddingLoop_arrives hk w.size_ge
    w.size_le (by norm_num) w.avail_lt hl hsec (by omega)
  refine ⟨s, hs, ?_, ha, hhd⟩
  rw [w.call, hs, Option.bind_some, if_neg (by simp [ha.hasPadding])]

/-- The first packet of a window. -/
structure First (buf : Nat → UInt8) (h : Handle) (d : Nat) (r : RawRecord) : Prop where
  fits : d + rawHlen + r.header.caplen.toNat ≤ h.avail - h.acks
  bytes : ring buf h.bufSize (h.rdoff + d) r.toBytes.length = r.toBytes

theorem Complete.first (w : Complete buf h rs) {d : Nat} {r : RawRecord}
    (hf : firstPacket rs = some (d, r)) : First buf h d r := by
  obtain ⟨ps, qs, rfl, rfl, hps⟩ := firstPacket_split hf
  refine ⟨?_, ring_record w.bytes⟩
  rw [w.length, List.flatMap_append, List.flatMap_cons, List.length_append, List.length_append,
    RawRecord.toBytes_length]
  omega

theorem packetBytes_length (readHeader : Bool) (r : RawRecord) :
    (packetBytes readHeader r).length = packetLen readHeader r.header := by
  cases readHeader with
  | true => exact r.body_length
  | false => exact r.toBytes_length

theorem First.packet {d : Nat} {r : RawRecord} (hf : First buf h d r) (readHeader : Bool) :
    ring buf h.bufSize (h.rdoff + d + packetStart readHeader) (packetBytes readHeader r).length =
      packetBytes readHeader r := by
  cases readHeader with
  | true => exact ring_body hf.bytes
  | false => exact hf.bytes

/-- At most two paddings precede the first packet. -/
theorem Window.paddings_lt (w : Window buf h rs) {ps qs : List RawRecord} {r : RawRecord}
    (hrs : rs = ps ++ r :: qs) (hps : ∀ p ∈ ps, p.isPadding = true) : ps.length < 4 := by
  match ps with
  | [] | [_] | [_, _] => simp
  | a :: b :: c :: ps =>
    have hthree : [a, b, c] <:+: rs := ⟨[], ps ++ r :: qs, by simp [hrs]⟩
    exact absurd ⟨hps a (by simp), hps b (by simp), hps c (by simp)⟩ (w.paddings a b c hthree)

theorem Readable.correct (w : Window buf h rs) {readHeader : Bool}
    (hr : Readable buf h rs readHeader) (auxbuf stack : Nat → UInt8) :
    Correct buf h rs readHeader (hpcapReadPacket buf h auxbuf readHeader stack) := by
  obtain ⟨d, r, hf, hsec, hfit, hheaders⟩ := hr
  have hl : ∃ k < 4, Leads buf h.bufSize k stack h.rdoff (h.rdoff + d) r.header := by
    obtain hw | hl := hheaders
    · obtain ⟨ps, qs, rfl, rfl, hps⟩ := firstPacket_split hf
      exact ⟨ps.length, w.paddings_lt rfl hps, hw.leads w.bytes hps stack⟩
    · exact hl stack
  obtain ⟨k, hk, hl⟩ := hl
  have hfirst := w.complete.first hf
  obtain ⟨s, -, hs, ha, hhd⟩ := w.complete.call_arrives hk hl hsec hfirst.fits auxbuf readHeader
  have hpos : 0 < h.bufSize := Nat.zero_lt_of_lt w.rdoff_lt
  obtain ⟨hacks, hrdoff⟩ := ha.advanced buf w.size_le hpos readHeader auxbuf
  refine ⟨_, hs, ?_⟩
  rw [hf]
  refine ⟨⟨?_, ?_, ?_⟩, ?_, ?_⟩
  · rw [packetData_ret, hhd]
  · rw [packetData_header, hhd]
  · have hpointed := ha.pointed buf w.size_le hpos readHeader auxbuf
    rw [hhd, ← packetBytes_length] at hpointed
    rw [hpointed]
    dsimp only
    rw [if_neg (Nat.not_lt.mpr hfit), ← ring_eq_slice buf hfit, ring_mod]
    exact hfirst.packet readHeader
  · have havail := w.avail_lt
    have hlt := w.acks_lt
    have hend := hfirst.fits
    rw [hacks, hhd, RawRecord.toBytes_length, ← Nat.add_assoc d]
    apply add64_small
    omega
  · rw [hrdoff, hhd, RawRecord.toBytes_length]
    congr 1
    omega

theorem Leads.whole {size k off target : Nat} {rawh : Nat → UInt8} {hd : RawHeader}
    (hl : Leads buf size k rawh off target hd) (hw : target % size + rawHlen ≤ size) :
    hd = .ofBytes (ring buf size target rawHlen) := by
  induction k generalizing off rawh with
  | zero =>
    obtain ⟨rfl, rfl⟩ := hl
    exact headerOf_copied buf hw rawh
  | succ k ih => exact ih hl.2

/-- What a call that delivers `r` has read for a header. -/
theorem Delivers.caplen {readHeader : Bool} {r : RawRecord} {auxbuf : Nat → UInt8} {s : Loop}
    (hd : Delivers buf readHeader r (packetData buf readHeader auxbuf s)) :
    (headerOf s.rawh).caplen = r.header.caplen := by
  have hheader := hd.header
  rw [packetData_header] at hheader
  cases readHeader with
  | true =>
    simp only [if_true, Option.some.injEq, HeaderOut.readHeader.injEq] at hheader
    exact hheader.2.2.2
  | false => simpa using hheader

/-- The call comes to the first packet, if it is to deliver it. -/
theorem Correct.arrives (w : Window buf h rs) {readHeader : Bool} {auxbuf stack : Nat → UInt8}
    {d : Nat} {r : RawRecord} (hf : firstPacket rs = some (d, r))
    (hc : Correct buf h rs readHeader (hpcapReadPacket buf h auxbuf readHeader stack)) :
    ∃ s, paddingLoop buf 4 ⟨h, h.rdoff, 0, stack, 0, false⟩ = some s ∧ Arrived h d s ∧
      (∃ k < 4, Leads buf h.bufSize k stack h.rdoff (h.rdoff + d) (headerOf s.rawh)) ∧
      Delivers buf readHeader r (packetData buf readHeader auxbuf s) := by
  obtain ⟨o, ho, hgood⟩ := hc
  rw [hf] at hgood
  obtain ⟨hdel, hadv⟩ := hgood
  obtain ⟨s, d', hs, ha, hl, rfl⟩ := w.complete.call_some ho
  have hd : d' = d := by
    have hacks := (ha.advanced buf w.size_le (Nat.zero_lt_of_lt w.rdoff_lt) readHeader
      auxbuf).1
    have hcaplen := r.header.caplen.toNat_lt
    have hsmall := ha.acks_lt
    have hend := (w.complete.first hf).fits
    have havail := w.avail_lt
    have hlt := w.acks_lt
    rw [hadv.acks, hdel.caplen, RawRecord.toBytes_length, add64] at hacks
    have hd' := ha.acks
    omega
  subst hd
  exact ⟨s, hs, ha, hl, hdel⟩

theorem Delivers.length {readHeader : Bool} {r : RawRecord} {auxbuf : Nat → UInt8} {s : Loop}
    (hd : Delivers buf readHeader r (packetData buf readHeader auxbuf s)) :
    (packetBytes readHeader r).length = packetLen readHeader (headerOf s.rawh) := by
  rw [packetBytes_length, packetLen, packetLen, hd.caplen]

theorem Correct.fits (w : Window buf h rs) {readHeader : Bool} {stack : Nat → UInt8} {d : Nat}
    {r : RawRecord} (hf : firstPacket rs = some (d, r))
    (hc : ∀ auxbuf, Correct buf h rs readHeader (hpcapReadPacket buf h auxbuf readHeader stack)) :
    (h.rdoff + d + packetStart readHeader) % h.bufSize + (packetBytes readHeader r).length ≤
      h.bufSize := by
  obtain ⟨s, hs, ha, -, hdel⟩ := Correct.arrives w hf (hc fun _ => 0)
  refine ha.fits buf w.size_le (Nat.zero_lt_of_lt w.rdoff_lt) hdel.length fun auxbuf => ?_
  obtain ⟨s', hs', -, -, hdel'⟩ := Correct.arrives w hf (hc auxbuf)
  obtain rfl := Option.some.inj (hs.symm.trans hs')
  exact hdel'.bytes

/-- What is delivered without a copy has the header that was read. -/
theorem Delivers.read {readHeader : Bool} {auxbuf rawh : Nat → UInt8} {s : Loop} {d k off : Nat}
    {r : RawRecord} (hdel : Delivers buf readHeader r (packetData buf readHeader auxbuf s))
    (ha : Arrived h d s) (hmax : h.bufSize ≤ 2 ^ 63) (hpos : 0 < h.bufSize)
    (hl : Leads buf h.bufSize k rawh off (h.rdoff + d) (headerOf s.rawh))
    (hfit : (h.rdoff + d + packetStart readHeader) % h.bufSize +
      (packetBytes readHeader r).length ≤ h.bufSize) : headerOf s.rawh = r.header := by
  cases readHeader with
  | true =>
    have hheader := hdel.header
    rw [packetData_header] at hheader
    simp only [if_true, Option.some.injEq, HeaderOut.readHeader.injEq] at hheader
    obtain ⟨hsec, hnsec, hlen, hcaplen⟩ := hheader
    exact RawHeader.ext hsec hnsec hcaplen hlen
  | false =>
    have hbytes := hdel.bytes
    have hpointed := ha.pointed buf hmax hpos false auxbuf
    rw [← hdel.length, hbytes] at hpointed
    dsimp only at hpointed
    rw [if_neg (Nat.not_lt.mpr hfit), hdel.length] at hpointed
    rw [hdel.length] at hfit
    simp only [packetStart, packetLen, Bool.false_eq_true, if_false, Nat.add_zero] at hfit hpointed
    rw [slice_add] at hpointed
    have hfirst := (List.append_inj hpointed (by simp)).1
    rw [hl.whole (by omega), ← ring_mod, ring_eq_slice buf (by omega), ← hfirst,
      RawHeader.ofBytes_toBytes]

/-- Whatever `rawh` and `auxbuf` hold, the call does what is said of it just if the window is
readable. -/
theorem read_packet_iff (h : Handle) (rs : List RawRecord) (readHeader : Bool)
    (w : Window buf h rs) :
    (∀ auxbuf stack, Correct buf h rs readHeader (hpcapReadPacket buf h auxbuf readHeader stack)) ↔
      Readable buf h rs readHeader := by
  constructor
  · intro hc
    cases hf : firstPacket rs with
    | none =>
      obtain ⟨o, ho, hgood⟩ := hc (fun _ => 0) (fun _ => 0)
      rw [hf] at hgood
      obtain ⟨s, d, -, -, -, rfl⟩ := w.complete.call_some ho
      exact absurd hgood.1 (packetData_pbuffer readHeader _ s)
    | some first =>
      obtain ⟨d, r⟩ := first
      have hfit := Correct.fits w hf fun auxbuf => hc auxbuf fun _ => 0
      have hread : ∀ stack, ∃ k < 4, Leads buf h.bufSize k stack h.rdoff (h.rdoff + d) r.header ∧
          r.header.sec ≠ 0 := by
        intro stack
        obtain ⟨s, -, ha, ⟨k, hk, hl⟩, hdel⟩ := Correct.arrives w hf (hc (fun _ => 0) stack)
        have hhd := hdel.read ha w.size_le (Nat.zero_lt_of_lt w.rdoff_lt) hl hfit
        rw [← hhd]
        exact ⟨k, hk, hl, ha.sec⟩
      obtain ⟨-, -, -, hsec⟩ := hread fun _ => 0
      refine ⟨d, r, hf, hsec, hfit, .inr fun stack => ?_⟩
      obtain ⟨k, hk, hl, -⟩ := hread stack
      exact ⟨k, hk, hl⟩
  · intro hr auxbuf stack
    exact hr.correct w auxbuf stack

end Call

/-- A padding of two bytes and a frame of two, sixty long. -/
def paddedRecords : List RawRecord :=
  [⟨⟨0, 0, 2, 2⟩, [9, 9], rfl⟩, ⟨⟨5, 7, 2, 60⟩, [1, 2], rfl⟩]

def paddedBuf (i : Nat) : UInt8 := (paddedRecords.flatMap RawRecord.toBytes).getD i 0

def paddedHandle : Handle := ⟨0, 0, 28, 0, 4096⟩

theorem padded_window : Window paddedBuf paddedHandle paddedRecords :=
  ⟨by decide, by norm_num [paddedHandle], by norm_num [paddedHandle], by decide, by decide,
    by decide +kernel, fun _ _ _ h _ => absurd h.length_le (by decide : ¬ 3 ≤ 2)⟩

theorem read_packet_iff_padded : Window paddedBuf paddedHandle paddedRecords ∧
    Correct paddedBuf paddedHandle paddedRecords true
      (hpcapReadPacket paddedBuf paddedHandle (fun _ => 0) true fun _ => 0) := by
  refine ⟨padded_window, (read_packet_iff paddedHandle paddedRecords true padded_window).mpr ?_ _ _⟩
  refine ⟨14, ⟨⟨5, 7, 2, 60⟩, [1, 2], rfl⟩, rfl, by decide, by decide, .inl ?_⟩
  exact ⟨by decide, fun _ => ⟨by decide, fun h => absurd h (by decide)⟩⟩

/-- The call aborts on a window that holds a padding and no more. -/
theorem padding_only_aborts :
    ¬ ∀ (buf : Nat → UInt8) (h : Handle) (rs : List RawRecord) (readHeader : Bool), Window buf h rs →
      ∀ auxbuf stack,
        Correct buf h rs readHeader (hpcapReadPacket buf h auxbuf readHeader stack) := by
  intro hall
  have hwindow : Window (fun _ => 0) ⟨0, 0, 12, 0, 4096⟩ [⟨⟨0, 0, 0, 0⟩, [], rfl⟩] :=
    ⟨by decide, by norm_num, by norm_num, by decide, by decide, by decide +kernel,
      fun _ _ _ h _ => absurd h.length_le (by decide : ¬ 3 ≤ 1)⟩
  obtain ⟨o, ho, -⟩ := hall _ _ _ true hwindow (fun _ => 0) (fun _ => 0)
  have habort : (hpcapReadPacket (fun _ => 0) ⟨0, 0, 12, 0, 4096⟩ (fun _ => 0) true
      fun _ => 0).isNone = true := by decide +kernel
  rw [ho] at habort
  cases habort

end Hpcap.ReadPacket
