import Hpcap.Rx
import Hpcap.Tiling

namespace Hpcap.Stream

open Hpcap.Patch Hpcap.CircularBuffer Hpcap.Reservation Hpcap.Tiling Hpcap.Rx

/-- The bytes the writes leave at each stream position. -/
def stream (writes : List (Nat × List UInt8)) : Nat → UInt8 :=
  writes.foldr (fun w m => patch m w.1 w.2) fun _ => 0

/-- What a circular buffer holds once the writes went to their positions modulo its size. -/
def mirror (size : Nat) (buf : Nat → UInt8) (writes : List (Nat × List UInt8)) : Nat → UInt8 :=
  writes.foldr (fun w m => (copyToCircularBuffer m size (w.1 % size) w.2).1) buf

structure Record where
  header : RawHeader
  body : List UInt8
  deriving DecidableEq

def headerAt (m : Nat → UInt8) (p : Nat) : RawHeader := .ofBytes (slice m p rawHlen)

def recordStop (m : Nat → UInt8) (p : Nat) : Nat := p + rawHlen + (headerAt m p).caplen.toNat

def recordAt (m : Nat → UInt8) (p : Nat) : Record where
  header := headerAt m p
  body := slice m (p + rawHlen) (headerAt m p).caplen.toNat

def Record.isPadding (r : Record) : Bool := r.header.hpcapIsHeaderPadding

/-- The record an accepted frame is to leave. -/
def frameRecord (cfg : Config) (f : Frame) : Record := ⟨frameHeader cfg f, payload cfg f⟩

/-- The stream up to `q` is made of records that start at `starts`: none crosses
a file boundary, one starts at every boundary, the ones that are no padding are
the accepted frames, and the buffer has had the same bytes. -/
structure LaidTo (cfg : Config) (buf dstBuf : Nat → UInt8) (trace : Trace) (q : Nat)
    (starts : List Nat) : Prop where
  tiles : Tiles (recordStop (stream trace.writes)) 0 q starts
  inFile : ∀ p ∈ starts, ∀ k, p < k * cfg.fileSize →
    recordStop (stream trace.writes) p ≤ k * cfg.fileSize
  atFile : ∀ k, k * cfg.fileSize < q → k * cfg.fileSize ∈ starts
  frames : ((starts.map (recordAt (stream trace.writes))).filter fun r => !r.isPadding) =
    trace.accepted.reverse.map (frameRecord cfg)
  buffer : dstBuf = mirror cfg.bufSize buf trace.writes

theorem header_le_recordStop (m : Nat → UInt8) (p : Nat) : p + rawHlen ≤ recordStop m p :=
  Nat.le_add_right _ _

theorem lt_recordStop (m : Nat → UInt8) (p : Nat) : p < recordStop m p :=
  Nat.lt_of_lt_of_le (Nat.lt_add_of_pos_right (by decide)) (header_le_recordStop m p)

theorem headerAt_patch (m : Nat → UInt8) {p pos : Nat} (bs : List UInt8) (h : p + rawHlen ≤ pos) :
    headerAt (patch m pos bs) p = headerAt m p := by
  rw [headerAt, slice_patch_of_disjoint m (.inl h), headerAt]

theorem recordStop_patch (m : Nat → UInt8) {p pos : Nat} (bs : List UInt8)
    (h : recordStop m p ≤ pos) : recordStop (patch m pos bs) p = recordStop m p := by
  simp only [recordStop] at h ⊢
  rw [headerAt_patch m bs (by omega)]

theorem recordAt_patch (m : Nat → UInt8) {p pos : Nat} (bs : List UInt8)
    (h : recordStop m p ≤ pos) : recordAt (patch m pos bs) p = recordAt m p := by
  simp only [recordStop] at h
  rw [recordAt, headerAt_patch m bs (by omega), slice_patch_of_disjoint m (.inl h), recordAt]

theorem headerAt_stored (m : Nat → UInt8) (pos : Nat) (h : RawHeader) :
    headerAt (patch m pos h.toBytes) pos = h := by
  have hs := slice_patch m pos h.toBytes
  rw [RawHeader.toBytes_length] at hs
  rw [headerAt, hs, RawHeader.ofBytes_toBytes]

/-- The next file boundary after `p`. -/
theorem boundary_le {n p k : Nat} (h : p < k * n) : p + (n - p % n) ≤ k * n := by
  have hn : 0 < n := by
    cases n with
    | zero => simp at h
    | succ n => omega
  have hk : p / n + 1 ≤ k := (Nat.div_lt_iff_lt_mul hn).mpr h
  have hm := Nat.mul_le_mul_right n hk
  have hp := Nat.div_add_mod' p n
  have hl := Nat.mod_lt p hn
  rw [Nat.add_mul, Nat.one_mul] at hm
  omega

namespace LaidTo

variable {cfg : Config} {buf dstBuf : Nat → UInt8} {trace : Trace} {q : Nat} {starts : List Nat}

/-- Records that are complete stay as they are when bytes are stored behind them. -/
theorem store {s : State} (h : LaidTo cfg buf s.dstBuf s.trace q starts) {offset pos : Nat}
    (hoff : offset = pos % cfg.bufSize) (hq : q ≤ pos) (bytes : List UInt8) :
    LaidTo cfg buf (s.store cfg offset pos bytes).dstBuf (s.store cfg offset pos bytes).trace q
      starts := by
  have hstop : ∀ p ∈ starts, recordStop (stream s.trace.writes) p ≤ pos :=
    fun p hp => (h.tiles.mem hp).2.2.trans hq
  have hw : stream (s.store cfg offset pos bytes).trace.writes =
      patch (stream s.trace.writes) pos bytes := rfl
  constructor
  · rw [hw]
    exact h.tiles.congr fun p _ hp _ => recordStop_patch _ _ (hp.trans hq)
  · rw [hw]
    intro p hp k hk
    rw [recordStop_patch _ _ (hstop p hp)]
    exact h.inFile p hp k hk
  · exact h.atFile
  · rw [hw, store_accepted, ← h.frames]
    congr 1
    exact List.map_congr_left fun p hp => recordAt_patch _ _ (hstop p hp)
  · subst hoff
    change (copyToCircularBuffer s.dstBuf cfg.bufSize (pos % cfg.bufSize) bytes).1 = _
    rw [h.buffer]
    rfl

theorem reserve (h : LaidTo cfg buf dstBuf trace q starts) (reserved : Nat)
    (reservations : List Reserved) :
    LaidTo cfg buf dstBuf { trace with reserved := reserved, reservations := reservations } q
      starts :=
  ⟨h.tiles, h.inFile, h.atFile, h.frames, h.buffer⟩

theorem extend_inFile (h : LaidTo cfg buf dstBuf trace q starts)
    (hfile : q % cfg.fileSize + (recordStop (stream trace.writes) q - q) ≤ cfg.fileSize) :
    ∀ p ∈ starts ++ [q], ∀ k, p < k * cfg.fileSize →
      recordStop (stream trace.writes) p ≤ k * cfg.fileSize := by
  intro p hp k hk
  rcases List.mem_append.mp hp with hp | hp
  · exact h.inFile p hp k hk
  · obtain rfl := List.mem_singleton.mp hp
    have hb := boundary_le hk
    omega

theorem extend_atFile (h : LaidTo cfg buf dstBuf trace q starts)
    (hfile : q % cfg.fileSize + (recordStop (stream trace.writes) q - q) ≤ cfg.fileSize) :
    ∀ k, k * cfg.fileSize < recordStop (stream trace.writes) q →
      k * cfg.fileSize ∈ starts ++ [q] := by
  intro k hk
  rcases Nat.lt_trichotomy (k * cfg.fileSize) q with hlt | he | hgt
  · exact List.mem_append_left _ (h.atFile k hlt)
  · exact List.mem_append_right _ (by simp [he])
  · have hb := h.extend_inFile hfile q (by simp) k hgt
    omega

theorem extend_tiles (h : LaidTo cfg buf dstBuf trace q starts) :
    Tiles (recordStop (stream trace.writes)) 0 (recordStop (stream trace.writes) q)
      (starts ++ [q]) :=
  h.tiles.snoc (lt_recordStop _ _) rfl

/-- A padding record is at `q`. -/
theorem padding (h : LaidTo cfg buf dstBuf trace q starts)
    (hfile : q % cfg.fileSize + (recordStop (stream trace.writes) q - q) ≤ cfg.fileSize)
    (hp : (recordAt (stream trace.writes) q).isPadding = true) :
    LaidTo cfg buf dstBuf trace (recordStop (stream trace.writes) q) (starts ++ [q]) where
  tiles := h.extend_tiles
  inFile := h.extend_inFile hfile
  atFile := h.extend_atFile hfile
  frames := by
    rw [List.map_append, List.filter_append, h.frames]
    simp [hp]
  buffer := h.buffer

/-- The record of the frame accepted last is at `q`. -/
theorem frame (h : LaidTo cfg buf dstBuf trace q starts) {f : Frame}
    (hfile : q % cfg.fileSize + (recordStop (stream trace.writes) q - q) ≤ cfg.fileSize)
    (hf : recordAt (stream trace.writes) q = frameRecord cfg f)
    (hp : (frameRecord cfg f).isPadding = false) :
    LaidTo cfg buf dstBuf { trace with accepted := f :: trace.accepted }
      (recordStop (stream trace.writes) q) (starts ++ [q]) where
  tiles := h.extend_tiles
  inFile := h.extend_inFile hfile
  atFile := h.extend_atFile hfile
  frames := by
    rw [List.map_append, List.filter_append, h.frames]
    simp [hf, hp]
  buffer := h.buffer

end LaidTo

/-- The padding written at the end of the records is a record. -/
theorem setPadding_laid {cfg : Config} {buf : Nat → UInt8} {s : State} {p : Pad} {starts : List Nat}
    (h : LaidTo cfg buf s.dstBuf s.trace p.pos starts) (hoff : p.offset = p.pos % cfg.bufSize)
    (hmin : rawHlen ≤ p.padlen) (hmax : p.padlen < 2 ^ 16)
    (hfile : p.pos % cfg.fileSize + p.padlen ≤ cfg.fileSize) :
    LaidTo cfg buf (setPadding cfg s p).dstBuf (setPadding cfg s p).trace (p.pos + p.padlen)
      (starts ++ [p.pos]) := by
  have hpad : setPadding cfg s p = s.store cfg p.offset p.pos (paddingHeader p.padlen).toBytes :=
    if_neg (Nat.not_lt.mpr hmin)
  have hl := h.store hoff le_rfl (paddingHeader p.padlen).toBytes
  rw [← hpad] at hl
  have hh : headerAt (stream (setPadding cfg s p).trace.writes) p.pos = paddingHeader p.padlen := by
    rw [hpad]
    exact headerAt_stored _ _ _
  have hcap : (paddingHeader p.padlen).caplen.toNat = p.padlen - rawHlen :=
    Nat.mod_eq_of_lt (Nat.lt_of_le_of_lt (Nat.sub_le _ _) hmax)
  have hstop : recordStop (stream (setPadding cfg s p).trace.writes) p.pos = p.pos + p.padlen := by
    rw [recordStop, hh, hcap]
    omega
  rw [← hstop]
  refine hl.padding ?_ ?_
  · rw [hstop]
    omega
  · rw [Record.isPadding, recordAt, hh]
    rfl

/-- Padding too short for a header is not written. -/
theorem setPadding_short {cfg : Config} {s : State} {p : Pad} (h : p.padlen < rawHlen) :
    setPadding cfg s p = s :=
  if_pos h

/-- Padding behind the records leaves them as they are. -/
theorem setPadding_behind {cfg : Config} {buf : Nat → UInt8} {s : State} {p : Pad} {q : Nat}
    {starts : List Nat} (h : LaidTo cfg buf s.dstBuf s.trace q starts)
    (hoff : p.offset = p.pos % cfg.bufSize) (hq : q ≤ p.pos) :
    LaidTo cfg buf (setPadding cfg s p).dstBuf (setPadding cfg s p).trace q starts := by
  by_cases hp : p.padlen < rawHlen
  · rw [setPadding_short hp]
    exact h
  · rw [setPadding, if_neg hp]
    exact h.store hoff hq _

/-- A frame written at the end of the records is a record. -/
theorem storeFrame_laid {cfg : Config} {buf : Nat → UInt8} {s : State} {pos : Nat} {f : Frame}
    {starts : List Nat} (h : LaidTo cfg buf s.dstBuf s.trace pos starts)
    (hlen : f.size ≤ maxDescrSize) (hstamp : (frameRecord cfg f).isPadding = false)
    (hfile : pos % cfg.fileSize + (calcCaplen cfg.caplen f.size + rawHlen) ≤ cfg.fileSize) :
    LaidTo cfg buf (storeFrame cfg s (pos % cfg.bufSize) pos f).dstBuf
      (storeFrame cfg s (pos % cfg.bufSize) pos f).trace
      (pos + (calcCaplen cfg.caplen f.size + rawHlen)) (starts ++ [pos]) := by
  have hcap : calcCaplen cfg.caplen f.size ≤ f.size := by
    simp only [calcCaplen]
    split
    · exact le_rfl
    · exact min_le_right _ _
  have hpay : (payload cfg f).length = calcCaplen cfg.caplen f.size := by
    rw [payload, List.length_take, min_eq_left (hcap.trans hlen), min_eq_left hcap]
  have hfield : (frameHeader cfg f).caplen.toNat = calcCaplen cfg.caplen f.size :=
    Nat.mod_eq_of_lt (Nat.lt_of_le_of_lt (hcap.trans hlen) (by decide))
  have h₁ := h.store rfl le_rfl (frameHeader cfg f).toBytes
  have hoff : (copyToCircularBuffer s.dstBuf cfg.bufSize (pos % cfg.bufSize)
      (frameHeader cfg f).toBytes).2 = (pos + rawHlen) % cfg.bufSize := by
    rw [copyToCircularBuffer_offset, RawHeader.toBytes_length, Nat.mod_add_mod]
  have h₂ := h₁.store hoff (Nat.le_add_right _ _) (payload cfg f)
  generalize ht : (s.store cfg (pos % cfg.bufSize) pos (frameHeader cfg f).toBytes).store cfg
    (copyToCircularBuffer s.dstBuf cfg.bufSize (pos % cfg.bufSize)
      (frameHeader cfg f).toBytes).2 (pos + rawHlen) (payload cfg f) = t at h₂
  have hm : stream t.trace.writes =
      patch (patch (stream s.trace.writes) pos (frameHeader cfg f).toBytes) (pos + rawHlen)
        (payload cfg f) := by
    rw [← ht]
    rfl
  have hh : headerAt (stream t.trace.writes) pos = frameHeader cfg f := by
    rw [hm, headerAt_patch _ _ le_rfl, headerAt_stored]
  have hrec : recordAt (stream t.trace.writes) pos = frameRecord cfg f := by
    rw [recordAt, hh, hfield, hm, ← hpay, slice_patch, frameRecord]
  have hstop : recordStop (stream t.trace.writes) pos =
      pos + (calcCaplen cfg.caplen f.size + rawHlen) := by
    rw [recordStop, hh, hfield]
    omega
  have hs : storeFrame cfg s (pos % cfg.bufSize) pos f =
      { t with trace := { t.trace with accepted := f :: t.trace.accepted } } := by
    rw [← ht]
    rfl
  rw [hs, ← hstop]
  refine h₂.frame ?_ hrec hstamp
  rw [hstop]
  omega

section Reserve

variable {cfg : Config} {p w : Nat}

theorem asFileOffset_add {n p w : Nat} (h : p % n + w < n) : (p + w) % n = p % n + w := by
  rw [← Nat.mod_add_mod, Nat.mod_eq_of_lt h]

theorem asFileOffset_add_next {n p w : Nat} (h : n ≤ p % n + w) (h' : p % n + w < 2 * n) :
    (p + w) % n = p % n + w - n := by
  rw [← Nat.mod_add_mod, Nat.mod_eq_sub_mod h, Nat.mod_eq_of_lt (by omega)]

theorem pad_offset (hw : w < 2 ^ 31) (hb : Exact cfg.bufSize (p + w)) {d : Nat}
    (hd : Exact cfg.bufSize (p + d)) :
    asBufferOffset cfg (add64 (offsetDst w ((p + w) % 2 ^ 32)) d) = (p + d) % cfg.bufSize :=
  offsetDst_add_modEq hw hb hd

/-- The frame fits into the file with a header to spare. -/
theorem reserve_fits (hb : Exact cfg.bufSize (p + w)) (hw : w < 2 ^ 31)
    (he : Exact cfg.fileSize (p + w)) (hfit : p % cfg.fileSize + w + rawHlen ≤ cfg.fileSize)
    (hstart : p % cfg.fileSize = 0 ∨ rawHlen ≤ p % cfg.fileSize) :
    reserve cfg p (p % 2 ^ 32) w = ⟨(p + w) % 2 ^ 32, p % cfg.bufSize, 0, []⟩ := by
  have hc : atomicAddReturn w (p % 2 ^ 32) = (p + w) % 2 ^ 32 := by
    rw [atomicAddReturn, Nat.mod_add_mod]
  have hdst : asFileOffset cfg (offsetDst w ((p + w) % 2 ^ 32)) = p % cfg.fileSize :=
    offsetDst_modEq hw he
  have hbuf : asBufferOffset cfg (offsetDst w ((p + w) % 2 ^ 32)) = p % cfg.bufSize :=
    offsetDst_modEq hw hb
  simp only [reserve, hc, hdst, hbuf]
  rw [if_neg (by omega), if_neg (by omega)]

/-- The padding of a reservation of `w` bytes at `p` that does not fit its file. -/
def spill (cfg : Config) (p w : Nat) : List Pad :=
  ⟨p % cfg.bufSize, p, cfg.fileSize - p % cfg.fileSize⟩ ::
    if rawHlen ≤ (p + w) % cfg.fileSize then
      [⟨(p + (cfg.fileSize - p % cfg.fileSize)) % cfg.bufSize,
        p + (cfg.fileSize - p % cfg.fileSize), (p + w) % cfg.fileSize⟩]
    else []

/-- The frame does not fit: the file is padded, and the next one as far as was reserved. -/
theorem reserve_pads (hb : Exact cfg.bufSize (p + w))
    (hd : Exact cfg.bufSize (p + (cfg.fileSize - p % cfg.fileSize))) (hw : w < 2 ^ 31)
    (he : Exact cfg.fileSize (p + w))
    (hfull : cfg.fileSize < p % cfg.fileSize + w + rawHlen) :
    reserve cfg p (p % 2 ^ 32) w =
      ⟨(p + w) % 2 ^ 32, p % cfg.bufSize, cfg.fileSize - p % cfg.fileSize, spill cfg p w⟩ := by
  have hc : atomicAddReturn w (p % 2 ^ 32) = (p + w) % 2 ^ 32 := by
    rw [atomicAddReturn, Nat.mod_add_mod]
  have hdst : asFileOffset cfg (offsetDst w ((p + w) % 2 ^ 32)) = p % cfg.fileSize :=
    offsetDst_modEq hw he
  have hfin : asFileOffset cfg (signExtend ((p + w) % 2 ^ 32)) = (p + w) % cfg.fileSize :=
    signExtend_modEq he
  have hbuf : asBufferOffset cfg (offsetDst w ((p + w) % 2 ^ 32)) = p % cfg.bufSize :=
    offsetDst_modEq hw hb
  simp only [reserve, hc, hdst, hfin, hbuf, pad_offset hw hb hd, spill]
  rw [if_pos (by omega)]
  split <;> rfl

end Reserve

/-- The records end where the next reservation starts, at the start of a file or
with room for a header on both sides. -/
def Settled (cfg : Config) (p q : Nat) : Prop :=
  q = p ∧ (p % cfg.fileSize = 0 ∨
    (rawHlen ≤ p % cfg.fileSize ∧ p % cfg.fileSize + rawHlen ≤ cfg.fileSize))

/-- The file is padded to its end, less than a header behind the next reservation's start. -/
def Late (cfg : Config) (p q : Nat) : Prop :=
  p < q ∧ q < p + rawHlen ∧ p % cfg.fileSize + (q - p) = cfg.fileSize

/-- A reservation the padding logic gets right. It may fit its file with a header to
spare, end with the file, or spill into the next file by a header or more. It
may also end less than a header before the end of the file, if the budget lets
the same frame reserve again. -/
def Fits (cfg : Config) (r : Reserved) : Prop :=
  let first := r.start % cfg.fileSize
  let last := first + r.toWrite
  Exact cfg.fileSize (r.start + r.toWrite) ∧
    (last + rawHlen ≤ cfg.fileSize ∨ last = cfg.fileSize ∨
      (cfg.fileSize + rawHlen ≤ last ∧ last + rawHlen ≤ 2 * cfg.fileSize) ∨
      (cfg.fileSize < last + rawHlen ∧ last < cfg.fileSize ∧
        Exact cfg.fileSize (r.start + (cfg.fileSize - first)) ∧
        r.toWrite + (r.toWrite + rawHlen) ≤ r.room))

instance (cfg : Config) (r : Reserved) : Decidable (Fits cfg r) := by
  unfold Fits
  infer_instance

/-- The padding of a reservation that fits the padding logic leaves only whole records. -/
theorem spill_laid {cfg : Config} {buf : Nat → UInt8} {t : State} {p q w room : Nat}
    {starts : List Nat} (h : LaidTo cfg buf t.dstBuf t.trace q starts)
    (hmin : rawHlen ≤ w) (hmax : w ≤ maxDescrSize + rawHlen) (hfit : Fits cfg ⟨p, w, room⟩)
    (hfull : cfg.fileSize < p % cfg.fileSize + w + rawHlen)
    (hq : Settled cfg p q ∨ Late cfg p q) :
    ∃ q' starts', LaidTo cfg buf ((spill cfg p w).foldl (setPadding cfg) t).dstBuf
        ((spill cfg p w).foldl (setPadding cfg) t).trace q' starts' ∧
      (Settled cfg (p + w) q' ∨ Late cfg (p + w) q' ∧ w + (w + rawHlen) ≤ room) := by
  obtain ⟨-, hcase⟩ := hfit
  dsimp only at hcase
  have hpos : 0 < cfg.fileSize := by omega
  have hlt := Nat.mod_lt p hpos
  have hnext : (p + (cfg.fileSize - p % cfg.fileSize)) % cfg.fileSize = 0 := by
    rw [← Nat.mod_add_mod, Nat.add_sub_cancel' hlt.le, Nat.mod_self]
  have hR : rawHlen = 12 := rfl
  have hD : maxDescrSize = 2048 := rfl
  obtain ⟨rfl, hsettled⟩ | ⟨hpq, hqp, hlate⟩ := hq
  · -- the rest of the file becomes one record
    have h₁ := setPadding_laid (p := ⟨q % cfg.bufSize, q, cfg.fileSize - q % cfg.fileSize⟩) h rfl
      (by dsimp only; omega) (by dsimp only; omega) (by dsimp only; omega)
    obtain hcase | hcase | ⟨hlo, hhi⟩ | ⟨-, hend, -, hroom⟩ := hcase
    · omega
    · have hz : (q + w) % cfg.fileSize = 0 := by
        rw [← Nat.mod_add_mod, hcase, Nat.mod_self]
      rw [spill, hz, if_neg (by decide)]
      refine ⟨_, _, h₁, .inl ⟨?_, .inl hz⟩⟩
      dsimp only
      omega
    · have hz : (q + w) % cfg.fileSize = q % cfg.fileSize + w - cfg.fileSize :=
        asFileOffset_add_next (by omega) (by omega)
      rw [spill, hz, if_pos (by omega)]
      have h₂ := setPadding_laid
        (p := ⟨(q + (cfg.fileSize - q % cfg.fileSize)) % cfg.bufSize,
          q + (cfg.fileSize - q % cfg.fileSize), q % cfg.fileSize + w - cfg.fileSize⟩) h₁ rfl
        (by dsimp only; omega) (by dsimp only; omega) (by dsimp only; omega)
      refine ⟨_, _, h₂, .inl ⟨?_, .inr ?_⟩⟩
      · dsimp only
        omega
      · rw [hz]
        omega
    · have hz : (q + w) % cfg.fileSize = q % cfg.fileSize + w := asFileOffset_add hend
      refine ⟨q + (cfg.fileSize - q % cfg.fileSize), starts ++ [q], ?_, .inr ⟨?_, hroom⟩⟩
      · rw [spill, hz, if_pos (by omega)]
        exact setPadding_behind h₁ rfl le_rfl
      · refine ⟨by omega, by omega, ?_⟩
        rw [hz]
        omega
  · -- the next file starts with a record as long as was reserved in it
    have hpad : cfg.fileSize - p % cfg.fileSize = q - p := by omega
    have hz : (p + w) % cfg.fileSize = p % cfg.fileSize + w - cfg.fileSize :=
      asFileOffset_add_next (by omega) (by omega)
    have hqe : p + (q - p) = q := by omega
    rw [hpad, hqe] at hnext
    rw [spill, hz, hpad, hqe, if_pos (by omega)]
    have h₂ := setPadding_laid
      (p := ⟨q % cfg.bufSize, q, p % cfg.fileSize + w - cfg.fileSize⟩) h rfl
      (by dsimp only; omega) (by dsimp only; omega) (by dsimp only; omega)
    have hs : setPadding cfg t ⟨p % cfg.bufSize, p, q - p⟩ = t := setPadding_short (by dsimp only; omega)
    refine ⟨q + (p % cfg.fileSize + w - cfg.fileSize), starts ++ [q], ?_, .inl ⟨?_, .inr ?_⟩⟩
    · rw [List.foldl_cons, hs]
      exact h₂
    · omega
    · rw [hz]
      omega

theorem Fits.exact_padded {cfg : Config} {r : Reserved} (h : Fits cfg r)
    (hfull : cfg.fileSize < r.start % cfg.fileSize + r.toWrite + rawHlen) :
    Exact cfg.fileSize (r.start + (cfg.fileSize - r.start % cfg.fileSize)) := by
  obtain ⟨he, hcase | hcase | ⟨hlo, -⟩ | ⟨-, -, hd, -⟩⟩ := h
  · omega
  · exact he.mono (by omega)
  · exact he.mono (by omega)
  · exact hd

section Loop

variable {cfg : Config} {buf : Nat → UInt8} {w : Nat}

theorem reserveLoop_grows (cfg : Config) (limit w fuel cnt : Nat) (s : State) :
    s.trace.reservations ⊆ (reserveLoop cfg limit w fuel cnt s).2.2.trace.reservations ∧
      (reserveLoop cfg limit w fuel cnt s).2.2.trace.accepted = s.trace.accepted := by
  induction fuel generalizing cnt s with
  | zero =>
    rw [reserveLoop_zero]
    exact ⟨List.Subset.refl _, rfl⟩
  | succ fuel ih =>
    by_cases hf : limit - cnt < w + rawHlen
    · rw [reserveLoop_full cfg s hf]
      exact ⟨List.Subset.refl _, rfl⟩
    · by_cases hp : 0 < (Rx.reserve cfg s.trace.reserved s.consumerWriteOff w).padlen
      · rw [reserveLoop_again cfg hf hp]
        obtain ⟨hr, ha⟩ := ih (cnt + w) (s.claim cfg w (limit - cnt)
          (Rx.reserve cfg s.trace.reserved s.consumerWriteOff w))
        rw [claim_reservations] at hr
        rw [claim_accepted] at ha
        exact ⟨fun r h => hr (List.mem_cons_of_mem _ h), ha⟩
      · rw [reserveLoop_done cfg hf hp]
        rw [claim_reservations, claim_accepted]
        exact ⟨List.subset_cons_self _ _, rfl⟩

/-- What a reservation that fits leaves to write, and where. -/
def Granted (cfg : Config) (w reserved q : Nat) : Option (Nat × Nat) → Prop
  | none => Settled cfg reserved q
  | some (offset, pos) => q = pos ∧ offset = pos % cfg.bufSize ∧ reserved = pos + w ∧
      pos % cfg.fileSize + w + rawHlen ≤ cfg.fileSize

/-- A reservation pads just if the file has no room for it and another header. -/
theorem Fits.pads_iff {p q room : Nat} (hb : cfg.bufSize ∣ cfg.fileSize) (hw : w < 2 ^ 31)
    (hmin : rawHlen ≤ w) (hr : Fits cfg ⟨p, w, room⟩) (hq : Settled cfg p q ∨ Late cfg p q) :
    0 < (Rx.reserve cfg p (p % 2 ^ 32) w).padlen ↔
      cfg.fileSize < p % cfg.fileSize + w + rawHlen := by
  have hR : rawHlen = 12 := rfl
  constructor
  · intro hp
    by_contra hfits
    obtain ⟨rfl, hs⟩ | ⟨hlo, hhi, hl⟩ := hq
    · rw [reserve_fits (p := q) (w := w) (hr.1.of_dvd hb) hw hr.1 (by omega) (by omega)] at hp
      exact absurd hp (lt_irrefl 0)
    · omega
  · intro hfull
    rw [reserve_pads (hr.1.of_dvd hb) ((hr.exact_padded hfull).of_dvd hb) hw hr.1 hfull]
    have hpos : 0 < cfg.fileSize := by
      obtain ⟨-, hr⟩ := hr
      dsimp only at hr
      omega
    exact Nat.sub_pos_of_lt (Nat.mod_lt p hpos)

theorem reserveLoop_laid (hb : cfg.bufSize ∣ cfg.fileSize) (hmin : rawHlen ≤ w)
    (hmax : w ≤ maxDescrSize + rawHlen) (limit cnt : Nat) {fuel q : Nat} {s : State}
    {starts : List Nat}
    (hc : s.Counted) (h : LaidTo cfg buf s.dstBuf s.trace q starts)
    (hq : Settled cfg s.trace.reserved q ∨
      Late cfg s.trace.reserved q ∧ w + rawHlen ≤ limit - cnt)
    (hfuel : limit - cnt ≤ fuel)
    (hfit : ∀ r ∈ (reserveLoop cfg limit w fuel cnt s).2.2.trace.reservations, Fits cfg r) :
    ∃ q' starts', LaidTo cfg buf (reserveLoop cfg limit w fuel cnt s).2.2.dstBuf
        (reserveLoop cfg limit w fuel cnt s).2.2.trace q' starts' ∧
      Granted cfg w (reserveLoop cfg limit w fuel cnt s).2.2.trace.reserved q'
        (reserveLoop cfg limit w fuel cnt s).2.1 := by
  have hR : rawHlen = 12 := rfl
  induction fuel generalizing cnt s q starts with
  | zero =>
    rw [reserveLoop_zero]
    exact ⟨q, starts, h, hq.resolve_right fun hl => by omega⟩
  | succ fuel ih =>
    by_cases hf : limit - cnt < w + rawHlen
    · rw [reserveLoop_full cfg s hf]
      exact ⟨q, starts, h, hq.resolve_right fun hl => by omega⟩
    · have hw : w < 2 ^ 31 := lt_of_le_of_lt hmax (by decide)
      by_cases hp : 0 < (Rx.reserve cfg s.trace.reserved s.consumerWriteOff w).padlen
      · rw [reserveLoop_again cfg hf hp] at hfit ⊢
        have hr : Fits cfg ⟨s.trace.reserved, w, limit - cnt⟩ := by
          refine hfit _ ((reserveLoop_grows cfg limit w fuel _ _).1 ?_)
          rw [claim_reservations]
          exact List.mem_cons_self
        have hfull : cfg.fileSize < s.trace.reserved % cfg.fileSize + w + rawHlen :=
          (hr.pads_iff hb hw hmin (hq.imp_right And.left)).mp (hc ▸ hp)
        have he : Rx.reserve cfg s.trace.reserved s.consumerWriteOff w = _ :=
          hc ▸ reserve_pads (hr.1.of_dvd hb) ((hr.exact_padded hfull).of_dvd hb) hw hr.1 hfull
        obtain ⟨q', starts', hl, hq'⟩ := spill_laid
          (t := { s with
            consumerWriteOff := (s.trace.reserved + w) % 2 ^ 32
            trace := { s.trace with
              reserved := s.trace.reserved + w
              reservations := ⟨s.trace.reserved, w, limit - cnt⟩ :: s.trace.reservations } })
          (h.reserve _ _) hmin hmax hr hfull (hq.imp_right And.left)
        have hclaim : LaidTo cfg buf (s.claim cfg w (limit - cnt)
            (Rx.reserve cfg s.trace.reserved s.consumerWriteOff w)).dstBuf
            (s.claim cfg w (limit - cnt)
              (Rx.reserve cfg s.trace.reserved s.consumerWriteOff w)).trace q' starts' := by
          rw [he]
          exact hl
        refine ih (cnt + w) (claim_counted cfg hc w (limit - cnt)) hclaim ?_ (by omega) hfit
        rw [claim_reserved]
        exact hq'.imp_right fun ⟨hl, hroom⟩ => ⟨hl, by omega⟩
      · rw [reserveLoop_done cfg hf hp] at hfit ⊢
        have hr : Fits cfg ⟨s.trace.reserved, w, limit - cnt⟩ := by
          refine hfit _ ?_
          rw [claim_reservations]
          exact List.mem_cons_self
        have hfits : s.trace.reserved % cfg.fileSize + w + rawHlen ≤ cfg.fileSize :=
          Nat.not_lt.mp fun hfull => hp
            (hc ▸ (hr.pads_iff hb hw hmin (hq.imp_right And.left)).mpr hfull)
        obtain ⟨rfl, hs⟩ | ⟨⟨hlo, hhi, hl⟩, -⟩ := hq
        · have he := reserve_fits (p := s.trace.reserved) (hr.1.of_dvd hb) hw hr.1 hfits (by omega)
          rw [← hc] at he
          rw [he]
          exact ⟨s.trace.reserved, starts, h.reserve _ _, rfl, rfl, rfl, hfits⟩
        · omega

end Loop

/-- The header's time stamp tells the frame from padding. -/
def Stamped (f : Frame) : Prop := UInt32.ofNat f.tvSec ≠ 0 ∨ UInt32.ofNat f.tvNsec ≠ 0

instance (f : Frame) : Decidable (Stamped f) := inferInstanceAs (Decidable (_ ∨ _))

theorem Stamped.not_padding {cfg : Config} {f : Frame} (h : Stamped f) :
    (frameRecord cfg f).isPadding = false := by
  rw [Record.isPadding, frameRecord, RawHeader.hpcapIsHeaderPadding, Bool.and_eq_false_iff]
  exact h.symm.imp beq_eq_false_iff_ne.mpr beq_eq_false_iff_ne.mpr

/-- The reservations made fit, and the frames accepted are stamped. -/
def Sound (cfg : Config) (t : Trace) : Prop :=
  (∀ r ∈ t.reservations, Fits cfg r) ∧ ∀ f ∈ t.accepted, Stamped f

instance (cfg : Config) (t : Trace) : Decidable (Sound cfg t) := inferInstanceAs (Decidable (_ ∧ _))

/-- Everything up to the counter is laid out, and the next frame may follow. -/
def Ready (cfg : Config) (buf : Nat → UInt8) (s : State) : Prop :=
  Settled cfg s.trace.reserved s.trace.reserved ∧
    ∃ starts, LaidTo cfg buf s.dstBuf s.trace s.trace.reserved starts

theorem Granted.settled {cfg : Config} {reserved q : Nat} {w : Nat} {o : Option (Nat × Nat)}
    (h : Granted cfg w reserved q o) (hmin : rawHlen ≤ w) :
    Settled cfg reserved reserved := by
  cases o with
  | none => exact ⟨rfl, h.2⟩
  | some at_ =>
    obtain ⟨-, -, rfl, hfits⟩ := h
    have hR : rawHlen = 12 := rfl
    refine ⟨rfl, .inr ?_⟩
    rw [asFileOffset_add (by omega)]
    omega

theorem rxFrame_grows (cfg : Config) (limit : Nat) (pktBuf : Bool) (f : Frame) (cnt : Nat)
    (s : State) (h : Sound cfg (rxFrame cfg limit pktBuf f cnt s).2.2.trace) :
    Sound cfg s.trace := by
  have hl := reserveLoop_grows cfg limit (calcCaplen cfg.caplen f.size + rawHlen) limit cnt s
  obtain he | he | ⟨cnt', t, ht, -, he⟩ | ⟨cnt', offset, pos, t, ht, -, he⟩ :=
    rxFrame_cases cfg limit pktBuf f cnt s
  · rwa [he] at h
  · rw [he] at h
    exact h
  · rw [he] at h
    rw [ht] at hl
    exact ⟨fun r hr => h.1 r (hl.1 hr), fun g hg => h.2 g (hl.2 ▸ hg)⟩
  · rw [he] at h
    rw [ht] at hl
    refine ⟨fun r hr => h.1 r (hl.1 hr), fun g hg => h.2 g ?_⟩
    rw [storeFrame_accepted]
    exact List.mem_cons_of_mem _ (hl.2 ▸ hg)

/-- One frame: its record, if it is accepted, and the padding before it. -/
theorem rxFrame_ready {cfg : Config} {buf : Nat → UInt8} (hb : cfg.bufSize ∣ cfg.fileSize)
    {limit : Nat} {pktBuf : Bool} {f : Frame} {cnt : Nat} {s : State}
    (hlen : f.size ≤ maxDescrSize) (hc : s.Counted) (h : Ready cfg buf s)
    (hfit : Sound cfg (rxFrame cfg limit pktBuf f cnt s).2.2.trace) :
    Ready cfg buf (rxFrame cfg limit pktBuf f cnt s).2.2 := by
  obtain ⟨hset, starts, hl⟩ := h
  have hmin : rawHlen ≤ calcCaplen cfg.caplen f.size + rawHlen := Nat.le_add_left _ _
  have hmax : calcCaplen cfg.caplen f.size + rawHlen ≤ maxDescrSize + rawHlen := by
    refine Nat.add_le_add_right (le_trans ?_ hlen) _
    simp only [calcCaplen]
    split
    · exact le_rfl
    · exact min_le_right _ _
  have hloop := reserveLoop_laid hb hmin hmax limit cnt hc hl (.inl hset) (Nat.sub_le limit cnt)
  obtain he | he | ⟨cnt', t, ht, -, he⟩ | ⟨cnt', offset, pos, t, ht, -, he⟩ :=
    rxFrame_cases cfg limit pktBuf f cnt s
  · rw [he]
    exact ⟨hset, starts, hl⟩
  · rw [he]
    exact ⟨hset, starts, hl⟩
  · rw [he] at hfit ⊢
    rw [ht] at hloop
    obtain ⟨q, starts', hl', hg⟩ := hloop hfit.1
    have hs := hg.settled hmin
    obtain ⟨rfl, -⟩ := hg
    exact ⟨hs, starts', hl'⟩
  · rw [he] at hfit ⊢
    rw [ht] at hloop
    obtain ⟨q, starts', hl', hg⟩ := hloop hfit.1
    have hs := hg.settled hmin
    obtain ⟨rfl, rfl, hres, hfile⟩ := hg
    have hst : Stamped f := hfit.2 f (by simp)
    refine ⟨hs, starts' ++ [q], ?_⟩
    rw [storeFrame_reserved, hres]
    exact storeFrame_laid hl' hlen hst.not_padding (by omega)

/-- A call of `hpcap_rx`. -/
structure Call where
  limit : Nat
  pktBuf : Bool
  frames : List Frame

def rxCalls (cfg : Config) (calls : List Call) (s : State) : State :=
  calls.foldl (fun s c => (hpcapRx cfg c.limit c.pktBuf c.frames s).2.2) s

theorem hpcapRx_ready {cfg : Config} {buf : Nat → UInt8} (hb : cfg.bufSize ∣ cfg.fileSize)
    (limit : Nat) (pktBuf : Bool) {frames : List Frame} {s : State}
    (hlen : ∀ f ∈ frames, f.size ≤ maxDescrSize) (hc : s.Counted)
    (h : Sound cfg s.trace → Ready cfg buf s) :
    (hpcapRx cfg limit pktBuf frames s).2.2.Counted ∧
      (Sound cfg (hpcapRx cfg limit pktBuf frames s).2.2.trace →
        Ready cfg buf (hpcapRx cfg limit pktBuf frames s).2.2) := by
  refine rxLoop_invariant cfg limit pktBuf
    (fun _ t => t.Counted ∧ (Sound cfg t.trace → Ready cfg buf t)) ?_ ?_ ⟨hc, h⟩
  · exact fun _ _ _ _ h => h
  · rintro f hf cnt t - ⟨hc, h⟩
    refine ⟨rxFrame_counted cfg limit pktBuf f cnt hc, fun hs => ?_⟩
    exact rxFrame_ready hb (hlen f hf) hc (h (rxFrame_grows _ _ _ _ _ _ hs)) hs

theorem rxCalls_ready {cfg : Config} {buf : Nat → UInt8} (hb : cfg.bufSize ∣ cfg.fileSize)
    {calls : List Call} {s : State} (hlen : ∀ c ∈ calls, ∀ f ∈ c.frames, f.size ≤ maxDescrSize)
    (hc : s.Counted) (h : Sound cfg s.trace → Ready cfg buf s) :
    (rxCalls cfg calls s).Counted ∧
      (Sound cfg (rxCalls cfg calls s).trace → Ready cfg buf (rxCalls cfg calls s)) := by
  induction calls generalizing s with
  | nil => exact ⟨hc, h⟩
  | cons c calls ih =>
    have hr := hpcapRx_ready hb c.limit c.pktBuf (fun f hf => hlen c (by simp) f hf) hc h
    exact ih (fun c' h' => hlen c' (by simp [h'])) hr.1 hr.2

theorem init_ready (cfg : Config) (buf : Nat → UInt8) : Ready cfg buf (State.init buf) := by
  refine ⟨⟨rfl, .inl (Nat.zero_mod _)⟩, [], ?_⟩
  constructor
  · exact rfl
  · intro p hp
    cases hp
  · exact fun k hk => absurd hk (Nat.not_lt_zero _)
  · rfl
  · rfl

/-- While the reservations fit, the stream up to the counter is cut into records. -/
theorem stream_laid_out (cfg : Config) (hb : cfg.bufSize ∣ cfg.fileSize) (buf : Nat → UInt8)
    (calls : List Call)
    (hlen : ∀ c ∈ calls, ∀ f ∈ c.frames, 0 < f.size ∧ f.size ≤ maxDescrSize)
    (hsound : Sound cfg (rxCalls cfg calls (State.init buf)).trace) :
    (rxCalls cfg calls (State.init buf)).Counted ∧
      ∃ starts, LaidTo cfg buf (rxCalls cfg calls (State.init buf)).dstBuf
        (rxCalls cfg calls (State.init buf)).trace
        (rxCalls cfg calls (State.init buf)).trace.reserved starts := by
  obtain ⟨hc, hr⟩ := rxCalls_ready (s := State.init buf) hb
    (fun c hc f hf => (hlen c hc f hf).2) rfl fun _ => init_ready cfg buf
  exact ⟨hc, (hr hsound).2⟩

/-- Files, and a buffer, of 128 bytes. -/
def smallFiles : Config := ⟨128, 128, 0, false, []⟩

def blank : Nat → UInt8 := fun _ => 0

/-- A frame of `n` zero bytes. -/
def frameOf (n : Nat) : Frame := ⟨List.replicate n 0, 1, 0⟩

def callFor (n : Nat) : Call := ⟨127, true, [frameOf n]⟩

/-- The third frame is the first one of the second file. -/
theorem stream_laid_out_padded :
    ∃ starts, LaidTo smallFiles blank
      (rxCalls smallFiles [callFor 50, callFor 40, callFor 30] (State.init blank)).dstBuf
      (rxCalls smallFiles [callFor 50, callFor 40, callFor 30] (State.init blank)).trace
      (rxCalls smallFiles [callFor 50, callFor 40, callFor 30] (State.init blank)).trace.reserved
      starts :=
  (stream_laid_out smallFiles (by decide) blank [callFor 50, callFor 40, callFor 30] (by decide)
    (by decide +kernel)).2

/-- The second frame spills four bytes into the next file. The padding written there
for its second reservation reaches past it, into the frame. -/
theorem spilled_header_breaks_stream :
    ¬ ∃ starts, LaidTo smallFiles blank
      (rxCalls smallFiles [callFor 100, callFor 8] (State.init blank)).dstBuf
      (rxCalls smallFiles [callFor 100, callFor 8] (State.init blank)).trace
      (rxCalls smallFiles [callFor 100, callFor 8] (State.init blank)).trace.reserved starts := by
  rintro ⟨starts, h⟩
  have ht := h.tiles
  generalize hm : stream (rxCalls smallFiles [callFor 100, callFor 8]
    (State.init blank)).trace.writes = m at ht
  have hend : (rxCalls smallFiles [callFor 100, callFor 8] (State.init blank)).trace.reserved =
      172 := by decide +kernel
  have hstops : recordStop m 0 = 112 ∧ recordStop m 112 = 128 ∧ recordStop m 128 = 156 ∧
      recordStop m 156 = 168 ∧ recordStop m 168 = 180 := by
    rw [← hm]
    decide +kernel
  obtain ⟨h₁, h₂, h₃, h₄, h₅⟩ := hstops
  rw [hend] at ht
  obtain ⟨-, -, _, ht, -⟩ := ht.step (by decide)
  rw [h₁] at ht
  obtain ⟨-, -, _, ht, -⟩ := ht.step (by decide)
  rw [h₂] at ht
  obtain ⟨-, -, _, ht, -⟩ := ht.step (by decide)
  rw [h₃] at ht
  obtain ⟨-, -, _, ht, -⟩ := ht.step (by decide)
  rw [h₄] at ht
  have hle := (ht.step (by decide)).2.1
  omega

end Hpcap.Stream
