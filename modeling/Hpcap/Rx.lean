import Hpcap.CircularBuffer
import Hpcap.Reservation

namespace Hpcap.Rx

open Hpcap.CircularBuffer Hpcap.Reservation

/-- One of the filters of `struct hpcap_buf`. -/
structure Filter where
  start : Nat
  length : Nat
  string : List UInt8
  rejectOnMatch : Bool

/-- A received frame: the descriptor's bytes and the time read for it. -/
structure Frame where
  data : List UInt8
  tvSec : Nat
  tvNsec : Nat

abbrev Frame.size (f : Frame) : Nat := f.data.length

/-- What `hpcap_rx` reads and never changes. -/
structure Config where
  fileSize : Nat
  bufSize : Nat
  caplen : Nat
  enabledFilter : Bool
  filters : List Filter

def passesFilters (data : List UInt8) : List Filter → Bool
  | [] => true
  | f :: fs =>
    if f.start + f.length > data.length then
      if f.rejectOnMatch then passesFilters data fs else false
    else if (data.drop f.start).take f.length = f.string.take f.length then
      if f.rejectOnMatch then false else passesFilters data fs
    else false

def passesFilter (cfg : Config) (f : Frame) : Bool :=
  if cfg.enabledFilter then passesFilters f.data cfg.filters else true

/-- `CALC_CAPLEN`. -/
def calcCaplen (cap len : Nat) : Nat := if cap = 0 then len else min cap len

def asBufferOffset (cfg : Config) (offset : Nat) : Nat := offset % cfg.bufSize
def asFileOffset (cfg : Config) (offset : Nat) : Nat := offset % cfg.fileSize

/-- A call of `set_padding`: the buffer offset, the stream position that offset
stands for, and the length to be marked. -/
structure Pad where
  offset : Nat
  pos : Nat
  padlen : Nat

/-- What one `atomic_add_return` and the offset computations after it give. -/
structure Slot where
  writeOff : Nat
  bufferDstOffset : Nat
  padlen : Nat
  pads : List Pad

/-- One pass of the reservation loop, for `toWrite` bytes from stream position `pos`. -/
def reserve (cfg : Config) (pos writeOff toWrite : Nat) : Slot :=
  let writeOff := atomicAddReturn toWrite writeOff
  let offset := signExtend writeOff
  let offsetDst := offsetDst toWrite writeOff
  let fileFinalOffset := asFileOffset cfg offset
  let fileDstOffset := asFileOffset cfg offsetDst
  let bufferDstOffset := asBufferOffset cfg offsetDst
  if fileDstOffset + toWrite + rawHlen > cfg.fileSize then
    -- no room left in the file for the frame and one more header
    let padlen := cfg.fileSize - fileDstOffset
    let first := ⟨bufferDstOffset, pos, padlen⟩
    if fileFinalOffset ≥ rawHlen then
      ⟨writeOff, bufferDstOffset, padlen,
        [first, ⟨asBufferOffset cfg (add64 offsetDst padlen), pos + padlen, fileFinalOffset⟩]⟩
    else ⟨writeOff, bufferDstOffset, padlen, [first]⟩
  else if 0 < fileDstOffset ∧ fileDstOffset < rawHlen then
    -- the last reservation left the start of this file without its padding
    let padlen := asBufferOffset cfg (add64 offsetDst fileFinalOffset)
    ⟨writeOff, bufferDstOffset, padlen,
      [⟨asBufferOffset cfg (offsetDst - fileDstOffset), pos - fileDstOffset, padlen⟩]⟩
  else ⟨writeOff, bufferDstOffset, 0, []⟩

/-- A reservation as it was made: where in the stream, how long, and the budget
`limit - cnt` that was left before it. -/
structure Reserved where
  start : Nat
  toWrite : Nat
  room : Nat
  deriving DecidableEq

/-- The stream behind the circular buffer, newest entries first. The code keeps
none of this. -/
structure Trace where
  reserved : Nat
  writes : List (Nat × List UInt8)
  reservations : List Reserved
  accepted : List Frame

structure State where
  dstBuf : Nat → UInt8
  consumerWriteOff : Nat
  hpcapClientLoss : Nat
  hpcapClientDiscard : Nat
  trace : Trace

/-- The state after `hpcap_reset_buffer_offsets`: a new stream begins. -/
def State.reset (s : State) : State :=
  { s with consumerWriteOff := 0, trace := ⟨0, [], [], []⟩ }

def State.init (dstBuf : Nat → UInt8) : State := ⟨dstBuf, 0, 0, 0, ⟨0, [], [], []⟩⟩

/-- Copy `bytes` to buffer offset `offset`, which stands for stream position `pos`. -/
def State.store (cfg : Config) (s : State) (offset pos : Nat) (bytes : List UInt8) : State :=
  { s with
    dstBuf := (copyToCircularBuffer s.dstBuf cfg.bufSize offset bytes).1
    trace := { s.trace with writes := (pos, bytes) :: s.trace.writes } }

/-- The header of a padding record of `padlen` bytes in all. -/
def paddingHeader (padlen : Nat) : RawHeader where
  sec := 0
  nsec := 0
  caplen := UInt16.ofNat (padlen - rawHlen)
  len := UInt16.ofNat (padlen - rawHlen)

def setPadding (cfg : Config) (s : State) (p : Pad) : State :=
  if p.padlen < rawHlen then s else s.store cfg p.offset p.pos (paddingHeader p.padlen).toBytes

/-- The state once `toWrite` bytes are reserved and the padding written. -/
def State.claim (cfg : Config) (s : State) (toWrite room : Nat) (slot : Slot) : State :=
  slot.pads.foldl (setPadding cfg)
    { s with
      consumerWriteOff := slot.writeOff
      trace := { s.trace with
        reserved := s.trace.reserved + toWrite
        reservations := ⟨s.trace.reserved, toWrite, room⟩ :: s.trace.reservations } }

/-- The reservation loop: the new `cnt` and, unless the space ran out, the
buffer offset for the frame and the stream position it stands for. Every pass
uses up some of `limit - cnt`, so `limit` passes are enough. -/
def reserveLoop (cfg : Config) (limit toWrite : Nat) :
    Nat → Nat → State → Nat × Option (Nat × Nat) × State
  | 0, cnt, s => (cnt, none, { s with hpcapClientLoss := s.hpcapClientLoss + 1 })
  | fuel + 1, cnt, s =>
    if limit - cnt < toWrite + rawHlen then
      (cnt, none, { s with hpcapClientLoss := s.hpcapClientLoss + 1 })
    else
      let slot := reserve cfg s.trace.reserved s.consumerWriteOff toWrite
      let t := s.claim cfg toWrite (limit - cnt) slot
      if slot.padlen > 0 then reserveLoop cfg limit toWrite fuel (cnt + toWrite) t
      else (cnt + toWrite, some (slot.bufferDstOffset, s.trace.reserved), t)

/-- The header written before a frame. -/
def frameHeader (cfg : Config) (f : Frame) : RawHeader where
  sec := UInt32.ofNat f.tvSec
  nsec := UInt32.ofNat f.tvNsec
  caplen := UInt16.ofNat (calcCaplen cfg.caplen f.size)
  len := UInt16.ofNat f.size

/-- The bytes of a frame that are kept. -/
def payload (cfg : Config) (f : Frame) : List UInt8 :=
  f.data.take (min (calcCaplen cfg.caplen f.size) maxDescrSize)

def storeFrame (cfg : Config) (s : State) (offset pos : Nat) (f : Frame) : State :=
  let header := (frameHeader cfg f).toBytes
  let s' := s.store cfg offset pos header
  let s'' := s'.store cfg (copyToCircularBuffer s.dstBuf cfg.bufSize offset header).2
    (pos + rawHlen) (payload cfg f)
  { s'' with trace := { s''.trace with accepted := f :: s''.trace.accepted } }

/-- The body of the receive loop for one frame: `cnt`, `out_of_space` and the state. -/
def rxFrame (cfg : Config) (limit : Nat) (pktBuf : Bool) (f : Frame) (cnt : Nat) (s : State) :
    Nat × Bool × State :=
  if passesFilter cfg f = false then (cnt, false, s)
  else if pktBuf = false then
    (cnt, false, { s with hpcapClientDiscard := s.hpcapClientDiscard + 1 })
  else
    match reserveLoop cfg limit (calcCaplen cfg.caplen f.size + rawHlen) limit cnt s with
    | (cnt, none, s) => (cnt, true, s)
    | (cnt, some (offset, pos), s) => (cnt, false, storeFrame cfg s offset pos f)

/-- The receive loop over the frames the ring holds: `cnt`, the frames left in
the ring and the state. A frame of length zero looks like an empty ring to a
thread that has a buffer. -/
def rxLoop (cfg : Config) (limit : Nat) (pktBuf : Bool) :
    List Frame → Nat → State → Nat × List Frame × State
  | [], cnt, s => (cnt, [], s)
  | f :: fs, cnt, s =>
    if cnt < limit then
      if pktBuf ∧ f.size = 0 then (cnt, f :: fs, s)
      else
        match rxFrame cfg limit pktBuf f cnt s with
        | (cnt, true, s) => (cnt + f.size, fs, s)
        | (cnt, false, s) => rxLoop cfg limit pktBuf fs (cnt + f.size) s
    else (cnt, f :: fs, s)

def hpcapRx (cfg : Config) (limit : Nat) (pktBuf : Bool) (frames : List Frame) (s : State) :
    Nat × List Frame × State :=
  rxLoop cfg limit pktBuf frames 0 s

section Fields

variable (cfg : Config) (s : State) (offset pos : Nat) (bytes : List UInt8) (p : Pad)

@[simp] theorem store_consumerWriteOff :
    (s.store cfg offset pos bytes).consumerWriteOff = s.consumerWriteOff := rfl

@[simp] theorem store_reserved :
    (s.store cfg offset pos bytes).trace.reserved = s.trace.reserved := rfl

@[simp] theorem store_reservations :
    (s.store cfg offset pos bytes).trace.reservations = s.trace.reservations := rfl

@[simp] theorem store_accepted :
    (s.store cfg offset pos bytes).trace.accepted = s.trace.accepted := rfl

@[simp] theorem setPadding_consumerWriteOff :
    (setPadding cfg s p).consumerWriteOff = s.consumerWriteOff := by
  simp only [setPadding]
  split <;> rfl

@[simp] theorem setPadding_reserved :
    (setPadding cfg s p).trace.reserved = s.trace.reserved := by
  simp only [setPadding]
  split <;> rfl

@[simp] theorem setPadding_reservations :
    (setPadding cfg s p).trace.reservations = s.trace.reservations := by
  simp only [setPadding]
  split <;> rfl

@[simp] theorem setPadding_accepted :
    (setPadding cfg s p).trace.accepted = s.trace.accepted := by
  simp only [setPadding]
  split <;> rfl

/-- Writing the padding touches neither the counter nor what is reserved and accepted. -/
theorem foldl_setPadding (pads : List Pad) :
    (pads.foldl (setPadding cfg) s).consumerWriteOff = s.consumerWriteOff ∧
      (pads.foldl (setPadding cfg) s).trace.reserved = s.trace.reserved ∧
      (pads.foldl (setPadding cfg) s).trace.reservations = s.trace.reservations ∧
      (pads.foldl (setPadding cfg) s).trace.accepted = s.trace.accepted := by
  induction pads generalizing s with
  | nil => simp
  | cons p ps ih => simpa using ih (setPadding cfg s p)

variable (toWrite room : Nat) (slot : Slot)

@[simp] theorem claim_consumerWriteOff :
    (s.claim cfg toWrite room slot).consumerWriteOff = slot.writeOff :=
  (foldl_setPadding cfg _ slot.pads).1

@[simp] theorem claim_reserved :
    (s.claim cfg toWrite room slot).trace.reserved = s.trace.reserved + toWrite :=
  (foldl_setPadding cfg _ slot.pads).2.1

@[simp] theorem claim_reservations :
    (s.claim cfg toWrite room slot).trace.reservations =
      ⟨s.trace.reserved, toWrite, room⟩ :: s.trace.reservations :=
  (foldl_setPadding cfg _ slot.pads).2.2.1

@[simp] theorem claim_accepted :
    (s.claim cfg toWrite room slot).trace.accepted = s.trace.accepted :=
  (foldl_setPadding cfg _ slot.pads).2.2.2

@[simp] theorem storeFrame_consumerWriteOff (f : Frame) :
    (storeFrame cfg s offset pos f).consumerWriteOff = s.consumerWriteOff := rfl

@[simp] theorem storeFrame_reserved (f : Frame) :
    (storeFrame cfg s offset pos f).trace.reserved = s.trace.reserved := rfl

@[simp] theorem storeFrame_reservations (f : Frame) :
    (storeFrame cfg s offset pos f).trace.reservations = s.trace.reservations := rfl

@[simp] theorem storeFrame_accepted (f : Frame) :
    (storeFrame cfg s offset pos f).trace.accepted = f :: s.trace.accepted := rfl

end Fields

/-- The 32-bit counter is the end of the stream, as far as 32 bits can tell. -/
def State.Counted (s : State) : Prop := s.consumerWriteOff = s.trace.reserved % 2 ^ 32

theorem reserve_writeOff (cfg : Config) (pos writeOff toWrite : Nat) :
    (reserve cfg pos writeOff toWrite).writeOff = atomicAddReturn toWrite writeOff := by
  simp only [reserve, apply_ite Slot.writeOff, ite_self]

theorem State.Counted.lose {s : State} (h : s.Counted) :
    State.Counted { s with hpcapClientLoss := s.hpcapClientLoss + 1 } := h

theorem State.Counted.discard {s : State} (h : s.Counted) :
    State.Counted { s with hpcapClientDiscard := s.hpcapClientDiscard + 1 } := h

theorem claim_counted (cfg : Config) {s : State} (h : s.Counted) (toWrite room : Nat) :
    (s.claim cfg toWrite room
      (reserve cfg s.trace.reserved s.consumerWriteOff toWrite)).Counted := by
  rw [State.Counted] at h
  rw [State.Counted, claim_consumerWriteOff, claim_reserved, reserve_writeOff, atomicAddReturn, h,
    Nat.mod_add_mod]

theorem reserveLoop_zero (cfg : Config) (limit toWrite cnt : Nat) (s : State) :
    reserveLoop cfg limit toWrite 0 cnt s =
      (cnt, none, { s with hpcapClientLoss := s.hpcapClientLoss + 1 }) := rfl

theorem reserveLoop_full (cfg : Config) {limit toWrite fuel cnt : Nat} (s : State)
    (h : limit - cnt < toWrite + rawHlen) :
    reserveLoop cfg limit toWrite (fuel + 1) cnt s =
      (cnt, none, { s with hpcapClientLoss := s.hpcapClientLoss + 1 }) :=
  if_pos h

theorem reserveLoop_again (cfg : Config) {limit toWrite fuel cnt : Nat} {s : State}
    (h : ¬ limit - cnt < toWrite + rawHlen)
    (hp : 0 < (reserve cfg s.trace.reserved s.consumerWriteOff toWrite).padlen) :
    reserveLoop cfg limit toWrite (fuel + 1) cnt s =
      reserveLoop cfg limit toWrite fuel (cnt + toWrite) (s.claim cfg toWrite (limit - cnt)
        (reserve cfg s.trace.reserved s.consumerWriteOff toWrite)) := by
  rw [reserveLoop, if_neg h]
  exact if_pos hp

theorem reserveLoop_done (cfg : Config) {limit toWrite fuel cnt : Nat} {s : State}
    (h : ¬ limit - cnt < toWrite + rawHlen)
    (hp : ¬ 0 < (reserve cfg s.trace.reserved s.consumerWriteOff toWrite).padlen) :
    reserveLoop cfg limit toWrite (fuel + 1) cnt s =
      (cnt + toWrite,
        some ((reserve cfg s.trace.reserved s.consumerWriteOff toWrite).bufferDstOffset,
          s.trace.reserved),
        s.claim cfg toWrite (limit - cnt)
          (reserve cfg s.trace.reserved s.consumerWriteOff toWrite)) := by
  rw [reserveLoop, if_neg h]
  exact if_neg hp

/-- What the reservation loop adds to `cnt` it has reserved, within the limit. -/
theorem reserveLoop_cnt (cfg : Config) (limit toWrite fuel cnt : Nat) (s : State) :
    cnt ≤ (reserveLoop cfg limit toWrite fuel cnt s).1 ∧
      (reserveLoop cfg limit toWrite fuel cnt s).1 ≤ max cnt limit ∧
      (reserveLoop cfg limit toWrite fuel cnt s).2.2.trace.reserved + cnt =
        s.trace.reserved + (reserveLoop cfg limit toWrite fuel cnt s).1 := by
  induction fuel generalizing cnt s with
  | zero => exact ⟨le_rfl, le_max_left _ _, rfl⟩
  | succ fuel ih =>
    by_cases hf : limit - cnt < toWrite + rawHlen
    · rw [reserveLoop_full cfg s hf]
      exact ⟨le_rfl, le_max_left _ _, rfl⟩
    · by_cases hp : 0 < (reserve cfg s.trace.reserved s.consumerWriteOff toWrite).padlen
      · rw [reserveLoop_again cfg hf hp]
        obtain ⟨hle, hmax, hr⟩ := ih (cnt + toWrite) (s.claim cfg toWrite (limit - cnt)
          (reserve cfg s.trace.reserved s.consumerWriteOff toWrite))
        rw [claim_reserved] at hr
        exact ⟨by omega, by omega, by omega⟩
      · rw [reserveLoop_done cfg hf hp]
        refine ⟨Nat.le_add_right _ _, ?_, ?_⟩
        · dsimp only
          omega
        · rw [claim_reserved]
          omega

theorem reserveLoop_counted (cfg : Config) (limit toWrite fuel cnt : Nat) {s : State}
    (h : s.Counted) : (reserveLoop cfg limit toWrite fuel cnt s).2.2.Counted := by
  induction fuel generalizing cnt s with
  | zero => exact h.lose
  | succ fuel ih =>
    by_cases hf : limit - cnt < toWrite + rawHlen
    · rw [reserveLoop_full cfg s hf]
      exact h.lose
    · have ht := claim_counted cfg h toWrite (limit - cnt)
      by_cases hp : 0 < (reserve cfg s.trace.reserved s.consumerWriteOff toWrite).padlen
      · rw [reserveLoop_again cfg hf hp]
        exact ih (cnt + toWrite) ht
      · rw [reserveLoop_done cfg hf hp]
        exact ht

section Frames

variable (cfg : Config) (limit : Nat) (pktBuf : Bool)

/-- The four things that can happen to a frame. -/
theorem rxFrame_cases (f : Frame) (cnt : Nat) (s : State) :
    rxFrame cfg limit pktBuf f cnt s = (cnt, false, s) ∨
    rxFrame cfg limit pktBuf f cnt s =
      (cnt, false, { s with hpcapClientDiscard := s.hpcapClientDiscard + 1 }) ∨
    (∃ cnt' t, reserveLoop cfg limit (calcCaplen cfg.caplen f.size + rawHlen) limit cnt s =
        (cnt', none, t) ∧
      pktBuf = true ∧ rxFrame cfg limit pktBuf f cnt s = (cnt', true, t)) ∨
    ∃ cnt' offset pos t, reserveLoop cfg limit (calcCaplen cfg.caplen f.size + rawHlen) limit
        cnt s = (cnt', some (offset, pos), t) ∧
      pktBuf = true ∧
      rxFrame cfg limit pktBuf f cnt s = (cnt', false, storeFrame cfg t offset pos f) := by
  by_cases hp : passesFilter cfg f = false
  · exact .inl (if_pos hp)
  · cases pktBuf with
    | false =>
      refine .inr (.inl ?_)
      rw [rxFrame, if_neg hp]
      exact if_pos rfl
    | true =>
      refine .inr (.inr ?_)
      rw [rxFrame, if_neg hp, if_neg Bool.true_eq_false.mp]
      obtain ⟨cnt', o, t⟩ := reserveLoop cfg limit (calcCaplen cfg.caplen f.size + rawHlen)
        limit cnt s
      cases o with
      | none => exact .inl ⟨cnt', t, rfl, rfl, rfl⟩
      | some p => exact .inr ⟨cnt', p.1, p.2, t, rfl, rfl, rfl⟩

/-- What survives every frame, and the counting of its size, survives the receive loop. -/
theorem rxLoop_invariant (inv : Nat → State → Prop) {fs : List Frame}
    (hadd : ∀ f ∈ fs, ∀ cnt s, inv cnt s → inv (cnt + f.size) s)
    (hframe : ∀ f ∈ fs, ∀ cnt s, cnt < limit → inv cnt s →
      inv (rxFrame cfg limit pktBuf f cnt s).1 (rxFrame cfg limit pktBuf f cnt s).2.2)
    {cnt : Nat} {s : State} (h : inv cnt s) :
    inv (rxLoop cfg limit pktBuf fs cnt s).1 (rxLoop cfg limit pktBuf fs cnt s).2.2 := by
  induction fs generalizing cnt s with
  | nil => exact h
  | cons f fs ih =>
    by_cases hc : cnt < limit
    · rw [rxLoop, if_pos hc]
      by_cases he : pktBuf ∧ f.size = 0
      · rw [if_pos he]
        exact h
      · rw [if_neg he]
        have ha := hadd f (by simp) _ _ (hframe f (by simp) cnt s hc h)
        generalize rxFrame cfg limit pktBuf f cnt s = r at ha ⊢
        obtain ⟨cnt', out, t⟩ := r
        cases out with
        | true => exact ha
        | false =>
          exact ih (fun g hg => hadd g (by simp [hg])) (fun g hg => hframe g (by simp [hg])) ha
    · rw [rxLoop, if_neg hc]
      exact h

end Frames

theorem rxFrame_cnt (cfg : Config) (limit : Nat) (pktBuf : Bool) (f : Frame) (cnt : Nat)
    (s : State) :
    cnt ≤ (rxFrame cfg limit pktBuf f cnt s).1 ∧
      (rxFrame cfg limit pktBuf f cnt s).1 ≤ max cnt limit ∧
      (rxFrame cfg limit pktBuf f cnt s).2.2.trace.reserved + cnt =
        s.trace.reserved + (rxFrame cfg limit pktBuf f cnt s).1 := by
  have hl := reserveLoop_cnt cfg limit (calcCaplen cfg.caplen f.size + rawHlen) limit cnt s
  obtain he | he | ⟨cnt', t, ht, -, he⟩ | ⟨cnt', offset, pos, t, ht, -, he⟩ :=
    rxFrame_cases cfg limit pktBuf f cnt s
  · rw [he]
    exact ⟨le_rfl, le_max_left _ _, rfl⟩
  · rw [he]
    exact ⟨le_rfl, le_max_left _ _, rfl⟩
  · rw [he]
    rw [ht] at hl
    exact hl
  · rw [he]
    rw [ht] at hl
    exact hl

theorem rxFrame_counted (cfg : Config) (limit : Nat) (pktBuf : Bool) (f : Frame) (cnt : Nat)
    {s : State} (h : s.Counted) : (rxFrame cfg limit pktBuf f cnt s).2.2.Counted := by
  have hl := reserveLoop_counted cfg limit (calcCaplen cfg.caplen f.size + rawHlen) limit cnt h
  obtain he | he | ⟨cnt', t, ht, -, he⟩ | ⟨cnt', offset, pos, t, ht, -, he⟩ :=
    rxFrame_cases cfg limit pktBuf f cnt s
  · rw [he]
    exact h
  · rw [he]
    exact h.discard
  · rw [he]
    rw [ht] at hl
    exact hl
  · rw [he]
    rw [ht] at hl
    exact hl

/-- A call reserves no more than its limit. -/
theorem hpcapRx_counted (cfg : Config) (limit : Nat) (pktBuf : Bool) (fs : List Frame) {s : State}
    (h : s.Counted) :
    (hpcapRx cfg limit pktBuf fs s).2.2.Counted ∧
      s.trace.reserved ≤ (hpcapRx cfg limit pktBuf fs s).2.2.trace.reserved ∧
      (hpcapRx cfg limit pktBuf fs s).2.2.trace.reserved ≤ s.trace.reserved + limit := by
  let inv := fun cnt (t : State) => t.Counted ∧ s.trace.reserved ≤ t.trace.reserved ∧
    t.trace.reserved ≤ s.trace.reserved + cnt ∧ t.trace.reserved ≤ s.trace.reserved + limit
  have hinv : inv (hpcapRx cfg limit pktBuf fs s).1 (hpcapRx cfg limit pktBuf fs s).2.2 := by
    refine rxLoop_invariant cfg limit pktBuf inv ?_ ?_ ⟨h, le_rfl, le_rfl, Nat.le_add_right _ _⟩
    · intro f _ cnt t ⟨hc, hlo, hcnt, hlim⟩
      exact ⟨hc, hlo, by omega, hlim⟩
    · intro f _ cnt t hlt ⟨hc, hlo, hcnt, hlim⟩
      obtain ⟨hle, hmax, hr⟩ := rxFrame_cnt cfg limit pktBuf f cnt t
      exact ⟨rxFrame_counted cfg limit pktBuf f cnt hc, by omega, by omega, by omega⟩
  exact ⟨hinv.1, hinv.2.1, hinv.2.2.2⟩

end Hpcap.Rx
