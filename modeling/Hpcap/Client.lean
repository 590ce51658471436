import Hpcap.Listeners
import Hpcap.Transition

namespace Hpcap.Client

open Hpcap.Reservation Hpcap.SharedLog Hpcap.Listeners Hpcap.Transition

/-- `struct hpcap_handle`: where the client reads next, how much it may read and how much
of that it has read and not acknowledged. -/
structure Handle where
  fileOffset : Nat
  rdoff : Nat
  avail : Nat
  acks : Nat
  bufSize : Nat
  deriving DecidableEq

/-- `struct hpcap_listener_op`. -/
structure ListenerOp where
  ackBytes : Nat
  expectBytes : Nat
  availableBytes : Nat
  readOffset : Nat
  writeOffset : Nat
  timeoutNs : Nat
  deriving DecidableEq

def hpcapAdvanceRdoffBy (h : Handle) (readBytes : Nat) : Handle :=
  { h with
    rdoff := add64 h.rdoff readBytes % h.bufSize
    fileOffset := add64 h.fileOffset readBytes % hpcapFilesize }

def hpcapAdvanceRdoffTo (h : Handle) (newOffset : Nat) : Handle :=
  hpcapAdvanceRdoffBy h
    (if newOffset > h.rdoff then newOffset - h.rdoff
    else if newOffset < h.rdoff then add64 (sub64 h.bufSize h.rdoff) newOffset
    else 0)

/-- What the driver keeps for the client. -/
structure Driver where
  listener : Listener
  alreadyPopped : Bool

/-- What a call does not determine: what its `lstop` holds before it is filled in, and how
much is pushed before the driver looks and each time it sleeps. -/
structure Env where
  stack : ListenerOp
  meanwhile : List Nat
  sleeps : List (List Nat)

def pushAll (l : Listener) (counts : List Nat) : Listener :=
  counts.foldl (fun l count => (pushSlot count l).1) l

abbrev sleepQuant : Nat := 200

/-- The number of loops goes through an `int`, and a negative one is none. -/
def numLoops (timeoutNs : Nat) : Nat :=
  let loops := timeoutNs / sleepQuant % 2 ^ 32
  if loops < 2 ^ 31 then loops else 0

def waitLoop (desired : Nat) : Nat → List (List Nat) → Listener → Listener × Nat
  | 0, _, l => (l, usedBytes l)
  | k + 1, sleeps, l =>
    if l.kill = false ∧ usedBytes l < desired then
      waitLoop desired k sleeps.tail (pushAll l (sleeps.headD []))
    else (l, usedBytes l)

def hpcapWaitListenerUser (l : Listener) (lstop : ListenerOp) (sleeps : List (List Nat)) :
    Listener × ListenerOp :=
  let r := waitLoop lstop.expectBytes (numLoops lstop.timeoutNs) sleeps l
  if r.1.kill then (r.1, lstop)
  else (r.1, { lstop with readOffset := r.1.bufferRdOffset, availableBytes := r.2 })

/-- The listener once `ackBytes` are acknowledged. -/
def acknowledge (d : Driver) (ackBytes : Nat) : Driver :=
  if ackBytes > 0 then ⟨(hpcapPopListener d.listener ackBytes).1, true⟩ else d

/-- `HPCAP_IOC_LSTOP`. -/
def hpcapIoctlLstop (d : Driver) (lstop : ListenerOp) (e : Env) : Driver × ListenerOp :=
  let d := acknowledge d lstop.ackBytes
  let l := pushAll d.listener e.meanwhile
  if lstop.expectBytes > 0 then
    let r := hpcapWaitListenerUser l lstop e.sleeps
    (⟨r.1, d.alreadyPopped⟩, r.2)
  else (⟨l, d.alreadyPopped⟩, lstop)

/-- The client and its listener. `consumed` counts what the client has read. -/
structure State where
  driver : Driver
  handle : Handle
  consumed : Nat

/-- The bytes a call acknowledges. -/
def ackBytes (h : Handle) (doAck : Bool) : Nat := if doAck ∧ h.acks > 0 then h.acks else 0

/-- The `lstop` of a call. -/
def callOp (h : Handle) (expectBytes : Nat) (doAck : Bool) (timeoutNs : Nat) (e : Env) :
    ListenerOp :=
  { e.stack with
    ackBytes := ackBytes h doAck
    expectBytes := expectBytes
    timeoutNs := timeoutNs }

/-- `_hpcap_do_listener_op`, or nothing when it aborts. -/
def hpcapDoListenerOp (s : State) (expectBytes : Nat) (doAck : Bool) (timeoutNs : Nat) (e : Env) :
    Option State :=
  let r := hpcapIoctlLstop s.driver (callOp s.handle expectBytes doAck timeoutNs e) e
  if doAck ∧ s.handle.avail < s.handle.acks then none
  else
    let h := if doAck then { s.handle with avail := s.handle.avail - s.handle.acks, acks := 0 }
      else s.handle
    let h := if expectBytes > 0 ∧ r.2.availableBytes ≥ expectBytes then
        hpcapAdvanceRdoffTo { h with avail := r.2.availableBytes } r.2.readOffset
      else h
    some { s with driver := r.1, handle := h }

def hpcapWait (s : State) (count : Nat) (e : Env) : Option State :=
  hpcapDoListenerOp s count false 0 e

def hpcapAck (s : State) (e : Env) : Option State := hpcapDoListenerOp s 0 true 0 e

def hpcapAckWait (s : State) (waitcount : Nat) (e : Env) : Option State :=
  hpcapDoListenerOp s waitcount true 0 e

def hpcapAckWaitTimeout (s : State) (waitcount timeoutNs : Nat) (e : Env) : Option State :=
  hpcapDoListenerOp s waitcount true timeoutNs e

/-- What the read functions do to the handle when they consume `k` bytes. -/
def consume (s : State) (k : Nat) : State :=
  let h := hpcapAdvanceRdoffBy s.handle k
  { s with handle := { h with acks := h.acks + k }, consumed := s.consumed + k }

inductive Call
  | push (count : Nat)
  | wait (count : Nat) (e : Env)
  | ack (e : Env)
  | ackWait (waitcount : Nat) (e : Env)
  | ackWaitTimeout (waitcount timeoutNs : Nat) (e : Env)
  | consume (k : Nat)

def step (s : State) : Call → Option State
  | .push count => some { s with driver := { s.driver with
      listener := (pushSlot count s.driver.listener).1 } }
  | .wait count e => hpcapWait s count e
  | .ack e => hpcapAck s e
  | .ackWait waitcount e => hpcapAckWait s waitcount e
  | .ackWaitTimeout waitcount timeoutNs e => hpcapAckWaitTimeout s waitcount timeoutNs e
  | .consume k => if s.handle.acks + k ≤ s.handle.avail then some (consume s k) else none

/-- The driver pushes nothing onto a listener without room. -/
def PushFits (l : Listener) (count : Nat) : Prop := 0 < availBytes l ∨ count = 0

instance (l : Listener) (count : Nat) : Decidable (PushFits l count) :=
  inferInstanceAs (Decidable (_ ∨ _))

def PushesFit (l : Listener) : List Nat → Prop
  | [] => True
  | count :: counts => PushFits l count ∧ PushesFit (pushSlot count l).1 counts

instance decidablePushesFit : (l : Listener) → (counts : List Nat) → Decidable (PushesFit l counts)
  | _, [] => .isTrue trivial
  | l, count :: counts =>
    have := decidablePushesFit (pushSlot count l).1 counts
    inferInstanceAs (Decidable (_ ∧ _))

def SleepsFit (desired : Nat) : Nat → List (List Nat) → Listener → Prop
  | 0, _, _ => True
  | k + 1, sleeps, l => l.kill = false ∧ usedBytes l < desired →
    PushesFit l (sleeps.headD []) ∧
      SleepsFit desired k sleeps.tail (pushAll l (sleeps.headD []))

instance decidableSleepsFit (desired : Nat) :
    (k : Nat) → (sleeps : List (List Nat)) → (l : Listener) → Decidable (SleepsFit desired k sleeps l)
  | 0, _, _ => .isTrue trivial
  | k + 1, sleeps, l =>
    have := decidableSleepsFit desired k sleeps.tail (pushAll l (sleeps.headD []))
    inferInstanceAs (Decidable (_ → _))

/-- All the pushes that take place during a call fit. -/
def CallFits (s : State) (expectBytes : Nat) (doAck : Bool) (timeoutNs : Nat) (e : Env) : Prop :=
  let l := (acknowledge s.driver (ackBytes s.handle doAck)).listener
  PushesFit l e.meanwhile ∧
    (0 < expectBytes →
      SleepsFit expectBytes (numLoops timeoutNs) e.sleeps (pushAll l e.meanwhile))

instance (s : State) (expectBytes : Nat) (doAck : Bool) (timeoutNs : Nat) (e : Env) :
    Decidable (CallFits s expectBytes doAck timeoutNs e) :=
  inferInstanceAs (Decidable (_ ∧ _))

/-- What is pushed fits, and a wait that finds enough bytes comes with nothing read and not
yet acknowledged. -/
def Careful (s : State) : Call → Prop
  | .push count => PushFits s.driver.listener count
  | .wait count e => CallFits s count false 0 e ∧
    (s.handle.acks = 0 ∨ count = 0 ∨ usedBytes (pushAll s.driver.listener e.meanwhile) < count)
  | .ack e => CallFits s 0 true 0 e
  | .ackWait waitcount e => CallFits s waitcount true 0 e
  | .ackWaitTimeout waitcount timeoutNs e => CallFits s waitcount true timeoutNs e
  | .consume _ => True

instance (s : State) : DecidablePred (Careful s) := fun a => by
  unfold Careful
  split <;> infer_instance

/-- A listener in use, at `r` in a stream written up to `w`. -/
structure Standing (n r w : Nat) (l : Listener) : Prop extends At n r w l where
  le : r ≤ w
  fits : w < r + n
  id : l.id ≠ listenerEmpty

/-- Such a listener that is not killed. -/
structure Live (n r w : Nat) (l : Listener) : Prop extends Standing n r w l where
  alive : l.kill = false

section Live

variable {n r w : Nat} {l : Listener}

theorem Standing.used (h : Standing n r w l) : usedBytes l = w - r := h.usedBytes h.le h.fits

theorem Standing.push (h : Standing n r w l) (hn : n ≤ 2 ^ 63) {count : Nat}
    (hc : PushFits l count) : ∃ w', w ≤ w' ∧ Standing n r w' (pushSlot count l).1 ∧
      (pushSlot count l).1.kill = l.kill := by
  obtain ⟨k, hk, he⟩ := h.push_clamped h.le h.fits hn hc false (.inr h.id)
  have hle := h.le
  have hfits := h.fits
  refine ⟨w + k, Nat.le_add_right _ _, ?_⟩
  rw [pushSlot, if_pos h.id, he]
  exact ⟨⟨⟨h.bufsz, h.rd, rfl⟩, by omega, by omega, h.id⟩, rfl⟩

/-- A listener is popped no further than it is written. -/
theorem Standing.pop (h : Standing n r w l) (count : Nat) :
    Standing n (r + min count (w - r)) w (hpcapPopListener l count).1 := by
  have hle := h.le
  have hfits := h.fits
  exact ⟨h.toAt.pop h.le h.fits, by omega, by omega, h.id⟩

theorem Standing.acknowledge {d : Driver} (h : Standing n r w d.listener) (ack : Nat) :
    Standing n (r + min ack (w - r)) w (acknowledge d ack).listener := by
  rw [Client.acknowledge]
  split
  · exact h.pop ack
  · rename_i hzero
    have hnone : r + min ack (w - r) = r := by omega
    rw [hnone]
    exact h

theorem Live.push (h : Live n r w l) (hn : n ≤ 2 ^ 63) {count : Nat} (hc : PushFits l count) :
    ∃ w', w ≤ w' ∧ Live n r w' (pushSlot count l).1 := by
  obtain ⟨w', hw, hl, hkill⟩ := h.toStanding.push hn hc
  exact ⟨w', hw, hl, hkill.trans h.alive⟩

theorem Live.pushAll (h : Live n r w l) (hn : n ≤ 2 ^ 63) {counts : List Nat}
    (hc : PushesFit l counts) : ∃ w', w ≤ w' ∧ Live n r w' (pushAll l counts) := by
  induction counts generalizing w l with
  | nil => exact ⟨w, le_rfl, h⟩
  | cons count counts ih =>
    obtain ⟨w₁, h₁, hl⟩ := h.push hn hc.1
    obtain ⟨w₂, h₂, hl⟩ := ih hl hc.2
    exact ⟨w₂, h₁.trans h₂, hl⟩

theorem Live.waitLoop (h : Live n r w l) (hn : n ≤ 2 ^ 63) {desired k : Nat}
    {sleeps : List (List Nat)} (hc : SleepsFit desired k sleeps l) :
    ∃ w', w ≤ w' ∧ Live n r w' (waitLoop desired k sleeps l).1 ∧
      (waitLoop desired k sleeps l).2 = w' - r := by
  induction k generalizing w l sleeps with
  | zero => exact ⟨w, le_rfl, h, h.used⟩
  | succ k ih =>
    rw [Client.waitLoop]
    by_cases hwait : l.kill = false ∧ usedBytes l < desired
    · rw [if_pos hwait]
      obtain ⟨hpush, hrest⟩ := hc hwait
      obtain ⟨w₁, h₁, hl⟩ := h.pushAll hn hpush
      obtain ⟨w₂, h₂, hl⟩ := ih hl hrest
      exact ⟨w₂, h₁.trans h₂, hl⟩
    · rw [if_neg hwait]
      exact ⟨w, le_rfl, h, h.used⟩

theorem acknowledge_kill (d : Driver) (ack : Nat) :
    (acknowledge d ack).listener.kill = d.listener.kill := by
  rw [acknowledge]
  split <;> rfl

theorem Live.acknowledge {d : Driver} (h : Live n r w d.listener) {ack : Nat} (hc : r + ack ≤ w) :
    Live n (r + ack) w (acknowledge d ack).listener := by
  have hstands := h.toStanding.acknowledge ack
  rw [Nat.min_eq_left (by omega)] at hstands
  exact ⟨hstands, (acknowledge_kill d ack).trans h.alive⟩

theorem hpcapWaitListenerUser_now (h : l.kill = false) {lstop : ListenerOp}
    (ht : lstop.timeoutNs = 0) (sleeps : List (List Nat)) : hpcapWaitListenerUser l lstop sleeps =
      (l, { lstop with readOffset := l.bufferRdOffset, availableBytes := usedBytes l }) := by
  have hloops : numLoops 0 = 0 := rfl
  rw [hpcapWaitListenerUser, ht, hloops, Client.waitLoop]
  dsimp only
  rw [if_neg (by rw [h]; decide)]

/-- What an `LSTOP` leaves behind, and what it tells of the listener. -/
theorem lstop_spec {d : Driver} (h : Live n r w d.listener) (hn : n ≤ 2 ^ 63) {lstop : ListenerOp}
    {e : Env} (hack : r + lstop.ackBytes ≤ w)
    (hpush : PushesFit (acknowledge d lstop.ackBytes).listener e.meanwhile)
    (hsleep : 0 < lstop.expectBytes →
      SleepsFit lstop.expectBytes (numLoops lstop.timeoutNs) e.sleeps
        (pushAll (acknowledge d lstop.ackBytes).listener e.meanwhile)) :
    ∃ w', w ≤ w' ∧ Live n (r + lstop.ackBytes) w' (hpcapIoctlLstop d lstop e).1.listener ∧
      (0 < lstop.expectBytes →
        (hpcapIoctlLstop d lstop e).2.readOffset = (r + lstop.ackBytes) % n ∧
        (hpcapIoctlLstop d lstop e).2.availableBytes = w' - (r + lstop.ackBytes)) := by
  obtain ⟨w₁, h₁, hpushed⟩ := (h.acknowledge hack).pushAll hn hpush
  rw [hpcapIoctlLstop]
  dsimp only
  by_cases hexp : 0 < lstop.expectBytes
  · obtain ⟨w₂, h₂, hwaited, hused⟩ := hpushed.waitLoop hn (hsleep hexp)
    rw [if_pos hexp, hpcapWaitListenerUser, if_neg (by rw [hwaited.alive]; decide)]
    exact ⟨w₂, h₁.trans h₂, hwaited, fun _ => ⟨hwaited.rd, hused⟩⟩
  · rw [if_neg hexp]
    exact ⟨w₁, h₁, hpushed, fun hpos => absurd hpos hexp⟩

end Live

theorem advanceRdoffTo_rdoff {h : Handle} {off : Nat} (hmax : h.bufSize ≤ 2 ^ 63)
    (hr : h.rdoff < h.bufSize) (ho : off < h.bufSize) : (hpcapAdvanceRdoffTo h off).rdoff = off := by
  change add64 h.rdoff _ % h.bufSize = off
  obtain hgt | rfl | hlt := Nat.lt_trichotomy h.rdoff off
  · rw [if_pos hgt, add64_small (by omega), Nat.add_sub_cancel' hgt.le, Nat.mod_eq_of_lt ho]
  · rw [if_neg (lt_irrefl _), if_neg (lt_irrefl _), add64_small (by omega), Nat.add_zero,
      Nat.mod_eq_of_lt hr]
  · have hround : h.rdoff + (h.bufSize - h.rdoff + off) = off + h.bufSize := by omega
    have hback : add64 (h.bufSize - h.rdoff) off = h.bufSize - h.rdoff + off :=
      add64_small (by omega)
    rw [if_neg (by omega), if_pos hlt, sub64_of_le hr.le (by omega), hback,
      add64_small (by omega), hround, Nat.add_mod_right, Nat.mod_eq_of_lt ho]

@[simp] theorem advanceRdoffTo_bufSize (h : Handle) (off : Nat) :
    (hpcapAdvanceRdoffTo h off).bufSize = h.bufSize := rfl

@[simp] theorem advanceRdoffTo_avail (h : Handle) (off : Nat) :
    (hpcapAdvanceRdoffTo h off).avail = h.avail := rfl

@[simp] theorem advanceRdoffTo_acks (h : Handle) (off : Nat) :
    (hpcapAdvanceRdoffTo h off).acks = h.acks := rfl

theorem add64_mod_filesize (a b : Nat) : add64 a b % hpcapFilesize = (a + b) % hpcapFilesize :=
  Nat.mod_mod_of_dvd _ ⟨2 ^ 33, by norm_num⟩

theorem advanceRdoffBy_eq {h : Handle} {n : Nat} (hlt : h.rdoff + n < 2 ^ 64) :
    hpcapAdvanceRdoffBy h n = { h with
      rdoff := (h.rdoff + n) % h.bufSize
      fileOffset := (h.fileOffset + n) % hpcapFilesize } := by
  have hsum : add64 h.rdoff n = h.rdoff + n := add64_small hlt
  rw [hpcapAdvanceRdoffBy, hsum, add64_mod_filesize]

/-- An offset less than the buffer's size ahead is reached by going there. -/
theorem advanceRdoffTo_ahead {h : Handle} {n : Nat} (hmax : h.bufSize ≤ 2 ^ 63)
    (hr : h.rdoff < h.bufSize) (hn : n < h.bufSize) :
    hpcapAdvanceRdoffTo h ((h.rdoff + n) % h.bufSize) = hpcapAdvanceRdoffBy h n := by
  rw [hpcapAdvanceRdoffTo]
  congr 1
  by_cases hfit : h.rdoff + n < h.bufSize
  · rw [Nat.mod_eq_of_lt hfit]
    split
    · omega
    · rw [if_neg (by omega)]
      omega
  · have hmod : (h.rdoff + n) % h.bufSize = h.rdoff + n - h.bufSize := by
      rw [Nat.mod_eq_sub_mod (by omega), Nat.mod_eq_of_lt (by omega)]
    have hback : add64 (h.bufSize - h.rdoff) (h.rdoff + n - h.bufSize) =
        h.bufSize - h.rdoff + (h.rdoff + n - h.bufSize) := add64_small (by omega)
    rw [hmod, if_neg (by omega), if_pos (by omega), sub64_of_le hr.le (by omega), hback]
    omega

/-- Listener and handle count as one cursor does. -/
structure Counts {n : Nat} (s : State) (C : Cursor n) : Prop where
  size_le : n ≤ 2 ^ 63
  live : Live n C.acked C.written s.driver.listener
  bufSize : s.handle.bufSize = n
  rdoff_lt : s.handle.rdoff < n
  acks : C.acked + s.handle.acks = C.read
  avail : C.acked + s.handle.avail = C.seen

namespace Counts

variable {n : Nat} {s : State} {C : Cursor n}

theorem acks_le (h : Counts s C) : s.handle.acks ≤ s.handle.avail := by
  have hacks := h.acks
  have havail := h.avail
  have hread := C.read_le
  omega

theorem push (h : Counts s C) {count : Nat} (hc : PushFits s.driver.listener count) :
    ∃ C' : Cursor n, C'.read = C.read ∧ Counts
      { s with driver := { s.driver with listener := (pushSlot count s.driver.listener).1 } } C' := by
  obtain ⟨w, hw, hl⟩ := h.live.push h.size_le hc
  exact ⟨C.publish w hw hl.fits, rfl,
    ⟨h.size_le, hl, h.bufSize, h.rdoff_lt, h.acks, h.avail⟩⟩

theorem consume (h : Counts s C) {k : Nat} (hk : s.handle.acks + k ≤ s.handle.avail) :
    (consume s k).handle.rdoff = (s.handle.rdoff + k) % n ∧
      ∃ C' : Cursor n, C'.read = C.read + k ∧ Counts (consume s k) C' := by
  have hacks := h.acks
  have havail := h.avail
  have hfits := C.fits
  have hseen := C.seen_le
  have hn := h.size_le
  have hlt := h.rdoff_lt
  have hmove : (Client.consume s k).handle.rdoff = (s.handle.rdoff + k) % n := by
    change add64 s.handle.rdoff k % s.handle.bufSize = _
    have ha : add64 s.handle.rdoff k = s.handle.rdoff + k := add64_small (by omega)
    rw [ha, h.bufSize]
  refine ⟨hmove, C.advance k (by omega), rfl, hn, h.live, h.bufSize, ?_, ?_, h.avail⟩
  · rw [hmove]
    exact Nat.mod_lt _ (by omega)
  · change C.acked + (s.handle.acks + k) = C.read + k
    omega

/-- The driver has moved the listener on, and nothing is acknowledged. -/
theorem pushed (h : Counts s C) {d : Driver} {w : Nat} (hw : C.written ≤ w)
    (hl : Live n C.acked w d.listener) : ∃ C' : Cursor n, C'.acked = C.acked ∧ C'.read = C.read ∧
      C'.written = w ∧ Counts { s with driver := d } C' :=
  ⟨C.publish w hw hl.fits, rfl, rfl, rfl, h.size_le, hl, h.bufSize, h.rdoff_lt, h.acks, h.avail⟩

/-- It has, and all that is read is acknowledged. -/
theorem acked (h : Counts s C) {d : Driver} {w : Nat} (hw : C.written ≤ w)
    (hl : Live n (C.acked + s.handle.acks) w d.listener) :
    ∃ C' : Cursor n, C'.acked = C.read ∧ C'.read = C.read ∧ C'.written = w ∧ Counts
      { s with
        driver := d
        handle := { s.handle with avail := s.handle.avail - s.handle.acks, acks := 0 } } C' := by
  have hacks := h.acks
  have havail := h.avail
  have hread := C.read_le
  rw [hacks] at hl
  refine ⟨C.ack.publish w hw hl.fits, rfl, rfl, rfl, h.size_le, hl, h.bufSize, h.rdoff_lt, rfl, ?_⟩
  change C.read + (s.handle.avail - s.handle.acks) = C.seen
  omega

/-- With nothing pending the handle is set to what the driver told. -/
theorem looked (h : Counts s C) (h₀ : s.handle.acks = 0) (off avail : Nat)
    (ho : off = C.acked % n) (ha : avail = C.written - C.acked) :
    (hpcapAdvanceRdoffTo { s.handle with avail := avail } off).rdoff = C.look.read % n ∧ Counts
      { s with handle := hpcapAdvanceRdoffTo { s.handle with avail := avail } off } C.look := by
  have hlt := h.live.fits
  have hle := h.live.le
  have hacks := h.acks
  have hread : C.look.read = C.acked := by
    change C.read = C.acked
    omega
  have hoff : off < n := by
    rw [ho]
    exact Nat.mod_lt _ (by omega)
  have hrd : (hpcapAdvanceRdoffTo { s.handle with avail := avail } off).rdoff = off := by
    refine advanceRdoffTo_rdoff ?_ ?_ ?_
    · rw [h.bufSize]
      exact h.size_le
    · rw [h.bufSize]
      exact h.rdoff_lt
    · rw [h.bufSize]
      exact hoff
  refine ⟨?_, h.size_le, h.live, h.bufSize, ?_, h.acks, ?_⟩
  · rw [hrd, ho, hread]
  · rw [hrd]
    exact hoff
  · change C.acked + avail = C.written
    omega

/-- A call leaves the read position where it is, unless it finds new bytes while some are
pending, and makes the handle's offset that position when it finds any. -/
theorem listenerOp (h : Counts s C) {expectBytes timeoutNs : Nat} {doAck : Bool} {e : Env}
    (hfit : CallFits s expectBytes doAck timeoutNs e)
    (hold : doAck = true ∨ s.handle.acks = 0 ∨ expectBytes = 0 ∨
      (hpcapIoctlLstop s.driver (callOp s.handle expectBytes doAck timeoutNs e) e).2.availableBytes <
        expectBytes) :
    ∃ t, hpcapDoListenerOp s expectBytes doAck timeoutNs e = some t ∧ t.consumed = s.consumed ∧
      ∃ C' : Cursor n, C'.read = C.read ∧ Counts t C' ∧
        (t.handle.rdoff = C'.read % n ∨
          t.handle.rdoff = s.handle.rdoff ∧ t.handle.avail ≤ s.handle.avail) := by
  have hacks := h.acks
  have hwritten := C.read_le.trans C.seen_le
  have hpend : ackBytes s.handle doAck ≤ s.handle.acks := by
    rw [ackBytes]
    split <;> omega
  obtain ⟨w, hw, hl, htold⟩ := lstop_spec h.live h.size_le
    (show C.acked + (callOp s.handle expectBytes doAck timeoutNs e).ackBytes ≤ C.written from
      (Nat.add_le_add_left hpend _).trans (hacks.trans_le hwritten)) hfit.1 hfit.2
  rw [hpcapDoListenerOp, if_neg (by have := h.acks_le; omega)]
  generalize hpcapIoctlLstop s.driver (callOp s.handle expectBytes doAck timeoutNs e) e = r
    at hl htold hold
  change Live n (C.acked + ackBytes s.handle doAck) w r.1.listener at hl
  change 0 < expectBytes → r.2.readOffset = (C.acked + ackBytes s.handle doAck) % n ∧
    r.2.availableBytes = w - (C.acked + ackBytes s.handle doAck) at htold
  refine ⟨_, rfl, rfl, ?_⟩
  cases doAck with
  | true =>
    have hall : ackBytes s.handle true = s.handle.acks := by
      rw [ackBytes]
      split
      · rfl
      · simp at *
        omega
    rw [hall] at hl htold
    obtain ⟨C', ha, hr, hwr, hcounts⟩ := h.acked hw hl
    dsimp only
    rw [if_pos rfl]
    by_cases hfound : expectBytes > 0 ∧ r.2.availableBytes ≥ expectBytes
    · obtain ⟨hoff, havail⟩ := htold hfound.1
      rw [if_pos hfound]
      obtain ⟨hrd, hlooked⟩ := hcounts.looked rfl r.2.readOffset r.2.availableBytes
        (by rw [hoff, ha, hacks]) (by rw [havail, hwr, ha, hacks])
      exact ⟨C'.look, hr, hlooked, .inl hrd⟩
    · rw [if_neg hfound]
      exact ⟨C', hr, hcounts, .inr ⟨rfl, Nat.sub_le _ _⟩⟩
  | false =>
    have hnone : ackBytes s.handle false = 0 := by simp [ackBytes]
    rw [hnone, Nat.add_zero] at hl htold
    obtain ⟨C', ha, hr, hwr, hcounts⟩ := h.pushed hw hl
    dsimp only
    rw [if_neg Bool.false_ne_true]
    by_cases hfound : expectBytes > 0 ∧ r.2.availableBytes ≥ expectBytes
    · obtain ⟨hoff, havail⟩ := htold hfound.1
      have hnothing : s.handle.acks = 0 := by
        obtain hf | h₀ | h₀ | hlt := hold
        · exact absurd hf Bool.false_ne_true
        · exact h₀
        · omega
        · omega
      rw [if_pos hfound]
      obtain ⟨hrd, hlooked⟩ := hcounts.looked hnothing r.2.readOffset r.2.availableBytes
        (by rw [hoff, ha]) (by rw [havail, hwr, ha])
      exact ⟨C'.look, hr, hlooked, .inl hrd⟩
    · rw [if_neg hfound]
      exact ⟨C', hr, hcounts, .inr ⟨rfl, le_rfl⟩⟩

/-- Without a timeout the driver looks once. -/
theorem wait_available (h : Counts s C) {count : Nat} {e : Env} (hpos : 0 < count)
    (hfit : CallFits s count false 0 e) :
    (hpcapIoctlLstop s.driver (callOp s.handle count false 0 e) e).2.availableBytes =
      usedBytes (pushAll s.driver.listener e.meanwhile) := by
  have hnone : (callOp s.handle count false 0 e).ackBytes = 0 := by simp [callOp, ackBytes]
  have hsame : acknowledge s.driver 0 = s.driver := rfl
  have hl : PushesFit s.driver.listener e.meanwhile := hfit.1
  obtain ⟨w, -, hl⟩ := h.live.pushAll h.size_le hl
  rw [hpcapIoctlLstop, hnone, hsame]
  change (if 0 < count then _ else _ : Driver × ListenerOp).2.availableBytes = _
  rw [if_pos hpos, hpcapWaitListenerUser_now hl.alive rfl]

/-- What a careful step does to the position read next. -/
theorem step (h : Counts s C) {a : Call} {t : State} (hok : Careful s a)
    (ht : step s a = some t) :
    ∃ C' : Cursor n, C'.read + s.consumed = C.read + t.consumed ∧ Counts t C' ∧
      (s.handle.rdoff = C.read % n → t.handle.rdoff = C'.read % n) ∧
      (s.handle.avail < t.handle.avail → t.handle.rdoff = C'.read % n) := by
  have hcall : ∀ {expectBytes timeoutNs doAck e}, CallFits s expectBytes doAck timeoutNs e →
      (doAck = true ∨ s.handle.acks = 0 ∨ expectBytes = 0 ∨
        (hpcapIoctlLstop s.driver (callOp s.handle expectBytes doAck timeoutNs e) e).2.availableBytes
          < expectBytes) → hpcapDoListenerOp s expectBytes doAck timeoutNs e = some t →
      ∃ C' : Cursor n, C'.read + s.consumed = C.read + t.consumed ∧ Counts t C' ∧
        (s.handle.rdoff = C.read % n → t.handle.rdoff = C'.read % n) ∧
        (s.handle.avail < t.handle.avail → t.handle.rdoff = C'.read % n) := by
    intro expectBytes timeoutNs doAck e hfit hold ht
    obtain ⟨t', ht', hcons, C', hr, hC', hrd⟩ := h.listenerOp hfit hold
    obtain rfl := Option.some.inj (ht'.symm.trans ht)
    refine ⟨C', by rw [hr, hcons], hC', fun hs => ?_, fun hlt => ?_⟩
    · obtain hrd | ⟨hrd, -⟩ := hrd
      · exact hrd
      · rw [hrd, hs, hr]
    · exact hrd.resolve_right fun hno => absurd hno.2 (Nat.not_le.mpr hlt)
  cases a with
  | push count =>
    cases ht
    obtain ⟨C', hr, hC'⟩ := h.push hok
    exact ⟨C', by rw [hr], hC', fun hs => by rw [hr]; exact hs, fun hlt => absurd hlt (lt_irrefl _)⟩
  | wait count e =>
    refine hcall hok.1 (.inr ?_) ht
    obtain h₀ | h₀ | hfew := hok.2
    · exact .inl h₀
    · exact .inr (.inl h₀)
    · have hpos : 0 < count := Nat.zero_lt_of_lt hfew
      exact .inr (.inr ((h.wait_available hpos hok.1).trans_lt hfew))
  | ack e => exact hcall hok (.inl rfl) ht
  | ackWait waitcount e => exact hcall hok (.inl rfl) ht
  | ackWaitTimeout waitcount timeoutNs e => exact hcall hok (.inl rfl) ht
  | consume k =>
    obtain ⟨hk, ht⟩ := Option.ite_none_right_eq_some.mp ht
    cases ht
    obtain ⟨hmove, C', hr, hC'⟩ := h.consume hk
    refine ⟨C', ?_, hC', fun hs => ?_, fun hlt => absurd hlt (lt_irrefl _)⟩
    · change C'.read + s.consumed = C.read + (s.consumed + k)
      omega
    · rw [hmove, hs, hr, Nat.mod_add_mod]

end Counts

/-- A handle whose buffer is mapped, on a listener that is in use. -/
structure Opened (n : Nat) (s : State) : Prop where
  size_le : n ≤ 2 ^ 63
  bufsz : s.driver.listener.bufsz = n
  rd : s.driver.listener.bufferRdOffset < n
  wr : s.driver.listener.bufferWrOffset < n
  id : s.driver.listener.id ≠ listenerEmpty
  alive : s.driver.listener.kill = false
  bufSize : s.handle.bufSize = n
  rdoff : s.handle.rdoff < n
  avail : s.handle.avail = 0
  acks : s.handle.acks = 0

/-- The state after the first wait that found bytes. -/
def Waited (n : Nat) (s : State) : Prop :=
  ∃ s₀ a, Opened n s₀ ∧ Careful s₀ a ∧ step s₀ a = some s ∧ 0 < s.handle.avail

/-- Handle and listener agree. -/
structure Follows (n : Nat) (s : State) : Prop where
  rdoff : s.handle.rdoff = (s.driver.listener.bufferRdOffset + s.handle.acks) % n
  acks_le : s.handle.acks ≤ s.handle.avail
  avail_le : s.handle.avail ≤ usedBytes s.driver.listener

section Runs

variable {n : Nat} {s s₀ : State}

theorem Opened.counts (h : Opened n s) : ∃ C : Cursor n, Counts s C := by
  have hrd := h.rd
  have hgap := gap_lt h.rd h.wr
  have hwr := add_gap h.rd h.wr
  refine ⟨⟨s.driver.listener.bufferRdOffset, s.driver.listener.bufferRdOffset,
    s.driver.listener.bufferRdOffset, _, le_rfl, le_rfl, Nat.le_add_right _ _,
    Nat.add_lt_add_left hgap _⟩, h.size_le, ⟨⟨⟨h.bufsz, ?_, hwr.symm⟩, Nat.le_add_right _ _,
    Nat.add_lt_add_left hgap _, h.id⟩, h.alive⟩, h.bufSize, h.rdoff, ?_, ?_⟩
  · exact (Nat.mod_eq_of_lt hrd).symm
  · rw [h.acks, Nat.add_zero]
  · rw [h.avail, Nat.add_zero]

theorem Counts.follows {C : Cursor n} (h : Counts s C) (hr : s.handle.rdoff = C.read % n) :
    Follows n s := by
  refine ⟨?_, h.acks_le, ?_⟩
  · rw [hr, h.live.rd, Nat.mod_add_mod, h.acks]
  · have havail := h.avail
    have hseen := C.seen_le
    rw [h.live.usedBytes h.live.le h.live.fits]
    omega

theorem Waited.counts (h : Waited n s) :
    ∃ C : Cursor n, Counts s C ∧ s.handle.rdoff = C.read % n := by
  obtain ⟨s₀, a, hopen, hok, hs, hpos⟩ := h
  obtain ⟨C, hC⟩ := hopen.counts
  obtain ⟨C', -, hC', -, hfound⟩ := hC.step hok hs
  exact ⟨C', hC', hfound (by rw [hopen.avail]; exact hpos)⟩

/-- From its first wait on the handle follows the listener, and moves by what is consumed
and nothing else, as long as it waits for bytes with none pending and no push exceeds the
room of a full listener. -/
theorem handle_follows_listener (n : Nat) (s₀ s : State) (h₀ : Waited n s₀)
    (h : Reach step Careful (fun t => t = s₀) s) :
    Follows n s ∧ (s.handle.rdoff + s₀.consumed) % n = (s₀.handle.rdoff + s.consumed) % n := by
  obtain ⟨C₀, hC₀, hr₀⟩ := h₀.counts
  obtain ⟨C, hC, hr, hcons⟩ := h.invariant
    (fun t => ∃ C : Cursor n, Counts t C ∧ t.handle.rdoff = C.read % n ∧
      C.read + s₀.consumed = C₀.read + t.consumed)
    (by
      rintro t rfl
      exact ⟨C₀, hC₀, hr₀, rfl⟩)
    (by
      rintro t a u ⟨C, hC, hr, hcons⟩ hok hu
      obtain ⟨C', hread, hC', hmove, -⟩ := hC.step hok hu
      exact ⟨C', hC', hmove hr, by omega⟩)
  refine ⟨hC.follows hr, ?_⟩
  rw [hr, hr₀, Nat.mod_add_mod, Nat.mod_add_mod, hcons]

end Runs

/-- A listener of two pages with 1000 bytes, and a handle that has just mapped the buffer. -/
def mapped : State where
  driver := ⟨⟨1, false, 1000, 0, 8192⟩, false⟩
  handle := ⟨0, 0, 0, 0, 8192⟩
  consumed := 0

/-- Nothing is pushed during a call. -/
def quiet : Env := ⟨⟨0, 0, 0, 0, 0, 0⟩, [], []⟩

theorem mapped_opened : Opened 8192 mapped :=
  ⟨by norm_num, rfl, by decide, by decide, by decide, rfl, rfl, by decide, rfl, rfl⟩

/-- A client that reads, acknowledges, waits and reads on. -/
def reading : List Call := [.consume 500, .push 300, .ackWait 12 quiet, .consume 800, .ack quiet]

theorem handle_follows_listener_reading : ∃ s₀ s, Waited 8192 s₀ ∧
    run (guard step Careful) s₀ reading = some s ∧ Follows 8192 s ∧
      (s.handle.rdoff + s₀.consumed) % 8192 = (s₀.handle.rdoff + s.consumed) % 8192 := by
  have hrun : ((step mapped (.wait 12 quiet)).bind fun s₀ =>
      (run (guard step Careful) s₀ reading).map fun _ => s₀.handle.avail) = some 1000 := by
    decide +kernel
  obtain ⟨s₀, h₀, hrun⟩ := Option.bind_eq_some_iff.mp hrun
  obtain ⟨s, hs, havail⟩ := Option.map_eq_some_iff.mp hrun
  have hwaited : Waited 8192 s₀ :=
    ⟨mapped, .wait 12 quiet, mapped_opened, ⟨⟨trivial, fun _ => trivial⟩, .inl rfl⟩, h₀, by omega⟩
  exact ⟨s₀, s, hwaited, hs, handle_follows_listener 8192 s₀ s hwaited (.run_guard (.start rfl) hs)⟩

/-- A wait with 500 bytes pending sets the handle back to where the listener is. -/
theorem wait_with_pending_rereads :
    ¬ ∀ n s₀ s, Waited n s₀ → Reach step Free (fun t => t = s₀) s → Follows n s := by
  intro h
  have hrun : ((step mapped (.wait 12 quiet)).bind fun s₀ =>
      (run step s₀ [.consume 500, .wait 12 quiet]).map fun s => (s₀.handle.avail, s.handle.rdoff,
        s.driver.listener.bufferRdOffset, s.handle.acks)) = some (1000, 0, 0, 500) := by
    decide +kernel
  obtain ⟨s₀, h₀, hrun⟩ := Option.bind_eq_some_iff.mp hrun
  obtain ⟨s, hs, he⟩ := Option.map_eq_some_iff.mp hrun
  simp only [Prod.mk.injEq] at he
  obtain ⟨havail, hrdoff, hrd, hacks⟩ := he
  have hwaited : Waited 8192 s₀ :=
    ⟨mapped, .wait 12 quiet, mapped_opened, ⟨⟨trivial, fun _ => trivial⟩, .inl rfl⟩, h₀, by omega⟩
  have hf := (h 8192 s₀ s hwaited (.run (.start rfl) hs)).rdoff
  rw [hrdoff, hrd, hacks] at hf
  exact absurd hf (by decide)

end Hpcap.Client
