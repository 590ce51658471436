import Hpcap.Device
import Hpcap.Read
import Hpcap.Wait

namespace Hpcap.Lstop

open Hpcap.Reservation Hpcap.SharedLog Hpcap.Listeners Hpcap.Device Hpcap.Wait
open Hpcap.Read (efault)
open Hpcap.Client (ListenerOp Handle Driver acknowledge ackBytes hpcapAdvanceRdoffTo
  advanceRdoffTo_rdoff sleepQuant numLoops)

/-- What the checks before the switch of `hpcap_ioctl` find. -/
inductive Refusal
  | noBuffer
  | forceKilled
  | noListener
  deriving DecidableEq

def Refusal.code : Refusal → Int
  | .noBuffer => -1
  | .forceKilled => -ebadf
  | .noListener => -einval

/-- What a call does not determine: the checks before the switch, how many bytes the copies
leave out, and what the wait sees of the listener. -/
structure Env where
  refusal : Option Refusal
  fromUser : Nat
  toUser : Nat
  looks : Nat → Listener
  last : Listener

/-- The `lstop` of the reply is what the caller has after a call that returns 0. -/
structure Reply where
  ret : Int
  driver : Driver
  lstop : ListenerOp

/-- What the driver does for a request that it could copy. -/
def answer (lstop : ListenerOp) (e : Env) : ListenerOp :=
  if lstop.expectBytes > 0 then (hpcapWaitListenerUser e.looks e.last lstop).lstop else lstop

/-- `HPCAP_IOC_LSTOP`. -/
def hpcapIoctlLstop (d : Driver) (lstop : ListenerOp) (e : Env) : Reply :=
  match e.refusal with
  | some r => ⟨r.code, d, lstop⟩
  | none =>
    if 0 < e.fromUser then ⟨-efault, d, lstop⟩
    else if 0 < e.toUser then ⟨-efault, acknowledge d lstop.ackBytes, lstop⟩
    else ⟨0, acknowledge d lstop.ackBytes, answer lstop e⟩

abbrev hpcapOk : Int := 0

abbrev hpcapErr : Int := -1

structure Done where
  ret : Int
  driver : Driver
  handle : Handle

/-- The rest of `_hpcap_do_listener_op`, after the ioctl. -/
def handleReply (h : Handle) (expectBytes : Nat) (doAck : Bool) (r : Reply) : Option Done :=
  if r.ret < 0 then if r.ret = -ebadf then none else some ⟨hpcapErr, r.driver, h⟩
  else if doAck ∧ h.avail < h.acks then none
  else
    let h := if doAck then { h with avail := h.avail - h.acks, acks := 0 } else h
    let h := if expectBytes > 0 ∧ r.lstop.availableBytes ≥ expectBytes then
        hpcapAdvanceRdoffTo { h with avail := r.lstop.availableBytes } r.lstop.readOffset
      else h
    some ⟨hpcapOk, r.driver, h⟩

/-- What a call asks for. `stack` is what its `lstop` holds before it is filled in. -/
structure Request where
  expectBytes : Nat
  doAck : Bool
  timeoutNs : Nat
  stack : ListenerOp

def Request.lstop (q : Request) (h : Handle) : ListenerOp :=
  { q.stack with
    ackBytes := ackBytes h q.doAck
    expectBytes := q.expectBytes
    timeoutNs := q.timeoutNs }

/-- `_hpcap_do_listener_op`, or nothing when it aborts. -/
def hpcapDoListenerOp (d : Driver) (h : Handle) (q : Request) (e : Env) : Option Done :=
  handleReply h q.expectBytes q.doAck (hpcapIoctlLstop d (q.lstop h) e)

section Offset

/-- An error leaves the read offset of the listener as it is. -/
def KeepsOffset (d : Driver) (lstop : ListenerOp) (e : Env) : Prop :=
  (hpcapIoctlLstop d lstop e).ret < 0 →
    (hpcapIoctlLstop d lstop e).driver.listener.bufferRdOffset = d.listener.bufferRdOffset

/-- The reply is copied, or the call is refused or fails before, or there is nothing that it
acknowledges. -/
def Settles (d : Driver) (lstop : ListenerOp) (e : Env) : Prop :=
  e.toUser = 0 ∨ e.refusal.isSome = true ∨ 0 < e.fromUser ∨ lstop.ackBytes = 0 ∨
    usedBytes d.listener = 0

instance (d : Driver) (lstop : ListenerOp) (e : Env) : Decidable (Settles d lstop e) :=
  inferInstanceAs (Decidable (_ ∨ _))

variable {d : Driver} {lstop : ListenerOp} {e : Env}

/-- A call is refused, or one of its copies fails, or it is done. -/
theorem Env.outcome (e : Env) : (∃ r, e.refusal = some r) ∨ e.refusal = none ∧
    (0 < e.fromUser ∨ e.fromUser = 0 ∧ (0 < e.toUser ∨ e.toUser = 0)) := by
  cases h : e.refusal with
  | some r => exact .inl ⟨r, rfl⟩
  | none =>
    refine .inr ⟨rfl, ?_⟩
    omega

theorem Refusal.code_neg (r : Refusal) : r.code < 0 := by
  cases r with
  | noBuffer | forceKilled | noListener => decide

theorem efault_neg : -efault < 0 := by decide

theorem lstop_refused {r : Refusal} (h : e.refusal = some r) :
    hpcapIoctlLstop d lstop e = ⟨r.code, d, lstop⟩ := by
  rw [hpcapIoctlLstop, h]

theorem lstop_notCopied (h : e.refusal = none) (hf : 0 < e.fromUser) :
    hpcapIoctlLstop d lstop e = ⟨-efault, d, lstop⟩ := by
  rw [hpcapIoctlLstop, h]
  exact if_pos hf

theorem lstop_notReturned (h : e.refusal = none) (hf : e.fromUser = 0) (ht : 0 < e.toUser) :
    hpcapIoctlLstop d lstop e = ⟨-efault, acknowledge d lstop.ackBytes, lstop⟩ := by
  rw [hpcapIoctlLstop, h, hf]
  exact if_pos ht

theorem lstop_done (h : e.refusal = none) (hf : e.fromUser = 0) (ht : e.toUser = 0) :
    hpcapIoctlLstop d lstop e = ⟨0, acknowledge d lstop.ackBytes, answer lstop e⟩ := by
  rw [hpcapIoctlLstop, h, hf, ht]
  rfl

/-- What is acknowledged of a listener moves its read offset. -/
theorem acknowledge_keeps_iff (hrd : d.listener.bufferRdOffset < d.listener.bufsz)
    (hwr : d.listener.bufferWrOffset < d.listener.bufsz) (ack : Nat) :
    (acknowledge d ack).listener.bufferRdOffset = d.listener.bufferRdOffset ↔
      ack = 0 ∨ usedBytes d.listener = 0 := by
  have hused : usedBytes d.listener < d.listener.bufsz := gap_lt hrd hwr
  rw [acknowledge]
  by_cases hack : ack > 0
  · rw [if_pos hack]
    change (_ + _) % _ = _ ↔ _
    obtain ⟨k, hk⟩ : ∃ k, (if usedBytes d.listener < ack then usedBytes d.listener else ack) = k :=
      ⟨_, rfl⟩
    rw [hk]
    have hmin : k = 0 ↔ ack = 0 ∨ usedBytes d.listener = 0 := by
      rw [← hk]
      split <;> omega
    have hlt : k < d.listener.bufsz := by
      rw [← hk]
      split <;> omega
    rw [← hmin]
    constructor
    · intro hmod
      rcases Nat.lt_or_ge (d.listener.bufferRdOffset + k) d.listener.bufsz with hin | hover
      · rw [Nat.mod_eq_of_lt hin] at hmod
        omega
      · rw [Nat.mod_eq_sub_mod hover, Nat.mod_eq_of_lt (by omega)] at hmod
        omega
    · intro hzero
      rw [hzero, Nat.add_zero, Nat.mod_eq_of_lt hrd]
  · rw [if_neg hack]
    exact iff_of_true rfl (.inl (by omega))

/-- The acknowledgement is lost with a reply that is not copied, and with nothing else. -/
theorem keepsOffset_iff (hrd : d.listener.bufferRdOffset < d.listener.bufsz)
    (hwr : d.listener.bufferWrOffset < d.listener.bufsz) :
    KeepsOffset d lstop e ↔ Settles d lstop e := by
  rw [KeepsOffset, Settles]
  obtain ⟨r, href⟩ | ⟨href, hf | ⟨hf, ht | ht⟩⟩ := e.outcome
  · rw [lstop_refused href, href]
    exact iff_of_true (fun _ => rfl) (.inr (.inl rfl))
  · rw [lstop_notCopied href hf]
    exact iff_of_true (fun _ => rfl) (.inr (.inr (.inl hf)))
  · rw [lstop_notReturned href hf ht]
    have hiff := acknowledge_keeps_iff hrd hwr lstop.ackBytes
    simp only [efault_neg, hiff, forall_const, href, hf, Nat.ne_of_gt ht, Option.isSome_none,
      Bool.false_eq_true, lt_irrefl, false_or]
  · rw [lstop_done href hf ht]
    exact iff_of_true (fun h => absurd h (lt_irrefl _)) (.inl ht)

end Offset

section Stack

/-- The fields are unsigned integers of 64 bits. -/
structure Unsigned (s : ListenerOp) : Prop where
  availableBytes : s.availableBytes < 2 ^ 64
  readOffset : s.readOffset < 2 ^ 64
  writeOffset : s.writeOffset < 2 ^ 64

/-- What a call leaves the client with. -/
def seen (o : Option Done) : Option (Nat × Nat × Nat × Int) :=
  o.map fun o => (o.handle.avail, o.handle.rdoff, o.handle.acks, o.ret)

/-- It does not depend on what the `lstop` holds before it is filled in. -/
def Independent (d : Driver) (h : Handle) (q : Request) (e : Env) : Prop :=
  ∀ s₁ s₂, Unsigned s₁ → Unsigned s₂ →
    seen (hpcapDoListenerOp d h { q with stack := s₁ } e) =
      seen (hpcapDoListenerOp d h { q with stack := s₂ } e)

/-- The driver fills in what the client reads, or the client does not read it. -/
def Fills (h : Handle) (q : Request) (e : Env) : Prop :=
  e.last.kill = false ∨ q.expectBytes = 0 ∨ e.refusal.isSome = true ∨ 0 < e.fromUser ∨
    0 < e.toUser ∨ q.doAck = true ∧ h.avail < h.acks

instance (h : Handle) (q : Request) (e : Env) : Decidable (Fills h q e) :=
  inferInstanceAs (Decidable (_ ∨ _))

/-- A handle whose buffer is mapped: it has a page at least. -/
structure Mapped (h : Handle) : Prop where
  page : pageSize ≤ h.bufSize
  size_le : h.bufSize ≤ 2 ^ 63
  rdoff_lt : h.rdoff < h.bufSize

variable {d : Driver} {h : Handle} {q : Request} {e : Env}

/-- A wait that is not killed fills in both fields, from the listener. -/
theorem answer_filled (hk : e.last.kill = false) {lstop : ListenerOp}
    (hpos : 0 < lstop.expectBytes) :
    (answer lstop e).availableBytes =
        (waitLoop e.looks lstop.expectBytes (numLoops lstop.timeoutNs) 0).2 ∧
      (answer lstop e).readOffset = e.last.bufferRdOffset := by
  simp [answer, hpcapWaitListenerUser, hk, hpos]

/-- One that is killed leaves them as they were. -/
theorem answer_killed (hk : e.last.kill = true) (lstop : ListenerOp) : answer lstop e = lstop := by
  rw [answer]
  split
  · simp [hpcapWaitListenerUser, hk]
  · rfl

theorem call_error {r : Reply} (hr : hpcapIoctlLstop d (q.lstop h) e = r) (hneg : r.ret < 0) :
    seen (hpcapDoListenerOp d h q e) =
      if r.ret = -ebadf then none else some (h.avail, h.rdoff, h.acks, hpcapErr) := by
  rw [hpcapDoListenerOp, hr, handleReply, if_pos hneg]
  split
  · rfl
  · rfl

theorem call_aborts (href : e.refusal = none) (hf : e.fromUser = 0) (ht : e.toUser = 0)
    (habort : q.doAck = true ∧ h.avail < h.acks) : hpcapDoListenerOp d h q e = none := by
  rw [hpcapDoListenerOp, lstop_done href hf ht, handleReply]
  simp only [lt_irrefl, if_false, if_pos habort]

/-- The handle once what was read is acknowledged. -/
def settled (h : Handle) (doAck : Bool) : Handle :=
  if doAck then { h with avail := h.avail - h.acks, acks := 0 } else h

theorem call_done (href : e.refusal = none) (hf : e.fromUser = 0) (ht : e.toUser = 0)
    (habort : ¬ (q.doAck = true ∧ h.avail < h.acks)) :
    hpcapDoListenerOp d h q e = some ⟨hpcapOk, acknowledge d (ackBytes h q.doAck),
      if q.expectBytes > 0 ∧ (answer (q.lstop h) e).availableBytes ≥ q.expectBytes then
        hpcapAdvanceRdoffTo
          { settled h q.doAck with avail := (answer (q.lstop h) e).availableBytes }
          (answer (q.lstop h) e).readOffset
      else settled h q.doAck⟩ := by
  rw [hpcapDoListenerOp, lstop_done href hf ht, handleReply]
  simp only [lt_irrefl, if_false, if_neg habort]
  rfl

/-- Where a wait for bytes goes on, the client reads what is filled in. -/
theorem Fills.unkilled (hfills : Fills h q e) (href : e.refusal = none) (hf : e.fromUser = 0)
    (ht : e.toUser = 0) (habort : ¬ (q.doAck = true ∧ h.avail < h.acks))
    (hpos : 0 < q.expectBytes) : e.last.kill = false := by
  obtain hk | hnone | hrefused | hlt | hlt | ha := hfills
  · exact hk
  · omega
  · rw [href] at hrefused
    cases hrefused
  · omega
  · omega
  · exact absurd ha habort

theorem Fills.independent (hfills : Fills h q e) (d : Driver) : Independent d h q e := by
  intro s₁ s₂ _ _
  obtain ⟨r, href⟩ | ⟨href, hf | ⟨hf, ht | ht⟩⟩ := e.outcome
  · rw [call_error (lstop_refused href) r.code_neg, call_error (lstop_refused href) r.code_neg]
  · rw [call_error (lstop_notCopied href hf) efault_neg,
      call_error (lstop_notCopied href hf) efault_neg]
  · rw [call_error (lstop_notReturned href hf ht) efault_neg,
      call_error (lstop_notReturned href hf ht) efault_neg]
  · by_cases habort : q.doAck = true ∧ h.avail < h.acks
    · rw [call_aborts (q := { q with stack := s₁ }) href hf ht habort,
        call_aborts (q := { q with stack := s₂ }) href hf ht habort]
    · rw [call_done (q := { q with stack := s₁ }) href hf ht habort,
        call_done (q := { q with stack := s₂ }) href hf ht habort]
      by_cases hpos : q.expectBytes > 0
      · have hk := hfills.unkilled href hf ht habort hpos
        have hfilled : ∀ s, (answer ({ q with stack := s }.lstop h) e).availableBytes =
            (waitLoop e.looks q.expectBytes (numLoops q.timeoutNs) 0).2 ∧
              (answer ({ q with stack := s }.lstop h) e).readOffset = e.last.bufferRdOffset :=
          fun s => answer_filled hk hpos
        dsimp only
        rw [(hfilled s₁).1, (hfilled s₁).2, (hfilled s₂).1, (hfilled s₂).2]
      · simp only [hpos, false_and, if_false]

/-- Where a killed wait leaves the fields to the stack, it says where the client reads on. -/
theorem killed_takes_stack (hm : Mapped h) (hno : ¬ Fills h q e) {s : ListenerOp}
    (havail : s.availableBytes = q.expectBytes) (hoff : s.readOffset < h.bufSize) :
    ∃ o, hpcapDoListenerOp d h { q with stack := s } e = some o ∧
      o.handle.rdoff = s.readOffset := by
  simp only [Fills, not_or] at hno
  obtain ⟨hk, hexp, href, hf, ht, habort⟩ := hno
  have href : e.refusal = none := by simpa using href
  have hk : e.last.kill = true := by simpa using hk
  rw [call_done (q := { q with stack := s }) href (by omega) (by omega) habort, answer_killed hk]
  have hgo : q.expectBytes > 0 ∧ s.availableBytes ≥ q.expectBytes := by omega
  refine ⟨_, rfl, ?_⟩
  change (if q.expectBytes > 0 ∧ s.availableBytes ≥ q.expectBytes then
    hpcapAdvanceRdoffTo { settled h q.doAck with avail := s.availableBytes } s.readOffset
      else settled h q.doAck).rdoff = _
  rw [if_pos hgo]
  have hsize : (settled h q.doAck).bufSize = h.bufSize := by
    rw [settled]
    split <;> rfl
  have hrdoff : (settled h q.doAck).rdoff = h.rdoff := by
    rw [settled]
    split <;> rfl
  apply advanceRdoffTo_rdoff
  · exact hsize.trans_le hm.size_le
  · change (settled h q.doAck).rdoff < (settled h q.doAck).bufSize
    rw [hrdoff, hsize]
    exact hm.rdoff_lt
  · exact hoff.trans_eq hsize.symm

/-- What the `lstop` held matters when a wait for bytes is killed and the call goes on. -/
theorem listener_op_independent_iff (d : Driver) (h : Handle) (q : Request) (e : Env)
    (hm : Mapped h) (hexp : q.expectBytes < 2 ^ 64) : Independent d h q e ↔ Fills h q e := by
  constructor
  · intro hind
    by_contra hno
    have hpage : 4096 ≤ h.bufSize := hm.page
    have hdiffer := hind ⟨0, 0, q.expectBytes, 0, 0, 0⟩ ⟨0, 0, q.expectBytes, 1, 0, 0⟩
      ⟨hexp, by norm_num, by norm_num⟩ ⟨hexp, by norm_num, by norm_num⟩
    obtain ⟨o₁, ho₁, hoff₁⟩ := killed_takes_stack (d := d) hm hno
      (s := ⟨0, 0, q.expectBytes, 0, 0, 0⟩) rfl (show 0 < h.bufSize by omega)
    obtain ⟨o₂, ho₂, hoff₂⟩ := killed_takes_stack (d := d) hm hno
      (s := ⟨0, 0, q.expectBytes, 1, 0, 0⟩) rfl (show 1 < h.bufSize by omega)
    rw [ho₁, ho₂] at hdiffer
    have hrd := congrArg (fun v : Nat × Nat × Nat × Int => v.2.1) (Option.some.inj hdiffer)
    change o₁.handle.rdoff = o₂.handle.rdoff at hrd
    rw [hoff₁, hoff₂] at hrd
    cases hrd
  · exact fun hfills => hfills.independent d

/-- A listener with 100 bytes, marked or not. -/
def hundred (kill : Bool) : Listener := ⟨1, kill, 100, 0, 4096⟩

def looking (kill : Bool) : Env := ⟨none, 0, 0, fun _ => hundred kill, hundred kill⟩

def waitForTwelve : Request := ⟨12, false, 0, ⟨0, 0, 0, 0, 0, 0⟩⟩

theorem mapped_start : Mapped ⟨0, 0, 0, 0, 4096⟩ := ⟨le_rfl, by norm_num, by decide⟩

theorem listener_op_independent_hundred : Mapped ⟨0, 0, 0, 0, 4096⟩ ∧
    waitForTwelve.expectBytes < 2 ^ 64 ∧
      Independent ⟨hundred false, false⟩ ⟨0, 0, 0, 0, 4096⟩ waitForTwelve (looking false) :=
  ⟨mapped_start, by norm_num [waitForTwelve], (listener_op_independent_iff ⟨hundred false, false⟩
    ⟨0, 0, 0, 0, 4096⟩ waitForTwelve (looking false) mapped_start
      (by norm_num [waitForTwelve])).mpr (.inl rfl)⟩

/-- The wait is killed, and the client goes on at whatever offset was on its stack. -/
theorem killed_wait_reads_stack : ¬ ∀ (d : Driver) (h : Handle) (q : Request) (e : Env),
    Mapped h → q.expectBytes < 2 ^ 64 → Independent d h q e := by
  intro hall
  have hind := hall ⟨hundred true, false⟩ ⟨0, 0, 0, 0, 4096⟩ waitForTwelve (looking true) mapped_start
    (by norm_num [waitForTwelve])
  have hdiffer := hind ⟨0, 0, 12, 0, 0, 0⟩ ⟨0, 0, 12, 1, 0, 0⟩
    ⟨by norm_num, by norm_num, by norm_num⟩ ⟨by norm_num, by norm_num, by norm_num⟩
  exact absurd hdiffer (by decide +kernel)

end Stack

end Hpcap.Lstop
