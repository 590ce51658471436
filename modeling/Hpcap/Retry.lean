import Hpcap.Lstop

namespace Hpcap.Retry

open Hpcap.Reservation Hpcap.SharedLog Hpcap.Listeners Hpcap.Transition Hpcap.Wait Hpcap.Lstop
open Hpcap.Client (ListenerOp Handle Driver Standing acknowledge ackBytes hpcapAdvanceRdoffBy
  hpcapAdvanceRdoffTo PushFits numLoops)

/-- What befalls a listener from elsewhere. -/
inductive Change
  | push (count : Nat)
  | kill

def change (l : Listener) : Change → Listener
  | .push count => (pushSlot count l).1
  | .kill => { l with kill := true }

def changes (l : Listener) (cs : List Change) : Listener := cs.foldl change l

/-- A call, how its checks and copies come out, and what happens to the listener before each of
the looks, and between the last one and the end of the wait. -/
structure Call where
  request : Request
  refusal : Option Refusal
  fromUser : Nat
  toUser : Nat
  meanwhile : List (List Change)
  late : List Change

namespace Call

def look (c : Call) (l : Listener) (i : Nat) : Listener :=
  changes l (c.meanwhile.take (i + 1)).flatten

def slept (c : Call) (l : Listener) : Nat :=
  (waitLoop (c.look l) c.request.expectBytes (numLoops c.request.timeoutNs) 0).1

/-- All that happens to the listener during the wait. -/
def during (c : Call) (l : Listener) : List Change :=
  (c.meanwhile.take (c.slept l + 1)).flatten ++ c.late

def last (c : Call) (l : Listener) : Listener := changes l (c.during l)

def env (c : Call) (l : Listener) : Env := ⟨c.refusal, c.fromUser, c.toUser, c.look l, c.last l⟩

def Waits (c : Call) : Prop := c.refusal = none ∧ c.fromUser = 0 ∧ 0 < c.request.expectBytes

instance (c : Call) : Decidable c.Waits := inferInstanceAs (Decidable (_ ∧ _))

end Call

/-- A client and its listener. `acked` counts what the client has acknowledged as it knows,
and `consumed` what it has read. -/
structure State where
  driver : Driver
  handle : Handle
  acked : Nat
  consumed : Nat

/-- The listener once the bytes of a call are acknowledged. -/
def popped (s : State) (c : Call) : Listener :=
  (acknowledge s.driver (ackBytes s.handle c.request.doAck)).listener

/-- The state after a call that ends with `o`. -/
def after (s : State) (c : Call) (o : Done) : State where
  driver := if c.Waits then { o.driver with listener := c.last (popped s c) } else o.driver
  handle := o.handle
  acked := if o.ret = hpcapOk ∧ c.request.doAck then s.acked + s.handle.acks else s.acked
  consumed := s.consumed

inductive Step
  | change (c : Change)
  | consume (k : Nat)
  | call (c : Call)

def step (s : State) : Step → Option State
  | .change c => some { s with driver := { s.driver with listener := change s.driver.listener c } }
  | .consume k =>
    if s.handle.acks + k ≤ s.handle.avail then
      let h := hpcapAdvanceRdoffBy s.handle k
      some { s with handle := { h with acks := h.acks + k }, consumed := s.consumed + k }
    else none
  | .call c =>
    (hpcapDoListenerOp s.driver s.handle c.request (c.env (popped s c))).map (after s c)

def ChangeFits (l : Listener) : Change → Prop
  | .push count => PushFits l count
  | .kill => True

instance (l : Listener) : DecidablePred (ChangeFits l)
  | .push count => inferInstanceAs (Decidable (PushFits l count))
  | .kill => instDecidableTrue

def ChangesFit (l : Listener) : List Change → Prop
  | [] => True
  | c :: cs => ChangeFits l c ∧ ChangesFit (change l c) cs

instance decidableChangesFit : (l : Listener) → (cs : List Change) → Decidable (ChangesFit l cs)
  | _, [] => .isTrue trivial
  | l, c :: cs =>
    have := decidableChangesFit (change l c) cs
    inferInstanceAs (Decidable (_ ∧ _))

/-- No reply that acknowledges something is lost, and no call goes on with what its `lstop`
held before. What is pushed fits. -/
def Settled (s : State) : Step → Prop
  | .change c => ChangeFits s.driver.listener c
  | .consume _ => True
  | .call c =>
    Settles s.driver (c.request.lstop s.handle) (c.env (popped s c)) ∧
      Fills s.handle c.request (c.env (popped s c)) ∧
      (c.Waits → ChangesFit (popped s c) (c.during (popped s c)))

instance (s : State) : DecidablePred (Settled s)
  | .change c => inferInstanceAs (Decidable (ChangeFits s.driver.listener c))
  | .consume _ => instDecidableTrue
  | .call _ => inferInstanceAs (Decidable (_ ∧ _))

section Listener

variable {n p w : Nat} {l : Listener}

theorem standing_change (h : Standing n p w l) (hn : n ≤ 2 ^ 63) {c : Change}
    (hc : ChangeFits l c) : ∃ w', w ≤ w' ∧ Standing n p w' (change l c) := by
  cases c with
  | push count =>
    obtain ⟨w', hw, hl, -⟩ := h.push hn hc
    exact ⟨w', hw, hl⟩
  | kill => exact ⟨w, le_rfl, ⟨h.bufsz, h.rd, h.wr⟩, h.le, h.fits, h.id⟩

theorem standing_changes (h : Standing n p w l) (hn : n ≤ 2 ^ 63) {cs : List Change}
    (hc : ChangesFit l cs) : ∃ w', w ≤ w' ∧ Standing n p w' (changes l cs) := by
  induction cs generalizing w l with
  | nil => exact ⟨w, le_rfl, h⟩
  | cons c cs ih =>
    obtain ⟨w₁, h₁, hl⟩ := standing_change h hn hc.1
    obtain ⟨w₂, h₂, hl⟩ := ih hl hc.2
    exact ⟨w₂, h₁.trans h₂, hl⟩

theorem changesFit_append {xs ys : List Change} :
    ChangesFit l (xs ++ ys) ↔ ChangesFit l xs ∧ ChangesFit (changes l xs) ys := by
  induction xs generalizing l with
  | nil => exact ⟨fun h => ⟨trivial, h⟩, fun h => h.2⟩
  | cons x xs ih =>
    rw [List.cons_append, ChangesFit, ChangesFit, ih, and_assoc]
    rfl

theorem changes_append (l : Listener) (xs ys : List Change) :
    changes l (xs ++ ys) = changes (changes l xs) ys := List.foldl_append

/-- During a wait the listener is written on. What is available is what is in use when the
driver looks for the last time. -/
theorem standing_wait (h : Standing n p w l) (hn : n ≤ 2 ^ 63) {c : Call}
    (hc : ChangesFit l (c.during l)) : ∃ w₁ w₂, w ≤ w₁ ∧ w₁ ≤ w₂ ∧
      Standing n p w₂ (c.last l) ∧
      (waitLoop (c.look l) c.request.expectBytes (numLoops c.request.timeoutNs) 0).2 = w₁ - p := by
  obtain ⟨hlook, hlate⟩ := changesFit_append.mp hc
  obtain ⟨w₁, h₁, hl₁⟩ := standing_changes h hn hlook
  obtain ⟨w₂, h₂, hl₂⟩ := standing_changes hl₁ hn hlate
  refine ⟨w₁, w₂, h₁, h₂, ?_, ?_⟩
  · rw [Call.last, Call.during, changes_append]
    exact hl₂
  · rw [(waitLoop_ends (c.look l) c.request.expectBytes (numLoops c.request.timeoutNs) 0).avail]
    exact hl₁.used

end Listener

/-- The handle counts within what the listener has. -/
structure Within (p w : Nat) (h : Handle) : Prop where
  acks_le : h.acks ≤ h.avail
  avail_le : p + h.avail ≤ w

/-- The listener has been moved on by what the client knows to have acknowledged, and by
nothing else. -/
structure Inv (n rd : Nat) (s : State) : Prop where
  size_le : n ≤ 2 ^ 63
  stands : ∃ w, Standing n (rd + s.acked) w s.driver.listener ∧ Within (rd + s.acked) w s.handle
  counted : s.acked + s.handle.acks = s.consumed

section Call

variable {n rd p w : Nat} {s : State} {c : Call} {o : Done}

/-- A call that returns has had an error, or did all it is to do. -/
theorem call_cases {d : Driver} {h : Handle} {q : Request} {e : Env}
    (ho : hpcapDoListenerOp d h q e = some o) :
    (o.ret = hpcapErr ∧ o.handle = h ∧ o.driver = (hpcapIoctlLstop d (q.lstop h) e).driver ∧
        (e.refusal.isSome = true ∨ 0 < e.fromUser ∨ 0 < e.toUser)) ∨
      (e.refusal = none ∧ e.fromUser = 0 ∧ e.toUser = 0 ∧ ¬ (q.doAck = true ∧ h.avail < h.acks)) := by
  have herror : ∀ r, hpcapIoctlLstop d (q.lstop h) e = r → r.ret < 0 →
      o.ret = hpcapErr ∧ o.handle = h ∧ o.driver = r.driver := by
    intro r hr hneg
    rw [hpcapDoListenerOp, hr, handleReply, if_pos hneg] at ho
    obtain ⟨-, ho⟩ := Option.ite_none_left_eq_some.mp ho
    cases ho
    exact ⟨rfl, rfl, rfl⟩
  obtain ⟨r, href⟩ | ⟨href, hf | ⟨hf, ht | ht⟩⟩ := e.outcome
  · have hr : hpcapIoctlLstop d (q.lstop h) e = _ := lstop_refused href
    obtain ⟨hret, hh, hd⟩ := herror _ hr r.code_neg
    exact .inl ⟨hret, hh, hr ▸ hd, .inl (by rw [href]; rfl)⟩
  · have hr : hpcapIoctlLstop d (q.lstop h) e = _ := lstop_notCopied href hf
    obtain ⟨hret, hh, hd⟩ := herror _ hr efault_neg
    exact .inl ⟨hret, hh, hr ▸ hd, .inr (.inl hf)⟩
  · have hr : hpcapIoctlLstop d (q.lstop h) e = _ := lstop_notReturned href hf ht
    obtain ⟨hret, hh, hd⟩ := herror _ hr efault_neg
    exact .inl ⟨hret, hh, hr ▸ hd, .inr (.inr ht)⟩
  · refine .inr ⟨href, hf, ht, fun habort => ?_⟩
    rw [call_aborts href hf ht habort] at ho
    cases ho

theorem Within.mono {w' : Nat} {h : Handle} (hw : Within p w h) (hle : w ≤ w') : Within p w' h :=
  ⟨hw.acks_le, hw.avail_le.trans hle⟩

theorem ackBytes_eq (h : Handle) (doAck : Bool) : ackBytes h doAck = if doAck then h.acks else 0 := by
  cases doAck with
  | true =>
    rw [ackBytes]
    split
    · rfl
    · simp at *
      omega
  | false => simp [ackBytes]

/-- What is pending is moved from the handle to the listener. -/
theorem Within.settled {h : Handle} (hw : Within p w h) (doAck : Bool) :
    Within (p + ackBytes h doAck) w (settled h doAck) ∧
      ackBytes h doAck + (settled h doAck).acks = h.acks := by
  have hacks := hw.acks_le
  have havail := hw.avail_le
  rw [ackBytes_eq]
  cases doAck with
  | true =>
    refine ⟨⟨Nat.zero_le _, ?_⟩, Nat.add_zero _⟩
    change p + h.acks + (h.avail - h.acks) ≤ w
    omega
  | false => exact ⟨hw, Nat.zero_add _⟩

/-- The handle is told of all that is written by now. -/
theorem Within.looked {w₁ w₂ : Nat} {h : Handle} (hw : Within p w h) (h₁ : w ≤ w₁) (h₂ : w₁ ≤ w₂)
    (off : Nat) : Within p w₂ (hpcapAdvanceRdoffTo { h with avail := w₁ - p } off) := by
  have hacks := hw.acks_le
  have havail := hw.avail_le
  refine ⟨?_, ?_⟩
  · change h.acks ≤ w₁ - p
    omega
  · change p + (w₁ - p) ≤ w₂
    omega

/-- No error moves the listener, where no reply that acknowledges something is lost. -/
theorem standing_error (hl : Standing n p w s.driver.listener) (hok : Settled s (.call c))
    (hd : o.driver =
      (hpcapIoctlLstop s.driver (c.request.lstop s.handle) (c.env (popped s c))).driver)
    (herr : c.refusal.isSome = true ∨ 0 < c.fromUser ∨ 0 < c.toUser) (hn : n ≤ 2 ^ 63) :
    ∃ w', w ≤ w' ∧ Standing n p w' (after s c o).driver.listener := by
  obtain ⟨hsettles, -, hfit⟩ := hok
  have hsame : c.refusal = none → c.fromUser = 0 → Standing n p w (popped s c) := by
    intro href hf
    have hack : min (ackBytes s.handle c.request.doAck) (w - p) = 0 := by
      obtain ht | hr | hlt | h₀ | h₀ := hsettles
      · rw [href] at herr
        change c.toUser = 0 at ht
        simp [hf, ht] at herr
      · change c.refusal.isSome = true at hr
        rw [href] at hr
        cases hr
      · change 0 < c.fromUser at hlt
        omega
      · change ackBytes s.handle c.request.doAck = 0 at h₀
        rw [h₀, Nat.zero_min]
      · rw [← hl.used, h₀, Nat.min_zero]
    have hpop := hl.acknowledge (ackBytes s.handle c.request.doAck)
    rwa [hack] at hpop
  rw [after]
  by_cases hwaits : c.Waits
  · rw [if_pos hwaits]
    obtain ⟨w₁, w₂, h₁, h₂, hlast, -⟩ := standing_wait (hsame hwaits.1 hwaits.2.1) hn (hfit hwaits)
    exact ⟨w₂, h₁.trans h₂, hlast⟩
  · rw [if_neg hwaits]
    refine ⟨w, le_rfl, ?_⟩
    change Standing n p w o.driver.listener
    rw [hd]
    obtain ⟨r, href⟩ | ⟨href, hf | ⟨hf, ht | ht⟩⟩ := (c.env (popped s c)).outcome
    · rw [lstop_refused href]
      exact hl
    · rw [lstop_notCopied href hf]
      exact hl
    · rw [lstop_notReturned href hf ht]
      exact hsame href hf
    · obtain hr | hlt | hlt := herr
      · have hr : (c.env (popped s c)).refusal.isSome = true := hr
        rw [href] at hr
        cases hr
      · exact absurd hf (Nat.ne_of_gt hlt)
      · exact absurd ht (Nat.ne_of_gt hlt)

/-- The handle after a call that does all it is to do. -/
def told (h : Handle) (q : Request) (e : Env) : Handle :=
  if q.expectBytes > 0 ∧ (answer (q.lstop h) e).availableBytes ≥ q.expectBytes then
    hpcapAdvanceRdoffTo { settled h q.doAck with avail := (answer (q.lstop h) e).availableBytes }
      (answer (q.lstop h) e).readOffset
  else settled h q.doAck

theorem told_acks (h : Handle) (q : Request) (e : Env) :
    (told h q e).acks = (settled h q.doAck).acks := by
  rw [told]
  split
  · rfl
  · rfl

/-- Such a call moves the listener on by what it acknowledges, and the handle is told no more
than is written by then. -/
theorem standing_done (hl : Standing n p w s.driver.listener) (hw : Within p w s.handle)
    (hok : Settled s (.call c)) (href : c.refusal = none) (hf : c.fromUser = 0)
    (ht : c.toUser = 0) (habort : ¬ (c.request.doAck = true ∧ s.handle.avail < s.handle.acks))
    (hd : o.driver = Client.acknowledge s.driver (ackBytes s.handle c.request.doAck)) (hn : n ≤ 2 ^ 63) :
    ∃ w', Standing n (p + ackBytes s.handle c.request.doAck) w' (after s c o).driver.listener ∧
      Within (p + ackBytes s.handle c.request.doAck) w'
        (told s.handle c.request (c.env (popped s c))) := by
  obtain ⟨-, hfills, hfit⟩ := hok
  obtain ⟨hsettled, hsum⟩ := hw.settled c.request.doAck
  have hacks := hw.acks_le
  have havail := hw.avail_le
  have hpop : Standing n (p + ackBytes s.handle c.request.doAck) w (popped s c) := by
    have h := hl.acknowledge (ackBytes s.handle c.request.doAck)
    rwa [Nat.min_eq_left (by omega)] at h
  by_cases hpos : 0 < c.request.expectBytes
  · have hwaits : c.Waits := ⟨href, hf, hpos⟩
    have hk : (c.last (popped s c)).kill = false := hfills.unkilled href hf ht habort hpos
    obtain ⟨w₁, w₂, h₁, h₂, hlast, hused⟩ := standing_wait hpop hn (hfit hwaits)
    have havailable : (answer (c.request.lstop s.handle) (c.env (popped s c))).availableBytes =
        w₁ - (p + ackBytes s.handle c.request.doAck) :=
      (answer_filled hk hpos).1.trans hused
    have hdriver : (after s c o).driver = { o.driver with listener := c.last (popped s c) } :=
      if_pos hwaits
    refine ⟨w₂, ?_, ?_⟩
    · rw [hdriver]
      exact hlast
    · rw [told, havailable]
      split
      · exact hsettled.looked h₁ h₂ _
      · exact hsettled.mono (h₁.trans h₂)
  · have hdriver : (after s c o).driver = o.driver := if_neg fun hwaits => hpos hwaits.2.2
    refine ⟨w, ?_, ?_⟩
    · rw [hdriver, hd]
      exact hpop
    · rw [told, if_neg fun hgo => hpos hgo.1]
      exact hsettled

theorem Inv.call (h : Inv n rd s) (hok : Settled s (.call c))
    (ho : hpcapDoListenerOp s.driver s.handle c.request (c.env (popped s c)) = some o) :
    Inv n rd (after s c o) := by
  obtain ⟨hn, ⟨w, hl, hw⟩, hcount⟩ := h
  obtain ⟨hret, hh, hd, herr⟩ | ⟨href, hf, ht, habort⟩ := call_cases ho
  · have hacked : (after s c o).acked = s.acked := by
      change (if o.ret = hpcapOk ∧ c.request.doAck then s.acked + s.handle.acks else s.acked) = _
      rw [hret]
      exact if_neg fun h => absurd h.1 (by decide)
    obtain ⟨w', hle, hl'⟩ := standing_error hl hok hd herr hn
    refine ⟨hn, ⟨w', ?_, ?_⟩, ?_⟩
    · rw [hacked]
      exact hl'
    · rw [hacked]
      change Within _ _ o.handle
      rw [hh]
      exact hw.mono hle
    · rw [hacked]
      change s.acked + o.handle.acks = s.consumed
      rw [hh]
      exact hcount
  · rw [call_done href hf ht habort] at ho
    have hd := congrArg Done.driver (Option.some.inj ho)
    have hh : told s.handle c.request (c.env (popped s c)) = o.handle :=
      congrArg Done.handle (Option.some.inj ho)
    have hret := congrArg Done.ret (Option.some.inj ho)
    have hacked : (after s c o).acked = s.acked + ackBytes s.handle c.request.doAck := by
      change (if o.ret = hpcapOk ∧ c.request.doAck then s.acked + s.handle.acks else s.acked) = _
      rw [← hret, ackBytes_eq]
      cases c.request.doAck with
      | true => rfl
      | false => rfl
    obtain ⟨-, hsum⟩ := hw.settled c.request.doAck
    obtain ⟨w', hl', hw'⟩ := standing_done hl hw hok href hf ht habort hd.symm hn
    rw [Nat.add_assoc, ← hacked] at hl' hw'
    refine ⟨hn, ⟨w', hl', ?_⟩, ?_⟩
    · rw [hh] at hw'
      exact hw'
    · rw [hacked]
      change s.acked + ackBytes s.handle c.request.doAck + o.handle.acks = s.consumed
      rw [← hh, told_acks, Nat.add_assoc, hsum]
      exact hcount

theorem Inv.step (h : Inv n rd s) {a : Step} {t : State} (hok : Settled s a)
    (ht : step s a = some t) : Inv n rd t := by
  cases a with
  | change x =>
    cases ht
    obtain ⟨hn, ⟨w, hl, hw⟩, hcount⟩ := h
    obtain ⟨w', hle, hl'⟩ := standing_change hl hn hok
    exact ⟨hn, ⟨w', hl', hw.mono hle⟩, hcount⟩
  | consume k =>
    obtain ⟨hk, ht⟩ := Option.ite_none_right_eq_some.mp ht
    cases ht
    obtain ⟨hn, ⟨w, hl, hw⟩, hcount⟩ := h
    refine ⟨hn, ⟨w, hl, hk, hw.avail_le⟩, ?_⟩
    change s.acked + (s.handle.acks + k) = s.consumed + k
    omega
  | call c =>
    obtain ⟨o, ho, rfl⟩ := Option.map_eq_some_iff.mp ht
    exact h.call hok ho

end Call

/-- A client with a listener in use, that has not read anything. -/
structure Opened (n : Nat) (s : State) : Prop where
  size_le : n ≤ 2 ^ 63
  bufsz : s.driver.listener.bufsz = n
  rd : s.driver.listener.bufferRdOffset < n
  wr : s.driver.listener.bufferWrOffset < n
  id : s.driver.listener.id ≠ listenerEmpty
  avail : s.handle.avail = 0
  acks : s.handle.acks = 0
  acked : s.acked = 0
  consumed : s.consumed = 0

/-- All that was read and is not pending is acknowledged, and the listener has been moved by
as much: each byte was acknowledged once. -/
structure ExactlyOnce (n : Nat) (s₀ s : State) : Prop where
  read : s.acked + s.handle.acks = s.consumed
  moved : s.driver.listener.bufferRdOffset = (s₀.driver.listener.bufferRdOffset + s.acked) % n

theorem Opened.inv {n : Nat} {s : State} (h : Opened n s) :
    Inv n s.driver.listener.bufferRdOffset s := by
  have hgap := gap_lt h.rd h.wr
  have hwr := add_gap h.rd h.wr
  refine ⟨h.size_le, ⟨s.driver.listener.bufferRdOffset +
    gap n s.driver.listener.bufferRdOffset s.driver.listener.bufferWrOffset, ?_, ?_⟩, ?_⟩
  · rw [h.acked, Nat.add_zero]
    exact ⟨⟨h.bufsz, (Nat.mod_eq_of_lt h.rd).symm, hwr.symm⟩, Nat.le_add_right _ _,
      Nat.add_lt_add_left hgap _, h.id⟩
  · refine ⟨by rw [h.acks]; exact Nat.zero_le _, ?_⟩
    rw [h.acked, h.avail]
    exact Nat.le_add_right _ _
  · rw [h.acked, h.acks, h.consumed]

/-- A request that fails leaves the read offset as it is unless its reply is lost, and while no
reply is lost a client that repeats its requests acknowledges each byte once. -/
theorem lstop_exactly_once (d : Driver) (lstop : ListenerOp) (e : Env)
    (hrd : d.listener.bufferRdOffset < d.listener.bufsz)
    (hwr : d.listener.bufferWrOffset < d.listener.bufsz) (n : Nat) (s₀ s : State)
    (h₀ : Opened n s₀) (h : Reach step Settled (fun t => t = s₀) s) :
    (KeepsOffset d lstop e ↔ Settles d lstop e) ∧ ExactlyOnce n s₀ s := by
  refine ⟨keepsOffset_iff hrd hwr, ?_⟩
  have hinv := h.invariant (Inv n s₀.driver.listener.bufferRdOffset)
    (by
      rintro t rfl
      exact h₀.inv)
    (fun t a u ht hok hu => ht.step hok hu)
  obtain ⟨-, ⟨w, hl, -⟩, hcount⟩ := hinv
  exact ⟨hcount, hl.rd⟩

/-- A listener of two pages with 1000 bytes. -/
def start : State := ⟨⟨⟨1, false, 1000, 0, 8192⟩, false⟩, ⟨0, 0, 0, 0, 8192⟩, 0, 0⟩

theorem start_opened : Opened 8192 start :=
  ⟨by norm_num, rfl, by decide, by decide, by decide, rfl, rfl, rfl, rfl⟩

/-- Nothing happens meanwhile. -/
def quietly (request : Request) (fromUser toUser : Nat) : Call :=
  ⟨request, none, fromUser, toUser, [], []⟩

def waiting : Call := quietly ⟨12, false, 0, ⟨0, 0, 0, 0, 0, 0⟩⟩ 0 0

def acking : Nat → Nat → Call := quietly ⟨0, true, 0, ⟨0, 0, 0, 0, 0, 0⟩⟩

/-- The first acknowledgement of 500 bytes is not copied by the driver, the second one is. -/
theorem lstop_exactly_once_retried : KeepsOffset start.driver ⟨500, 0, 0, 0, 0, 0⟩ (looking false) ∧
    ∃ s, run (guard step Settled) start
        [.call waiting, .consume 500, .call (acking 1 0), .call (acking 0 0)] = some s ∧
      s.acked = 500 ∧ ExactlyOnce 8192 start s := by
  have hrun : (run (guard step Settled) start [.call waiting, .consume 500, .call (acking 1 0),
      .call (acking 0 0)]).map State.acked = some 500 := by
    decide +kernel
  obtain ⟨s, hs, hacked⟩ := Option.map_eq_some_iff.mp hrun
  have h := lstop_exactly_once start.driver ⟨500, 0, 0, 0, 0, 0⟩ (looking false) (by decide)
    (by decide) 8192 start s start_opened (.run_guard (.start rfl) hs)
  exact ⟨h.1.mpr (.inl rfl), s, hs, hacked, h.2⟩

/-- The reply to an acknowledgement is lost, and the same 500 bytes are acknowledged again. -/
theorem lost_reply_acks_twice :
    (¬ ∀ (d : Driver) (lstop : ListenerOp) (e : Env),
      d.listener.bufferRdOffset < d.listener.bufsz →
        d.listener.bufferWrOffset < d.listener.bufsz → KeepsOffset d lstop e) ∧
    ¬ ∀ (n : Nat) (s₀ s : State), Opened n s₀ → Reach step Free (fun t => t = s₀) s →
      ExactlyOnce n s₀ s := by
  constructor
  · intro h
    have hkeeps := h start.driver ⟨500, 0, 0, 0, 0, 0⟩ { looking false with toUser := 1 } (by decide)
      (by decide) (by decide +kernel)
    exact absurd hkeeps (by decide +kernel)
  · intro h
    have hrun : (run step start [.call waiting, .consume 500, .call (acking 0 1),
        .call (acking 0 0)]).map (fun s => (s.acked, s.driver.listener.bufferRdOffset)) =
          some (500, 1000) := by
      decide +kernel
    obtain ⟨s, hs, he⟩ := Option.map_eq_some_iff.mp hrun
    obtain ⟨hacked, hrd⟩ := Prod.mk.inj he
    have hmoved := (h 8192 start s start_opened (.run (.start rfl) hs)).moved
    rw [hacked, hrd] at hmoved
    exact absurd hmoved (by decide)

end Hpcap.Retry
