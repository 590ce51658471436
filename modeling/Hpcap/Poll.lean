import Hpcap.Listeners
import Hpcap.Rx
import Hpcap.Transition

namespace Hpcap.Poll

open Hpcap.Reservation Hpcap.SharedLog Hpcap.Slots Hpcap.Listeners Hpcap.Rx Hpcap.Transition

/-- What a queue's buffer and its clients share with the poll thread. -/
structure State where
  rx : Rx.State
  lstnr : Table
  consumerReadOff : Nat

def init (cfg : Config) (buf : Nat → UInt8) : State :=
  ⟨.init buf, hpcapInitListeners cfg.bufSize, 0⟩

/-- The part of an iteration that is the first thread's only. -/
def publish (cfg : Config) (s : State) : State :=
  let t := (hpcapPopGlobalListener s.lstnr).1
  let newBytes := distance t.global.bufferWrOffset
    (newOffset cfg.bufSize s.rx.consumerWriteOff) cfg.bufSize
  let t := if newBytes > 0 then hpcapPushAllListeners t newBytes else t
  { s with lstnr := t, consumerReadOff := t.global.bufferRdOffset % 2 ^ 32 }

/-- The start of an iteration: without listeners the offsets are reset. -/
def rewind (s : State) : State :=
  if s.lstnr.listenersCount = 0 then
    { rx := s.rx.reset, lstnr := hpcapGlobalListenerResetOffset s.lstnr, consumerReadOff := 0 }
  else s

/-- An iteration of `hpcap_poll` on the frames in the ring: the frames it leaves there
and the state. -/
def hpcapPoll (cfg : Config) (consumers thIndex : Nat) (frames : List Frame) (s : State) :
    List Frame × State :=
  let t := rewind s
  let avail := availBytes t.lstnr.global
  let r := hpcapRx cfg (avail / consumers) (s.lstnr.listenersCount ≠ 0) frames t.rx
  let t := { t with rx := r.2.2 }
  (r.2.1, if thIndex = 0 then publish cfg t else t)

inductive Op
  | poll (frames : List Frame)
  | add (id : Int)
  | del (id : Int)
  | pop (id : Int) (count : Nat)
  | ack (id : Int) (count : Nat)

/-- One poll thread and its clients. `ack` is the acknowledgement of `HPCAP_IOC_LSTOP`,
`pop` the one of `hpcap_read`. -/
def step (cfg : Config) (s : State) : Op → Option State
  | .poll frames => some (hpcapPoll cfg 1 0 frames s).2
  | .add id =>
    if id ≠ listenerEmpty ∧ hpcapGetListener s.lstnr id = none then
      some { s with lstnr := (hpcapAddListener s.lstnr id).1 }
    else none
  | .del id =>
    if id ≠ listenerEmpty ∧ (hpcapGetListener s.lstnr id).isSome then
      some { s with lstnr := hpcapDelListener s.lstnr id }
    else none
  | .pop id count =>
    if id ≠ listenerEmpty ∧ (hpcapGetListener s.lstnr id).isSome then
      some { s with lstnr := popHandle s.lstnr id count }
    else none
  | .ack id count =>
    if id ≠ listenerEmpty ∧ (hpcapGetListener s.lstnr id).isSome ∧ 0 < count then
      some { s with lstnr := popHandle { s.lstnr with alreadyPopped := true } id count }
    else none

/-- The table and the counter are those of one stream. -/
def Inv (cfg : Config) (s : State) : Prop :=
  s.rx.Counted ∧ ∃ L : Log cfg.bufSize, Refines s.lstnr L ∧ L.write = s.rx.trace.reserved

variable {cfg : Config} {s : State}

theorem publish_refines {L : Log cfg.bufSize} (hd : cfg.bufSize ∣ 2 ^ 32) (hc : s.rx.Counted)
    (h : Refines s.lstnr L) (hlo : L.write ≤ s.rx.trace.reserved)
    (hhi : s.rx.trace.reserved ≤ L.write + L.room) : Inv cfg (publish cfg s) := by
  refine ⟨hc, ?_⟩
  obtain ⟨L', h', hw, hf⟩ := h.popGlobal
  have hroom : s.rx.trace.reserved - L'.write ≤ L'.room := by
    simp only [Log.room] at hhi ⊢
    omega
  have hlt := L'.room_lt
  have hnew : distance (hpcapPopGlobalListener s.lstnr).1.global.bufferWrOffset
      (newOffset cfg.bufSize s.rx.consumerWriteOff) cfg.bufSize =
        s.rx.trace.reserved - L'.write := by
    rw [hc]
    exact h'.newBytes hd (by omega) (by omega)
  simp only [publish]
  simp only [hnew]
  split
  · rename_i hpos
    refine ⟨L'.publish _ hroom, h'.push hroom hpos, ?_⟩
    change L'.write + (s.rx.trace.reserved - L'.write) = s.rx.trace.reserved
    omega
  · refine ⟨L', h', ?_⟩
    omega

theorem rewind_inv (h : Inv cfg s) : Inv cfg (rewind s) := by
  simp only [rewind]
  split
  · rename_i hc
    obtain ⟨-, L, hL, -⟩ := h
    exact ⟨rfl, L.restart (hL.no_reader hc), hL.restart hc, rfl⟩
  · exact h

theorem hpcapPoll_inv (hd : cfg.bufSize ∣ 2 ^ 32) (frames : List Frame) (h : Inv cfg s) :
    Inv cfg (hpcapPoll cfg 1 0 frames s).2 := by
  obtain ⟨hc, L, hL, hw⟩ := rewind_inv h
  obtain ⟨hc', hlo, hhi⟩ := hpcapRx_counted cfg (availBytes (rewind s).lstnr.global / 1)
    (s.lstnr.listenersCount ≠ 0) frames hc
  rw [hL.availBytes_global, Nat.div_one] at hc' hlo hhi
  unfold hpcapPoll
  dsimp only
  rw [if_pos rfl, hL.availBytes_global, Nat.div_one]
  refine publish_refines hd hc' hL ?_ ?_
  · rw [hw]
    exact hlo
  · rw [hw]
    exact hhi

theorem step_inv (hd : cfg.bufSize ∣ 2 ^ 32) {op : Op} {t : State} (h : Inv cfg s)
    (hs : step cfg s op = some t) : Inv cfg t := by
  obtain ⟨hc, L, hL, hw⟩ := id h
  cases op with
  | poll frames =>
    cases hs
    exact hpcapPoll_inv hd frames h
  | add id =>
    obtain ⟨hid, ht⟩ := Option.ite_none_right_eq_some.mp hs
    cases ht
    obtain ⟨L', hL', hw', -⟩ := hL.add hid.1
    exact ⟨hc, L', hL', hw'.trans hw⟩
  | del id =>
    obtain ⟨hid, ht⟩ := Option.ite_none_right_eq_some.mp hs
    cases ht
    obtain ⟨L', hL', hw', -⟩ := hL.del hid.1
    exact ⟨hc, L', hL', hw'.trans hw⟩
  | pop id count =>
    obtain ⟨hid, ht⟩ := Option.ite_none_right_eq_some.mp hs
    cases ht
    obtain ⟨L', hL', hw', -⟩ := hL.pop hid.1 count
    exact ⟨hc, L', hL', hw'.trans hw⟩
  | ack id count =>
    obtain ⟨hid, ht⟩ := Option.ite_none_right_eq_some.mp hs
    cases ht
    have hp : Refines { s.lstnr with alreadyPopped := true } L :=
      ⟨hL.size_le, hL.global, hL.slots, hL.count, hL.quiet⟩
    obtain ⟨L', hL', hw', -⟩ := hp.pop hid.1 count
    exact ⟨hc, L', hL', hw'.trans hw⟩

theorem init_inv (hd : cfg.bufSize ∣ 2 ^ 32) (buf : Nat → UInt8) : Inv cfg (init cfg buf) := by
  have hpos := Nat.pos_of_dvd_of_pos hd (by decide)
  exact ⟨rfl, .fresh cfg.bufSize maxListeners hpos, .fresh hpos (Nat.le_of_dvd (by decide) hd),
    rfl⟩

/-- The offsets of the buffer, the global listener and the listeners agree. -/
structure Consistent (cfg : Config) (s : State) : Prop where
  global_offsets : s.lstnr.global.bufferRdOffset < cfg.bufSize ∧
    s.lstnr.global.bufferWrOffset < cfg.bufSize
  global_wr : s.lstnr.global.bufferWrOffset = s.rx.consumerWriteOff % cfg.bufSize
  global_used : usedBytes s.lstnr.global ≤ cfg.bufSize - 1
  offsets : ∀ l ∈ s.lstnr.listeners,
    l.bufferRdOffset < cfg.bufSize ∧ l.bufferWrOffset < cfg.bufSize
  active : ∀ l ∈ s.lstnr.listeners, l.id ≠ listenerEmpty →
    l.bufferWrOffset = s.lstnr.global.bufferWrOffset ∧
      usedBytes l ≤ usedBytes s.lstnr.global
  not_clamped : ∀ m ∈ s.lstnr.log, ∀ count avail rd wr, m ≠ .erroneousPush count avail rd wr
  not_overrun : ∀ m ∈ s.lstnr.log, ∀ rd wr used count, m ≠ .popGlobal rd wr used count

theorem Inv.consistent (hd : cfg.bufSize ∣ 2 ^ 32) (h : Inv cfg s) : Consistent cfg s := by
  obtain ⟨hc, L, hL, hw⟩ := h
  have hpos := L.size_pos
  have hmod : s.rx.consumerWriteOff % cfg.bufSize = L.write % cfg.bufSize := by
    rw [hc, hw, Nat.mod_mod_of_dvd _ hd]
  constructor
  · rw [hL.global.rd, hL.global.wr]
    exact ⟨Nat.mod_lt _ hpos, Nat.mod_lt _ hpos⟩
  · rw [hL.global.wr, hmod]
  · have hf := L.fits
    rw [hL.usedBytes_global]
    omega
  · intro l hl
    obtain ⟨o, -, hs⟩ := forall₂_mem hL.slots hl
    cases o with
    | none => exact ⟨hs.2.rd ▸ Nat.mod_lt _ hpos, hs.2.wr ▸ Nat.mod_lt _ hpos⟩
    | some r => exact ⟨hs.2.rd ▸ Nat.mod_lt _ hpos, hs.2.wr ▸ Nat.mod_lt _ hpos⟩
  · intro l hl hid
    obtain ⟨i, hi⟩ := List.mem_iff_getElem?.mp hl
    obtain ⟨r, -, hr, hat⟩ := hL.reader hi hid
    have hf := L.floor_le r hr
    rw [hat.wr, hL.global.wr, hat.usedBytes (L.le_write r hr) (L.reader_fits hr),
      hL.usedBytes_global]
    exact ⟨rfl, by omega⟩
  · intro m hm count avail rd wr he
    obtain ⟨_, _, _, _, rfl⟩ := hL.quiet m hm
    cases he
  · intro m hm rd wr used count he
    obtain ⟨_, _, _, _, rfl⟩ := hL.quiet m hm
    cases he

/-- With one poll thread, whatever the clients do, everybody's offsets stay consistent. -/
theorem single_thread_consistent (cfg : Config) (hd : cfg.bufSize ∣ 2 ^ 32) (buf : Nat → UInt8)
    (s : State) (h : Reach (step cfg) Free (fun t => t = init cfg buf) s) : Consistent cfg s := by
  refine (h.invariant (Inv cfg) ?_ ?_).consistent hd
  · rintro t rfl
    exact init_inv hd buf
  · intro t op u ht _ hs
    exact step_inv hd ht hs

/-- A handle joins, and a frame is received for it. -/
theorem single_thread_consistent_one_frame :
    let cfg : Config := ⟨4096, 4096, 0, false, []⟩
    let joined : State :=
      { init cfg (fun _ => 0) with lstnr := (hpcapAddListener (hpcapInitListeners 4096) 1).1 }
    Consistent cfg (hpcapPoll cfg 1 0 [⟨[1, 2, 3], 1, 0⟩] joined).2 := by
  intro cfg joined
  have h₀ : Reach (step cfg) Free (fun t => t = init cfg fun _ => 0) (init cfg fun _ => 0) :=
    .start rfl
  have h₁ : Reach (step cfg) Free (fun t => t = init cfg fun _ => 0) joined :=
    h₀.next (a := .add 1) trivial rfl
  exact single_thread_consistent cfg (by decide) (fun _ => 0) _
    (h₁.next (a := .poll [⟨[1, 2, 3], 1, 0⟩]) trivial rfl)

end Hpcap.Poll
