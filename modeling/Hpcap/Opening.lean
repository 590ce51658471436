import Hpcap.Poll
import Hpcap.Registry
import Hpcap.Stream

namespace Hpcap.Opening

open Hpcap.Patch Hpcap.Reservation Hpcap.Tiling Hpcap.SharedLog Hpcap.Rx Hpcap.Stream
open Hpcap.Listeners Hpcap.Registry Hpcap.Transition

/-- The buffer offset stands for stream position `a`, of a stream written up to `q`. -/
structure Stands (n q off a : Nat) : Prop where
  offset : off = a % n
  le : a ≤ q
  fits : q < a + n

theorem Stands.unique {n q off a b : Nat} (h : Stands n q off a) (h' : Stands n q off b) :
    a = b := by
  have ha := gap_mod h.le h.fits
  have hb := gap_mod h'.le h'.fits
  rw [← h.offset] at ha
  rw [← h'.offset] at hb
  have hle := h.le
  have hle' := h'.le
  omega

/-- A record starts there, or the next one will. -/
def StartsRecord (n q : Nat) (starts : List Nat) (off : Nat) : Prop :=
  ∃ a, Stands n q off a ∧ (a ∈ starts ∨ a = q)

/-- The stream position up to which `hpcap_pop_global_listener` has released the buffer. -/
def released (s : Poll.State) : Nat := s.rx.trace.reserved - usedBytes s.lstnr.global

/-- Frames fit a descriptor. -/
def Received (_ : Poll.State) : Poll.Op → Prop
  | .poll frames => ∀ f ∈ frames, f.size ≤ maxDescrSize
  | _ => True

instance (s : Poll.State) : DecidablePred (Received s) := fun a => by
  unfold Received
  split <;> infer_instance

/-- Offsets and records are those of one stream. -/
structure Inv (cfg : Config) (s : Poll.State) : Prop where
  queue : Poll.Inv cfg s
  ready : ∃ buf, Sound cfg s.rx.trace → Ready cfg buf s.rx

theorem step_rx {cfg : Config} {s t : Poll.State} {a : Poll.Op} (h : Poll.step cfg s a = some t) :
    t.rx = s.rx ∨ ∃ frames, a = .poll frames ∧ t = (Poll.hpcapPoll cfg 1 0 frames s).2 := by
  cases a with
  | poll frames =>
    cases h
    exact .inr ⟨frames, rfl, rfl⟩
  | add id | del id | pop id count | ack id count =>
    obtain ⟨-, h⟩ := Option.ite_none_right_eq_some.mp h
    obtain rfl := Option.some.inj h
    exact .inl rfl

theorem hpcapPoll_ready {cfg : Config} (hb : cfg.bufSize ∣ cfg.fileSize) {frames : List Frame}
    (hlen : ∀ f ∈ frames, f.size ≤ maxDescrSize) {s : Poll.State} (h : Inv cfg s) :
    ∃ buf, Sound cfg (Poll.hpcapPoll cfg 1 0 frames s).2.rx.trace →
      Ready cfg buf (Poll.hpcapPoll cfg 1 0 frames s).2.rx := by
  obtain ⟨hc, -⟩ := h.queue
  have hrewound : (Poll.rewind s).rx.Counted ∧
      ∃ buf, Sound cfg (Poll.rewind s).rx.trace → Ready cfg buf (Poll.rewind s).rx := by
    simp only [Poll.rewind]
    split
    · exact ⟨rfl, s.rx.dstBuf, fun _ => init_ready cfg s.rx.dstBuf⟩
    · exact ⟨hc, h.ready⟩
  obtain ⟨hc, buf, hready⟩ := hrewound
  exact ⟨buf, (hpcapRx_ready hb _ _ hlen hc hready).2⟩

theorem Inv.step {cfg : Config} (hb : cfg.bufSize ∣ cfg.fileSize) (hd : cfg.bufSize ∣ 2 ^ 32)
    {s t : Poll.State} {a : Poll.Op} (h : Inv cfg s) (ha : Received s a) (hs : Poll.step cfg s a = some t) :
    Inv cfg t := by
  refine ⟨Poll.step_inv hd h.queue hs, ?_⟩
  obtain hrx | ⟨frames, rfl, rfl⟩ := step_rx hs
  · rw [hrx]
    exact h.ready
  · exact hpcapPoll_ready hb ha h

theorem init_inv {cfg : Config} (hd : cfg.bufSize ∣ 2 ^ 32) (buf : Nat → UInt8) :
    Inv cfg (Poll.init cfg buf) :=
  ⟨Poll.init_inv hd buf, buf, fun _ => init_ready cfg buf⟩

theorem reach_inv {cfg : Config} (hb : cfg.bufSize ∣ cfg.fileSize) (hd : cfg.bufSize ∣ 2 ^ 32)
    {buf : Nat → UInt8} {s : Poll.State}
    (h : Reach (Poll.step cfg) Received (fun t => t = Poll.init cfg buf) s) : Inv cfg s := by
  refine h.invariant (Inv cfg) ?_ fun _ _ _ hu ha hs => hu.step hb hd ha hs
  rintro t rfl
  exact init_inv hd buf

/-- What the global offsets stand for. -/
theorem global_stands {cfg : Config} {s : Poll.State} (h : Poll.Inv cfg s) :
    Stands cfg.bufSize s.rx.trace.reserved s.lstnr.global.bufferRdOffset (released s) ∧
      Stands cfg.bufSize s.rx.trace.reserved s.lstnr.global.bufferWrOffset s.rx.trace.reserved := by
  obtain ⟨-, L, hL, hw⟩ := h
  have hle := L.floor_le_write
  have hfits := L.fits
  have hrel : released s = L.floor := by
    rw [released, hL.usedBytes_global]
    omega
  rw [hrel, ← hw]
  exact ⟨⟨hL.global.rd, hle, hfits⟩, ⟨hL.global.wr, le_rfl, by omega⟩⟩

/-- Nothing is released before the first record. -/
theorem unreleased_on_record {cfg : Config} {buf dstBuf : Nat → UInt8} {trace : Trace} {q : Nat}
    {starts : List Nat} (h : LaidTo cfg buf dstBuf trace q starts) : 0 ∈ starts ∨ 0 = q := by
  cases starts with
  | nil => exact .inr h.tiles
  | cons p ps =>
    obtain ⟨rfl, -⟩ := h.tiles
    exact .inl List.mem_cons_self

/-- A new listener starts at a record just when it is given the write offset, or the buffer
is released up to a record. -/
theorem new_listener_on_record_iff (cfg : Config) (hb : cfg.bufSize ∣ cfg.fileSize)
    (hd : cfg.bufSize ∣ 2 ^ 32) (buf : Nat → UInt8) (s : Poll.State)
    (h : Reach (Poll.step cfg) Received (fun t => t = Poll.init cfg buf) s)
    (hsound : Sound cfg s.rx.trace) :
    ∃ base starts, LaidTo cfg base s.rx.dstBuf s.rx.trace s.rx.trace.reserved starts ∧
      ∀ id j l, joinSlot s.lstnr id = some j →
        (hpcapAddListener s.lstnr id).1.listeners[j]? = some l →
        (StartsRecord cfg.bufSize s.rx.trace.reserved starts l.bufferRdOffset ↔
          s.lstnr.listenersCount ≠ 0 ∧ s.lstnr.alreadyPopped = true ∨
            released s ∈ starts ∨ released s = s.rx.trace.reserved) := by
  have hinv := reach_inv hb hd h
  obtain ⟨base, hready⟩ := hinv.ready
  obtain ⟨-, starts, hl⟩ := hready hsound
  obtain ⟨hrd, hwr⟩ := global_stands hinv.queue
  refine ⟨base, starts, hl, fun id j l hj hget => ?_⟩
  have hoff : l.bufferRdOffset = joinOffset s.lstnr := by
    obtain ⟨hn, -⟩ | ⟨k, m, hk, hm, -, -, he⟩ := add_cases s.lstnr id
    · rw [hn] at hj
      cases hj
    · cases hk.symm.trans hj
      have hlt := (List.getElem?_eq_some_iff.mp hm).1
      rw [he, List.getElem?_set_self hlt] at hget
      cases hget
      rfl
  rw [hoff, joinOffset]
  by_cases hfirst : s.lstnr.listenersCount = 0 ∨ s.lstnr.alreadyPopped = false
  · rw [if_pos hfirst]
    have hno : ¬ (s.lstnr.listenersCount ≠ 0 ∧ s.lstnr.alreadyPopped = true) := by
      rintro ⟨hc, hp⟩
      obtain hc' | hp' := hfirst
      · exact hc hc'
      · rw [hp] at hp'
        cases hp'
    constructor
    · rintro ⟨a, ha, hstart⟩
      rw [ha.unique hrd] at hstart
      exact .inr hstart
    · intro hstart
      exact ⟨released s, hrd, hstart.resolve_left hno⟩
  · rw [if_neg hfirst]
    obtain ⟨hc, hp⟩ := not_or.mp hfirst
    constructor
    · intro _
      exact .inl ⟨hc, Bool.not_eq_false _ |>.mp hp⟩
    · intro _
      exact ⟨s.rx.trace.reserved, hwr, .inr rfl⟩

abbrev onePage : Config := ⟨4096, 4096, 0, false, []⟩

/-- Two handles are opened one after the other, and the first has acknowledged one record. -/
def joining : List Poll.Op :=
  [.add 1, .poll [⟨[1, 2, 3], 1, 0⟩, ⟨[4, 5], 1, 0⟩], .ack 1 15, .poll []]

theorem new_listener_on_record_joining :
    ∃ s base starts, run (guard (Poll.step onePage) Received) (Poll.init onePage blank) joining =
        some s ∧ LaidTo onePage base s.rx.dstBuf s.rx.trace s.rx.trace.reserved starts ∧
      ∃ l, (hpcapAddListener s.lstnr 2).1.listeners[1]? = some l ∧
        StartsRecord 4096 s.rx.trace.reserved starts l.bufferRdOffset := by
  have hrun : (run (guard (Poll.step onePage) Received) (Poll.init onePage blank) joining).map
      (fun s => (decide (Sound onePage s.rx.trace), joinSlot s.lstnr 2,
        (hpcapAddListener s.lstnr 2).1.listeners[1]?.map Listener.bufferRdOffset,
        decide (s.lstnr.listenersCount ≠ 0 ∧ s.lstnr.alreadyPopped = true))) =
      some (true, some 1, some 29, true) := by
    decide +kernel
  obtain ⟨s, hs, he⟩ := Option.map_eq_some_iff.mp hrun
  simp only [Prod.mk.injEq, decide_eq_true_eq] at he
  obtain ⟨hsound, hj, hrd, hpopped⟩ := he
  obtain ⟨l, hl, -⟩ := Option.map_eq_some_iff.mp hrd
  obtain ⟨base, starts, hlaid, hiff⟩ := new_listener_on_record_iff onePage (by decide) (by decide)
    blank s (.run_guard (.start rfl) hs) hsound
  exact ⟨s, base, starts, hs, hlaid, l, hl, (hiff 2 1 l hj hl).mpr (.inl hpopped)⟩

/-- A listener acknowledges 5 bytes of a record and is closed; the next one is opened before
the poll thread comes to reset the offsets, and starts in the middle of the record. -/
theorem reopened_inside_record :
    ∃ s l, Reach (Poll.step onePage) Free (fun t => t = Poll.init onePage blank) s ∧
      joinSlot s.lstnr 2 = some 0 ∧ (hpcapAddListener s.lstnr 2).1.listeners[0]? = some l ∧
      ∀ starts, Tiles (recordStop (stream s.rx.trace.writes)) 0 s.rx.trace.reserved starts →
        ¬ StartsRecord 4096 s.rx.trace.reserved starts l.bufferRdOffset := by
  have hrun : (run (Poll.step onePage) (Poll.init onePage blank)
      [.add 1, .poll [⟨[1, 2, 3], 1, 0⟩], .ack 1 5, .poll [], .del 1]).map
      (fun s => (joinSlot s.lstnr 2, (hpcapAddListener s.lstnr 2).1.listeners[0]?.map
        Listener.bufferRdOffset, s.rx.trace.reserved, recordStop (stream s.rx.trace.writes) 0)) =
      some (some 0, some 5, 15, 15) := by
    decide +kernel
  obtain ⟨s, hs, he⟩ := Option.map_eq_some_iff.mp hrun
  simp only [Prod.mk.injEq] at he
  obtain ⟨hj, hrd, hres, hstop⟩ := he
  obtain ⟨l, hl, hoff⟩ := Option.map_eq_some_iff.mp hrd
  refine ⟨s, l, .run (.start rfl) hs, hj, hl, fun starts ht => ?_⟩
  rw [hres] at ht ⊢
  rw [hoff]
  obtain ⟨-, -, ps, hps, rfl⟩ := ht.step (by decide)
  rw [hstop] at hps
  cases ps with
  | nil =>
    rintro ⟨a, ha, hstart⟩
    have hoffset := ha.offset
    have hle := ha.le
    rw [List.mem_singleton] at hstart
    omega
  | cons p ps =>
    obtain ⟨-, hlt, hrest⟩ := hps
    have hle := hrest.le
    omega

end Hpcap.Opening
