import Hpcap.Opening
import Hpcap.Recording

namespace Hpcap.Intact

open Hpcap.Reservation Hpcap.SharedLog Hpcap.Rx Hpcap.Stream Hpcap.Inked Hpcap.Recording
open Hpcap.Listeners Hpcap.Transition Hpcap.Opening

section Step

variable {cfg : Config} {s t : Poll.State} {es : List Entry}

theorem released_eq {L : Log cfg.bufSize} (hL : Refines s.lstnr L)
    (hw : L.write = s.rx.trace.reserved) : released s = L.floor := by
  have hle := L.floor_le_write
  rw [released, hL.usedBytes_global]
  omega

theorem kept_of_floor {L : Log cfg.bufSize} (hL : Refines s.lstnr L)
    (hw : L.write = s.rx.trace.reserved) (h : Kept cfg L.floor s.rx es) :
    Kept cfg (released s) s.rx es := by
  rw [released_eq hL hw]
  exact h

/-- The first thread of an iteration releases more, if anything. -/
theorem publish_floor {L : Log cfg.bufSize} (hd : cfg.bufSize ∣ 2 ^ 32) (hc : s.rx.Counted)
    (hL : Refines s.lstnr L) (hlo : L.write ≤ s.rx.trace.reserved)
    (hhi : s.rx.trace.reserved ≤ L.write + L.room) : L.floor ≤ released (Poll.publish cfg s) := by
  obtain ⟨L', hL', hw, hf⟩ := hL.popGlobal
  have hroom : s.rx.trace.reserved - L'.write ≤ L'.room := by
    simp only [Log.room] at hhi ⊢
    omega
  have hlt := L'.room_lt
  have hnew : distance (hpcapPopGlobalListener s.lstnr).1.global.bufferWrOffset
      (newOffset cfg.bufSize s.rx.consumerWriteOff) cfg.bufSize =
        s.rx.trace.reserved - L'.write := by
    rw [hc]
    exact hL'.newBytes hd (by omega) (by omega)
  have hle : L.floor ≤ L'.floor := hf ▸ Nat.le_add_right _ _
  simp only [Poll.publish]
  simp only [hnew]
  split
  · rename_i hpos
    refine hle.trans (released_eq (L := L'.publish _ hroom) (hL'.push hroom hpos) ?_).ge
    change L'.write + (s.rx.trace.reserved - L'.write) = s.rx.trace.reserved
    omega
  · refine hle.trans (released_eq (L := L') hL' ?_).ge
    dsimp only
    omega

/-- The log goes on where the offsets are not reset. -/
theorem rewind_kept (h : s.lstnr.listenersCount ≠ 0 → Kept cfg (released s) s.rx es) :
    ∃ es', Kept cfg (released (Poll.rewind s)) (Poll.rewind s).rx es' ∧
      (s.lstnr.listenersCount ≠ 0 → es' = es) := by
  by_cases hc : s.lstnr.listenersCount = 0
  · rw [Poll.rewind, if_pos hc]
    refine ⟨[], ?_, fun h => absurd hc h⟩
    have hzero : released ⟨s.rx.reset, hpcapGlobalListenerResetOffset s.lstnr, 0⟩ = 0 :=
      Nat.zero_sub _
    rw [hzero]
    exact init_kept cfg s.rx
  · rw [Poll.rewind, if_neg hc]
    exact ⟨es, h hc, fun _ => rfl⟩

theorem hpcapPoll_sound {frames : List Frame} (hcount : s.lstnr.listenersCount ≠ 0)
    (hsound : Sound cfg (Poll.hpcapPoll cfg 1 0 frames s).2.rx.trace) : Sound cfg s.rx.trace := by
  unfold Poll.hpcapPoll at hsound
  dsimp only at hsound
  rw [Poll.rewind, if_neg hcount, if_pos rfl] at hsound
  exact hpcapRx_sound hsound

/-- An iteration of the poll thread adds to the log. -/
theorem hpcapPoll_kept (hb : cfg.bufSize ∣ cfg.fileSize) (hd : cfg.bufSize ∣ 2 ^ 32)
    {frames : List Frame} (hlen : ∀ f ∈ frames, f.size ≤ maxDescrSize) (hinv : Poll.Inv cfg s)
    (h : s.lstnr.listenersCount ≠ 0 → Kept cfg (released s) s.rx es)
    (hsound : Sound cfg (Poll.hpcapPoll cfg 1 0 frames s).2.rx.trace) :
    ∃ es', Kept cfg (released (Poll.hpcapPoll cfg 1 0 frames s).2)
        (Poll.hpcapPoll cfg 1 0 frames s).2.rx es' ∧
      (s.lstnr.listenersCount ≠ 0 → es <+: es') := by
  obtain ⟨hc, L, hL, hw⟩ := Poll.rewind_inv hinv
  obtain ⟨es₀, h₀, hsame⟩ := rewind_kept h
  have hn := L.size_pos
  rw [released_eq hL hw] at h₀
  have hend : (Poll.rewind s).rx.trace.reserved + L.room ≤ L.floor + cfg.bufSize := by
    have hfits := L.fits
    rw [← hw, Log.room]
    omega
  unfold Poll.hpcapPoll at hsound ⊢
  dsimp only at hsound ⊢
  rw [if_pos rfl, hL.availBytes_global, Nat.div_one] at hsound ⊢
  obtain ⟨hc', hlo, hhi⟩ := hpcapRx_counted cfg L.room (s.lstnr.listenersCount ≠ 0) frames hc
  obtain ⟨more, hm⟩ := hpcapRx_kept hb hn (s.lstnr.listenersCount ≠ 0) hlen hc h₀ hend hsound
  refine ⟨es₀ ++ more, hm.mono (publish_floor hd hc' hL (hw ▸ hlo) (hw ▸ hhi)) ?_, fun hcount => ?_⟩
  · exact Nat.sub_le _ _
  · rw [hsame hcount]
    exact List.prefix_append es more

/-- A new stream begins. -/
def Restarts (s : Poll.State) : Poll.Op → Prop
  | .poll _ => s.lstnr.listenersCount = 0
  | _ => False

theorem step_sound {a : Poll.Op} (hgo : ¬ Restarts s a) (hs : Poll.step cfg s a = some t)
    (hsound : Sound cfg t.rx.trace) : Sound cfg s.rx.trace := by
  obtain hrx | ⟨frames, rfl, rfl⟩ := step_rx hs
  · exact hrx ▸ hsound
  · exact hpcapPoll_sound hgo hsound

/-- Whatever is done, the log is kept, and it goes on unless a new stream begins. -/
theorem step_kept (hb : cfg.bufSize ∣ cfg.fileSize) (hd : cfg.bufSize ∣ 2 ^ 32)
    {a : Poll.Op} (hinv : Poll.Inv cfg s) (h : Sound cfg s.rx.trace → Kept cfg (released s) s.rx es)
    (ha : Received s a) (hs : Poll.step cfg s a = some t) (hsound : Sound cfg t.rx.trace) :
    ∃ es', Kept cfg (released t) t.rx es' ∧ (¬ Restarts s a → es <+: es') := by
  obtain ⟨hc, L, hL, hw⟩ := id hinv
  rw [released_eq hL hw] at h
  cases a with
  | poll frames =>
    cases hs
    rw [← released_eq hL hw] at h
    exact hpcapPoll_kept hb hd ha hinv (fun hcount => h (hpcapPoll_sound hcount hsound)) hsound
  | add id =>
    obtain ⟨hid, ht⟩ := Option.ite_none_right_eq_some.mp hs
    cases ht
    obtain ⟨L', hL', hw', hf⟩ := hL.add hid.1
    exact ⟨es, kept_of_floor hL' (hw'.trans hw) (hf ▸ h hsound), fun _ => List.prefix_refl es⟩
  | del id =>
    obtain ⟨hid, ht⟩ := Option.ite_none_right_eq_some.mp hs
    cases ht
    obtain ⟨L', hL', hw', hf⟩ := hL.del hid.1
    exact ⟨es, kept_of_floor hL' (hw'.trans hw) (hf ▸ h hsound), fun _ => List.prefix_refl es⟩
  | pop id count =>
    obtain ⟨hid, ht⟩ := Option.ite_none_right_eq_some.mp hs
    cases ht
    obtain ⟨L', hL', hw', hf⟩ := hL.pop hid.1 count
    exact ⟨es, kept_of_floor hL' (hw'.trans hw) (hf ▸ h hsound), fun _ => List.prefix_refl es⟩
  | ack id count =>
    obtain ⟨hid, ht⟩ := Option.ite_none_right_eq_some.mp hs
    cases ht
    have hp : Refines { s.lstnr with alreadyPopped := true } L :=
      ⟨hL.size_le, hL.global, hL.slots, hL.count, hL.quiet⟩
    obtain ⟨L', hL', hw', hf⟩ := hp.pop hid.1 count
    exact ⟨es, kept_of_floor hL' (hw'.trans hw) (hf ▸ h hsound), fun _ => List.prefix_refl es⟩

end Step

/-- The offsets are those of one stream, and the buffer holds its log from where it is
released on. -/
structure Inv (cfg : Config) (s : Poll.State) : Prop where
  queue : Poll.Inv cfg s
  log : Sound cfg s.rx.trace → ∃ es, Kept cfg (released s) s.rx es

theorem Inv.step {cfg : Config} (hb : cfg.bufSize ∣ cfg.fileSize) (hd : cfg.bufSize ∣ 2 ^ 32)
    {s t : Poll.State} {a : Poll.Op} (h : Inv cfg s) (ha : Received s a)
    (hs : Poll.step cfg s a = some t) : Inv cfg t := by
  refine ⟨Poll.step_inv hd h.queue hs, fun hsound => ?_⟩
  by_cases hbefore : Sound cfg s.rx.trace
  · obtain ⟨es, hes⟩ := h.log hbefore
    obtain ⟨es', hes', -⟩ := step_kept hb hd h.queue (fun _ => hes) ha hs hsound
    exact ⟨es', hes'⟩
  · have hnone : Sound cfg s.rx.trace → Kept cfg (released s) s.rx [] :=
      fun hs' => absurd hs' hbefore
    obtain ⟨es', hes', -⟩ := step_kept hb hd h.queue hnone ha hs hsound
    exact ⟨es', hes'⟩

theorem init_inv {cfg : Config} (hd : cfg.bufSize ∣ 2 ^ 32) (buf : Nat → UInt8) :
    Inv cfg (Poll.init cfg buf) := by
  refine ⟨Poll.init_inv hd buf, fun _ => ⟨[], ?_⟩⟩
  have hzero : released (Poll.init cfg buf) = 0 := Nat.zero_sub _
  rw [hzero]
  exact init_kept cfg (.init buf)

theorem reach_inv {cfg : Config} (hb : cfg.bufSize ∣ cfg.fileSize) (hd : cfg.bufSize ∣ 2 ^ 32)
    {buf : Nat → UInt8} {s : Poll.State}
    (h : Reach (Poll.step cfg) Received (fun t => t = Poll.init cfg buf) s) : Inv cfg s := by
  refine h.invariant (Inv cfg) ?_ fun _ _ _ hu ha hs => hu.step hb hd ha hs
  rintro t rfl
  exact init_inv hd buf

/-- What a listener may still read: it stands at position `p` of the stream, can see all of
the stream behind it, and finds there what the log puts there. -/
structure Unread (cfg : Config) (s : Poll.State) (es : List Entry) (l : Listener) (p : Nat) :
    Prop where
  stands : Stands cfg.bufSize s.rx.trace.reserved l.bufferRdOffset p
  sees : usedBytes l = s.rx.trace.reserved - p
  intact : ∀ x b, p ≤ x → ink (layout cfg) es x = some b → s.rx.dstBuf (x % cfg.bufSize) = b

/-- Whatever the clients do, the stream is a log of the accepted frames and of paddings at
the files' edges, and the buffer holds for each listener all that it has not acknowledged. -/
theorem unread_intact (cfg : Config) (hb : cfg.bufSize ∣ cfg.fileSize) (hd : cfg.bufSize ∣ 2 ^ 32)
    (buf : Nat → UInt8) (s : Poll.State)
    (h : Reach (Poll.step cfg) Received (fun t => t = Poll.init cfg buf) s)
    (hsound : Sound cfg s.rx.trace) :
    ∃ es, Tidy cfg 0 es ∧ frames es = s.rx.trace.accepted.reverse ∧
      total (layout cfg) es = s.rx.trace.reserved ∧
      ∀ l ∈ s.lstnr.listeners, l.id ≠ listenerEmpty → ∃ p, Unread cfg s es l p := by
  obtain ⟨⟨hc, L, hL, hw⟩, hlog⟩ := reach_inv hb hd h
  obtain ⟨es, hes⟩ := hlog hsound
  rw [released_eq hL hw] at hes
  refine ⟨es, hes.tidy, hes.accepted, hes.total_eq, fun l hl hid => ?_⟩
  obtain ⟨i, hi⟩ := List.mem_iff_getElem?.mp hl
  obtain ⟨r, -, hr, hat⟩ := hL.reader hi hid
  have hle := L.le_write r hr
  have hfits := L.reader_fits hr
  refine ⟨r, ⟨hat.rd, hw ▸ hle, hw ▸ hfits⟩, ?_, fun x b hx hb' => ?_⟩
  · rw [hat.usedBytes hle hfits, hw]
  · exact hes.shown x b ((L.floor_le r hr).trans hx) hb'

/-- Two listeners, of which one has acknowledged the first of two frames. -/
def halfRead : List Poll.Op :=
  [.add 1, .poll [⟨[1, 2, 3], 1, 0⟩, ⟨[4, 5], 1, 0⟩], .add 2, .ack 1 15, .poll []]

theorem unread_intact_half_read :
    ∃ s es, run (guard (Poll.step onePage) Received) (Poll.init onePage blank) halfRead = some s ∧
      (frames es).length = 2 ∧
      ∀ l ∈ s.lstnr.listeners, l.id ≠ listenerEmpty → ∃ p, Unread onePage s es l p := by
  have hrun : (run (guard (Poll.step onePage) Received) (Poll.init onePage blank) halfRead).map
      (fun s => (decide (Sound onePage s.rx.trace), s.rx.trace.accepted.length)) =
      some (true, 2) := by
    decide +kernel
  obtain ⟨s, hs, he⟩ := Option.map_eq_some_iff.mp hrun
  simp only [Prod.mk.injEq, decide_eq_true_eq] at he
  obtain ⟨hsound, hcount⟩ := he
  obtain ⟨es, -, hframes, -, hunread⟩ := unread_intact onePage (by decide) (by decide) blank s
    (.run_guard (.start rfl) hs) hsound
  exact ⟨s, es, hs, by rw [hframes, List.length_reverse, hcount], hunread⟩

end Hpcap.Intact
