import Hpcap.Decoding
import Hpcap.Wire

namespace Hpcap.Delivery

open Hpcap.Rx Hpcap.Stream Hpcap.Listeners Hpcap.Registry Hpcap.Transition Hpcap.Opening
open Hpcap.Wire
open Hpcap.Capture (joinPos tiny)
open Hpcap.Decoding (Captured)
open Hpcap.RxRing (Ring alone)

section Lost

variable {cfg : Config} {fs : List (Frame × Fate)}

end Lost

section Host

variable {cfg : Config} {bs n : Nat} {id : Int} {s t : Capture.State} {pc : Capture.Pc}

theorem acknowledge_rx (ht : Capture.acknowledge id s pc = some t) :
    t.queue.rx = s.queue.rx := by
  obtain ⟨-, ht⟩ := Option.ite_none_left_eq_some.mp ht
  obtain rfl := Option.some.inj ht
  dsimp only
  split <;> rfl

theorem look_rx (ht : Capture.look id n s pc = some t) : t.queue.rx = s.queue.rx := by
  obtain ⟨_, -, rfl⟩ := Option.map_eq_some_iff.mp ht
  rfl

theorem writeBlock_rx (ht : Capture.hpcapWriteBlock bs n s pc = some t) :
    t.queue.rx = s.queue.rx := by
  rw [Capture.hpcapWriteBlock] at ht
  split at ht
  · obtain rfl := Option.some.inj ht
    rfl
  · obtain ⟨-, ht⟩ := Option.ite_none_left_eq_some.mp ht
    obtain rfl := Option.some.inj ht
    rfl

/-- The capture loop writes nothing to the stream. -/
theorem capture_rx (ht : Capture.capture cfg bs id s = some t) : t.queue.rx = s.queue.rx := by
  unfold Capture.capture at ht
  split at ht
  · obtain rfl := Option.some.inj ht
    split <;> rfl
  · split at ht
    · exact acknowledge_rx ht
    · split at ht
      · exact acknowledge_rx ht
      · obtain rfl := Option.some.inj ht
        rfl
  · exact look_rx ht
  · split at ht
    · exact writeBlock_rx ht
    · obtain rfl := Option.some.inj ht
      rfl
  · exact look_rx ht
  · split at ht
    · exact writeBlock_rx ht
    · obtain rfl := Option.some.inj ht
      rfl
  · obtain ⟨u, hu, rfl⟩ := Option.map_eq_some_iff.mp ht
    exact acknowledge_rx (t := u) hu
  · cases ht

/-- A queue with an `hpcapdd` and its files, and other clients. -/
def dumping (cfg : Config) (bs : Nat) (id : Int) : Host cfg Files.State Capture.Step where
  step := Files.step cfg bs id
  allowed := Files.Received
  queue := fun s => s.proc.queue
  put := fun s q => { s with proc := { s.proc with queue := q } }
  poll := fun frames => .op (.poll frames)
  polls := fun
    | .op (.poll _) => true
    | _ => false
  queue_put := fun _ _ => rfl
  put_put := fun _ _ _ => rfl
  step_poll := fun _ _ => rfl
  allowed_poll := fun _ _ h => h
  rx_eq := fun s a t hpolls hs => by
    cases a with
    | capture =>
      obtain ⟨u, hu, rfl⟩ := Option.map_eq_some_iff.mp hs
      exact capture_rx hu
    | stop =>
      obtain rfl := Option.some.inj hs
      rfl
    | op a =>
      obtain ⟨u, hu, rfl⟩ := Option.map_eq_some_iff.mp hs
      obtain ⟨-, hu⟩ := Option.ite_none_right_eq_some.mp hu
      obtain ⟨q, hq, rfl⟩ := Option.map_eq_some_iff.mp hu
      obtain hrx | ⟨frames, rfl, -⟩ := Opening.step_rx hq
      · exact hrx
      · cases hpolls

end Host

/-- The poll thread is launched, and clients come and go, until `hpcapdd` opens the device at a
file boundary in the state `w`. The run goes on up to `s`. The thread is between two iterations
in both states. -/
structure Dumps (cfg : Config) (bs : Nat) (id : Int) (r : Ring) (firstRxd : Nat)
    (w : Wire.State Poll.State) (s : Wire.State Files.State) : Prop where
  opened : ∃ buf, Reach (Wire.step r (polled cfg)) (Allowed (polled cfg))
    (· = launched r firstRxd (Poll.init cfg buf)) w
  waits : w.thread = none
  id_ne : id ≠ listenerEmpty
  new : hpcapGetListener w.host.lstnr id = none
  slot : (joinSlot w.host.lstnr id).isSome
  boundary : cfg.fileSize ∣ joinPos w.host
  run : Reach (Wire.step r (dumping cfg bs id)) (Allowed (dumping cfg bs id))
    (· = ⟨w.ring, Files.start cfg w.host id, none, []⟩) s
  idle : s.thread = none

section Dumps

variable {cfg : Config} {bs : Nat} {id : Int} {r : Ring} {firstRxd : Nat}
  {w : Wire.State Poll.State} {s : Wire.State Files.State}

theorem Dumps.inv (h : Dumps cfg bs id r firstRxd w s) (hone : r.consumers = 1)
    (hfirst : firstRxd < r.size) :
    Wire.Inv r (dumping cfg bs id) firstRxd ⟨w.ring, Files.start cfg w.host id, none, []⟩ s := by
  obtain ⟨buf, hw⟩ := h.opened
  have hinv := launched_inv hone hfirst hw
  exact reach_inv hone hinv.onRing hinv.sized rfl rfl h.run

/-- The same run, with whole iterations of `hpcap_poll`. -/
theorem Dumps.whole (h : Dumps cfg bs id r firstRxd w s) (hone : r.consumers = 1)
    (hfirst : firstRxd < r.size) : Decoding.Dumps cfg bs id w.host s.host := by
  obtain ⟨buf, hw⟩ := h.opened
  exact ⟨⟨buf, ((launched_inv hone hfirst hw).simulates.idle h.waits).reach⟩, h.id_ne, h.new,
    h.slot, h.boundary, ((h.inv hone hfirst).simulates.idle h.idle).reach⟩

end Dumps

instance (cfg : Config) (bs : Nat) (id : Int) (s : Files.State) (a : Capture.Step) :
    Decidable ((dumping cfg bs id).allowed s a) :=
  inferInstanceAs (Decidable (Files.Received s a))

end Hpcap.Delivery
