import Hpcap.Device
import Hpcap.Registration

namespace Hpcap.Status

open Hpcap.Listeners Hpcap.Registry Hpcap.Transition Hpcap.Device Hpcap.Slots

/-- `struct hpcap_ioc_status_info_listener`. -/
structure InfoListener where
  id : Int
  kill : Int
  bufferWrOffset : Nat
  bufferRdOffset : Nat
  bufferSize : Nat
  deriving DecidableEq

/-- `struct hpcap_ioc_status_info_adapter`. -/
structure InfoAdapter where
  netdevName : List Char
  pdevName : List Char

/-- `struct hpcap_ioc_status_info`. What is said of the buffer is taken as it is. -/
structure StatusInfo (β : Type*) where
  numAdapters : Nat
  adapters : List InfoAdapter
  bufinfo : β
  globalListener : InfoListener
  numListeners : Int
  listeners : List InfoListener
  consumerWriteOff : Nat
  consumerReadOff : Nat

/-- An adapter, with the names of its network device and of its place on the bus. -/
structure HwAdapter where
  workMode : Nat
  netdevName : Option (List Char)
  pciName : Option (List Char)

/-- What `hpcap_check_status` looks at. -/
structure HpcapBuf (β : Type*) where
  adapters : List (Option HwAdapter)
  bufinfo : β
  lstnr : Table
  consumerWriteOff : Nat
  consumerReadOff : Nat

abbrev maxNetdevName : Nat := 10

abbrev maxPciBusNameLen : Nat := 20

def hpcapBuildIocListenerFromHpcapListener (l : Listener) : InfoListener :=
  ⟨l.id, if l.kill then 1 else 0, l.bufferWrOffset, l.bufferRdOffset, l.bufsz⟩

/-- The entry of an adapter, if it is in HPCAP mode and has its names. -/
def infoAdapter (adapter : Option HwAdapter) : Option InfoAdapter :=
  (adapter.filter fun a => a.workMode = 2).bind fun a =>
    a.netdevName.bind fun netdev => a.pciName.map fun pci =>
      ⟨netdev.take maxNetdevName, pci.take maxPciBusNameLen⟩

/-- The first entries of an array are written. -/
def overwrite {α : Type*} (old new : List α) : List α := new ++ old.drop new.length

variable {β : Type*}

/-- The loop runs over the first `listeners_count` slots. -/
def hpcapCheckStatus (bufp : HpcapBuf β) (info : StatusInfo β) : StatusInfo β :=
  let adapters := bufp.adapters.filterMap infoAdapter
  let listenersCount := bufp.lstnr.listenersCount
  { numAdapters := adapters.length
    adapters := overwrite info.adapters adapters
    bufinfo := bufp.bufinfo
    globalListener := hpcapBuildIocListenerFromHpcapListener bufp.lstnr.global
    numListeners := listenersCount
    listeners := overwrite info.listeners
      ((bufp.lstnr.listeners.take listenersCount.toNat).map hpcapBuildIocListenerFromHpcapListener)
    consumerWriteOff := bufp.consumerWriteOff
    consumerReadOff := bufp.consumerReadOff }

/-- What the caller reads of the listeners. -/
def reported (info : StatusInfo β) : List InfoListener := info.listeners.take info.numListeners.toNat

def inUse (l : Listener) : Bool := l.id ≠ listenerEmpty

/-- The number of the listeners, and each of them once. -/
structure ReportsRight (t : Table) (info : StatusInfo β) : Prop where
  count : info.numListeners = registered t
  perm : (reported info).Perm
    ((t.listeners.filter inUse).map hpcapBuildIocListenerFromHpcapListener)

/-- Handles are opened and closed, and a new one has an id of its own. -/
def OpensCloses (s : State) (a : Op) : Prop :=
  match a with
  | .openFile _ | .release _ => Distinguished s a
  | .kill _ _ _ => False

instance (s : State) : DecidablePred (OpensCloses s)
  | .openFile kmallocOk => inferInstanceAs (Decidable (Distinguished s (.openFile kmallocOk)))
  | .release f => inferInstanceAs (Decidable (Distinguished s (.release f)))
  | .kill _ _ _ => instDecidableFalse

section Table

variable {t : Table}

theorem registered_eq_countP (t : Table) : registered t = t.listeners.countP inUse := by
  rw [registered, ids, List.countP_map]
  rfl

theorem reported_checkStatus {bufp : HpcapBuf β} (info : StatusInfo β)
    (hcount : bufp.lstnr.listenersCount = registered bufp.lstnr) :
    reported (hpcapCheckStatus bufp info) =
      (bufp.lstnr.listeners.take (bufp.lstnr.listeners.countP inUse)).map
        hpcapBuildIocListenerFromHpcapListener := by
  have hk : bufp.lstnr.listenersCount.toNat = bufp.lstnr.listeners.countP inUse := by
    rw [hcount, Int.toNat_natCast, registered_eq_countP]
  have hle := List.countP_le_length (p := inUse) (l := bufp.lstnr.listeners)
  rw [reported]
  simp only [hpcapCheckStatus, hk, overwrite]
  refine List.take_left' ?_
  rw [List.length_map, List.length_take_of_le hle]

/-- No empty slot is reported just when none precedes one in use. -/
theorem reportsRight_iff (bufp : HpcapBuf β) (info : StatusInfo β) :
    ReportsRight bufp.lstnr (hpcapCheckStatus bufp info) ↔
      bufp.lstnr.listenersCount = registered bufp.lstnr ∧ Front inUse bufp.lstnr.listeners := by
  constructor
  · intro h
    have hcount : bufp.lstnr.listenersCount = registered bufp.lstnr := h.count
    refine ⟨hcount, front_iff.mpr fun l hl => ?_⟩
    have hmem := List.mem_map_of_mem (f := hpcapBuildIocListenerFromHpcapListener) hl
    rw [← reported_checkStatus info hcount] at hmem
    obtain ⟨m, hm, he⟩ := List.mem_map.mp (h.perm.mem_iff.mp hmem)
    have hid : m.id = l.id := congrArg InfoListener.id he
    have hm : inUse m = true := (List.mem_filter.mp hm).2
    rw [inUse] at hm ⊢
    rwa [← hid]
  · rintro ⟨hcount, hfront⟩
    refine ⟨hcount, ?_⟩
    rw [reported_checkStatus info hcount, hfront.take]

end Table

theorem OpensCloses.distinguished {s : State} {a : Op} (h : OpensCloses s a) :
    Distinguished s a := by
  cases a with
  | openFile kmallocOk => exact h
  | release f => exact h
  | kill caller id closes => exact h.elim

/-- The report is right when the count is and no empty slot precedes one in use. As long as
each new handle has an id of its own, opens and closes keep the count right. -/
theorem check_status_iff (bufp : HpcapBuf β) (info : StatusInfo β) :
    (ReportsRight bufp.lstnr (hpcapCheckStatus bufp info) ↔
      bufp.lstnr.listenersCount = registered bufp.lstnr ∧ Front inUse bufp.lstnr.listeners) ∧
    ∀ (bufsize : Nat) (s : State), Reach step OpensCloses (fun t => t = init bufsize) s →
      bufp.lstnr = s.lstnr →
        (ReportsRight bufp.lstnr (hpcapCheckStatus bufp info) ↔
          Front inUse bufp.lstnr.listeners) := by
  refine ⟨reportsRight_iff bufp info, fun bufsize s h hs => ?_⟩
  have hinv : Inv s := by
    refine h.invariant Inv ?_ fun _ _ _ hu ha hs => hu.step ha.distinguished hs
    rintro t rfl
    exact init_inv bufsize
  rw [reportsRight_iff, hs]
  exact and_iff_right hinv.tallied.count

/-- A buffer with the given listeners. -/
def bufOf (t : Table) : HpcapBuf Unit := ⟨[], (), t, 0, 0⟩

/-- What the caller hands over. -/
def blank : StatusInfo Unit := ⟨0, [], (), ⟨0, 0, 0, 0, 0⟩, 0, List.replicate 4 ⟨0, 0, 0, 0, 0⟩, 0, 0⟩

/-- Three handles are opened, and the last one is closed. -/
theorem check_status_iff_last_closed :
    ∃ s, run (guard step OpensCloses) (init 4096)
        [.openFile true, .openFile true, .openFile true, .release 2] = some s ∧
      ReportsRight s.lstnr (hpcapCheckStatus (bufOf s.lstnr) blank) := by
  have hrun : (run (guard step OpensCloses) (init 4096) [.openFile true, .openFile true,
      .openFile true, .release 2]).map (fun s => ids s.lstnr) = some [1, 2, 0, 0] := by
    decide +kernel
  obtain ⟨s, hs, hids⟩ := Option.map_eq_some_iff.mp hrun
  refine ⟨s, hs, ((check_status_iff (bufOf s.lstnr) blank).2 4096 s
    (.run_guard (.start rfl) hs) rfl).mpr ?_⟩
  have hfront : Front (fun id : Int => id ≠ listenerEmpty) (ids s.lstnr) := by
    rw [hids]
    unfold Front
    decide
  exact List.pairwise_map.mp hfront

/-- Two handles are opened and the first is closed: slot 0 is reported, and the listener
in slot 1 is not. -/
theorem hole_is_reported : ¬ ∀ (bufsize : Nat) (s : State),
    Reach step OpensCloses (fun t => t = init bufsize) s →
      ReportsRight s.lstnr (hpcapCheckStatus (bufOf s.lstnr) blank) := by
  intro h
  have hrun : (run (guard step OpensCloses) (init 4096) [.openFile true, .openFile true,
      .release 0]).map (fun s => ((reported (hpcapCheckStatus (bufOf s.lstnr) blank)).map
        InfoListener.id, (s.lstnr.listeners.filter inUse).map Listener.id)) = some ([0], [2]) := by
    decide +kernel
  obtain ⟨s, hs, he⟩ := Option.map_eq_some_iff.mp hrun
  obtain ⟨hreported, hused⟩ := Prod.mk.inj he
  have hperm := (h 4096 s (.run_guard (.start rfl) hs)).perm.map InfoListener.id
  rw [List.map_map] at hperm
  change ((reported _).map InfoListener.id).Perm
    ((s.lstnr.listeners.filter inUse).map Listener.id) at hperm
  rw [hreported, hused] at hperm
  exact absurd hperm (by decide)

end Hpcap.Status
