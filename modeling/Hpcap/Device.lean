import Hpcap.Registry
import Hpcap.Transition

namespace Hpcap.Device

open Hpcap.Reservation Hpcap.Listeners Hpcap.Registry Hpcap.Transition

abbrev enomem : Int := 12
abbrev eidrm : Int := 43
abbrev ebadf : Int := 9
abbrev einval : Int := 22

/-- `max_opened` of a buffer. -/
abbrev maxOpened : Int := maxListeners + 1

abbrev maxForceKilledListeners : Nat := 3 * maxListeners

/-- An open file of the device: the handle id of its private data, as long as it has them.
`killed` is not kept by the code. -/
structure File where
  handleId : Int
  privateData : Bool
  killed : Bool
  deriving DecidableEq

/-- A buffer and the files that were opened on it. A slot keeps its `filp` when it is reset. -/
structure State where
  lstnr : Table
  filps : List (Option Nat)
  opened : Int
  lastHandle : Int
  forceKilled : List Int
  files : List File

/-- `atomic_inc_return` on an `int`. -/
def nextHandle (s : State) : Int := (s.lastHandle + 1).bmod (2 ^ 32)

/-- `hpcap_open`, where `kmalloc` may fail. Without a listener for the new handle the kernel
runs into a null pointer. -/
def hpcapOpen (s : State) (kmallocOk : Bool) : Option (State × Int) :=
  if s.opened + 1 > maxOpened then some (s, -eusers)
  else
    let id := nextHandle s
    let t := (hpcapAddListener s.lstnr id).1
    if kmallocOk then
      (hpcapGetListener t id).map fun slot =>
        ({ s with
          lstnr := t
          filps := s.filps.set slot.1 (some s.files.length)
          opened := s.opened + 1
          lastHandle := id
          files := s.files ++ [⟨id, true, false⟩] }, 0)
    else some ({ s with lstnr := hpcapDelListener t id, lastHandle := id }, -enomem)

/-- The private data of a file, which the code reads without a check. -/
def fileInfo (s : State) (f : Nat) : Option File := s.files[f]?.filter File.privateData

def hpcapRelease (s : State) (f : Nat) : Option (State × Int) :=
  (fileInfo s f).map fun info =>
    ({ s with
      lstnr := hpcapDelListener s.lstnr info.handleId
      opened := s.opened - 1
      files := s.files.set f { info with privateData := false } }, 0)

/-- The listener of slot `i` is told to stop. -/
def markKilled (s : State) (i : Nat) (l : Listener) : State :=
  { s with
    lstnr := { s.lstnr with listeners := s.lstnr.listeners.set i { l with kill := true } }
    files := s.files.map fun f => if f.handleId = l.id then { f with killed := true } else f }

/-- `filp_close` on the file of slot `i`: nothing, or the release of that file. -/
def filpClose (s : State) (i : Nat) (closes : Bool) : Option State :=
  if closes then s.filps[i]?.join.bind fun f => (hpcapRelease s f).map Prod.fst else some s

def addForceKilled (s : State) (id : Int) : State :=
  if s.forceKilled.length < maxForceKilledListeners then
    { s with forceKilled := s.forceKilled ++ [id] }
  else s

def hpcapKillListener (s : State) (id : Int) (closes : Bool) : Option (State × Int) :=
  match hpcapGetListener s.lstnr id with
  | none => some (s, -eidrm)
  | some (i, l) =>
    (filpClose (markKilled s i l) i closes).map fun t =>
      let t := addForceKilled t id
      ({ t with lstnr := hpcapDelListener t.lstnr id }, 0)

/-- The checks before the switch of `hpcap_ioctl`. -/
def ioctlError (s : State) (handleId : Int) : Option Int :=
  if handleId ∈ s.forceKilled then some (-ebadf)
  else if (hpcapGetListener s.lstnr handleId).isNone then some (-einval)
  else none

/-- `HPCAP_IOC_KILL_LST`, issued on the file `caller`. -/
def hpcapIoctlKillLst (s : State) (caller : Nat) (id : Int) (closes : Bool) :
    Option (State × Int) :=
  (fileInfo s caller).bind fun info =>
    match ioctlError s info.handleId with
    | some e => some (s, e)
    | none => hpcapKillListener s id closes

inductive Op
  | openFile (kmallocOk : Bool)
  | release (f : Nat)
  | kill (caller : Nat) (id : Int) (closes : Bool)

def step (s : State) : Op → Option State
  | .openFile kmallocOk => (hpcapOpen s kmallocOk).map Prod.fst
  | .release f => (hpcapRelease s f).map Prod.fst
  | .kill caller id closes => (hpcapIoctlKillLst s caller id closes).map Prod.fst

def init (bufsize : Nat) : State where
  lstnr := hpcapInitListeners bufsize
  filps := List.replicate maxListeners none
  opened := 0
  lastHandle := 0
  forceKilled := []
  files := []

/-- The id of a new handle is not that of the empty slots or of a registered listener, and
a kill that gets past the checks does not find an empty slot. -/
def Distinguished (s : State) : Op → Prop
  | .openFile _ => s.opened + 1 > maxOpened ∨
      nextHandle s ≠ listenerEmpty ∧ nextHandle s ∉ ids s.lstnr
  | .release _ => True
  | .kill caller id _ => id ≠ listenerEmpty ∨ listenerEmpty ∉ ids s.lstnr ∨
      ∀ info ∈ fileInfo s caller, (ioctlError s info.handleId).isSome

instance (s : State) : DecidablePred (Distinguished s) := fun a => by
  unfold Distinguished
  split <;> infer_instance

/-- Somebody holds the handle: it was opened, and not closed or killed. -/
def Held (files : List File) (id : Int) : Prop :=
  ∃ f ∈ files, f.handleId = id ∧ f.privateData = true ∧ f.killed = false

/-- Count, slots and handles agree. -/
structure Consistent (s : State) : Prop where
  count : s.lstnr.listenersCount =
    (s.lstnr.listeners.countP fun l => l.id ≠ listenerEmpty : Nat)
  distinct : ∀ (i j : Nat) (l m : Listener), s.lstnr.listeners[i]? = some l →
    s.lstnr.listeners[j]? = some m → l.id ≠ listenerEmpty → l.id = m.id → i = j
  held : ∀ l ∈ s.lstnr.listeners, l.id ≠ listenerEmpty → Held s.files l.id

structure Inv (s : State) : Prop where
  tallied : Tallied s.lstnr
  held : ∀ id ∈ ids s.lstnr, id ≠ listenerEmpty → Held s.files id
  named : ∀ f ∈ s.files, f.handleId ≠ listenerEmpty

theorem Inv.consistent {s : State} (h : Inv s) : Consistent s where
  count := by
    rw [h.tallied.count, registered, ids, List.countP_map]
    rfl
  distinct := by
    intro i j l m hl hm hid heq
    exact h.tallied.distinct i j l.id (ids_getElem? hl) (heq ▸ ids_getElem? hm) hid
  held := fun l hl hid => h.held l.id (List.mem_map_of_mem hl) hid

/-- Who holds another handle still does. -/
theorem Held.release {files : List File} {f : Nat} {info : File} {id : Int} (h : Held files id)
    (hf : files[f]? = some info) (hid : id ≠ info.handleId) :
    Held (files.set f { info with privateData := false }) id := by
  obtain ⟨g, hg, hgid, hopen, halive⟩ := h
  obtain ⟨k, hk⟩ := List.mem_iff_getElem?.mp hg
  have hkf : f ≠ k := by
    rintro rfl
    cases hf.symm.trans hk
    exact hid hgid.symm
  refine ⟨g, List.mem_of_getElem? (i := k) ?_, hgid, hopen, halive⟩
  rw [List.getElem?_set_ne hkf, hk]

theorem Held.kill {files : List File} {x id : Int} (h : Held files id) (hid : id ≠ x) :
    Held (files.map fun f => if f.handleId = x then { f with killed := true } else f) id := by
  obtain ⟨g, hg, hgid, hopen, halive⟩ := h
  refine ⟨g, List.mem_map.mpr ⟨g, hg, ?_⟩, hgid, hopen, halive⟩
  rw [if_neg]
  rw [hgid]
  exact hid

theorem fileInfo_some {s : State} {f : Nat} {info : File} (h : fileInfo s f = some info) :
    s.files[f]? = some info :=
  (Option.filter_eq_some_iff.mp h).1

section Cases

variable {s t : State} {id : Int} {closes : Bool} {r : State × Int}

theorem open_refused (h : s.opened + 1 > maxOpened) (kmallocOk : Bool) :
    hpcapOpen s kmallocOk = some (s, -eusers) := if_pos h

theorem open_true (h : ¬ s.opened + 1 > maxOpened) :
    hpcapOpen s true =
      (hpcapGetListener (hpcapAddListener s.lstnr (nextHandle s)).1 (nextHandle s)).map fun slot =>
        ({ s with
          lstnr := (hpcapAddListener s.lstnr (nextHandle s)).1
          filps := s.filps.set slot.1 (some s.files.length)
          opened := s.opened + 1
          lastHandle := nextHandle s
          files := s.files ++ [⟨nextHandle s, true, false⟩] }, 0) := by
  rw [hpcapOpen, if_neg h]
  rfl

theorem open_false (h : ¬ s.opened + 1 > maxOpened) :
    hpcapOpen s false = some ({ s with
      lstnr := hpcapDelListener (hpcapAddListener s.lstnr (nextHandle s)).1 (nextHandle s)
      lastHandle := nextHandle s }, -enomem) := by
  rw [hpcapOpen, if_neg h]
  rfl

theorem ids_markKilled {i : Nat} {l : Listener} (hl : s.lstnr.listeners[i]? = some l) :
    ids (markKilled s i l).lstnr = ids s.lstnr := by
  obtain ⟨hi, he⟩ := List.getElem?_eq_some_iff.mp (ids_getElem? hl)
  rw [ids_set (u := (markKilled s i l).lstnr) rfl]
  change (ids s.lstnr).set i l.id = _
  rw [← he, List.set_getElem_self]

@[simp] theorem addForceKilled_lstnr (s : State) (id : Int) :
    (addForceKilled s id).lstnr = s.lstnr := by
  rw [addForceKilled]
  split <;> rfl

theorem filpClose_cases {i : Nat} (ht : filpClose s i closes = some t) :
    closes = false ∧ t = s ∨
      closes = true ∧ ∃ f, s.filps[i]?.join = some f ∧ hpcapRelease s f = some (t, 0) := by
  cases closes with
  | false =>
    cases ht
    exact .inl ⟨rfl, rfl⟩
  | true =>
    obtain ⟨f, hf, ht⟩ := Option.bind_eq_some_iff.mp ht
    obtain ⟨r, hr, rfl⟩ := Option.map_eq_some_iff.mp ht
    obtain ⟨info, hinfo, rfl⟩ := Option.map_eq_some_iff.mp hr
    exact .inr ⟨rfl, f, hf, hr⟩

/-- No listener is found, or its slot is marked, its file closed, and the slot reset. -/
theorem kill_cases (hr : hpcapKillListener s id closes = some r) :
    r.1 = s ∨ ∃ i l t, hpcapGetListener s.lstnr id = some (i, l) ∧
      filpClose (markKilled s i l) i closes = some t ∧
      r.1 = { addForceKilled t id with
        lstnr := hpcapDelListener (addForceKilled t id).lstnr id } := by
  rw [hpcapKillListener] at hr
  cases hg : hpcapGetListener s.lstnr id with
  | none =>
    rw [hg] at hr
    cases hr
    exact .inl rfl
  | some slot =>
    obtain ⟨i, l⟩ := slot
    rw [hg] at hr
    obtain ⟨t, ht, rfl⟩ := Option.map_eq_some_iff.mp hr
    exact .inr ⟨i, l, t, rfl, ht, rfl⟩

theorem ioctlKillLst_cases {caller : Nat}
    (hr : hpcapIoctlKillLst s caller id closes = some r) :
    r.1 = s ∨ ∃ info, fileInfo s caller = some info ∧ ioctlError s info.handleId = none ∧
      hpcapKillListener s id closes = some r := by
  obtain ⟨info, hinfo, hr⟩ := Option.bind_eq_some_iff.mp hr
  cases he : ioctlError s info.handleId with
  | some e =>
    rw [he] at hr
    cases hr
    exact .inl rfl
  | none =>
    rw [he] at hr
    exact .inr ⟨info, hinfo, he, hr⟩

end Cases

namespace Inv

variable {s : State}

theorem opens (h : Inv s) {kmallocOk : Bool} (hok : Distinguished s (.openFile kmallocOk))
    {r : State × Int} (hr : hpcapOpen s kmallocOk = some r) : Inv r.1 := by
  by_cases hmax : s.opened + 1 > maxOpened
  · rw [open_refused hmax] at hr
    cases hr
    exact h
  obtain ⟨hne, hfresh⟩ := hok.resolve_left hmax
  obtain ⟨hadd, hmem⟩ := h.tallied.add hfresh
  cases kmallocOk with
  | true =>
    rw [open_true hmax] at hr
    obtain ⟨slot, -, rfl⟩ := Option.map_eq_some_iff.mp hr
    refine ⟨hadd, fun id hid hidne => ?_, fun f hf => ?_⟩
    · obtain rfl | hold := hmem id hid
      · exact ⟨_, List.mem_append_right _ List.mem_cons_self, rfl, rfl, rfl⟩
      · obtain ⟨f, hf, hrest⟩ := h.held id hold hidne
        exact ⟨f, List.mem_append_left _ hf, hrest⟩
    · obtain hf | hf := List.mem_append.mp hf
      · exact h.named f hf
      · cases List.mem_singleton.mp hf
        exact hne
  | false =>
    rw [open_false hmax] at hr
    cases hr
    obtain ⟨hdel, hkept⟩ := hadd.del (.inl hne)
    refine ⟨hdel, fun id hid hidne => ?_, h.named⟩
    obtain ⟨hother, hin⟩ := hkept id hid hidne
    exact h.held id ((hmem id hin).resolve_left hother) hidne

theorem release (h : Inv s) {f : Nat} {r : State × Int} (hr : hpcapRelease s f = some r) :
    Inv r.1 := by
  obtain ⟨info, hinfo, rfl⟩ := Option.map_eq_some_iff.mp hr
  have hf := fileInfo_some hinfo
  have hne := h.named info (List.mem_of_getElem? hf)
  obtain ⟨hdel, hkept⟩ := h.tallied.del (.inl hne)
  refine ⟨hdel, fun id hid hidne => ?_, fun g hg => ?_⟩
  · obtain ⟨hother, hin⟩ := hkept id hid hidne
    exact (h.held id hin hidne).release hf hother
  · obtain hg | rfl := List.mem_or_eq_of_mem_set hg
    · exact h.named g hg
    · exact hne

/-- What holds of all but the handle that is being killed. -/
structure Killing (x : Int) (s : State) : Prop where
  tallied : Tallied s.lstnr
  held : ∀ id ∈ ids s.lstnr, id ≠ listenerEmpty → id ≠ x → Held s.files id
  named : ∀ f ∈ s.files, f.handleId ≠ listenerEmpty

theorem markKilled (h : Inv s) {i : Nat} {l : Listener} (hl : s.lstnr.listeners[i]? = some l) :
    Killing l.id (markKilled s i l) := by
  have hids := ids_markKilled hl
  refine ⟨h.tallied.congr hids rfl, fun id hid hne hother => ?_, fun f hf => ?_⟩
  · rw [hids] at hid
    exact (h.held id hid hne).kill hother
  · obtain ⟨g, hg, rfl⟩ := List.mem_map.mp hf
    have hnamed := h.named g hg
    split
    · exact hnamed
    · exact hnamed

theorem Killing.filpClose {x : Int} {t : State} (h : Killing x s) {i : Nat} {closes : Bool}
    (ht : filpClose s i closes = some t) : Killing x t := by
  obtain ⟨-, rfl⟩ | ⟨-, f, -, hr⟩ := filpClose_cases ht
  · exact h
  · obtain ⟨info, hinfo, hreleased⟩ := Option.map_eq_some_iff.mp hr
    cases hreleased
    have hget := fileInfo_some hinfo
    have hne := h.named info (List.mem_of_getElem? hget)
    obtain ⟨hdel, hkept⟩ := h.tallied.del (.inl hne)
    refine ⟨hdel, fun id hid hidne hx => ?_, fun g hg => ?_⟩
    · obtain ⟨hother, hin⟩ := hkept id hid hidne
      exact (h.held id hin hidne hx).release hget hother
    · obtain hg | rfl := List.mem_or_eq_of_mem_set hg
      · exact h.named g hg
      · exact hne

theorem Killing.addForceKilled {x : Int} (h : Killing x s) (id : Int) :
    Killing x (addForceKilled s id) := by
  rw [Device.addForceKilled]
  split
  · exact ⟨h.tallied, h.held, h.named⟩
  · exact h

theorem Killing.del {x : Int} (h : Killing x s) (hx : x ≠ listenerEmpty) :
    Inv { s with lstnr := hpcapDelListener s.lstnr x } := by
  obtain ⟨hdel, hkept⟩ := h.tallied.del (.inl hx)
  refine ⟨hdel, fun id hid hne => ?_, h.named⟩
  obtain ⟨hother, hin⟩ := hkept id hid hne
  exact h.held id hin hne hother

theorem kill (h : Inv s) {caller : Nat} {id : Int} {closes : Bool}
    (hok : Distinguished s (.kill caller id closes)) {r : State × Int}
    (hr : hpcapIoctlKillLst s caller id closes = some r) : Inv r.1 := by
  obtain he | ⟨info, hinfo, he, hr⟩ := ioctlKillLst_cases hr
  · rwa [he]
  · obtain hsame | ⟨i, l, t, hg, ht, hkilled⟩ := kill_cases hr
    · rwa [hsame]
    · obtain ⟨hl, hlid⟩ := findSlot_some hg
      have hlid : l.id = id := of_decide_eq_true hlid
      have hne : id ≠ listenerEmpty := by
        rintro rfl
        obtain hne | hfull | hrefused := hok
        · exact hne rfl
        · exact hfull (hlid ▸ List.mem_map_of_mem (List.mem_of_getElem? hl))
        · have hsome := hrefused info hinfo
          rw [he] at hsome
          cases hsome
      subst hlid
      rw [hkilled]
      exact (((h.markKilled hl).filpClose ht).addForceKilled l.id).del hne

theorem step {a : Op} {t : State} (h : Inv s) (ha : Distinguished s a) (hs : step s a = some t) :
    Inv t := by
  cases a with
  | openFile kmallocOk =>
    obtain ⟨r, hr, rfl⟩ := Option.map_eq_some_iff.mp hs
    exact h.opens ha hr
  | release f =>
    obtain ⟨r, hr, rfl⟩ := Option.map_eq_some_iff.mp hs
    exact h.release hr
  | kill caller id closes =>
    obtain ⟨r, hr, rfl⟩ := Option.map_eq_some_iff.mp hs
    exact h.kill ha hr

end Inv

theorem init_inv (bufsize : Nat) : Inv (init bufsize) := by
  refine ⟨tallied_init bufsize, fun id hid hne => ?_, nofun⟩
  have hids : ids (init bufsize).lstnr = List.replicate maxListeners listenerEmpty := rfl
  rw [hids] at hid
  exact absurd (List.eq_of_mem_replicate hid) hne

/-- While no handle is taken for an empty slot, the registered listeners are those of the
handles in use. -/
theorem listeners_match_handles (bufsize : Nat) (s : State)
    (h : Reach step Distinguished (fun t => t = init bufsize) s) : Consistent s := by
  have hinv : Inv s := by
    refine h.invariant Inv ?_ fun _ _ _ hu ha hs => hu.step ha hs
    rintro t rfl
    exact init_inv bufsize
  exact hinv.consistent

/-- Three handles are opened and one open fails; one handle is killed by another and then
closed, and one is closed by the kill. -/
def session : List Op :=
  [.openFile true, .openFile true, .openFile false, .openFile true, .kill 1 1 false, .release 0,
    .kill 1 4 true]

theorem listeners_match_handles_session :
    ∃ s, run (guard step Distinguished) (init 4096) session = some s ∧
      s.lstnr.listenersCount = 1 ∧ Consistent s := by
  have hrun : (run (guard step Distinguished) (init 4096) session).map
      (fun s => s.lstnr.listenersCount) = some 1 := by
    decide +kernel
  obtain ⟨s, hs, hcount⟩ := Option.map_eq_some_iff.mp hrun
  exact ⟨s, hs, hcount, listeners_match_handles 4096 s (.run_guard (.start rfl) hs)⟩

/-- Handle 1 asks for listener 0 to be killed, and an empty slot is found: the count says
that nobody listens any more. -/
theorem kill_of_empty_slot :
    ∃ s, run step (init 4096) [.openFile true, .kill 0 0 false] = some s ∧
      s.lstnr.listenersCount = 0 ∧
      (s.lstnr.listeners.countP fun l => l.id ≠ listenerEmpty) = 1 ∧ ¬ Consistent s := by
  have hrun : (run step (init 4096) [.openFile true, .kill 0 0 false]).map (fun s =>
      (s.lstnr.listenersCount, s.lstnr.listeners.countP fun l => l.id ≠ listenerEmpty)) =
        some (0, 1) := by
    decide +kernel
  obtain ⟨s, hs, he⟩ := Option.map_eq_some_iff.mp hrun
  obtain ⟨hcount, hreg⟩ := Prod.mk.inj he
  refine ⟨s, hs, hcount, hreg, fun h => ?_⟩
  have hc := h.count
  rw [hcount, hreg] at hc
  cases hc

end Hpcap.Device
