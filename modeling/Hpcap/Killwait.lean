import Hpcap.Device

namespace Hpcap.Killwait

open Hpcap.Listeners Hpcap.Registry Hpcap.Transition Hpcap.Device

def hpcapKillallListeners (t : Table) : Table :=
  { t with
    listeners := t.listeners.map fun l => { l with kill := true }
    global := { t.global with kill := true } }

/-- `HPCAP_IOC_KILLWAIT`, issued on the file `caller`. -/
def hpcapIoctlKillWait (s : State) (caller : Nat) : Option (State × Int) :=
  (fileInfo s caller).map fun info =>
    match ioctlError s info.handleId with
    | some e => (s, e)
    | none => ({ s with lstnr := hpcapKillallListeners s.lstnr }, 0)

inductive Op
  | device (a : Device.Op)
  | killWait (caller : Nat)

def step (s : State) : Op → Option State
  | .device a => Device.step s a
  | .killWait caller => (hpcapIoctlKillWait s caller).map Prod.fst

/-- What holds of the empty slots. -/
def Empties (P : Listener → Prop) (t : Table) : Prop :=
  ∀ l ∈ t.listeners, l.id = listenerEmpty → P l

/-- No empty slot is marked as killed. -/
def Clear (t : Table) : Prop := Empties (fun l => l.kill = false) t

/-- No slot that got a listener is marked as killed. -/
def Fresh (t u : Table) : Prop :=
  ∀ i : Nat, ∀ l ∈ t.listeners[i]?, ∀ m ∈ u.listeners[i]?,
    l.id = listenerEmpty → m.id ≠ listenerEmpty → m.kill = false

/-- The file that is closed with the empty slot of listener 0 has no listener in a slot before
that one. -/
def SparesEmpty (s : State) : Prop :=
  ∀ slot ∈ hpcapGetListener s.lstnr listenerEmpty, ∀ f ∈ s.filps[slot.1]?.join,
    ∀ info ∈ fileInfo s f, info.handleId ∉ (ids s.lstnr).take slot.1

instance (s : State) : Decidable (SparesEmpty s) :=
  inferInstanceAs (Decidable (∀ slot ∈ hpcapGetListener s.lstnr listenerEmpty,
    ∀ f ∈ s.filps[slot.1]?.join, ∀ info ∈ fileInfo s f,
      info.handleId ∉ (ids s.lstnr).take slot.1))

/-- All listeners are told to stop only while no slot is empty, and listener 0 is killed only
if its slot is also the one that is reset. -/
def Harmless (s : State) : Op → Prop
  | .device (.openFile _) => True
  | .device (.release _) => True
  | .device (.kill _ id closes) => id ≠ listenerEmpty ∨ closes = false ∨ SparesEmpty s
  | .killWait caller => listenerEmpty ∉ ids s.lstnr ∨
      ∀ info ∈ fileInfo s caller, (ioctlError s info.handleId).isSome

instance (s : State) : DecidablePred (Harmless s)
  | .device (.openFile _) => instDecidableTrue
  | .device (.release _) => instDecidableTrue
  | .device (.kill _ id closes) =>
    inferInstanceAs (Decidable (id ≠ listenerEmpty ∨ closes = false ∨ SparesEmpty s))
  | .killWait caller => inferInstanceAs (Decidable (listenerEmpty ∉ ids s.lstnr ∨
      ∀ info ∈ fileInfo s caller, (ioctlError s info.handleId).isSome))

section Table

variable {t : Table} {id : Int} {i : Nat}

section Empties

variable {P : Listener → Prop}

theorem Empties.set (h : Empties P t) {u : Table} {l : Listener}
    (hu : u.listeners = t.listeners.set i l) (hl : l.id = listenerEmpty → P l) :
    Empties P u := by
  intro m hm hid
  rw [hu] at hm
  obtain hm | rfl := List.mem_or_eq_of_mem_set hm
  · exact h m hm hid
  · exact hl hid

theorem Empties.add (h : Empties P t) (id : Int) : Empties P (hpcapAddListener t id).1 := by
  obtain ⟨-, he⟩ | ⟨j, l, -, -, hid, -, he⟩ := add_cases t id
  · rwa [he]
  · rw [he]
    exact h.set rfl fun hempty => absurd hempty hid

theorem Empties.del (h : Empties P t) (hrst : ∀ l, P (hpcapRstListener l)) (id : Int) :
    Empties P (hpcapDelListener t id) := by
  obtain ⟨-, -, he⟩ | ⟨i, l, -, -, -, he⟩ := del_cases t id
  · rwa [he]
  · rw [he]
    exact h.set rfl fun _ => hrst l

end Empties

theorem Clear.del (h : Clear t) (id : Int) : Clear (hpcapDelListener t id) :=
  Empties.del h (fun _ => rfl) id

/-- Only the slot at `i` may be empty and marked. -/
def ClearBut (i : Nat) (t : Table) : Prop :=
  ∀ j ≠ i, ∀ l ∈ t.listeners[j]?, l.id = listenerEmpty → l.kill = false

theorem ClearBut.set (h : ClearBut i t) {u : Table} {k : Nat} {l : Listener}
    (hu : u.listeners = t.listeners.set k l) (hl : l.id = listenerEmpty → l.kill = false) :
    ClearBut i u := by
  intro j hj m hm hid
  rw [hu] at hm
  by_cases hk : k = j
  · subst hk
    obtain ⟨hlt, hm⟩ := List.getElem?_eq_some_iff.mp hm
    rw [List.getElem_set_self] at hm
    exact hm ▸ hl (hm ▸ hid)
  · rw [List.getElem?_set_ne hk] at hm
    exact h j hj m hm hid

/-- The slot is reset. -/
theorem ClearBut.del_self (h : ClearBut i t) {l : Listener}
    (hget : hpcapGetListener t id = some (i, l)) : Clear (hpcapDelListener t id) := by
  intro m hm hid
  obtain ⟨j, hj⟩ := List.mem_iff_getElem?.mp hm
  have hdel : (hpcapDelListener t id).listeners = t.listeners.set i (hpcapRstListener l) := by
    rw [hpcapDelListener, hget]
  rw [hdel] at hj
  by_cases hk : i = j
  · subst hk
    obtain ⟨hlt, he⟩ := List.getElem?_eq_some_iff.mp hj
    rw [List.getElem_set_self] at he
    rw [← he]
    rfl
  · rw [List.getElem?_set_ne hk] at hj
    exact h j (Ne.symm hk) m hj hid

/-- The first empty slot stays the first if a handle is deleted that is not before it. -/
theorem getListener_del_behind {l : Listener}
    (hget : hpcapGetListener t listenerEmpty = some (i, l)) (hid : id ≠ listenerEmpty)
    (hbehind : id ∉ (ids t).take i) :
    hpcapGetListener (hpcapDelListener t id) listenerEmpty = some (i, l) := by
  obtain ⟨-, -, he⟩ | ⟨k, m, hm, hk, rfl, he⟩ := del_cases t id
  · rwa [he]
  · obtain ⟨hl, hempty, hfirst⟩ := findSlot_eq_some.mp hget
    have hki : i < k := by
      refine Nat.lt_of_le_of_ne (Nat.le_of_not_lt fun hlt => hbehind ?_) ?_
      · have hat := ids_getElem? hk
        rw [← List.getElem?_take_of_lt hlt] at hat
        exact List.mem_of_getElem? hat
      · rintro rfl
        cases hl.symm.trans hk
        exact hid (of_decide_eq_true hempty)
    rw [he]
    refine findSlot_eq_some.mpr ⟨?_, hempty, fun j hj x hx => hfirst j hj x ?_⟩
    · rw [List.getElem?_set_ne (Nat.ne_of_gt hki)]
      exact hl
    · rwa [List.getElem?_set_ne (by omega)] at hx

theorem Clear.but (h : Clear t) {u : Table} {l : Listener}
    (hu : u.listeners = t.listeners.set i l) : ClearBut i u := by
  intro j hj m hm hid
  rw [hu, List.getElem?_set_ne hj.symm] at hm
  exact h m (List.mem_of_getElem? hm) hid

theorem ClearBut.del (h : ClearBut i t) (id : Int) : ClearBut i (hpcapDelListener t id) := by
  obtain ⟨-, -, he⟩ | ⟨k, l, -, -, -, he⟩ := del_cases t id
  · rwa [he]
  · rw [he]
    exact h.set rfl fun _ => rfl

theorem Fresh.refl (t : Table) : Fresh t t := by
  intro i l hl m hm hempty hid
  cases hl.symm.trans hm
  exact absurd hempty hid

/-- The new listener takes over the mark of its slot. -/
theorem Clear.fresh_add (h : Clear t) (id : Int) : Fresh t (hpcapAddListener t id).1 := by
  obtain ⟨-, he⟩ | ⟨j, x, -, hx, -, hempty, he⟩ := add_cases t id
  · rw [he]
    exact .refl t
  · intro i l hl m hm hlid hmid
    rw [he] at hm
    by_cases hij : j = i
    · subst hij
      obtain ⟨hlt, hm⟩ := List.getElem?_eq_some_iff.mp hm
      rw [List.getElem_set_self] at hm
      rw [← hm]
      exact h x (List.mem_of_getElem? hx) hempty
    · change (t.listeners.set j _)[i]? = some m at hm
      rw [List.getElem?_set_ne hij] at hm
      cases hl.symm.trans hm
      exact absurd hlid hmid

theorem Fresh.del {u : Table} (h : Fresh t u) (id : Int) : Fresh t (hpcapDelListener u id) := by
  obtain ⟨-, -, he⟩ | ⟨k, x, -, -, -, he⟩ := del_cases u id
  · rwa [he]
  · intro i l hl m hm hlid hmid
    rw [he] at hm
    change (u.listeners.set k _)[i]? = some m at hm
    by_cases hik : k = i
    · subst hik
      obtain ⟨hlt, hm⟩ := List.getElem?_eq_some_iff.mp hm
      rw [List.getElem_set_self] at hm
      exact absurd (hm ▸ rfl) hmid
    · rw [List.getElem?_set_ne hik] at hm
      exact h i l hl m hm hlid hmid

theorem clear_killall (h : listenerEmpty ∉ ids t) : Clear (hpcapKillallListeners t) := by
  intro l hl hid
  obtain ⟨m, hm, rfl⟩ := List.mem_map.mp hl
  have hmem : m.id ∈ ids t := List.mem_map_of_mem hm
  exact absurd (hid ▸ hmem) h

end Table

section Device

variable {s t : State}

theorem fileInfo_markKilled {i : Nat} {l : Listener} {f : Nat} {info : File}
    (h : fileInfo (markKilled s i l) f = some info) :
    ∃ before, fileInfo s f = some before ∧ before.handleId = info.handleId := by
  obtain ⟨hget, hopen⟩ := Option.filter_eq_some_iff.mp h
  rw [markKilled, List.getElem?_map] at hget
  obtain ⟨before, hbefore, rfl⟩ := Option.map_eq_some_iff.mp hget
  refine ⟨before, Option.filter_eq_some_iff.mpr ⟨hbefore, ?_⟩, ?_⟩
  · split at hopen <;> exact hopen
  · split <;> rfl

theorem release_lstnr {f : Nat} {r : State × Int} (hr : hpcapRelease s f = some r) :
    ∃ info, fileInfo s f = some info ∧ r.1.lstnr = hpcapDelListener s.lstnr info.handleId := by
  obtain ⟨info, hinfo, rfl⟩ := Option.map_eq_some_iff.mp hr
  exact ⟨info, hinfo, rfl⟩

/-- The file that is closed takes its listener with it. -/
theorem filpClose_lstnr {i : Nat} {closes : Bool} (ht : filpClose s i closes = some t) :
    closes = false ∧ t = s ∨ closes = true ∧ ∃ f info, s.filps[i]?.join = some f ∧
      fileInfo s f = some info ∧ t.lstnr = hpcapDelListener s.lstnr info.handleId := by
  obtain hkept | ⟨hcloses, f, hf, hr⟩ := filpClose_cases ht
  · exact .inl hkept
  · obtain ⟨info, hinfo, hdel⟩ := release_lstnr hr
    exact .inr ⟨hcloses, f, info, hf, hinfo, hdel⟩

theorem Clear.opens (h : Clear s.lstnr) {kmallocOk : Bool} {r : State × Int}
    (hr : hpcapOpen s kmallocOk = some r) : Clear r.1.lstnr ∧ Fresh s.lstnr r.1.lstnr := by
  by_cases hmax : s.opened + 1 > maxOpened
  · rw [open_refused hmax] at hr
    cases hr
    exact ⟨h, .refl _⟩
  · cases kmallocOk with
    | true =>
      rw [open_true hmax] at hr
      obtain ⟨slot, -, rfl⟩ := Option.map_eq_some_iff.mp hr
      exact ⟨Empties.add h _, h.fresh_add _⟩
    | false =>
      rw [open_false hmax] at hr
      cases hr
      exact ⟨Clear.del (Empties.add h _) _, (h.fresh_add _).del _⟩

/-- The listener that is killed has a slot of its own. -/
theorem Clear.kill (h : Clear s.lstnr) {id : Int} {closes : Bool} (hid : id ≠ listenerEmpty)
    {r : State × Int} (hr : hpcapKillListener s id closes = some r) : Clear r.1.lstnr := by
  obtain hsame | ⟨i, l, t, hg, ht, hkilled⟩ := kill_cases hr
  · rwa [hsame]
  · obtain ⟨-, hl⟩ := findSlot_some hg
    have hmark : Clear (markKilled s i l).lstnr :=
      Empties.set h rfl fun hempty => absurd ((of_decide_eq_true hl).symm.trans hempty) hid
    rw [hkilled]
    dsimp only
    rw [addForceKilled_lstnr]
    obtain ⟨-, rfl⟩ | ⟨-, f, info, -, -, hdel⟩ := filpClose_lstnr ht
    · exact hmark.del id
    · rw [hdel]
      exact (hmark.del _).del id

/-- The empty slot is marked, and reset in the end. -/
theorem Clear.kill_empty (h : Clear s.lstnr) {closes : Bool}
    (hok : closes = false ∨ SparesEmpty s) {r : State × Int}
    (hr : hpcapKillListener s listenerEmpty closes = some r) : Clear r.1.lstnr := by
  obtain hsame | ⟨i, l, t, hg, ht, hkilled⟩ := kill_cases hr
  · rwa [hsame]
  · obtain ⟨hl, hempty⟩ := findSlot_some hg
    have hbut : ClearBut i (markKilled s i l).lstnr := h.but rfl
    have hget : hpcapGetListener (markKilled s i l).lstnr listenerEmpty =
        some (i, { l with kill := true }) := findSlot_set_self hg hempty
    rw [hkilled]
    dsimp only
    rw [addForceKilled_lstnr]
    obtain ⟨-, rfl⟩ | ⟨hcloses, f, info, hf, hinfo, hdel⟩ := filpClose_lstnr ht
    · exact hbut.del_self hget
    · rw [hdel]
      obtain ⟨before, hbefore, hhandle⟩ := fileInfo_markKilled hinfo
      obtain hno | hspares := hok
      · rw [hcloses] at hno
        cases hno
      have hbehind : info.handleId ∉ (ids (markKilled s i l).lstnr).take i := by
        rw [ids_markKilled hl, ← hhandle]
        exact hspares (i, l) hg f hf before hbefore
      by_cases hzero : info.handleId = listenerEmpty
      · rw [hzero]
        exact (hbut.del_self hget).del _
      · exact (hbut.del _).del_self (getListener_del_behind hget hzero hbehind)

theorem killWait_cases {caller : Nat} {r : State × Int}
    (hr : hpcapIoctlKillWait s caller = some r) :
    r.1 = s ∨ ∃ info, fileInfo s caller = some info ∧ ioctlError s info.handleId = none ∧
      r.1 = { s with lstnr := hpcapKillallListeners s.lstnr } := by
  obtain ⟨info, hinfo, rfl⟩ := Option.map_eq_some_iff.mp hr
  cases he : ioctlError s info.handleId with
  | some e => exact .inl rfl
  | none => exact .inr ⟨info, hinfo, he, rfl⟩

theorem Clear.step {a : Op} (h : Clear s.lstnr) (ha : Harmless s a) (hs : step s a = some t) :
    Clear t.lstnr := by
  cases a with
  | device a =>
    cases a with
    | openFile kmallocOk =>
      obtain ⟨r, hr, rfl⟩ := Option.map_eq_some_iff.mp hs
      exact (h.opens hr).1
    | release f =>
      obtain ⟨r, hr, rfl⟩ := Option.map_eq_some_iff.mp hs
      obtain ⟨info, -, hdel⟩ := release_lstnr hr
      rw [hdel]
      exact h.del _
    | kill caller id closes =>
      obtain ⟨r, hr, rfl⟩ := Option.map_eq_some_iff.mp hs
      obtain hsame | ⟨-, -, -, hr⟩ := ioctlKillLst_cases hr
      · rwa [hsame]
      · by_cases hid : id = listenerEmpty
        · subst hid
          exact h.kill_empty (ha.resolve_left fun hne => hne rfl) hr
        · exact h.kill hid hr
  | killWait caller =>
    obtain ⟨r, hr, rfl⟩ := Option.map_eq_some_iff.mp hs
    obtain hsame | ⟨info, hinfo, he, hall⟩ := killWait_cases hr
    · rwa [hsame]
    · rw [hall]
      refine clear_killall (ha.resolve_right fun hrefused => ?_)
      have hsome := hrefused info hinfo
      rw [he] at hsome
      cases hsome

end Device

theorem clear_init (bufsize : Nat) : Clear (Device.init bufsize).lstnr := by
  intro l hl _
  rw [List.eq_of_mem_replicate hl]
  rfl

/-- While no empty slot is marked on purpose, none is, and no new listener starts as one that
was told to stop. -/
theorem new_listeners_live (bufsize : Nat) (s : State)
    (h : Reach step Harmless (fun t => t = Device.init bufsize) s) :
    Clear s.lstnr ∧ ∀ kmallocOk t, step s (.device (.openFile kmallocOk)) = some t →
      Fresh s.lstnr t.lstnr := by
  have hclear : Clear s.lstnr := by
    refine h.invariant (fun t => Clear t.lstnr) ?_ fun _ _ _ hu ha hs => hu.step ha hs
    rintro t rfl
    exact clear_init bufsize
  refine ⟨hclear, fun kmallocOk t ht => ?_⟩
  obtain ⟨r, hr, rfl⟩ := Option.map_eq_some_iff.mp ht
  exact (hclear.opens hr).2

/-- All four slots are in use when everybody is told to stop, and one is given up afterwards. -/
def fullHouse : List Op :=
  [.device (.openFile true), .device (.openFile true), .device (.openFile true),
    .device (.openFile true), .killWait 0, .device (.release 1)]

theorem new_listeners_live_full :
    ∃ s, run (guard step Harmless) (Device.init 4096) fullHouse = some s ∧
      s.lstnr.listeners.map Listener.kill = [true, false, true, true] ∧ Clear s.lstnr := by
  have hrun : (run (guard step Harmless) (Device.init 4096) fullHouse).map
      (fun s => s.lstnr.listeners.map Listener.kill) = some [true, false, true, true] := by
    decide +kernel
  obtain ⟨s, hs, hkills⟩ := Option.map_eq_some_iff.mp hrun
  exact ⟨s, hs, hkills, (new_listeners_live 4096 s (.run_guard (.start rfl) hs)).1⟩

/-- One client tells all listeners to stop, and the next one to open the device is told so
too. -/
theorem killwait_marks_the_next :
    ∃ s t, run step (Device.init 4096) [.device (.openFile true), .killWait 0] = some s ∧
      step s (.device (.openFile true)) = some t ∧ ¬ Clear s.lstnr ∧
      ¬ Fresh s.lstnr t.lstnr := by
  have hrun : (run step (Device.init 4096) [.device (.openFile true), .killWait 0]).bind
      (fun s => (step s (.device (.openFile true))).map fun t =>
        (s.lstnr.listeners, t.lstnr.listeners[1]?)) =
      some ([⟨1, true, 0, 0, 4096⟩, ⟨0, true, 0, 0, 4096⟩, ⟨0, true, 0, 0, 4096⟩,
        ⟨0, true, 0, 0, 4096⟩], some ⟨2, true, 0, 0, 4096⟩) := by
    decide +kernel
  obtain ⟨s, hs, hstep⟩ := Option.bind_eq_some_iff.mp hrun
  obtain ⟨t, ht, he⟩ := Option.map_eq_some_iff.mp hstep
  obtain ⟨hbefore, hafter⟩ := Prod.mk.inj he
  refine ⟨s, t, hs, ht, fun hclear => ?_, fun hfresh => ?_⟩
  · have hempty := hclear ⟨0, true, 0, 0, 4096⟩ (by rw [hbefore]; decide) rfl
    cases hempty
  · have hnew := hfresh 1 ⟨0, true, 0, 0, 4096⟩ (by rw [hbefore]; rfl) _ hafter rfl (by decide)
    cases hnew

end Hpcap.Killwait
