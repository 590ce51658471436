import Hpcap.Killwait

namespace Hpcap.OpenFile

open Hpcap.Listeners Hpcap.Registry Hpcap.Transition Hpcap.Device Hpcap.Killwait

/-- The handle has one slot, and that slot has the file. -/
def Registered (t : State) (id : Int) (f : Nat) : Prop :=
  id ≠ listenerEmpty ∧ ∃ i : Nat, (ids t.lstnr)[i]? = some id ∧
    (∀ j : Nat, (ids t.lstnr)[j]? = some id → j = i) ∧ t.filps[i]? = some (some f)

/-- Nothing is left of the open that failed. -/
def Undone (s t : State) : Prop :=
  t.opened = s.opened ∧ t.lstnr.listenersCount = s.lstnr.listenersCount ∧
    t.lstnr.listeners = s.lstnr.listeners ∧ t.filps = s.filps

/-- Either the new handle is registered or an error is returned, and no null pointer is used
for a listener. -/
def OpensRight (s : State) (kmallocOk : Bool) : Prop :=
  ∃ r, hpcapOpen s kmallocOk = some r ∧
    (r.2 = 0 ∧ Registered r.1 (nextHandle s) s.files.length ∨ r.2 < 0 ∧ Undone s r.1)

/-- Where `hpcap_add_listener` stops: the first slot that has the id or is empty. -/
def stops (t : Table) (id : Int) : Option (Nat × Listener) :=
  findSlot (fun l => l.id = id ∨ l.id = listenerEmpty) t.listeners

/-- The open is refused at once, or there is a slot for a handle that is not 0 and, with
memory, no other slot has its id or, without, the slot is empty and not marked as killed. If
there is no slot, there is no memory either. -/
def Takes (s : State) (kmallocOk : Bool) : Prop :=
  s.opened + 1 > maxOpened ∨
    (stops s.lstnr (nextHandle s) = none ∧ kmallocOk = false) ∨
    ∃ i l, stops s.lstnr (nextHandle s) = some (i, l) ∧ nextHandle s ≠ listenerEmpty ∧
      (kmallocOk = true ∧ (∀ j ≠ i, (ids s.lstnr)[j]? ≠ some (nextHandle s)) ∨
        kmallocOk = false ∧ l.id = listenerEmpty ∧ l.kill = false)

section Add

variable {t : Table} {id : Int}

theorem add_none (h : stops t id = none) :
    (hpcapAddListener t id).1 = t ∧ hpcapGetListener t id = none := by
  have hadd : (hpcapAddListener t id).1 = t := by
    rw [hpcapAddListener]
    rw [stops] at h
    rw [h]
  refine ⟨hadd, ?_⟩
  cases hg : hpcapGetListener t id with
  | none => rfl
  | some slot =>
    obtain ⟨hl, hid⟩ := findSlot_some hg
    have hsome := findSlot_isSome (p := fun l => l.id = id ∨ l.id = listenerEmpty)
      (List.mem_of_getElem? hl) (decide_eq_true (.inl (of_decide_eq_true hid)))
    rw [← stops, h] at hsome
    cases hsome

/-- A slot with the id itself is left as it is. -/
theorem add_same {i : Nat} {l : Listener} (h : stops t id = some (i, l)) (hid : l.id = id) :
    (hpcapAddListener t id).1 = t ∧ hpcapGetListener t id = some (i, l) := by
  obtain ⟨hl, -, hfirst⟩ := findSlot_eq_some.mp h
  refine ⟨?_, findSlot_eq_some.mpr ⟨hl, decide_eq_true hid, fun j hj m hm => ?_⟩⟩
  · rw [stops] at h
    rw [hpcapAddListener, h]
    simp only [if_pos hid]
  · have hnot := of_decide_eq_false (hfirst j hj m hm)
    exact decide_eq_false fun hm => hnot (.inl hm)

/-- An empty slot gets the listener, which is then found there. -/
theorem add_new {i : Nat} {l : Listener} (h : stops t id = some (i, l)) (hid : l.id ≠ id) :
    l.id = listenerEmpty ∧ ∃ m, m.id = id ∧ m.bufsz = l.bufsz ∧
      (hpcapAddListener t id).1 = { t with
        listeners := t.listeners.set i m
        listenersCount := t.listenersCount + 1 } ∧
      hpcapGetListener (hpcapAddListener t id).1 id = some (i, m) := by
  obtain ⟨hl, hp, hfirst⟩ := findSlot_eq_some.mp h
  obtain ⟨hlt, -⟩ := List.getElem?_eq_some_iff.mp hl
  have hempty : l.id = listenerEmpty := (of_decide_eq_true hp).resolve_left hid
  have hadd : (hpcapAddListener t id).1 = { t with
      listeners := t.listeners.set i { l with
        id := id
        bufferWrOffset := t.global.bufferWrOffset
        bufferRdOffset := joinOffset t }
      listenersCount := t.listenersCount + 1 } := by
    rw [stops] at h
    rw [hpcapAddListener, h]
    simp only [if_neg hid]
    rfl
  refine ⟨hempty, { l with
    id := id
    bufferWrOffset := t.global.bufferWrOffset
    bufferRdOffset := joinOffset t }, rfl, rfl, hadd, ?_⟩
  rw [hadd]
  refine findSlot_eq_some.mpr ⟨List.getElem?_set_self hlt, decide_eq_true rfl,
    fun j hj m hm => ?_⟩
  rw [List.getElem?_set_ne (Nat.ne_of_gt hj)] at hm
  have hnot := of_decide_eq_false (hfirst j hj m hm)
  exact decide_eq_false fun hm => hnot (.inl hm)

/-- Either way the listener is found where the search for a slot stopped. -/
theorem add_found {i : Nat} {l : Listener} (h : stops t id = some (i, l)) :
    ∃ m, hpcapGetListener (hpcapAddListener t id).1 id = some (i, m) ∧
      ids (hpcapAddListener t id).1 = (ids t).set i id := by
  by_cases hid : l.id = id
  · obtain ⟨hadd, hget⟩ := add_same h hid
    obtain ⟨hi, he⟩ := List.getElem?_eq_some_iff.mp (ids_getElem? (findSlot_some h).1)
    refine ⟨l, by rw [hadd, hget], ?_⟩
    rw [hadd, ← hid, ← he, List.set_getElem_self]
  · obtain ⟨-, m, hm, -, hadd, hget⟩ := add_new h hid
    refine ⟨m, hget, ?_⟩
    rw [ids_set (congrArg Table.listeners hadd), hm]

end Add

/-- The empty slots are at the start of the buffer. -/
def Blank (l : Listener) : Prop := l.bufferWrOffset = 0 ∧ l.bufferRdOffset = 0

/-- Each slot has its `filp`, and the empty ones are blank. -/
structure Tidy (s : State) : Prop where
  filps : s.filps.length = s.lstnr.listeners.length
  blank : Empties Blank s.lstnr

section Open

variable {s : State}

theorem eusers_neg : -eusers < 0 := by decide

theorem enomem_neg : -enomem < 0 := by decide

theorem opensRight_refused (h : s.opened + 1 > maxOpened) (kmallocOk : Bool) :
    OpensRight s kmallocOk :=
  ⟨_, open_refused h kmallocOk, .inr ⟨eusers_neg, rfl, rfl, rfl, rfl⟩⟩

/-- With memory, it is for the other slots not to have the id. -/
theorem opensRight_true (ht : Tidy s) (h : ¬ s.opened + 1 > maxOpened) {i : Nat} {l : Listener}
    (hstop : stops s.lstnr (nextHandle s) = some (i, l)) :
    OpensRight s true ↔ nextHandle s ≠ listenerEmpty ∧
      ∀ j ≠ i, (ids s.lstnr)[j]? ≠ some (nextHandle s) := by
  obtain ⟨m, hget, hids⟩ := add_found hstop
  obtain ⟨hlt, -⟩ := List.getElem?_eq_some_iff.mp (findSlot_some hstop).1
  have hlen : i < (ids s.lstnr).length := by rwa [ids, List.length_map]
  have hself : ((ids s.lstnr).set i (nextHandle s))[i]? = some (nextHandle s) :=
    List.getElem?_set_self hlen
  have hopen := open_true h
  rw [hget] at hopen
  constructor
  · rintro ⟨r, hr, hcase⟩
    cases hopen.symm.trans hr
    obtain ⟨-, hne, k, -, honly, -⟩ | ⟨hneg, -⟩ := hcase
    · refine ⟨hne, fun j hj hjid => hj ?_⟩
      rw [hids] at honly
      rw [honly i hself]
      exact honly j (by rwa [List.getElem?_set_ne (Ne.symm hj)])
    · exact absurd hneg (lt_irrefl 0)
  · rintro ⟨hne, hothers⟩
    refine ⟨_, hopen, .inl ⟨rfl, hne, i, ?_, fun j hj => ?_, ?_⟩⟩
    · rw [hids, hself]
    · by_contra hji
      rw [hids, List.getElem?_set_ne (Ne.symm hji)] at hj
      exact hothers j hji hj
    · exact List.getElem?_set_self (by rw [ht.filps]; exact hlt)

/-- Without it, it is for the slot to look as after a reset. -/
theorem opensRight_false (ht : Tidy s) (h : ¬ s.opened + 1 > maxOpened) {i : Nat} {l : Listener}
    (hstop : stops s.lstnr (nextHandle s) = some (i, l)) :
    OpensRight s false ↔ nextHandle s ≠ listenerEmpty ∧ l.id = listenerEmpty ∧ l.kill = false := by
  obtain ⟨hl, -⟩ := findSlot_some hstop
  obtain ⟨hlt, hli⟩ := List.getElem?_eq_some_iff.mp hl
  have hopen := open_false h
  have hundone : OpensRight s false ↔ Undone s { s with
      lstnr := hpcapDelListener (hpcapAddListener s.lstnr (nextHandle s)).1 (nextHandle s)
      lastHandle := nextHandle s } := by
    constructor
    · rintro ⟨r, hr, hcase⟩
      cases hopen.symm.trans hr
      obtain ⟨hzero, -⟩ | ⟨-, hundone⟩ := hcase
      · exact absurd hzero enomem_neg.ne
      · exact hundone
    · exact fun hundone => ⟨_, hopen, .inr ⟨enomem_neg, hundone⟩⟩
  rw [hundone]
  by_cases hid : l.id = nextHandle s
  · obtain ⟨hadd, hget⟩ := add_same hstop hid
    refine iff_of_false (fun hu => ?_) fun hr => hr.1 (hid.symm.trans hr.2.1)
    have hcount := hu.2.1
    rw [hadd, hpcapDelListener, hget] at hcount
    dsimp only at hcount
    omega
  · obtain ⟨hempty, m, hm, hbufsz, hadd, hget⟩ := add_new hstop hid
    have hne : nextHandle s ≠ listenerEmpty := fun hzero => hid (hempty.trans hzero.symm)
    have hdel : hpcapDelListener (hpcapAddListener s.lstnr (nextHandle s)).1 (nextHandle s) =
        { s.lstnr with
          listeners := s.lstnr.listeners.set i (hpcapRstListener m)
          listenersCount := s.lstnr.listenersCount + 1 - 1 } := by
      rw [hpcapDelListener, hget, hadd]
      simp
    have hrst : (hpcapRstListener m).kill = false := rfl
    constructor
    · rintro ⟨-, -, hslots, -⟩
      rw [hdel] at hslots
      have hsame : hpcapRstListener m = l := by
        have hi := congrArg (fun ls => ls[i]?) hslots
        dsimp only at hi
        rw [List.getElem?_set_self hlt, hl] at hi
        exact Option.some.inj hi
      exact ⟨hne, hempty, hsame ▸ hrst⟩
    · rintro ⟨-, -, hkill⟩
      obtain ⟨hwr, hrd⟩ := ht.blank l (List.mem_of_getElem? hl) hempty
      have hsame : hpcapRstListener m = l := by
        calc hpcapRstListener m = ⟨listenerEmpty, false, 0, 0, m.bufsz⟩ := rfl
          _ = ⟨l.id, l.kill, l.bufferWrOffset, l.bufferRdOffset, l.bufsz⟩ := by
            rw [hempty, hkill, hwr, hrd, hbufsz]
          _ = l := rfl
      refine ⟨rfl, ?_, ?_, rfl⟩
      · rw [hdel]
        exact Int.add_sub_cancel _ _
      · rw [hdel, hsame, ← hli, List.set_getElem_self]

end Open

namespace Tidy

variable {s t : State}

theorem add (h : Tidy s) (id : Int) :
    s.filps.length = (hpcapAddListener s.lstnr id).1.listeners.length ∧
      Empties Blank (hpcapAddListener s.lstnr id).1 := by
  refine ⟨?_, h.blank.add id⟩
  obtain ⟨-, he⟩ | ⟨j, l, -, -, -, -, he⟩ := add_cases s.lstnr id
  · rw [he, h.filps]
  · rw [he, List.length_set, h.filps]

theorem blank_rst (l : Listener) : Blank (hpcapRstListener l) := ⟨rfl, rfl⟩

theorem length_del (t : Table) (id : Int) :
    (hpcapDelListener t id).listeners.length = t.listeners.length := by
  obtain ⟨-, -, he⟩ | ⟨j, l, -, -, -, he⟩ := del_cases t id
  · rw [he]
  · rw [he, List.length_set]

theorem opens (h : Tidy s) {kmallocOk : Bool} {r : State × Int}
    (hr : hpcapOpen s kmallocOk = some r) : Tidy r.1 := by
  obtain ⟨hlen, hblank⟩ := h.add (nextHandle s)
  by_cases hmax : s.opened + 1 > maxOpened
  · rw [open_refused hmax] at hr
    cases hr
    exact h
  · cases kmallocOk with
    | true =>
      rw [open_true hmax] at hr
      obtain ⟨slot, -, rfl⟩ := Option.map_eq_some_iff.mp hr
      exact ⟨List.length_set.trans hlen, hblank⟩
    | false =>
      rw [open_false hmax] at hr
      cases hr
      exact ⟨hlen.trans (length_del _ _).symm, hblank.del blank_rst _⟩

/-- Slots are only reset. -/
theorem del (h : Tidy s) {id : Int} (hfilps : t.filps = s.filps)
    (hlstnr : t.lstnr = hpcapDelListener s.lstnr id) : Tidy t := by
  refine ⟨?_, hlstnr ▸ h.blank.del blank_rst id⟩
  rw [hfilps, hlstnr, length_del, h.filps]

theorem release (h : Tidy s) {f : Nat} {r : State × Int} (hr : hpcapRelease s f = some r) :
    Tidy r.1 := by
  obtain ⟨info, -, rfl⟩ := Option.map_eq_some_iff.mp hr
  exact h.del rfl rfl

theorem markKilled (h : Tidy s) {i : Nat} {l : Listener} (hl : s.lstnr.listeners[i]? = some l) :
    Tidy (markKilled s i l) :=
  ⟨h.filps.trans List.length_set.symm,
    h.blank.set rfl fun hempty => h.blank l (List.mem_of_getElem? hl) hempty⟩

theorem filpClose (h : Tidy s) {i : Nat} {closes : Bool} (ht : filpClose s i closes = some t) :
    Tidy t := by
  obtain ⟨-, rfl⟩ | ⟨-, f, -, hr⟩ := filpClose_cases ht
  · exact h
  · exact h.release hr

theorem addForceKilled (h : Tidy s) (id : Int) : Tidy (addForceKilled s id) := by
  rw [Device.addForceKilled]
  split
  · exact ⟨h.filps, h.blank⟩
  · exact h

theorem kill (h : Tidy s) {id : Int} {closes : Bool} {r : State × Int}
    (hr : hpcapKillListener s id closes = some r) : Tidy r.1 := by
  obtain hsame | ⟨i, l, t, hg, ht, hkilled⟩ := kill_cases hr
  · rwa [hsame]
  · rw [hkilled]
    exact (((h.markKilled (findSlot_some hg).1).filpClose ht).addForceKilled id).del rfl rfl

theorem killall (h : Tidy s) : Tidy { s with lstnr := hpcapKillallListeners s.lstnr } := by
  refine ⟨h.filps.trans (List.length_map _).symm, fun l hl hempty => ?_⟩
  obtain ⟨m, hm, rfl⟩ := List.mem_map.mp hl
  exact h.blank m hm hempty

theorem step {a : Killwait.Op} (h : Tidy s) (hs : Killwait.step s a = some t) : Tidy t := by
  cases a with
  | device a =>
    cases a with
    | openFile kmallocOk =>
      obtain ⟨r, hr, rfl⟩ := Option.map_eq_some_iff.mp hs
      exact h.opens hr
    | release f =>
      obtain ⟨r, hr, rfl⟩ := Option.map_eq_some_iff.mp hs
      exact h.release hr
    | kill caller id closes =>
      obtain ⟨r, hr, rfl⟩ := Option.map_eq_some_iff.mp hs
      obtain hsame | ⟨-, -, -, hr⟩ := ioctlKillLst_cases hr
      · rwa [hsame]
      · exact h.kill hr
  | killWait caller =>
    obtain ⟨r, hr, rfl⟩ := Option.map_eq_some_iff.mp hs
    obtain hsame | ⟨-, -, -, hall⟩ := killWait_cases hr
    · rwa [hsame]
    · rw [hall]
      exact h.killall

end Tidy

theorem tidy_init (bufsize : Nat) : Tidy (Device.init bufsize) := by
  refine ⟨rfl, fun l hl _ => ?_⟩
  rw [List.eq_of_mem_replicate hl]
  exact ⟨rfl, rfl⟩

/-- In every state an open goes right exactly if there is a slot for it that will do. -/
theorem open_outcome (bufsize : Nat) (s : State) (kmallocOk : Bool)
    (h : Reach Killwait.step Free (fun t => t = Device.init bufsize) s) :
    OpensRight s kmallocOk ↔ Takes s kmallocOk := by
  have ht : Tidy s := by
    refine h.invariant Tidy ?_ fun _ _ _ hu _ hs => hu.step hs
    rintro t rfl
    exact tidy_init bufsize
  by_cases hmax : s.opened + 1 > maxOpened
  · exact iff_of_true (opensRight_refused hmax kmallocOk) (.inl hmax)
  cases hstop : stops s.lstnr (nextHandle s) with
  | none =>
    obtain ⟨hadd, hget⟩ := add_none hstop
    cases kmallocOk with
    | true =>
      refine iff_of_false (fun ⟨r, hr, _⟩ => ?_) ?_
      · rw [open_true hmax, hadd, hget] at hr
        cases hr
      · simp [Takes, hmax, hstop]
    | false =>
      refine iff_of_true ⟨_, open_false hmax, .inr ⟨enomem_neg, rfl, ?_⟩⟩ (.inr (.inl ⟨hstop, rfl⟩))
      have hdel : hpcapDelListener s.lstnr (nextHandle s) = s.lstnr := by
        rw [hpcapDelListener, hget]
      rw [hadd, hdel]
      exact ⟨rfl, rfl, rfl⟩
  | some slot =>
    obtain ⟨i, l⟩ := slot
    cases kmallocOk with
    | true =>
      rw [opensRight_true ht hmax hstop]
      simp [Takes, hmax, hstop]
    | false =>
      rw [opensRight_false ht hmax hstop]
      simp [Takes, hmax, hstop]

/-- Four files are open. -/
def fourFiles : List Killwait.Op := List.replicate 4 (.device (.openFile true))

theorem open_outcome_second :
    ∃ s, run Killwait.step (Device.init 4096) [.device (.openFile true)] = some s ∧
      OpensRight s true := by
  have hrun : (run Killwait.step (Device.init 4096) [.device (.openFile true)]).map
      (fun s => (stops s.lstnr (nextHandle s), nextHandle s, ids s.lstnr)) =
      some (some (1, ⟨0, false, 0, 0, 4096⟩), 2, [1, 0, 0, 0]) := by
    decide +kernel
  obtain ⟨s, hs, he⟩ := Option.map_eq_some_iff.mp hrun
  obtain ⟨hstop, he⟩ := Prod.mk.inj he
  obtain ⟨hnext, hids⟩ := Prod.mk.inj he
  refine ⟨s, hs, (open_outcome 4096 s true (.run (.start rfl) hs)).mpr (.inr (.inr ?_))⟩
  refine ⟨1, _, hstop, by rw [hnext]; decide, .inl ⟨rfl, fun j _ hj => ?_⟩⟩
  rw [hnext, hids] at hj
  exact absurd (List.mem_of_getElem? hj) (by decide)

/-- The fifth open is let through, and finds no listener for its handle. -/
theorem fifth_open :
    ∃ s, run Killwait.step (Device.init 4096) fourFiles = some s ∧ hpcapOpen s true = none ∧
      ¬ OpensRight s true := by
  have hrun : (run Killwait.step (Device.init 4096) fourFiles).map
      (fun s => (hpcapOpen s true).isNone) = some true := by
    decide +kernel
  obtain ⟨s, hs, hnone⟩ := Option.map_eq_some_iff.mp hrun
  have hnone : hpcapOpen s true = none := Option.isNone_iff_eq_none.mp hnone
  refine ⟨s, hs, hnone, fun ⟨r, hr, _⟩ => ?_⟩
  rw [hnone] at hr
  cases hr

end Hpcap.OpenFile
