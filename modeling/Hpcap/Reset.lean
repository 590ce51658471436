import Hpcap.Poll
import Hpcap.Registry

namespace Hpcap.Reset

open Hpcap.Reservation Hpcap.Listeners Hpcap.Registry Hpcap.Rx Hpcap.Transition

/-- Where a poll thread is in an iteration of `hpcap_poll`. `pktBuf` tells whether it has
a buffer to receive into. -/
inductive Pc
  | top
  | resetGlobal
  | resetOffsets
  | receive (pktBuf : Bool)
  | publish
  deriving DecidableEq

/-- Who holds the lock of the listeners. A client that takes a slot copies the write offset
into it, then the read offset, sets the id and increments the count. -/
inductive Lock
  | free
  | joining (slot : Nat) (id : Int)
  | joined (slot : Nat) (id : Int)
  | adding
  | deleting
  deriving DecidableEq

/-- The slot whose offsets are being copied for an id that is not set yet. -/
def Lock.slot : Lock → Option (Nat × Int)
  | .joining j id => some (j, id)
  | .joined j id => some (j, id)
  | _ => none

/-- The slots in `parted` are those whose write offset was the global one until a reset of
the global offsets. The code keeps no such list. -/
structure State where
  queue : Poll.State
  threads : List Pc
  lock : Lock
  parted : List Nat

/-- A step of a thread, which finds the given frames if it receives, or of a client that
opens or closes a handle. The poll threads take no lock. -/
inductive Step
  | thread (i : Nat) (frames : List Frame)
  | openWr (id : Int)
  | openRd
  | openId
  | openCount
  | closeSlot (id : Int)
  | closeCount

def copyWr (t : Table) (j : Nat) : Table :=
  { t with listeners := t.listeners.modify j fun l =>
      { l with bufferWrOffset := t.global.bufferWrOffset } }

def copyRd (t : Table) (j : Nat) : Table :=
  { t with listeners := t.listeners.modify j fun l => { l with bufferRdOffset := joinOffset t } }

def setId (t : Table) (j : Nat) (id : Int) : Table :=
  { t with listeners := t.listeners.modify j fun l => { l with id := id } }

/-- What `hpcap_del_listener` writes before it decrements the count. -/
def delSlot (t : Table) (id : Int) : Table :=
  { hpcapDelListener t id with listenersCount := t.listenersCount }

/-- The slots whose write offset is the global one, and is not once that is reset. -/
def partedBy (t : Table) : List Nat :=
  (List.range t.listeners.length).filter fun j => t.listeners[j]?.any fun l =>
    l.bufferWrOffset = t.global.bufferWrOffset ∧
      l.bufferWrOffset ≠ (hpcapGlobalListenerResetOffset t).global.bufferWrOffset

def State.goto (s : State) (i : Nat) (pc : Pc) : State := { s with threads := s.threads.set i pc }

/-- The step of thread `i` from the given place. -/
def stepThread (cfg : Config) (s : State) (i : Nat) (frames : List Frame) : Pc → State
  | .top =>
    -- the count is a `size_t` here, so that a negative one is not below zero
    if s.queue.lstnr.listenersCount = 0 then s.goto i .resetGlobal else s.goto i (.receive true)
  | .resetGlobal =>
    { s.goto i .resetOffsets with
      queue := { s.queue with lstnr := hpcapGlobalListenerResetOffset s.queue.lstnr }
      parted := s.parted ++ partedBy s.queue.lstnr }
  | .resetOffsets =>
    { s.goto i (.receive false) with queue := { s.queue with
      rx := s.queue.rx.reset
      consumerReadOff := 0 } }
  | .receive pktBuf =>
    let limit := availBytes s.queue.lstnr.global / s.threads.length
    { s.goto i (if i = 0 then .publish else .top) with queue := { s.queue with
      rx := (hpcapRx cfg limit pktBuf frames s.queue.rx).2.2 } }
  | .publish => { s.goto i .top with queue := Poll.publish cfg s.queue }

def step (cfg : Config) (s : State) : Step → Option State
  | .thread i frames => s.threads[i]?.map (stepThread cfg s i frames)
  | .openWr id =>
    if s.lock = .free then
      match joinSlot s.queue.lstnr id with
      | none => some s
      | some j => some { s with
          queue := { s.queue with lstnr := copyWr s.queue.lstnr j }
          lock := .joining j id
          parted := s.parted.filter (· ≠ j) }
    else none
  | .openRd =>
    match s.lock with
    | .joining j id => some { s with
        queue := { s.queue with lstnr := copyRd s.queue.lstnr j }
        lock := .joined j id }
    | _ => none
  | .openId =>
    match s.lock with
    | .joined j id => some { s with
        queue := { s.queue with lstnr := setId s.queue.lstnr j id }
        lock := .adding }
    | _ => none
  | .openCount =>
    if s.lock = .adding then
      some { s with
        queue := { s.queue with lstnr := { s.queue.lstnr with
          listenersCount := s.queue.lstnr.listenersCount + 1 } }
        lock := .free }
    else none
  | .closeSlot id =>
    if s.lock = .free then
      some { s with
        queue := { s.queue with lstnr := delSlot s.queue.lstnr id }
        lock := if (hpcapGetListener s.queue.lstnr id).isSome then .deleting else .free }
    else none
  | .closeCount =>
    if s.lock = .deleting then
      some { s with
        queue := { s.queue with lstnr := { s.queue.lstnr with
          listenersCount := s.queue.lstnr.listenersCount - 1 } }
        lock := .free }
    else none

/-- The threads are launched, and no handle is open. -/
def start (cfg : Config) (consumers : Nat) (buf : Nat → UInt8) : State :=
  ⟨Poll.init cfg buf, List.replicate consumers .top, .free, []⟩

/-- The thread has found the count at zero and has not yet reset all offsets. -/
def Resetting (pc : Pc) : Prop := pc = .resetGlobal ∨ pc = .resetOffsets

instance : DecidablePred Resetting := fun _ => inferInstanceAs (Decidable (_ ∨ _))

/-- No id is set while a thread is resetting, or counted only after one has read the count at
zero. When the global offsets are reset, the slot that is being filled has not the write
offset that they lose. No handle is the one of the empty slots. -/
def Exclusive (s : State) : Step → Prop
  | .thread i _ =>
    (s.threads[i]? = some .top → s.queue.lstnr.listenersCount = 0 → s.lock ≠ .adding) ∧
      (s.threads[i]? = some .resetGlobal →
        ∀ p ∈ s.lock.slot, ∀ l ∈ s.queue.lstnr.listeners[p.1]?,
          l.bufferWrOffset = s.queue.lstnr.global.bufferWrOffset → l.bufferWrOffset = 0)
  | .openId => ∀ pc ∈ s.threads, ¬ Resetting pc
  | .closeSlot id => id ≠ listenerEmpty
  | _ => True

instance (s : State) : DecidablePred (Exclusive s) := fun a => by
  unfold Exclusive
  split <;> infer_instance

/-- The offsets are reset only without listeners, and no reset has parted the write offset
of a listener from the global one. -/
structure Undisturbed (s : State) : Prop where
  alone : ∀ pc ∈ s.threads, Resetting pc →
    ∀ l ∈ s.queue.lstnr.listeners, l.id = listenerEmpty
  together : ∀ (j : Nat) (l : Listener), s.queue.lstnr.listeners[j]? = some l →
    l.id ≠ listenerEmpty → j ∉ s.parted

/-- What the holder of the lock still owes to the count. -/
def owed : Lock → Int
  | .free => 0
  | .joining _ _ => 0
  | .joined _ _ => 0
  | .adding => 1
  | .deleting => -1

section Writes

variable {t : Table} {j : Nat}

theorem map_id_modify {f : Listener → Listener} (hf : ∀ l, (f l).id = l.id)
    (ls : List Listener) : (ls.modify j f).map Listener.id = ls.map Listener.id := by
  refine List.ext_getElem? fun i => ?_
  rw [List.getElem?_map, List.getElem?_map, List.getElem?_modify]
  by_cases hi : j = i
  · simp [hi, Function.comp_def, hf]
  · simp [hi]

theorem ids_copyWr : ids (copyWr t j) = ids t :=
  map_id_modify (f := fun l => { l with bufferWrOffset := t.global.bufferWrOffset })
    (fun _ => rfl) t.listeners

theorem ids_copyRd : ids (copyRd t j) = ids t :=
  map_id_modify (f := fun l => { l with bufferRdOffset := joinOffset t }) (fun _ => rfl)
    t.listeners

theorem ids_setId (id : Int) : ids (setId t j id) = (ids t).set j id := by
  refine List.ext_getElem? fun i => ?_
  rw [ids, setId, List.getElem?_map, List.getElem?_modify, List.getElem?_set, ids,
    List.length_map, List.getElem?_map]
  by_cases hi : j = i
  · subst hi
    by_cases hj : j < t.listeners.length
    · simp [hj]
    · simp [hj]
  · simp [hi]

/-- The steps of an open together are `hpcap_add_listener`. -/
theorem open_writes {id : Int} (h : joinSlot t id = some j) :
    { setId (copyRd (copyWr t j) j) j id with listenersCount := t.listenersCount + 1 } =
      (hpcapAddListener t id).1 := by
  obtain ⟨hn, -⟩ | ⟨k, l, hk, hl, -, -, he⟩ := add_cases t id
  · rw [hn] at h
    cases h
  · obtain rfl : k = j := Option.some.inj (hk.symm.trans h)
    have hlt := (List.getElem?_eq_some_iff.mp hl).1
    have hls : (setId (copyRd (copyWr t k) k) k id).listeners = t.listeners.set k
        { l with
          id := id
          bufferWrOffset := t.global.bufferWrOffset
          bufferRdOffset := joinOffset t } := by
      refine List.ext_getElem? fun i => ?_
      simp only [setId, copyRd, copyWr, List.getElem?_modify, List.getElem?_set]
      by_cases hi : k = i
      · subst hi
        rw [hl]
        simp [hlt, joinOffset]
      · simp [hi]
    rw [he, ← hls]
    rfl

end Writes

/-- With the count a close is `hpcap_del_listener`. -/
theorem delSlot_count {t : Table} {id : Int} (h : (hpcapGetListener t id).isSome) :
    { delSlot t id with listenersCount := t.listenersCount - 1 } = hpcapDelListener t id := by
  obtain ⟨⟨i, l⟩, hg⟩ := Option.isSome_iff_exists.mp h
  rw [delSlot, hpcapDelListener, hg]

theorem mem_partedBy {t : Table} {j : Nat} : j ∈ partedBy t ↔
    ∃ l, t.listeners[j]? = some l ∧ l.bufferWrOffset = t.global.bufferWrOffset ∧
      l.bufferWrOffset ≠ 0 := by
  have hzero : (hpcapGlobalListenerResetOffset t).global.bufferWrOffset = 0 := rfl
  simp only [partedBy, List.mem_filter, List.mem_range, Option.any_eq_true, hzero,
    decide_eq_true_eq]
  exact and_iff_right_of_imp fun ⟨l, hl, _⟩ => (List.getElem?_eq_some_iff.mp hl).1

theorem publish_lstnr (cfg : Config) (q : Poll.State) :
    ids (Poll.publish cfg q).lstnr = ids q.lstnr ∧
      (Poll.publish cfg q).lstnr.listenersCount = q.lstnr.listenersCount := by
  unfold Poll.publish
  dsimp only
  split <;> simp

/-- A slot that is in use, or will be once its id is set. -/
def Taken (s : State) (j : Nat) : Prop :=
  (∃ id, (ids s.queue.lstnr)[j]? = some id ∧ id ≠ listenerEmpty) ∨
    ∃ id, s.lock.slot = some (j, id)

/-- The count is that of the slots in use, but for what is owed to it, and while a thread
is resetting there is none. A slot that is being filled is still an empty one. -/
structure Inv (s : State) : Prop where
  count : s.queue.lstnr.listenersCount + owed s.lock = registered s.queue.lstnr
  alone : ∀ pc ∈ s.threads, Resetting pc → registered s.queue.lstnr = 0
  filling : ∀ j id, s.lock.slot = some (j, id) →
    (ids s.queue.lstnr)[j]? = some listenerEmpty ∧ id ≠ listenerEmpty
  together : ∀ j, Taken s j → j ∉ s.parted

theorem registered_pos {t : Table} {j : Nat} {id : Int} (hj : (ids t)[j]? = some id)
    (hid : id ≠ listenerEmpty) : 0 < registered t :=
  List.countP_pos_iff.mpr ⟨id, List.mem_of_getElem? hj, decide_eq_true hid⟩

namespace Inv

variable {s : State}

/-- A step that leaves the slots and the count alone. -/
theorem goto (h : Inv s) {q : Poll.State} (hids : ids q.lstnr = ids s.queue.lstnr)
    (hc : q.lstnr.listenersCount = s.queue.lstnr.listenersCount) (i : Nat) {pc : Pc}
    (hpc : Resetting pc → registered s.queue.lstnr = 0) :
    Inv { s.goto i pc with queue := q } := by
  have hr : registered q.lstnr = registered s.queue.lstnr := by rw [registered, hids, registered]
  refine ⟨?_, fun pc' hm hreset => ?_, fun j id hj => ?_, fun j hj => ?_⟩
  · change q.lstnr.listenersCount + owed s.lock = registered q.lstnr
    rw [hr, hc]
    exact h.count
  · change registered q.lstnr = 0
    rw [hr]
    obtain hm | rfl := List.mem_or_eq_of_mem_set hm
    · exact h.alone pc' hm hreset
    · exact hpc hreset
  · change (ids q.lstnr)[j]? = _ ∧ _
    rw [hids]
    exact h.filling j id hj
  · refine h.together j ?_
    rw [Taken] at hj ⊢
    rw [← hids]
    exact hj

/-- The global offsets are reset while no slot in use, and none that is being filled, has a
write offset to lose. -/
theorem resetGlobal (h : Inv s) {t : Table} (hids : ids t = ids s.queue.lstnr)
    (hc : t.listenersCount = s.queue.lstnr.listenersCount)
    (hzero : registered s.queue.lstnr = 0)
    (hfill : ∀ p ∈ s.lock.slot, ∀ l ∈ s.queue.lstnr.listeners[p.1]?,
      l.bufferWrOffset = s.queue.lstnr.global.bufferWrOffset → l.bufferWrOffset = 0) (i : Nat) :
    Inv { s.goto i .resetOffsets with
      queue := { s.queue with lstnr := t }
      parted := s.parted ++ partedBy s.queue.lstnr } := by
  have hzero' : Resetting .resetOffsets → registered s.queue.lstnr = 0 := fun _ => hzero
  have hg := h.goto (q := { s.queue with lstnr := t }) hids hc i hzero'
  refine ⟨hg.count, hg.alone, hg.filling, fun j hj hm => ?_⟩
  obtain hm | hm := List.mem_append.mp hm
  · exact hg.together j hj hm
  · obtain ⟨l, hl, hwr, hne⟩ := mem_partedBy.mp hm
    obtain ⟨id, hid, hused⟩ | ⟨id, hlock⟩ := hj
    · have hpos := registered_pos (hids ▸ hid) hused
      omega
    · exact hne (hfill (j, id) hlock l hl hwr)

theorem thread {cfg : Config} {i : Nat} {frames : List Frame} {pc : Pc} (h : Inv s)
    (hi : s.threads[i]? = some pc) (hok : Exclusive s (.thread i frames)) :
    Inv (stepThread cfg s i frames pc) := by
  have hmem := List.mem_of_getElem? hi
  cases pc with
  | top =>
    rw [stepThread]
    split
    · rename_i hzero
      refine h.goto rfl rfl i fun _ => ?_
      have hc := h.count
      have hlock := hok.1 hi hzero
      rw [hzero] at hc
      cases hl : s.lock with
      | adding => exact absurd hl hlock
      | _ =>
        rw [hl] at hc
        simp only [owed] at hc
        omega
    · exact h.goto rfl rfl i (by simp [Resetting])
  | resetGlobal =>
    exact h.resetGlobal (t := hpcapGlobalListenerResetOffset s.queue.lstnr) rfl rfl
      (h.alone _ hmem (.inl rfl)) (hok.2 hi) i
  | resetOffsets =>
    let q := { s.queue with rx := s.queue.rx.reset, consumerReadOff := 0 }
    exact h.goto (q := q) rfl rfl i (by simp [Resetting])
  | receive pktBuf =>
    let limit := availBytes s.queue.lstnr.global / s.threads.length
    let q := { s.queue with rx := (hpcapRx cfg limit pktBuf frames s.queue.rx).2.2 }
    exact h.goto (q := q) rfl rfl i (by split <;> simp [Resetting])
  | publish =>
    obtain ⟨hr, hc⟩ := publish_lstnr cfg s.queue
    exact h.goto hr hc i (by simp [Resetting])

/-- A step of a client that writes no id and does not touch the count. -/
theorem fill (h : Inv s) {t : Table} {lock : Lock} (hids : ids t = ids s.queue.lstnr)
    (hc : t.listenersCount = s.queue.lstnr.listenersCount) (howed : owed lock = owed s.lock)
    {parted : List Nat} (hsub : ∀ j ∈ parted, j ∈ s.parted)
    (hfill : ∀ j id, lock.slot = some (j, id) →
      (ids s.queue.lstnr)[j]? = some listenerEmpty ∧ id ≠ listenerEmpty ∧ j ∉ parted) :
    Inv { s with queue := { s.queue with lstnr := t }, lock := lock, parted := parted } := by
  have hr : registered t = registered s.queue.lstnr := by rw [registered, hids, registered]
  refine ⟨?_, ?_, fun j id hj => ?_, fun j hj => ?_⟩
  · change t.listenersCount + owed lock = registered t
    rw [hr, hc, howed]
    exact h.count
  · change ∀ pc ∈ s.threads, Resetting pc → registered t = 0
    rw [hr]
    exact h.alone
  · obtain ⟨hempty, hid, -⟩ := hfill j id hj
    change (ids t)[j]? = _ ∧ _
    rw [hids]
    exact ⟨hempty, hid⟩
  · obtain ⟨id, hj, hid⟩ | ⟨id, hj⟩ := hj
    · change (ids t)[j]? = some id at hj
      rw [hids] at hj
      exact fun hm => h.together j (.inl ⟨id, hj, hid⟩) (hsub j hm)
    · exact (hfill j id hj).2.2

theorem openWr (h : Inv s) (hfree : s.lock = .free) {id : Int} {j : Nat}
    (hj : joinSlot s.queue.lstnr id = some j) :
    Inv { s with
      queue := { s.queue with lstnr := copyWr s.queue.lstnr j }
      lock := .joining j id
      parted := s.parted.filter (· ≠ j) } := by
  obtain ⟨hn, -⟩ | ⟨k, l, hk, hl, hid, hempty, -⟩ := add_cases s.queue.lstnr id
  · rw [hn] at hj
    cases hj
  obtain rfl : k = j := Option.some.inj (hk.symm.trans hj)
  refine h.fill ids_copyWr rfl (by rw [hfree]; rfl) (fun j hm => (List.mem_filter.mp hm).1) ?_
  rintro i id' he
  cases he
  exact ⟨hempty ▸ ids_getElem? hl, hid, by simp⟩

theorem openRd (h : Inv s) {j : Nat} {id : Int} (hlock : s.lock = .joining j id) :
    Inv { s with
      queue := { s.queue with lstnr := copyRd s.queue.lstnr j }
      lock := .joined j id } := by
  have hslot : s.lock.slot = some (j, id) := by rw [hlock]; rfl
  refine h.fill ids_copyRd rfl (by rw [hlock]; rfl) (fun _ hm => hm) ?_
  rintro i id' he
  cases he
  exact ⟨(h.filling j id hslot).1, (h.filling j id hslot).2, h.together j (.inr ⟨id, hslot⟩)⟩

theorem openId (h : Inv s) {j : Nat} {id : Int} (hlock : s.lock = .joined j id)
    (hok : ∀ pc ∈ s.threads, ¬ Resetting pc) :
    Inv { s with
      queue := { s.queue with lstnr := setId s.queue.lstnr j id }
      lock := .adding } := by
  have hslot : s.lock.slot = some (j, id) := by rw [hlock]; rfl
  obtain ⟨hempty, hid⟩ := h.filling j id hslot
  have hc := h.count
  have hset := countP_set_ids hempty id
  rw [if_neg (not_not.mpr rfl), if_pos hid] at hset
  refine ⟨?_, fun pc hm hreset => absurd hreset (hok pc hm), fun i id' he => (by cases he),
    fun i hi => ?_⟩
  · have hr : registered (setId s.queue.lstnr j id) = registered s.queue.lstnr + 1 := by
      rw [registered, ids_setId]
      exact hset
    change s.queue.lstnr.listenersCount + 1 = (registered (setId s.queue.lstnr j id) : Int)
    rw [hlock, owed] at hc
    omega
  · refine h.together i ?_
    obtain ⟨id', hi, hid'⟩ | ⟨id', hi⟩ := hi
    · by_cases hij : i = j
      · exact .inr ⟨id, hij ▸ hslot⟩
      · change (ids (setId s.queue.lstnr j id))[i]? = some id' at hi
        rw [ids_setId, List.getElem?_set_ne (Ne.symm hij)] at hi
        exact .inl ⟨id', hi, hid'⟩
    · cases hi

theorem openCount (h : Inv s) (hlock : s.lock = .adding) :
    Inv { s with
      queue := { s.queue with lstnr := { s.queue.lstnr with
        listenersCount := s.queue.lstnr.listenersCount + 1 } }
      lock := .free } := by
  have hc := h.count
  rw [hlock, owed] at hc
  refine ⟨?_, h.alone, fun j id he => (by cases he), fun j hj => h.together j ?_⟩
  · change s.queue.lstnr.listenersCount + 1 + 0 = (registered s.queue.lstnr : Int)
    omega
  · exact hj.imp_right fun ⟨id, he⟩ => by cases he

theorem closeSlot (h : Inv s) (hfree : s.lock = .free) {id : Int} (hid : id ≠ listenerEmpty) :
    Inv { s with
      queue := { s.queue with lstnr := delSlot s.queue.lstnr id }
      lock := if (hpcapGetListener s.queue.lstnr id).isSome then .deleting else .free } := by
  have hc := h.count
  have hr := registered_del (t := s.queue.lstnr) hid
  rw [hfree, owed] at hc
  refine ⟨?_, fun pc hm hreset => ?_, fun j id' he => ?_, fun j hj => h.together j ?_⟩
  · change s.queue.lstnr.listenersCount + _ = (registered (hpcapDelListener _ id) : Int)
    dsimp only
    split
    · rename_i hg
      rw [if_pos hg] at hr
      simp only [owed]
      omega
    · rename_i hg
      rw [if_neg hg] at hr
      simp only [owed]
      omega
  · have halone := h.alone pc hm hreset
    change registered (hpcapDelListener _ id) = 0
    omega
  · dsimp only at he
    split at he <;> cases he
  · obtain ⟨id', hj, hid'⟩ | ⟨id', he⟩ := hj
    · refine .inl ⟨id', ?_, hid'⟩
      change (ids (hpcapDelListener s.queue.lstnr id))[j]? = some id' at hj
      obtain ⟨-, -, he⟩ | ⟨i, l, -, hl, -, he⟩ := del_cases s.queue.lstnr id
      · rw [he] at hj
        exact hj
      · rw [ids_set (congrArg Table.listeners he)] at hj
        by_cases hij : i = j
        · subst hij
          rw [List.getElem?_set_self (List.getElem?_eq_some_iff.mp (ids_getElem? hl)).1] at hj
          exact absurd (Option.some.inj hj).symm hid'
        · rwa [List.getElem?_set_ne hij] at hj
    · dsimp only at he
      split at he <;> cases he

theorem closeCount (h : Inv s) (hlock : s.lock = .deleting) :
    Inv { s with
      queue := { s.queue with lstnr := { s.queue.lstnr with
        listenersCount := s.queue.lstnr.listenersCount - 1 } }
      lock := .free } := by
  have hc := h.count
  rw [hlock, owed] at hc
  refine ⟨?_, h.alone, fun j id he => (by cases he), fun j hj => h.together j ?_⟩
  · change s.queue.lstnr.listenersCount - 1 + 0 = (registered s.queue.lstnr : Int)
    omega
  · exact hj.imp_right fun ⟨id, he⟩ => by cases he

theorem step {cfg : Config} {a : Step} {u : State} (h : Inv s) (ha : Exclusive s a)
    (hs : step cfg s a = some u) : Inv u := by
  cases a with
  | thread i frames =>
    obtain ⟨pc, hi, rfl⟩ := Option.map_eq_some_iff.mp hs
    exact h.thread hi ha
  | openWr id =>
    obtain ⟨hfree, hs⟩ := Option.ite_none_right_eq_some.mp hs
    cases hj : joinSlot s.queue.lstnr id with
    | none =>
      rw [hj] at hs
      cases hs
      exact h
    | some j =>
      rw [hj] at hs
      cases hs
      exact h.openWr hfree hj
  | openRd =>
    simp only [Reset.step] at hs
    split at hs
    · rename_i j id hlock
      cases hs
      exact h.openRd hlock
    · cases hs
  | openId =>
    simp only [Reset.step] at hs
    split at hs
    · rename_i j id hlock
      cases hs
      exact h.openId hlock ha
    · cases hs
  | openCount =>
    obtain ⟨hlock, hu⟩ := Option.ite_none_right_eq_some.mp hs
    cases hu
    exact h.openCount hlock
  | closeSlot id =>
    obtain ⟨hfree, hu⟩ := Option.ite_none_right_eq_some.mp hs
    cases hu
    exact h.closeSlot hfree ha
  | closeCount =>
    obtain ⟨hlock, hu⟩ := Option.ite_none_right_eq_some.mp hs
    cases hu
    exact h.closeCount hlock

theorem undisturbed (h : Inv s) : Undisturbed s := by
  refine ⟨fun pc hm hreset l hl => ?_, fun j l hl hid => ?_⟩
  · have hzero := List.countP_eq_zero.mp (h.alone pc hm hreset) l.id (List.mem_map_of_mem hl)
    simpa using hzero
  · exact h.together j (.inl ⟨l.id, ids_getElem? hl, hid⟩)

end Inv

theorem start_inv (cfg : Config) (consumers : Nat) (buf : Nat → UInt8) :
    Inv (start cfg consumers buf) := by
  refine ⟨rfl, fun pc hm => ?_, fun j id he => (by cases he), fun j _ => List.not_mem_nil⟩
  rw [List.eq_of_mem_replicate hm]
  rintro (hp | hp) <;> cases hp

/-- While opens and resets keep clear of each other, the offsets are reset only without
listeners, and no listener's write offset is parted from the global one. -/
theorem resets_without_listeners (cfg : Config) (consumers : Nat) (buf : Nat → UInt8) (s : State)
    (h : Reach (step cfg) Exclusive (fun t => t = start cfg consumers buf) s) :
    Undisturbed s := by
  have hinv : Inv s := by
    refine h.invariant Inv ?_ fun _ _ _ hu ha hs => hu.step ha hs
    rintro u rfl
    exact start_inv cfg consumers buf
  exact hinv.undisturbed

abbrev onePage : Config := ⟨4096, 4096, 0, false, []⟩

/-- What an open of a handle does. -/
def opens (id : Int) : List Step := [.openWr id, .openRd, .openId, .openCount]

/-- A handle is opened, a frame received for it and the handle closed; then the thread
reads the count. -/
def session : List Step :=
  opens 1 ++ [.thread 0 [], .thread 0 [⟨[1, 2, 3], 1, 0⟩], .thread 0 [],
    .closeSlot 1, .closeCount, .thread 0 []]

theorem resets_without_listeners_session :
    ∃ s, run (guard (step onePage) Exclusive) (start onePage 1 fun _ => 0) session = some s ∧
      s.threads = [.resetGlobal] ∧ Undisturbed s := by
  have hrun : ((run (guard (step onePage) Exclusive) (start onePage 1 fun _ => 0) session).map
      State.threads) = some [.resetGlobal] := by
    decide +kernel
  obtain ⟨s, hs, hpcs⟩ := Option.map_eq_some_iff.mp hrun
  refine ⟨s, hs, hpcs, resets_without_listeners onePage 1 (fun _ => 0) s ?_⟩
  exact .run_guard (.start rfl) hs

/-- What tells whether a thread is resetting, the slots that are parted, the global write
offset, and the first slot's id and write offset. -/
def glance (s : State) : List Pc × List Nat × Nat × Option (Int × Nat) :=
  (s.threads, s.parted, s.queue.lstnr.global.bufferWrOffset,
    s.queue.lstnr.listeners.head?.map fun l => (l.id, l.bufferWrOffset))

/-- A handle is opened once the thread has found the count at zero. The reset takes place while
it is registered; or it takes place after the offsets are copied and before the id is set. Either
way the listener is left with the write offset from before. -/
theorem late_open_is_reset :
    (∃ s, Reach (step onePage) Free (fun u => u = start onePage 1 fun _ => 0) s ∧
      glance s = ([.resetOffsets], [0], 0, some (2, 15)) ∧ ¬ Undisturbed s) ∧
    ∃ s, Reach (step onePage) Free (fun u => u = start onePage 1 fun _ => 0) s ∧
      glance s = ([.receive false], [0], 0, some (2, 15)) ∧ ¬ Undisturbed s := by
  have hparted : ∀ {s pcs}, glance s = (pcs, [0], 0, some (2, 15)) → ¬ Undisturbed s := by
    intro s pcs hg hs
    simp only [glance, Prod.mk.injEq] at hg
    obtain ⟨-, hp, -, hl⟩ := hg
    obtain ⟨l, hl, he⟩ := Option.map_eq_some_iff.mp hl
    have hid : l.id = 2 := congrArg Prod.fst he
    rw [List.head?_eq_getElem?] at hl
    refine hs.together 0 l hl ?_ (hp ▸ List.mem_singleton_self 0)
    rw [hid]
    decide
  have hrun₁ : ((run (step onePage) (start onePage 1 fun _ => 0)
      (session ++ opens 2 ++ [.thread 0 []])).map glance) =
        some ([.resetOffsets], [0], 0, some (2, 15)) := by
    decide +kernel
  have hrun₂ : ((run (step onePage) (start onePage 1 fun _ => 0)
      (session ++ [.openWr 2, .openRd, .thread 0 [], .thread 0 [], .openId, .openCount])).map
        glance) = some ([.receive false], [0], 0, some (2, 15)) := by
    decide +kernel
  obtain ⟨s, hs, hg⟩ := Option.map_eq_some_iff.mp hrun₁
  obtain ⟨t, ht, hg'⟩ := Option.map_eq_some_iff.mp hrun₂
  exact ⟨⟨s, .run (.start rfl) hs, hg, hparted hg⟩, ⟨t, .run (.start rfl) ht, hg', hparted hg'⟩⟩

end Hpcap.Reset
