import Hpcap.Registry
import Hpcap.Transition

namespace Hpcap.Joining

open Hpcap.Reservation Hpcap.SharedLog Hpcap.Listeners Hpcap.Registry Hpcap.Transition

/-- How far `hpcap_push_all_listeners` is: the slot whose turn it is, once the global
listener is pushed. -/
inductive PushPc
  | start
  | slots (i : Nat)
  | done

structure State where
  table : Table
  pc : PushPc

inductive Step
  | push
  | add (id : Int)

/-- One step of the push. -/
def pushStep (count : Nat) (s : State) : Option State :=
  match s.pc with
  | .start =>
    let g := if count > 0 then hpcapPushListener true s.table.global count else (s.table.global, [])
    some ⟨{ s.table with global := g.1, log := s.table.log ++ g.2 }, .slots 0⟩
  | .slots i =>
    match s.table.listeners[i]? with
    | some l =>
      let p := pushSlot count l
      some ⟨{ s.table with
        listeners := s.table.listeners.set i p.1
        log := s.table.log ++ p.2 }, .slots (i + 1)⟩
    | none => some { s with pc := .done }
  | .done => none

/-- The push of one thread, between the calls of `hpcap_add_listener` of others. -/
def step (count : Nat) (s : State) : Step → Option State
  | .push => pushStep count s
  | .add id => some { s with table := (hpcapAddListener s.table id).1 }

/-- No listener joins between the push of the global listener and the turn of its slot. -/
def Timely (count : Nat) (s : State) : Step → Prop
  | .push => True
  | .add id =>
    match s.pc with
    | .slots i => count = 0 ∨ ∀ j ∈ joinSlot s.table id, j < i
    | _ => True

instance (count : Nat) (s : State) : DecidablePred (Timely count s) := fun a => by
  unfold Timely
  split
  · infer_instance
  · split <;> infer_instance

/-- Offsets within the buffer. -/
structure Placed (n : Nat) (l : Listener) : Prop where
  bufsz : l.bufsz = n
  rd : l.bufferRdOffset < n
  wr : l.bufferWrOffset < n

theorem Placed.availBytes {n : Nat} {l : Listener} (h : Placed n l) (hn : n ≤ 2 ^ 63) :
    availBytes l = n - 1 - gap n l.bufferRdOffset l.bufferWrOffset := by
  have hlt := gap_lt h.rd h.wr
  rw [Listeners.availBytes, usedBytes, distance_eq_gap, h.bufsz]
  have hroom : sub64 n (gap n l.bufferRdOffset l.bufferWrOffset) =
      n - gap n l.bufferRdOffset l.bufferWrOffset := sub64_of_le hlt.le (by omega)
  rw [hroom, sub64_of_le (by omega) (by omega)]
  omega

/-- A push that fits moves the write offset by its count. -/
theorem Placed.push {n count : Nat} {l : Listener} (h : Placed n l) (hn : n ≤ 2 ^ 63)
    (hc : count ≤ Listeners.availBytes l) {isGlobal : Bool}
    (hid : isGlobal = true ∨ l.id ≠ listenerEmpty) :
    hpcapPushListener isGlobal l count =
      ({ l with bufferWrOffset := (l.bufferWrOffset + count) % n }, []) := by
  have hwr := h.wr
  have hle := h.availBytes hn
  have ha : add64 l.bufferWrOffset count = l.bufferWrOffset + count := add64_small (by omega)
  rw [hpcapPushListener, if_neg (by rw [h.bufsz]; omega)]
  simp only [if_neg (Nat.not_lt.mpr hc)]
  rw [if_pos hid, h.bufsz, ha]

theorem run_slots (count : Nat) (t : Table) (ls ms : List Listener) (log : List Message) :
    run (step count) ⟨{ t with listeners := ls ++ ms, log := log }, .slots ls.length⟩
        (List.replicate (ms.length + 1) .push) =
      some ⟨{ t with
        listeners := ls ++ ms.map fun l => (pushSlot count l).1
        log := log ++ ms.flatMap fun l => (pushSlot count l).2 }, .done⟩ := by
  induction ms generalizing ls log with
  | nil => simp [run, step, pushStep]
  | cons m ms ih =>
    have h := ih (ls ++ [(pushSlot count m).1]) (log ++ (pushSlot count m).2)
    simp only [List.append_assoc, List.singleton_append, List.length_append,
      List.length_singleton] at h
    simpa [run, step, pushStep, List.replicate_succ] using h

/-- The push that nobody joins during is `hpcap_push_all_listeners`. -/
theorem run_push (count : Nat) (t : Table) :
    run (step count) ⟨t, .start⟩ (List.replicate (t.listeners.length + 2) .push) =
      some ⟨hpcapPushAllListeners t count, .done⟩ := by
  let g := if count > 0 then hpcapPushListener true t.global count else (t.global, [])
  exact run_slots count { t with global := g.1 } [] t.listeners (t.log ++ g.2)

/-- Every registered listener stands where the global one does, and `count` bytes fit. -/
structure InStep (n count : Nat) (t : Table) : Prop where
  size_le : n ≤ 2 ^ 63
  global : Placed n t.global
  room : count ≤ Listeners.availBytes t.global
  bufsz : ∀ l ∈ t.listeners, l.bufsz = n
  slots : ∀ l ∈ t.listeners, l.id ≠ listenerEmpty →
    Placed n l ∧ l.bufferWrOffset = t.global.bufferWrOffset ∧ count ≤ Listeners.availBytes l

/-- A listener that the push has not come to yet. -/
structure Pending (n count w : Nat) (l : Listener) : Prop where
  placed : Placed n l
  room : count ≤ Listeners.availBytes l
  reaches : (l.bufferWrOffset + count) % n = w

/-- What holds of the listener of slot `j`. -/
def SlotAt (n count : Nat) (pc : PushPc) (w j : Nat) (l : Listener) : Prop :=
  match pc with
  | .start => Pending n count ((w + count) % n) l ∧ l.bufferWrOffset = w
  | .slots i => if j < i then l.bufferWrOffset = w else Pending n count w l
  | .done => l.bufferWrOffset = w

structure Inv (n count : Nat) (s : State) : Prop where
  size_le : n ≤ 2 ^ 63
  global : Placed n s.table.global
  room : s.pc = .start → count ≤ Listeners.availBytes s.table.global
  bufsz : ∀ l ∈ s.table.listeners, l.bufsz = n
  slots : ∀ j l, s.table.listeners[j]? = some l → l.id ≠ listenerEmpty →
    SlotAt n count s.pc s.table.global.bufferWrOffset j l

theorem InStep.init {n count : Nat} (hn : n ≤ 2 ^ 63) (hc : count < n) :
    InStep n count (hpcapInitListeners n) where
  size_le := hn
  global := ⟨rfl, by change 0 < n; omega, by change 0 < n; omega⟩
  room := by
    have hp : Placed n (hpcapInitListeners n).global :=
      ⟨rfl, by change 0 < n; omega, by change 0 < n; omega⟩
    rw [hp.availBytes hn]
    change count ≤ n - 1 - gap n 0 0
    rw [gap_self]
    omega
  bufsz := fun l hl => by rw [List.eq_of_mem_replicate hl]; rfl
  slots := fun l hl hid => by
    rw [List.eq_of_mem_replicate hl] at hid
    exact absurd rfl hid

theorem InStep.inv {n count : Nat} {t : Table} (h : InStep n count t) :
    Inv n count ⟨t, .start⟩ where
  size_le := h.size_le
  global := h.global
  room := fun _ => h.room
  bufsz := h.bufsz
  slots := fun j l hl hid => by
    obtain ⟨hp, hw, hc⟩ := h.slots l (List.mem_of_getElem? hl) hid
    exact ⟨⟨hp, hc, by rw [hw]⟩, hw⟩

namespace Inv

variable {n count : Nat} {t : Table}

theorem pos {s : State} (h : Inv n count s) : 0 < n := by
  have hr := h.global.rd
  omega

theorem push_global (h : Inv n count ⟨t, .start⟩) :
    ∃ u, pushStep count ⟨t, .start⟩ = some u ∧ Inv n count u := by
  refine ⟨_, rfl, ?_⟩
  have hroom := h.room rfl
  have hg : (if count > 0 then hpcapPushListener true t.global count else (t.global, [])).1 =
      { t.global with bufferWrOffset := (t.global.bufferWrOffset + count) % n } := by
    split
    · rw [h.global.push h.size_le hroom (.inl rfl)]
    · rename_i h0
      rw [Nat.eq_zero_of_not_pos h0, Nat.add_zero, Nat.mod_eq_of_lt h.global.wr]
  refine ⟨h.size_le, ?_, nofun, h.bufsz, ?_⟩
  · dsimp only
    rw [hg]
    exact ⟨h.global.bufsz, h.global.rd, Nat.mod_lt _ h.pos⟩
  · intro j l hl hid
    obtain ⟨hp, -⟩ := h.slots j l hl hid
    dsimp only
    rw [hg]
    exact hp

theorem push_slot {i : Nat} {l : Listener} (h : Inv n count ⟨t, .slots i⟩)
    (hl : t.listeners[i]? = some l) :
    Inv n count ⟨{ t with
      listeners := t.listeners.set i (pushSlot count l).1
      log := t.log ++ (pushSlot count l).2 }, .slots (i + 1)⟩ := by
  have hi := (List.getElem?_eq_some_iff.mp hl).1
  have hpushed : l.id ≠ listenerEmpty →
      (pushSlot count l).1 = { l with bufferWrOffset := t.global.bufferWrOffset } := by
    intro hid
    have hp := h.slots i l hl hid
    rw [SlotAt, if_neg (Nat.lt_irrefl i)] at hp
    rw [pushSlot, if_pos hid, hp.placed.push h.size_le hp.room (.inr hid), hp.reaches]
  have hempty : l.id = listenerEmpty → (pushSlot count l).1 = l := by
    intro hid
    rw [pushSlot, if_neg (not_not.mpr hid)]
  refine ⟨h.size_le, h.global, by simp, ?_, ?_⟩
  · intro m hm
    obtain hm | rfl := List.mem_or_eq_of_mem_set hm
    · exact h.bufsz m hm
    · have hb := h.bufsz l (List.mem_of_getElem? hl)
      by_cases hid : l.id = listenerEmpty
      · rw [hempty hid, hb]
      · rw [hpushed hid]
        exact hb
  · intro j m hm hid
    rw [SlotAt]
    by_cases hj : i = j
    · subst hj
      rw [List.getElem?_set_self hi] at hm
      cases hm
      rw [if_pos (Nat.lt_succ_self i)]
      by_cases he : l.id = listenerEmpty
      · rw [hempty he] at hid
        exact absurd he hid
      · rw [hpushed he]
    · rw [List.getElem?_set_ne hj] at hm
      have hs := h.slots j m hm hid
      rw [SlotAt] at hs
      by_cases hlt : j < i
      · rw [if_pos hlt] at hs
        rw [if_pos (by omega)]
        exact hs
      · rw [if_neg hlt] at hs
        rw [if_neg (by omega)]
        exact hs

theorem push_end {i : Nat} (h : Inv n count ⟨t, .slots i⟩) (hl : t.listeners[i]? = none) :
    Inv n count ⟨t, .done⟩ := by
  refine ⟨h.size_le, h.global, nofun, h.bufsz, ?_⟩
  intro j l hj hid
  have hlen := List.getElem?_eq_none_iff.mp hl
  have hlt : j < t.listeners.length := (List.getElem?_eq_some_iff.mp hj).1
  have hs := h.slots j l hj hid
  rw [SlotAt, if_pos (by omega)] at hs
  exact hs

theorem push {s u : State} (h : Inv n count s) (hs : pushStep count s = some u) :
    Inv n count u := by
  obtain ⟨t, pc⟩ := s
  cases pc with
  | start =>
    obtain ⟨v, hv, hinv⟩ := h.push_global
    cases hv.symm.trans hs
    exact hinv
  | slots i =>
    cases hl : t.listeners[i]? with
    | none =>
      simp only [pushStep, hl] at hs
      cases hs
      exact h.push_end hl
    | some l =>
      simp only [pushStep, hl] at hs
      cases hs
      exact h.push_slot hl
  | done => cases hs

/-- A listener that joins in time is told of just what the global listener is. -/
theorem joined {pc : PushPc} (h : Inv n count ⟨t, pc⟩) {id : Int}
    (ht : Timely count ⟨t, pc⟩ (.add id)) {j : Nat} {l : Listener}
    (hj : joinSlot t id = some j) (hl : t.listeners[j]? = some l) :
    SlotAt n count pc t.global.bufferWrOffset j
      { l with
        id := id
        bufferWrOffset := t.global.bufferWrOffset
        bufferRdOffset := joinOffset t } := by
  let m : Listener :=
    { l with id := id, bufferWrOffset := t.global.bufferWrOffset, bufferRdOffset := joinOffset t }
  have hplaced : Placed n m := by
    refine ⟨h.bufsz l (List.mem_of_getElem? hl), ?_, h.global.wr⟩
    change joinOffset t < n
    simp only [joinOffset]
    split
    · exact h.global.rd
    · exact h.global.wr
  have hroom : count ≤ Listeners.availBytes t.global → count ≤ Listeners.availBytes m := by
    intro hc
    rw [hplaced.availBytes h.size_le]
    rw [h.global.availBytes h.size_le] at hc
    change count ≤ n - 1 - gap n (joinOffset t) t.global.bufferWrOffset
    simp only [joinOffset]
    split
    · exact hc
    · rw [gap_self]
      omega
  cases pc with
  | start => exact ⟨⟨hplaced, hroom (h.room rfl), rfl⟩, rfl⟩
  | slots i =>
    rw [SlotAt]
    obtain rfl | hbefore := ht
    · split
      · rfl
      · exact ⟨hplaced, Nat.zero_le _, Nat.mod_eq_of_lt h.global.wr⟩
    · rw [if_pos (hbefore j hj)]
  | done => rfl

theorem add {s : State} (h : Inv n count s) {id : Int} (ht : Timely count s (.add id)) :
    Inv n count { s with table := (hpcapAddListener s.table id).1 } := by
  obtain ⟨t, pc⟩ := s
  obtain ⟨-, he⟩ | ⟨j, l, hj, hl, -, -, he⟩ := add_cases t id
  · rw [he]
    exact h
  have hlt := (List.getElem?_eq_some_iff.mp hl).1
  rw [he]
  refine ⟨h.size_le, h.global, h.room, ?_, ?_⟩
  · intro m hm
    obtain hm | rfl := List.mem_or_eq_of_mem_set hm
    · exact h.bufsz m hm
    · exact h.bufsz l (List.mem_of_getElem? hl)
  · intro k m hm hmid
    by_cases hk : j = k
    · subst hk
      rw [List.getElem?_set_self hlt] at hm
      cases hm
      exact h.joined ht hj hl
    · rw [List.getElem?_set_ne hk] at hm
      exact h.slots k m hm hmid

theorem step {s u : State} {a : Step} (h : Inv n count s) (ha : Timely count s a)
    (hs : step count s a = some u) : Inv n count u := by
  cases a with
  | push => exact h.push hs
  | add id =>
    cases hs
    exact h.add ha

end Inv

/-- Listeners that join in time end up where the global listener does. -/
theorem pushed_listeners_agree (n count : Nat) (t : Table) (h : InStep n count t) (s : State)
    (hr : Reach (step count) (Timely count) (fun u => u = ⟨t, .start⟩) s) (hd : s.pc = .done) :
    ∀ l ∈ s.table.listeners, l.id ≠ listenerEmpty →
      l.bufferWrOffset = s.table.global.bufferWrOffset := by
  have hinv : Inv n count s := by
    refine hr.invariant (Inv n count) ?_ fun _ _ _ hu ha hs => hu.step ha hs
    rintro u rfl
    exact h.inv
  intro l hl hid
  obtain ⟨j, hj⟩ := List.mem_iff_getElem?.mp hl
  have hs := hinv.slots j l hj hid
  rw [hd] at hs
  exact hs

/-- One listener joins before the push, and one once its slot is past. -/
def joiningInTime : List Step := [.add 1, .push, .push, .push, .add 2, .push, .push, .push]

theorem pushed_listeners_agree_joining :
    ∃ s, run (step 100) ⟨hpcapInitListeners 4096, .start⟩ joiningInTime = some s ∧ s.pc = .done ∧
      (s.table.listeners.filter fun l => l.id ≠ listenerEmpty).length = 2 ∧
      ∀ l ∈ s.table.listeners, l.id ≠ listenerEmpty →
        l.bufferWrOffset = s.table.global.bufferWrOffset := by
  have h : InStep 4096 100 (hpcapInitListeners 4096) := .init (by decide) (by decide)
  have hs : run (guard (step 100) (Timely 100)) ⟨hpcapInitListeners 4096, .start⟩ joiningInTime =
      run (step 100) ⟨hpcapInitListeners 4096, .start⟩ joiningInTime := rfl
  refine ⟨_, rfl, rfl, rfl, ?_⟩
  exact pushed_listeners_agree 4096 100 _ h _ (.run_guard (.start rfl) hs) rfl

/-- A listener that joins once the global listener is pushed gets the bytes a second time. -/
theorem late_listener_counts_twice :
    InStep 4096 100 (hpcapInitListeners 4096) ∧
      ∃ s, run (step 100) ⟨hpcapInitListeners 4096, .start⟩
          [.push, .add 1, .push, .push, .push, .push, .push] = some s ∧ s.pc = .done ∧
        ∃ l ∈ s.table.listeners, l.id ≠ listenerEmpty ∧ l.bufferWrOffset = 200 ∧
          s.table.global.bufferWrOffset = 100 := by
  refine ⟨.init (by decide) (by decide), ?_⟩
  exact ⟨_, rfl, rfl, _, List.mem_cons_self, by decide, rfl, rfl⟩

end Hpcap.Joining
