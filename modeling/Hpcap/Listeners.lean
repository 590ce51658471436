import Hpcap.Reservation
import Hpcap.SharedLog
import Hpcap.Slots

namespace Hpcap.Listeners

open Hpcap.Reservation Hpcap.SharedLog Hpcap.Slots

/-- `struct hpcap_listener`. Offsets and sizes are `size_t`. -/
structure Listener where
  id : Int
  kill : Bool
  bufferWrOffset : Nat
  bufferRdOffset : Nat
  bufsz : Nat
  deriving DecidableEq

/-- The errors that are logged, with the values they print. -/
inductive Message
  | emptyBuffer (id : Int)
  | erroneousPush (count avail rd wr : Nat)
  | pop (rd wr used count : Nat)
  | popGlobal (rd wr used count : Nat)
  deriving DecidableEq

/-- `struct hpcap_buffer_listeners`, and what was logged. -/
structure Table where
  listeners : List Listener
  global : Listener
  listenersCount : Int
  alreadyPopped : Bool
  log : List Message

abbrev maxListeners : Nat := 4

/-- `HPCAP_LISTENER_EMPTY`. -/
abbrev listenerEmpty : Int := 0

abbrev eusers : Int := 87

def distance (primero segundo size : Nat) : Nat :=
  if primero ≤ segundo then segundo - primero else size - primero + segundo

def usedBytes (l : Listener) : Nat := distance l.bufferRdOffset l.bufferWrOffset l.bufsz

def availBytes (l : Listener) : Nat := sub64 (sub64 l.bufsz (usedBytes l)) 1

def hpcapRstListener (l : Listener) : Listener :=
  { l with id := listenerEmpty, kill := false, bufferWrOffset := 0, bufferRdOffset := 0 }

def hpcapInitListeners (bufsize : Nat) : Table where
  listeners := List.replicate maxListeners (hpcapRstListener ⟨0, false, 0, 0, bufsize⟩)
  global := hpcapRstListener ⟨0, false, 0, 0, bufsize⟩
  listenersCount := 0
  alreadyPopped := false
  log := []

/-- `hpcap_push_listener` on the listener found under the index. -/
def hpcapPushListener (isGlobal : Bool) (l : Listener) (count : Nat) : Listener × List Message :=
  if l.bufsz = 0 then (l, [.emptyBuffer l.id])
  else
    let tooMuch := availBytes l < count
    let msgs := if tooMuch then
      [.erroneousPush count (availBytes l) l.bufferRdOffset l.bufferWrOffset] else []
    let count := if tooMuch then sub64 (availBytes l) 1 else count
    if isGlobal ∨ l.id ≠ listenerEmpty then
      ({ l with bufferWrOffset := add64 l.bufferWrOffset count % l.bufsz }, msgs)
    else (l, msgs)

/-- What the loop of `hpcap_push_all_listeners` does with one of the slots. -/
def pushSlot (count : Nat) (l : Listener) : Listener × List Message :=
  if l.id ≠ listenerEmpty then hpcapPushListener false l count else (l, [])

def hpcapPushAllListeners (t : Table) (count : Nat) : Table :=
  let g := if count > 0 then hpcapPushListener true t.global count else (t.global, [])
  { t with
    global := g.1
    listeners := t.listeners.map fun l => (pushSlot count l).1
    log := t.log ++ g.2 ++ t.listeners.flatMap fun l => (pushSlot count l).2 }

def hpcapPopListener (l : Listener) (count : Nat) : Listener × List Message :=
  let tooMuch := usedBytes l < count
  let msgs := if tooMuch then [.pop l.bufferRdOffset l.bufferWrOffset (usedBytes l) count] else []
  let count := if tooMuch then usedBytes l else count
  ({ l with bufferRdOffset := (l.bufferRdOffset + count) % l.bufsz }, msgs)

/-- One pass of the loop of `hpcap_pop_global_listener`. The distance goes through
an `int` before it is compared with the `u64` minimum. -/
def nearer (global : Listener) (minDist : Nat) (l : Listener) : Nat :=
  if l.id ≠ listenerEmpty then
    let dist := signExtend
      (distance global.bufferRdOffset l.bufferRdOffset global.bufsz % 2 ^ 32)
    if dist < minDist then dist else minDist
  else minDist

def hpcapPopGlobalListener (t : Table) : Table × Nat :=
  let minDist := t.listeners.foldl (nearer t.global) (t.global.bufsz + 1)
  if minDist ≤ t.global.bufsz ∧ 0 < minDist then
    let msgs := if usedBytes t.global < minDist then
      [.popGlobal t.global.bufferRdOffset t.global.bufferWrOffset (usedBytes t.global) minDist]
      else []
    ({ t with
      global := { t.global with
        bufferRdOffset := (t.global.bufferRdOffset + minDist) % t.global.bufsz }
      log := t.log ++ msgs }, minDist)
  else (t, 0)

/-- The first listener that satisfies `p`, and its slot. -/
def findSlot (p : Listener → Bool) : List Listener → Option (Nat × Listener)
  | [] => none
  | l :: ls => if p l then some (0, l) else (findSlot p ls).map fun s => (s.1 + 1, s.2)

def hpcapGetListener (t : Table) (id : Int) : Option (Nat × Listener) :=
  findSlot (fun l => l.id = id) t.listeners

/-- `hpcap_add_listener`. Its result is `-EUSERS`, whatever happened. -/
def hpcapAddListener (t : Table) (id : Int) : Table × Int :=
  match findSlot (fun l => l.id = id ∨ l.id = listenerEmpty) t.listeners with
  | none => (t, -eusers)
  | some (i, l) =>
    if l.id = id then (t, -eusers)
    else
      let rd := if t.listenersCount = 0 ∨ t.alreadyPopped = false then t.global.bufferRdOffset
        else t.global.bufferWrOffset
      ({ t with
        listeners := t.listeners.set i
          { l with id := id, bufferWrOffset := t.global.bufferWrOffset, bufferRdOffset := rd }
        listenersCount := t.listenersCount + 1 }, -eusers)

def hpcapDelListener (t : Table) (id : Int) : Table :=
  match hpcapGetListener t id with
  | none => t
  | some (i, l) =>
    { t with
      listeners := t.listeners.set i (hpcapRstListener l)
      listenersCount := t.listenersCount - 1 }

/-- `hpcap_pop_listener` on the listener of a handle. -/
def popHandle (t : Table) (id : Int) (count : Nat) : Table :=
  match hpcapGetListener t id with
  | none => t
  | some (i, l) =>
    { t with
      listeners := t.listeners.set i (hpcapPopListener l count).1
      log := t.log ++ (hpcapPopListener l count).2 }

def hpcapGlobalListenerResetOffset (t : Table) : Table :=
  { t with
    global := { t.global with bufferWrOffset := 0, bufferRdOffset := 0 }
    alreadyPopped := false }

@[simp] theorem popGlobal_count (t : Table) :
    (hpcapPopGlobalListener t).1.listenersCount = t.listenersCount := by
  unfold hpcapPopGlobalListener
  dsimp only
  split <;> rfl

@[simp] theorem pushAll_count (t : Table) (count : Nat) :
    (hpcapPushAllListeners t count).listenersCount = t.listenersCount := rfl

@[simp] theorem popHandle_count (t : Table) (id : Int) (count : Nat) :
    (popHandle t id count).listenersCount = t.listenersCount := by
  simp only [popHandle]
  split <;> rfl

theorem findSlot_some {p : Listener → Bool} {ls : List Listener} {i : Nat} {l : Listener}
    (h : findSlot p ls = some (i, l)) : ls[i]? = some l ∧ p l = true := by
  induction ls generalizing i with
  | nil => cases h
  | cons x xs ih =>
    simp only [findSlot] at h
    split at h
    · cases h
      exact ⟨rfl, by assumption⟩
    · obtain ⟨⟨j, l'⟩, hj, he⟩ := Option.map_eq_some_iff.mp h
      cases he
      exact ih hj

theorem findSlot_isSome {p : Listener → Bool} {ls : List Listener} {l : Listener} (h : l ∈ ls)
    (hp : p l = true) : (findSlot p ls).isSome := by
  induction ls with
  | nil => cases h
  | cons x xs ih =>
    simp only [findSlot]
    split
    · rfl
    · rename_i hx
      rw [Option.isSome_map]
      cases h with
      | head => exact absurd hp hx
      | tail _ h => exact ih h

theorem distance_eq_gap (a b n : Nat) : distance a b n = gap n a b := rfl

section Offsets

variable {n r w count : Nat} {l : Listener}

/-- The listener stands at `r` in a stream written up to `w`. -/
structure At (n r w : Nat) (l : Listener) : Prop where
  bufsz : l.bufsz = n
  rd : l.bufferRdOffset = r % n
  wr : l.bufferWrOffset = w % n

theorem At.usedBytes (h : At n r w l) (hrw : r ≤ w) (hn : w < r + n) : usedBytes l = w - r := by
  rw [Listeners.usedBytes, h.bufsz, h.rd, h.wr, distance_eq_gap, gap_mod hrw hn]

theorem At.availBytes (h : At n r w l) (hrw : r ≤ w) (hn : w < r + n) (hmax : n ≤ 2 ^ 63) :
    availBytes l = r + n - 1 - w := by
  have hroom : sub64 n (w - r) = n - (w - r) := sub64_of_le (by omega) (by omega)
  rw [Listeners.availBytes, h.usedBytes hrw hn, h.bufsz, hroom, sub64_of_le (by omega) (by omega)]
  omega

theorem At.push (h : At n r w l) (hrw : r ≤ w) (hn : w < r + n) (hmax : n ≤ 2 ^ 63)
    (hc : count ≤ r + n - 1 - w) (isGlobal : Bool) (hid : isGlobal = true ∨ l.id ≠ listenerEmpty) :
    hpcapPushListener isGlobal l count = ({ l with bufferWrOffset := (w + count) % n }, []) := by
  have hlt := Nat.mod_lt w (show 0 < n by omega)
  have ha : add64 (w % n) count = w % n + count := add64_small (by omega)
  have hno : ¬ Listeners.availBytes l < count := by
    rw [h.availBytes hrw hn hmax]
    omega
  rw [hpcapPushListener, if_neg (by rw [h.bufsz]; omega)]
  simp only [if_neg hno]
  rw [if_pos hid, h.wr, h.bufsz, ha, Nat.mod_add_mod]

/-- A push of too much is cut to less than the room there is, unless there is none. -/
theorem At.push_clamped (h : At n r w l) (hrw : r ≤ w) (hn : w < r + n) (hmax : n ≤ 2 ^ 63)
    (hc : 0 < Listeners.availBytes l ∨ count = 0) (isGlobal : Bool)
    (hid : isGlobal = true ∨ l.id ≠ listenerEmpty) :
    ∃ k ≤ r + n - 1 - w,
      (hpcapPushListener isGlobal l count).1 = { l with bufferWrOffset := (w + k) % n } := by
  have ha := h.availBytes hrw hn hmax
  by_cases hmuch : Listeners.availBytes l < count
  · have hk : sub64 (Listeners.availBytes l) 1 = Listeners.availBytes l - 1 :=
      sub64_of_le (by omega) (by omega)
    refine ⟨Listeners.availBytes l - 1, by omega, ?_⟩
    have hlt := Nat.mod_lt w (show 0 < n by omega)
    have hadd : add64 (w % n) (Listeners.availBytes l - 1) =
        w % n + (Listeners.availBytes l - 1) := add64_small (by omega)
    rw [hpcapPushListener, if_neg (by rw [h.bufsz]; omega)]
    simp only [if_pos hmuch]
    rw [if_pos hid, hk, h.wr, h.bufsz, hadd, Nat.mod_add_mod]
  · have hcount : count ≤ r + n - 1 - w := by omega
    exact ⟨count, hcount, by rw [h.push hrw hn hmax hcount isGlobal hid]⟩

/-- A pop stops at the end of what is written. -/
theorem At.pop (h : At n r w l) (hrw : r ≤ w) (hn : w < r + n) :
    At n (r + min count (w - r)) w (hpcapPopListener l count).1 := by
  have hcount : (if Listeners.usedBytes l < count then Listeners.usedBytes l else count) =
      min count (w - r) := by
    rw [h.usedBytes hrw hn]
    split <;> omega
  refine ⟨h.bufsz, ?_, h.wr⟩
  change (l.bufferRdOffset + _) % l.bufsz = _
  rw [hcount, h.rd, h.bufsz, Nat.mod_add_mod]

end Offsets

/-- Slot and reader: a free slot has no reader, and any other stands where it does. -/
def SlotOf (n w : Nat) (l : Listener) : Option Nat → Prop
  | none => l.id = listenerEmpty ∧ At n 0 0 l
  | some r => l.id ≠ listenerEmpty ∧ At n r w l

/-- The table is the stream's, and nothing worse was logged than pops of too many bytes. -/
structure Refines {n : Nat} (t : Table) (L : Log n) : Prop where
  size_le : n ≤ 2 ^ 32
  global : At n L.floor L.write t.global
  slots : List.Forall₂ (SlotOf n L.write) t.listeners L.readers
  count : t.listenersCount = L.readers.countP Option.isSome
  quiet : ∀ m ∈ t.log, ∃ rd wr used count, m = .pop rd wr used count

namespace Refines

variable {n : Nat} {t : Table} {L : Log n}

theorem usedBytes_global (h : Refines t L) : usedBytes t.global = L.write - L.floor :=
  h.global.usedBytes L.floor_le_write L.fits

theorem availBytes_global (h : Refines t L) : availBytes t.global = L.room :=
  h.global.availBytes L.floor_le_write L.fits (h.size_le.trans (by norm_num))

/-- The distance up to the counter is what was reserved since the last push. -/
theorem newBytes (h : Refines t L) (hd : n ∣ 2 ^ 32) {reserved : Nat} (hlo : L.write ≤ reserved)
    (hhi : reserved < L.write + n) :
    distance t.global.bufferWrOffset (newOffset n (reserved % 2 ^ 32)) n = reserved - L.write := by
  have hoff : newOffset n (reserved % 2 ^ 32) = reserved % n := signExtend_modEq (.inl hd)
  rw [h.global.wr, hoff, distance_eq_gap, gap_mod hlo hhi]

theorem fresh {n : Nat} (hn : 0 < n) (hmax : n ≤ 2 ^ 32) :
    Refines (hpcapInitListeners n) (Log.fresh n maxListeners hn) where
  size_le := hmax
  global := ⟨rfl, (Nat.zero_mod n).symm, (Nat.zero_mod n).symm⟩
  slots := by
    have ha : At n 0 0 (hpcapRstListener ⟨0, false, 0, 0, n⟩) :=
      ⟨rfl, (Nat.zero_mod n).symm, (Nat.zero_mod n).symm⟩
    have hs : SlotOf n 0 (hpcapRstListener ⟨0, false, 0, 0, n⟩) none := ⟨rfl, ha⟩
    exact .cons hs (.cons hs (.cons hs (.cons hs .nil)))
  count := rfl
  quiet := by simp [hpcapInitListeners]

theorem no_reader (h : Refines t L) (hc : t.listenersCount = 0) : ∀ r, some r ∉ L.readers := by
  intro r hr
  have hp : L.readers.countP Option.isSome = 0 := by
    have := h.count
    omega
  exact List.countP_eq_zero.mp hp _ hr rfl

theorem restart (h : Refines t L) (hc : t.listenersCount = 0) :
    Refines (hpcapGlobalListenerResetOffset t) (L.restart (h.no_reader hc)) where
  size_le := h.size_le
  global := ⟨h.global.bufsz, (Nat.zero_mod n).symm, (Nat.zero_mod n).symm⟩
  slots := by
    refine forall₂_imp_mem h.slots fun l o ho hs => ?_
    cases o with
    | none => exact hs
    | some r => exact absurd ho (h.no_reader hc r)
  count := h.count
  quiet := h.quiet

/-- Everybody sees the new bytes, and nobody is clamped. -/
theorem push (h : Refines t L) {count : Nat} (hc : count ≤ L.room) (hpos : 0 < count) :
    Refines (hpcapPushAllListeners t count) (L.publish count hc) := by
  have hg := h.global.push L.floor_le_write L.fits (h.size_le.trans (by norm_num)) (by unfold Log.room at hc; omega)
    true (.inl rfl)
  have hslot : ∀ l o, SlotOf n L.write l o → o ∈ L.readers →
      SlotOf n (L.write + count) (pushSlot count l).1 o ∧ (pushSlot count l).2 = [] := by
    intro l o hs ho
    cases o with
    | none =>
      obtain ⟨hid, ha⟩ := hs
      rw [pushSlot, if_neg (not_not.mpr hid)]
      exact ⟨⟨hid, ha⟩, rfl⟩
    | some r =>
      obtain ⟨hid, ha⟩ := hs
      have hf := L.floor_le r ho
      rw [pushSlot, if_pos hid, ha.push (L.le_write r ho) (L.reader_fits ho)
        (h.size_le.trans (by norm_num)) (by unfold Log.room at hc; omega) false (.inr hid)]
      exact ⟨⟨hid, ha.bufsz, ha.rd, rfl⟩, rfl⟩
  have hglobal : (hpcapPushAllListeners t count).global =
      { t.global with bufferWrOffset := (L.write + count) % n } := by
    rw [hpcapPushAllListeners]
    simp only [if_pos hpos, hg]
  constructor
  · exact h.size_le
  · rw [hglobal]
    exact ⟨h.global.bufsz, h.global.rd, rfl⟩
  · change List.Forall₂ _ (t.listeners.map _) L.readers
    rw [List.forall₂_map_left_iff]
    exact forall₂_imp_mem h.slots fun l o ho hs => (hslot l o hs ho).1
  · exact h.count
  · have hnil : (t.listeners.flatMap fun l => (pushSlot count l).2) = [] := by
      refine List.flatMap_eq_nil_iff.mpr fun l hl => ?_
      obtain ⟨o, ho, hs⟩ := forall₂_mem h.slots hl
      exact (hslot l o hs ho).2
    have hlog : (hpcapPushAllListeners t count).log = t.log := by
      rw [hpcapPushAllListeners]
      simp only [if_pos hpos, hg, hnil, List.append_nil]
    rw [hlog]
    exact h.quiet

theorem slot (h : Refines t L) {i : Nat} {l : Listener} (hl : t.listeners[i]? = some l) :
    ∃ o, L.readers[i]? = some o ∧ SlotOf n L.write l o :=
  forall₂_getElem? h.slots hl

/-- A registered handle is a reader of the stream. -/
theorem reader (h : Refines t L) {i : Nat} {l : Listener} (hl : t.listeners[i]? = some l)
    (hid : l.id ≠ listenerEmpty) :
    ∃ r, L.readers[i]? = some (some r) ∧ some r ∈ L.readers ∧ At n r L.write l := by
  obtain ⟨o, ho, hs⟩ := h.slot hl
  cases o with
  | none => exact absurd hs.1 hid
  | some r => exact ⟨r, ho, List.mem_of_getElem? ho, hs.2⟩

theorem lookup (h : Refines t L) {id : Int} (hid : id ≠ listenerEmpty) {i : Nat} {l : Listener}
    (hf : hpcapGetListener t id = some (i, l)) :
    l.id ≠ listenerEmpty ∧ ∃ r, L.readers[i]? = some (some r) ∧ some r ∈ L.readers ∧
      At n r L.write l := by
  obtain ⟨hl, he⟩ := findSlot_some hf
  have hne : l.id ≠ listenerEmpty := by
    rw [of_decide_eq_true he]
    exact hid
  exact ⟨hne, h.reader hl hne⟩

/-- Whatever count a registered handle pops, its reader goes on, up to the end at most. -/
theorem pop (h : Refines t L) {id : Int} (hid : id ≠ listenerEmpty) (count : Nat) :
    ∃ L' : Log n, Refines (popHandle t id count) L' ∧ L'.write = L.write ∧
      L'.floor = L.floor := by
  simp only [popHandle]
  cases hf : hpcapGetListener t id with
  | none => exact ⟨L, h, rfl, rfl⟩
  | some s =>
    obtain ⟨i, l⟩ := s
    obtain ⟨hne, r, hr, hmem, hat⟩ := h.lookup hid hf
    have hf := L.floor_le r hmem
    have hw := L.le_write r hmem
    refine ⟨L.place i (r + min count (L.write - r)) (by omega) (by omega), ?_, rfl, rfl⟩
    refine ⟨h.size_le, h.global, ?_, ?_, ?_⟩
    · have hs : SlotOf n L.write (hpcapPopListener l count).1
          (some (r + min count (L.write - r))) := ⟨hne, hat.pop hw (L.reader_fits hmem)⟩
      exact forall₂_set h.slots hs i
    · have hcount := countP_set Option.isSome hr (some (r + min count (L.write - r)))
      simp only [Option.isSome_some, if_true, Nat.add_right_cancel_iff] at hcount
      change t.listenersCount = ((L.readers.set i _).countP _ : Nat)
      rw [hcount]
      exact h.count
    · intro m hm
      rcases List.mem_append.mp hm with hm | hm
      · exact h.quiet m hm
      · change m ∈ if _ then _ else _ at hm
        split at hm
        · exact ⟨_, _, _, _, List.mem_singleton.mp hm⟩
        · cases hm

/-- A new handle joins at the floor or at the end. -/
theorem add (h : Refines t L) {id : Int} (hid : id ≠ listenerEmpty) :
    ∃ L' : Log n, Refines (hpcapAddListener t id).1 L' ∧ L'.write = L.write ∧
      L'.floor = L.floor := by
  simp only [hpcapAddListener]
  cases hf : findSlot (fun l => l.id = id ∨ l.id = listenerEmpty) t.listeners with
  | none => exact ⟨L, h, rfl, rfl⟩
  | some s =>
    obtain ⟨i, l⟩ := s
    obtain ⟨hl, he⟩ := findSlot_some hf
    dsimp only
    by_cases hsame : l.id = id
    · rw [if_pos hsame]
      exact ⟨L, h, rfl, rfl⟩
    · rw [if_neg hsame]
      have hempty : l.id = listenerEmpty := (of_decide_eq_true he).resolve_left hsame
      obtain ⟨o, ho, hs⟩ := h.slot hl
      have hnone : o = none := by
        cases o with
        | none => rfl
        | some r => exact absurd hempty hs.1
      subst hnone
      have hcount : ∀ r, (t.listenersCount + 1 : Int) =
          ((L.readers.set i (some r)).countP Option.isSome : Nat) := by
        intro r
        have hmore := countP_set Option.isSome ho (some r)
        simp only [Option.isSome_some, Option.isSome_none, if_true, Bool.false_eq_true, if_false,
          Nat.add_zero] at hmore
        rw [hmore, h.count]
        rfl
      by_cases hc : t.listenersCount = 0 ∨ t.alreadyPopped = false
      · refine ⟨L.place i L.floor le_rfl L.floor_le_write, ?_, rfl, rfl⟩
        simp only [if_pos hc]
        refine ⟨h.size_le, h.global, ?_, hcount _, h.quiet⟩
        have hs' : SlotOf n L.write
            { l with
              id := id
              bufferWrOffset := t.global.bufferWrOffset
              bufferRdOffset := t.global.bufferRdOffset } (some L.floor) :=
          ⟨hid, hs.2.bufsz, h.global.rd, h.global.wr⟩
        exact forall₂_set h.slots hs' i
      · refine ⟨L.place i L.write L.floor_le_write le_rfl, ?_, rfl, rfl⟩
        simp only [if_neg hc]
        refine ⟨h.size_le, h.global, ?_, hcount _, h.quiet⟩
        have hs' : SlotOf n L.write
            { l with
              id := id
              bufferWrOffset := t.global.bufferWrOffset
              bufferRdOffset := t.global.bufferWrOffset } (some L.write) :=
          ⟨hid, hs.2.bufsz, h.global.wr, h.global.wr⟩
        exact forall₂_set h.slots hs' i

theorem del (h : Refines t L) {id : Int} (hid : id ≠ listenerEmpty) :
    ∃ L' : Log n, Refines (hpcapDelListener t id) L' ∧ L'.write = L.write ∧
      L'.floor = L.floor := by
  simp only [hpcapDelListener]
  cases hf : hpcapGetListener t id with
  | none => exact ⟨L, h, rfl, rfl⟩
  | some s =>
    obtain ⟨i, l⟩ := s
    obtain ⟨hne, r, hr, hmem, hat⟩ := h.lookup hid hf
    refine ⟨L.leave i, ?_, rfl, rfl⟩
    refine ⟨h.size_le, h.global, ?_, ?_, h.quiet⟩
    · have hs : SlotOf n L.write (hpcapRstListener l) none :=
        ⟨rfl, hat.bufsz, (Nat.zero_mod n).symm, (Nat.zero_mod n).symm⟩
      exact forall₂_set h.slots hs i
    · have hc := h.count
      have hn := countP_set Option.isSome hr none
      simp only [Option.isSome_some, Option.isSome_none, if_true, Bool.false_eq_true, if_false,
        Nat.add_zero] at hn
      change t.listenersCount - 1 = ((L.readers.set i none).countP _ : Nat)
      omega

end Refines

section Slowest

variable {g : Listener} {l : Listener} {m : Nat}

/-- The minimum so far, and that it is not past a listener it was compared with. A
distance from 2 GiB on is a negative `int` and never the minimum. -/
theorem nearer_spec (hg : g.bufsz ≤ 2 ^ 32)
    (hd : l.id ≠ listenerEmpty → distance g.bufferRdOffset l.bufferRdOffset g.bufsz < 2 ^ 32)
    (hm : m = g.bufsz + 1 ∨ m < 2 ^ 31) :
    nearer g m l ≤ m ∧ (nearer g m l = g.bufsz + 1 ∨ nearer g m l < 2 ^ 31) ∧
      (l.id ≠ listenerEmpty →
        nearer g m l ≤ distance g.bufferRdOffset l.bufferRdOffset g.bufsz ∨
          2 ^ 31 ≤ distance g.bufferRdOffset l.bufferRdOffset g.bufsz) := by
  by_cases hid : l.id ≠ listenerEmpty
  · have hd := hd hid
    rw [nearer, if_pos hid]
    dsimp only
    generalize distance g.bufferRdOffset l.bufferRdOffset g.bufsz = d at hd ⊢
    by_cases hs : d < 2 ^ 31
    · rw [signExtend_small hs]
      split <;> omega
    · rw [signExtend_large (by omega) hd, if_neg (by omega)]
      exact ⟨le_rfl, hm, fun _ => .inr (by omega)⟩
  · rw [nearer, if_neg hid]
    exact ⟨le_rfl, hm, fun h => absurd h hid⟩

theorem foldl_nearer (hg : g.bufsz ≤ 2 ^ 32) {ls : List Listener}
    (hd : ∀ l ∈ ls, l.id ≠ listenerEmpty →
      distance g.bufferRdOffset l.bufferRdOffset g.bufsz < 2 ^ 32)
    (hm : m = g.bufsz + 1 ∨ m < 2 ^ 31) :
    ls.foldl (nearer g) m ≤ m ∧
      (ls.foldl (nearer g) m = g.bufsz + 1 ∨ ls.foldl (nearer g) m < 2 ^ 31) ∧
      (ls.foldl (nearer g) m = m ∨ ∃ l ∈ ls, l.id ≠ listenerEmpty) ∧
      ∀ l ∈ ls, l.id ≠ listenerEmpty →
        ls.foldl (nearer g) m ≤ distance g.bufferRdOffset l.bufferRdOffset g.bufsz ∨
          2 ^ 31 ≤ distance g.bufferRdOffset l.bufferRdOffset g.bufsz := by
  induction ls generalizing m with
  | nil => exact ⟨le_rfl, hm, .inl rfl, fun l hl => by cases hl⟩
  | cons x xs ih =>
    obtain ⟨hle, hx, hdx⟩ := nearer_spec hg (hd x (by simp)) hm
    obtain ⟨hle', hxs, hex, hdxs⟩ := ih (fun l hl => hd l (by simp [hl])) hx
    refine ⟨hle'.trans hle, hxs, ?_, fun l hl hid => ?_⟩
    · by_cases hid : x.id ≠ listenerEmpty
      · exact .inr ⟨x, by simp, hid⟩
      · have hsame : nearer g m x = m := if_neg hid
        rw [List.foldl_cons, hsame]
        rw [hsame] at hex
        exact hex.imp_right fun ⟨l, hl, h⟩ => ⟨l, by simp [hl], h⟩
    · cases hl with
      | head => exact (hdx hid).imp_left hle'.trans
      | tail _ hl => exact hdxs l hl hid

end Slowest

/-- The floor rises to the slowest reader, and no further. -/
theorem Refines.popGlobal {n : Nat} {t : Table} {L : Log n} (h : Refines t L) :
    ∃ L' : Log n, Refines (hpcapPopGlobalListener t).1 L' ∧ L'.write = L.write ∧
      L'.floor = L.floor + (hpcapPopGlobalListener t).2 := by
  have hb := h.global.bufsz
  have hsize := h.size_le
  have hdist : ∀ l r, some r ∈ L.readers → At n r L.write l →
      distance t.global.bufferRdOffset l.bufferRdOffset t.global.bufsz = r - L.floor := by
    intro l r hr hl
    rw [h.global.rd, hl.rd, hb, distance_eq_gap, L.gap_floor_reader hr]
  have hd : ∀ l ∈ t.listeners, l.id ≠ listenerEmpty →
      distance t.global.bufferRdOffset l.bufferRdOffset t.global.bufsz < 2 ^ 32 := by
    intro l hl hid
    obtain ⟨i, hi⟩ := List.mem_iff_getElem?.mp hl
    obtain ⟨r, -, hr, hat⟩ := h.reader hi hid
    have hw := L.le_write r hr
    have hf := L.fits
    rw [hdist l r hr hat]
    omega
  obtain ⟨-, hm, hsome, hmin⟩ := foldl_nearer (by rw [hb]; exact hsize) hd (.inl rfl)
  unfold hpcapPopGlobalListener
  dsimp only
  generalize t.listeners.foldl (nearer t.global) (t.global.bufsz + 1) = m at hm hsome hmin ⊢
  split
  · rename_i hpos
    replace hsome := hsome.resolve_left (by omega)
    obtain ⟨l, hl, hid⟩ := hsome
    have hslow : ∀ r, some r ∈ L.readers → L.floor + m ≤ r := by
      intro r hr
      obtain ⟨l, hl, hs⟩ := forall₂_mem h.slots.flip hr
      have hf := L.floor_le r hr
      have := hmin l hl hs.1
      rw [hdist l r hr hs.2] at this
      omega
    obtain ⟨i, hi⟩ := List.mem_iff_getElem?.mp hl
    obtain ⟨r, -, hr, -⟩ := h.reader hi hid
    have hw : L.floor + m ≤ L.write := (hslow r hr).trans (L.le_write r hr)
    have hquiet : ¬ usedBytes t.global < m := by
      rw [h.usedBytes_global]
      omega
    refine ⟨L.reclaim (L.floor + m) (Nat.le_add_right _ _) hw hslow, ?_, rfl, rfl⟩
    refine ⟨hsize, ⟨hb, ?_, h.global.wr⟩, h.slots, h.count, ?_⟩
    · change (t.global.bufferRdOffset + m) % t.global.bufsz = (L.floor + m) % n
      rw [h.global.rd, hb, Nat.mod_add_mod]
    · rw [if_neg hquiet, List.append_nil]
      exact h.quiet
  · exact ⟨L, h, rfl, rfl⟩

end Hpcap.Listeners
