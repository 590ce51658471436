import Hpcap.Listeners

namespace Hpcap.Registry

open Hpcap.Listeners

/-- The slot a new listener takes. -/
def joinSlot (t : Table) (id : Int) : Option Nat :=
  match findSlot (fun l => l.id = id ∨ l.id = listenerEmpty) t.listeners with
  | none => none
  | some (i, l) => if l.id = id then none else some i

/-- The read offset a new listener is given. -/
def joinOffset (t : Table) : Nat :=
  if t.listenersCount = 0 ∨ t.alreadyPopped = false then t.global.bufferRdOffset
  else t.global.bufferWrOffset

def ids (t : Table) : List Int := t.listeners.map Listener.id

/-- The number of slots in use. -/
def registered (t : Table) : Nat := (ids t).countP fun id => id ≠ listenerEmpty

/-- What `hpcap_add_listener` does: nothing, or it fills an empty slot. -/
theorem add_cases (t : Table) (id : Int) :
    joinSlot t id = none ∧ (hpcapAddListener t id).1 = t ∨
      ∃ j l, joinSlot t id = some j ∧ t.listeners[j]? = some l ∧ id ≠ listenerEmpty ∧
        l.id = listenerEmpty ∧ (hpcapAddListener t id).1 =
          { t with
            listeners := t.listeners.set j
              { l with
                id := id
                bufferWrOffset := t.global.bufferWrOffset
                bufferRdOffset := joinOffset t }
            listenersCount := t.listenersCount + 1 } := by
  rw [joinSlot, hpcapAddListener]
  cases hf : findSlot (fun l => l.id = id ∨ l.id = listenerEmpty) t.listeners with
  | none => exact .inl ⟨rfl, rfl⟩
  | some s =>
    obtain ⟨j, l⟩ := s
    obtain ⟨hl, he⟩ := findSlot_some hf
    dsimp only
    by_cases hsame : l.id = id
    · rw [if_pos hsame, if_pos hsame]
      exact .inl ⟨rfl, rfl⟩
    · rw [if_neg hsame, if_neg hsame]
      have hempty : l.id = listenerEmpty := (of_decide_eq_true he).resolve_left hsame
      exact .inr ⟨j, l, rfl, hl, fun hid => hsame (hempty.trans hid.symm), hempty, rfl⟩

/-- What `hpcap_del_listener` does: nothing, or it empties the slot of the handle. -/
theorem del_cases (t : Table) (id : Int) :
    hpcapGetListener t id = none ∧ id ∉ ids t ∧ hpcapDelListener t id = t ∨
      ∃ i l, hpcapGetListener t id = some (i, l) ∧ t.listeners[i]? = some l ∧ l.id = id ∧
        hpcapDelListener t id =
          { t with
            listeners := t.listeners.set i (hpcapRstListener l)
            listenersCount := t.listenersCount - 1 } := by
  rw [hpcapDelListener]
  cases hg : hpcapGetListener t id with
  | none =>
    refine .inl ⟨rfl, fun hmem => ?_, rfl⟩
    obtain ⟨l, hl, hid⟩ := List.mem_map.mp hmem
    have hsome := findSlot_isSome (p := fun l => l.id = id) hl (decide_eq_true hid)
    rw [← hpcapGetListener, hg] at hsome
    cases hsome
  | some s =>
    obtain ⟨i, l⟩ := s
    obtain ⟨hl, he⟩ := findSlot_some hg
    exact .inr ⟨i, l, rfl, hl, of_decide_eq_true he, rfl⟩

section Slots

variable {p : Listener → Bool} {ls : List Listener} {i j : Nat} {x y : Listener}

/-- The slot that is found is the first one. -/
theorem findSlot_eq_some : findSlot p ls = some (i, x) ↔
    ls[i]? = some x ∧ p x = true ∧ ∀ j < i, ∀ m ∈ ls[j]?, p m = false := by
  induction ls generalizing i with
  | nil => simp [findSlot]
  | cons l ls ih =>
    cases hl : p l with
    | true =>
      cases i with
      | zero =>
        simp only [findSlot, hl, if_true, List.getElem?_cons_zero, Option.some.injEq,
          Prod.mk.injEq, true_and]
        constructor
        · rintro rfl
          exact ⟨rfl, hl, fun j hj => absurd hj (Nat.not_lt_zero j)⟩
        · exact fun h => h.1
      | succ i =>
        refine iff_of_false (by simp [findSlot, hl]) fun h => ?_
        have hfirst := h.2.2 0 (Nat.succ_pos i) l rfl
        rw [hl] at hfirst
        cases hfirst
    | false =>
      cases i with
      | zero =>
        refine iff_of_false (by simp [findSlot, hl]) fun h => ?_
        have hx : l = x := Option.some.inj h.1
        rw [← hx, hl] at h
        cases h.2.1
      | succ i =>
        have hcons : findSlot p (l :: ls) = some (i + 1, x) ↔ findSlot p ls = some (i, x) := by
          simp [findSlot, hl, Option.map_eq_some_iff]
        rw [hcons, ih, List.getElem?_cons_succ]
        refine and_congr_right fun _ => and_congr_right fun _ => ⟨fun h j hj m hm => ?_,
          fun h j hj => h (j + 1) (Nat.succ_lt_succ hj)⟩
        cases j with
        | zero =>
          cases hm
          exact hl
        | succ j => exact h j (Nat.lt_of_succ_lt_succ hj) m hm

/-- A slot that is not looked for may change. -/
theorem findSlot_set_other (hi : ls[i]? = some x) (hx : p x = false) (hy : p y = false) :
    findSlot p (ls.set i y) = findSlot p ls := by
  induction ls generalizing i with
  | nil => rfl
  | cons l ls ih =>
    cases i with
    | zero =>
      cases hi
      simp [findSlot, hx, hy]
    | succ i =>
      simp only [List.set_cons_succ, findSlot]
      rw [ih hi]

theorem findSlot_set_self (h : findSlot p ls = some (j, x)) (hy : p y = true) :
    findSlot p (ls.set j y) = some (j, y) := by
  induction ls generalizing j with
  | nil => cases h
  | cons l ls ih =>
    by_cases hl : p l = true
    · simp only [findSlot, hl, if_true, Option.some.injEq, Prod.mk.injEq] at h
      obtain ⟨rfl, -⟩ := h
      simp [findSlot, hy]
    · simp only [findSlot, hl] at h
      obtain ⟨⟨k, z⟩, hk, he⟩ := Option.map_eq_some_iff.mp h
      cases he
      simp [findSlot, hl, ih hk]

theorem findSlot_map (f : Listener → Listener) (hf : ∀ l, p (f l) = p l) :
    findSlot p (ls.map f) = (findSlot p ls).map fun s => (s.1, f s.2) := by
  induction ls with
  | nil => rfl
  | cons l ls ih =>
    simp only [List.map_cons, findSlot, hf]
    split
    · rfl
    · simp [ih, Function.comp_def]

end Slots

theorem pushListener_id (isGlobal : Bool) (l : Listener) (count : Nat) :
    (hpcapPushListener isGlobal l count).1.id = l.id := by
  by_cases hb : l.bufsz = 0
  · rw [hpcapPushListener, if_pos hb]
  · rw [hpcapPushListener, if_neg hb]
    simp only [apply_ite Prod.fst, apply_ite Listener.id, ite_self]

theorem pushSlot_id (count : Nat) (l : Listener) : (pushSlot count l).1.id = l.id := by
  by_cases hid : l.id ≠ listenerEmpty
  · rw [pushSlot, if_pos hid, pushListener_id]
  · rw [pushSlot, if_neg hid]

theorem pushListener_rd (isGlobal : Bool) (l : Listener) (count : Nat) :
    (hpcapPushListener isGlobal l count).1.bufferRdOffset = l.bufferRdOffset := by
  by_cases hb : l.bufsz = 0
  · rw [hpcapPushListener, if_pos hb]
  · rw [hpcapPushListener, if_neg hb]
    simp only [apply_ite Prod.fst, apply_ite Listener.bufferRdOffset, ite_self]

theorem pushSlot_rd (count : Nat) (l : Listener) :
    (pushSlot count l).1.bufferRdOffset = l.bufferRdOffset := by
  by_cases hid : l.id ≠ listenerEmpty
  · rw [pushSlot, if_pos hid, pushListener_rd]
  · rw [pushSlot, if_neg hid]

@[simp] theorem ids_pushAll (t : Table) (count : Nat) :
    ids (hpcapPushAllListeners t count) = ids t := by
  change (t.listeners.map _).map Listener.id = _
  rw [List.map_map]
  exact List.map_congr_left fun l _ => pushSlot_id count l

@[simp] theorem ids_popGlobal (t : Table) : ids (hpcapPopGlobalListener t).1 = ids t := by
  unfold hpcapPopGlobalListener
  dsimp only
  split <;> rfl

theorem ids_getElem? {t : Table} {i : Nat} {l : Listener} (h : t.listeners[i]? = some l) :
    (ids t)[i]? = some l.id := by
  simp [ids, h]

/-- A slot is written, and the rest of the table is kept. -/
theorem ids_set {t u : Table} {i : Nat} {l : Listener}
    (h : u.listeners = t.listeners.set i l) : ids u = (ids t).set i l.id := by
  simp [ids, h, List.map_set]

theorem countP_set_ids {xs : List Int} {i : Nat} {x : Int} (h : xs[i]? = some x) (y : Int) :
    (xs.set i y).countP (fun id => id ≠ listenerEmpty) +
        (if x ≠ listenerEmpty then 1 else 0) =
      xs.countP (fun id => id ≠ listenerEmpty) + (if y ≠ listenerEmpty then 1 else 0) := by
  simpa only [decide_eq_true_eq] using Slots.countP_set (fun id => id ≠ listenerEmpty) h y

section Handles

variable {t : Table} {id other : Int} {j : Nat} {l : Listener}

/-- What another handle does leaves the listener of this one alone. -/
theorem getListener_add (hne : other ≠ id) (hid : id ≠ listenerEmpty) :
    hpcapGetListener (hpcapAddListener t other).1 id = hpcapGetListener t id := by
  obtain ⟨-, he⟩ | ⟨i, m, -, hm, -, hempty, he⟩ := add_cases t other
  · rw [he]
  · rw [he]
    exact findSlot_set_other hm (decide_eq_false fun h => hid (h.symm.trans hempty))
      (decide_eq_false hne)

theorem getListener_del (hne : other ≠ id) (hid : id ≠ listenerEmpty) :
    hpcapGetListener (hpcapDelListener t other) id = hpcapGetListener t id := by
  obtain ⟨-, -, he⟩ | ⟨i, m, -, hm, rfl, he⟩ := del_cases t other
  · rw [he]
  · rw [he]
    exact findSlot_set_other hm (decide_eq_false hne) (decide_eq_false (Ne.symm hid))

theorem getListener_pop (hne : other ≠ id) (count : Nat) :
    hpcapGetListener (popHandle t other count) id = hpcapGetListener t id := by
  simp only [popHandle]
  cases hg : hpcapGetListener t other with
  | none => rfl
  | some s =>
    obtain ⟨i, m⟩ := s
    obtain ⟨hm, hmid⟩ := findSlot_some hg
    rw [← of_decide_eq_true hmid] at hne
    exact findSlot_set_other hm (decide_eq_false hne) (decide_eq_false hne)

theorem getListener_popSelf (h : hpcapGetListener t id = some (j, l)) (count : Nat) :
    hpcapGetListener (popHandle t id count) id = some (j, (hpcapPopListener l count).1) := by
  obtain ⟨-, hl⟩ := findSlot_some h
  rw [popHandle, h]
  exact findSlot_set_self h hl

theorem getListener_popGlobal (id : Int) :
    hpcapGetListener (hpcapPopGlobalListener t).1 id = hpcapGetListener t id := by
  unfold hpcapPopGlobalListener
  dsimp only
  split <;> rfl

theorem getListener_pushAll (id : Int) (count : Nat) :
    hpcapGetListener (hpcapPushAllListeners t count) id =
      (hpcapGetListener t id).map fun s => (s.1, (pushSlot count s.2).1) :=
  findSlot_map _ fun l => by rw [pushSlot_id]

end Handles

theorem registered_add (t : Table) (id : Int) :
    registered (hpcapAddListener t id).1 =
      registered t + (if (joinSlot t id).isSome then 1 else 0) := by
  obtain ⟨hn, he⟩ | ⟨j, l, hj, hl, hid, hempty, he⟩ := add_cases t id
  · rw [he, hn]
    rfl
  · have hset := countP_set_ids (ids_getElem? hl) id
    rw [if_neg (not_not.mpr hempty), if_pos hid] at hset
    rw [registered, ids_set (congrArg Table.listeners he), hj]
    exact hset

theorem registered_del {t : Table} {id : Int} (hid : id ≠ listenerEmpty) :
    registered (hpcapDelListener t id) + (if (hpcapGetListener t id).isSome then 1 else 0) =
      registered t := by
  obtain ⟨hn, -, he⟩ | ⟨i, l, hg, hl, rfl, he⟩ := del_cases t id
  · rw [he, hn]
    rfl
  · have hset := countP_set_ids (ids_getElem? hl) listenerEmpty
    rw [if_pos hid, if_neg (not_not.mpr rfl)] at hset
    rw [registered, ids_set (congrArg Table.listeners he), hg]
    exact hset

/-- Slots in use have different ids. -/
def Distinct (xs : List Int) : Prop :=
  ∀ (i j : Nat) (id : Int), xs[i]? = some id → xs[j]? = some id → id ≠ listenerEmpty → i = j

structure Tallied (t : Table) : Prop where
  count : t.listenersCount = registered t
  distinct : Distinct (ids t)

theorem Tallied.congr {t u : Table} (h : Tallied t) (hids : ids u = ids t)
    (hcount : u.listenersCount = t.listenersCount) : Tallied u := by
  constructor
  · rw [hcount, registered, hids]
    exact h.count
  · rw [hids]
    exact h.distinct

theorem Distinct.set {xs : List Int} (h : Distinct xs) (k : Nat) {y : Int}
    (hy : y = listenerEmpty ∨ y ∉ xs) : Distinct (xs.set k y) := by
  have hk : ∀ (j : Nat) (id : Int), j ≠ k → (xs.set k y)[j]? = some id → (xs.set k y)[k]? = some id →
      id = listenerEmpty := by
    intro j id hj hjx hkx
    rw [List.getElem?_set_ne hj.symm] at hjx
    have hlt : k < xs.length := by
      have := (List.getElem?_eq_some_iff.mp hkx).1
      rwa [List.length_set] at this
    rw [List.getElem?_set_self hlt] at hkx
    cases hkx
    exact hy.resolve_right fun hn => hn (List.mem_of_getElem? hjx)
  intro i j id hi hj hid
  by_cases hik : i = k
  · by_cases hjk : j = k
    · rw [hik, hjk]
    · exact absurd (hk j id hjk hj (hik ▸ hi)) hid
  · by_cases hjk : j = k
    · exact absurd (hk i id hik hi (hjk ▸ hj)) hid
    · rw [List.getElem?_set_ne (Ne.symm hik)] at hi
      rw [List.getElem?_set_ne (Ne.symm hjk)] at hj
      exact h i j id hi hj hid

namespace Tallied

variable {t : Table} {id : Int}

theorem add (h : Tallied t) (hid : id ∉ ids t) :
    Tallied (hpcapAddListener t id).1 ∧ ∀ x ∈ ids (hpcapAddListener t id).1, x = id ∨ x ∈ ids t := by
  have hreg := registered_add t id
  obtain ⟨-, he⟩ | ⟨j, l, hj, hl, -, -, he⟩ := add_cases t id
  · rw [he]
    exact ⟨h, fun x hx => .inr hx⟩
  · have hids := ids_set (congrArg Table.listeners he)
    refine ⟨⟨?_, ?_⟩, fun x hx => ?_⟩
    · rw [hreg, hj, he]
      exact congrArg (· + 1) h.count
    · rw [hids]
      exact h.distinct.set j (.inr hid)
    · rw [hids] at hx
      exact (List.mem_or_eq_of_mem_set hx).symm

/-- No other handle loses its slot. -/
theorem del (h : Tallied t) (hid : id ≠ listenerEmpty ∨ id ∉ ids t) :
    Tallied (hpcapDelListener t id) ∧
      ∀ x ∈ ids (hpcapDelListener t id), x ≠ listenerEmpty → x ≠ id ∧ x ∈ ids t := by
  obtain ⟨-, hno, he⟩ | ⟨i, l, hg, hl, hlid, he⟩ := del_cases t id
  · rw [he]
    exact ⟨h, fun x hx _ => ⟨fun hxid => hno (hxid ▸ hx), hx⟩⟩
  · have hat : (ids t)[i]? = some id := hlid ▸ ids_getElem? hl
    have hne : id ≠ listenerEmpty := hid.resolve_right fun hn => hn (List.mem_of_getElem? hat)
    have hreg := registered_del (t := t) hne
    have hids : ids (hpcapDelListener t id) = (ids t).set i listenerEmpty :=
      ids_set (congrArg Table.listeners he)
    refine ⟨⟨?_, ?_⟩, fun x hx hxne => ?_⟩
    · rw [hg] at hreg
      have hc := h.count
      rw [he] at hreg ⊢
      change t.listenersCount - 1 = _
      simp only [Option.isSome_some, if_true] at hreg
      omega
    · rw [hids]
      exact h.distinct.set i (.inl rfl)
    · rw [hids] at hx
      have hmem := (List.mem_or_eq_of_mem_set hx).resolve_right hxne
      refine ⟨?_, hmem⟩
      rintro rfl
      -- the handle had no second slot
      obtain ⟨k, hk⟩ := List.mem_iff_getElem?.mp hx
      by_cases hki : k = i
      · subst hki
        have hlt : k < (ids t).length := (List.getElem?_eq_some_iff.mp hat).1
        rw [List.getElem?_set_self hlt] at hk
        exact hxne (Option.some.inj hk).symm
      · rw [List.getElem?_set_ne (Ne.symm hki)] at hk
        exact hki (h.distinct k i x hk hat hxne)

end Tallied

theorem tallied_init (bufsize : Nat) : Tallied (hpcapInitListeners bufsize) := by
  have hids : ids (hpcapInitListeners bufsize) = List.replicate maxListeners listenerEmpty := rfl
  refine ⟨rfl, fun i j id hi _ hid => ?_⟩
  rw [hids] at hi
  exact absurd (List.eq_of_mem_replicate (List.mem_of_getElem? hi)) hid

end Hpcap.Registry
