import Hpcap.OpenFile

namespace Hpcap.AddListener

open Hpcap.Listeners Hpcap.Registry Hpcap.OpenFile

abbrev ealready : Int := 114

/-- One empty slot has the listener now, and nothing else is another in the array. -/
def Registers (t u : Table) (id : Int) : Prop :=
  ∃ (i : Nat) (l m : Listener), t.listeners[i]? = some l ∧ l.id = listenerEmpty ∧ m.id = id ∧
    u.listeners = t.listeners.set i m

def HasSlot (t : Table) : Prop := listenerEmpty ∈ ids t

instance (t : Table) : Decidable (HasSlot t) := inferInstanceAs (Decidable (_ ∈ _))

/-- What `hpcap_add_listener` is to do to the table. -/
structure ChangesRight (t : Table) (id : Int) : Prop where
  registers : id ∉ ids t → HasSlot t → Registers t (hpcapAddListener t id).1 id
  again : id ∈ ids t → (hpcapAddListener t id).1 = t
  full : id ∉ ids t → ¬ HasSlot t → (hpcapAddListener t id).1 = t

/-- What it is to do, and to return. -/
structure AddsRight (t : Table) (id : Int) : Prop extends ChangesRight t id where
  ok : id ∉ ids t → HasSlot t → (hpcapAddListener t id).2 = 0
  already : id ∈ ids t → (hpcapAddListener t id).2 = -ealready
  users : id ∉ ids t → ¬ HasSlot t → (hpcapAddListener t id).2 = -eusers

/-- Some slot has the id, and no slot before it is empty. -/
def FoundFirst (t : Table) (id : Int) : Prop :=
  ∃ i : Nat, (ids t)[i]? = some id ∧ ∀ j < i, (ids t)[j]? ≠ some listenerEmpty

variable {t : Table} {id : Int}

theorem add_result (t : Table) (id : Int) : (hpcapAddListener t id).2 = -eusers := by
  rw [hpcapAddListener]
  split
  · rfl
  · split
    · rfl
    · rfl

theorem stops_none (h : stops t id = none) : id ∉ ids t ∧ ¬ HasSlot t := by
  have hno : ∀ l ∈ t.listeners, ¬ (l.id = id ∨ l.id = listenerEmpty) := by
    intro l hl hp
    have hsome := findSlot_isSome (p := fun l => l.id = id ∨ l.id = listenerEmpty) hl
      (decide_eq_true hp)
    rw [← stops, h] at hsome
    cases hsome
  refine ⟨fun hid => ?_, fun hslot => ?_⟩
  · obtain ⟨l, hl, he⟩ := List.mem_map.mp hid
    exact hno l hl (.inl he)
  · obtain ⟨l, hl, he⟩ := List.mem_map.mp hslot
    exact hno l hl (.inr he)

/-- The slots before the one the loop stops at have other ids, and none of them is empty. -/
theorem stops_before {i j : Nat} {l : Listener} (h : stops t id = some (i, l)) (hj : j < i) :
    (ids t)[j]? ≠ some id ∧ (ids t)[j]? ≠ some listenerEmpty := by
  have hfirst := (findSlot_eq_some.mp h).2.2 j hj
  have hno : ∀ x, (ids t)[j]? = some x → ¬ (x = id ∨ x = listenerEmpty) := by
    intro x hx
    obtain ⟨m, hm, rfl⟩ := Option.map_eq_some_iff.mp (List.getElem?_map.symm.trans hx)
    exact of_decide_eq_false (hfirst m hm)
  exact ⟨fun h => hno id h (.inl rfl), fun h => hno listenerEmpty h (.inr rfl)⟩

theorem stops_at {i : Nat} {l : Listener} (h : stops t id = some (i, l)) :
    (ids t)[i]? = some l.id :=
  ids_getElem? (findSlot_some h).1

theorem changes_none (h : stops t id = none) : ChangesRight t id := by
  obtain ⟨hid, hslot⟩ := stops_none h
  obtain ⟨hadd, -⟩ := add_none h
  exact ⟨fun _ hs => absurd hs hslot, fun hin => absurd hin hid, fun _ _ => hadd⟩

/-- The loop comes to the id before it comes to an empty slot. -/
theorem changes_same {i : Nat} {l : Listener} (h : stops t id = some (i, l)) (hl : l.id = id) :
    ChangesRight t id ∧ FoundFirst t id := by
  obtain ⟨hadd, -⟩ := add_same h hl
  have hat : (ids t)[i]? = some id := hl ▸ stops_at h
  have hin : id ∈ ids t := List.mem_of_getElem? hat
  exact ⟨⟨fun hno => absurd hin hno, fun _ => hadd, fun hno => absurd hin hno⟩,
    i, hat, fun j hj => (stops_before h hj).2⟩

/-- The loop comes to an empty slot first, and does not look for the id in the others. -/
theorem changes_new {i : Nat} {l : Listener} (h : stops t id = some (i, l)) (hl : l.id ≠ id) :
    (ChangesRight t id ↔ id ∉ ids t) ∧ ¬ FoundFirst t id := by
  obtain ⟨hempty, m, hm, -, hadd, -⟩ := add_new h hl
  have hat : (ids t)[i]? = some listenerEmpty := hempty ▸ stops_at h
  refine ⟨⟨fun hc hin => ?_, fun hno => ?_⟩, ?_⟩
  · have hcount := congrArg Table.listenersCount (hadd.symm.trans (hc.again hin))
    change t.listenersCount + 1 = t.listenersCount at hcount
    omega
  · refine ⟨fun _ _ => ⟨i, l, m, (findSlot_some h).1, hempty, hm, by rw [hadd]⟩,
      fun hin => absurd hin hno, fun _ hs => absurd (List.mem_of_getElem? hat) hs⟩
  · rintro ⟨k, hk, hfirst⟩
    obtain hlt | rfl | hgt := Nat.lt_trichotomy k i
    · exact (stops_before h hlt).1 hk
    · exact hl (hempty.trans (Option.some.inj (hat.symm.trans hk)))
    · exact hfirst i hgt hat

theorem changesRight_iff (t : Table) (id : Int) :
    ChangesRight t id ↔ id ∉ ids t ∨ FoundFirst t id := by
  cases h : stops t id with
  | none => exact iff_of_true (changes_none h) (.inl (stops_none h).1)
  | some slot =>
    obtain ⟨i, l⟩ := slot
    by_cases hl : l.id = id
    · obtain ⟨hc, hf⟩ := changes_same h hl
      exact iff_of_true hc (.inr hf)
    · obtain ⟨hiff, hf⟩ := changes_new h hl
      rw [hiff]
      exact (or_iff_left hf).symm

/-- The result is right when the table is full without the id, and the table is when no empty
slot comes before the id. -/
theorem add_listener_iff (t : Table) (id : Int) :
    (AddsRight t id ↔ id ∉ ids t ∧ ¬ HasSlot t) ∧
      (ChangesRight t id ↔ id ∉ ids t ∨ FoundFirst t id) := by
  refine ⟨⟨fun h => ?_, fun h => ?_⟩, changesRight_iff t id⟩
  · have hno : id ∉ ids t := by
      intro hin
      have hret := h.already hin
      rw [add_result] at hret
      exact absurd hret (by decide)
    refine ⟨hno, fun hslot => ?_⟩
    have hret := h.ok hno hslot
    rw [add_result] at hret
    exact absurd hret (by decide)
  · exact ⟨(changesRight_iff t id).mpr (.inl h.1), fun _ hs => absurd hs h.2,
      fun hin => absurd hin h.1, fun _ _ => add_result t id⟩

/-- The first listener of a device is registered, with `-EUSERS`. -/
theorem first_listener_refused :
    ¬ ∀ (t : Table) (id : Int), id ≠ listenerEmpty → AddsRight t id := by
  intro h
  have hret := (h (hpcapInitListeners 4096) 1 (by decide)).ok (by decide +kernel) (by decide +kernel)
  rw [add_result] at hret
  exact absurd hret (by decide)

end Hpcap.AddListener
