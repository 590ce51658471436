import Mathlib.Init
import Mathlib.Tactic.TypeStar

namespace Hpcap.Loops

variable {σ ρ : Type*}

/-- The runs of a loop, a pass of which goes on from another state or leaves with a result. -/
inductive Returns (pass : σ → σ ⊕ ρ) : σ → ρ → Prop
  | done {s : σ} {r : ρ} : pass s = .inr r → Returns pass s r
  | next {s t : σ} {r : ρ} : pass s = .inl t → Returns pass t r → Returns pass s r

def Ends (pass : σ → σ ⊕ ρ) (s : σ) : Prop := ∃ r, Returns pass s r

variable {pass : σ → σ ⊕ ρ} {s t : σ} {r r' : ρ}

theorem returns_next (h : pass s = .inl t) : Returns pass s r ↔ Returns pass t r := by
  constructor
  · intro hr
    cases hr with
    | done h' =>
      rw [h] at h'
      cases h'
    | next h' hr =>
      rw [h] at h'
      exact Sum.inl.inj h' ▸ hr
  · exact .next h

theorem returns_done (h : pass s = .inr r) : Returns pass s r' ↔ r' = r := by
  constructor
  · intro hr
    cases hr with
    | done h' =>
      rw [h] at h'
      exact (Sum.inr.inj h').symm
    | next h' _ =>
      rw [h] at h'
      cases h'
  · rintro rfl
    exact .done h

theorem ends_next (h : pass s = .inl t) : Ends pass s ↔ Ends pass t :=
  exists_congr fun _ => returns_next h

theorem ends_done (h : pass s = .inr r) : Ends pass s := ⟨r, .done h⟩

theorem Returns.unique (h : Returns pass s r) (h' : Returns pass s r') : r = r' := by
  induction h with
  | done hpass => exact ((returns_done hpass).mp h').symm
  | next hpass _ ih => exact ih ((returns_next hpass).mp h')

/-- A loop never ends where each pass leads to another of the same states. -/
theorem not_ends (inv : σ → Prop) (hinv : ∀ s, inv s → ∃ t, pass s = .inl t ∧ inv t) (hs : inv s) :
    ¬ Ends pass s := by
  rintro ⟨r, hr⟩
  induction hr with
  | done hpass =>
    obtain ⟨t, ht, -⟩ := hinv _ hs
    rw [hpass] at ht
    cases ht
  | next hpass _ ih =>
    obtain ⟨t, ht, hinv⟩ := hinv _ hs
    rw [hpass] at ht
    exact ih (Sum.inl.inj ht ▸ hinv)

/-- A loop whose passes depend on more than the state ends, whatever they meet. -/
theorem acc_of_measure {step : σ → σ → Prop} (inv : σ → Prop) (size : σ → Nat)
    (hinv : ∀ s t, inv s → step s t → inv t ∧ size t < size s) (hs : inv s) :
    Acc (fun t s => step s t) s := by
  induction hsize : size s using Nat.strongRecOn generalizing s with
  | _ k ih =>
    refine Acc.intro s fun t hstep => ?_
    obtain ⟨ht, hlt⟩ := hinv s t hs hstep
    exact ih (size t) (hsize ▸ hlt) ht rfl

section forEach

variable {ι : Type*} {pass : ι → σ → Option (σ × Bool)} {is js : List ι} {s t : σ}

/-- A loop over a list, a pass of which may fault, or say that it is the last. -/
def forEach (pass : ι → σ → Option (σ × Bool)) : List ι → σ → Option (σ × Bool)
  | [], s => some (s, true)
  | i :: is, s => (pass i s).bind fun p => if p.2 then forEach pass is p.1 else some p

theorem forEach_append (is js : List ι) (s : σ) :
    forEach pass (is ++ js) s =
      (forEach pass is s).bind fun p => if p.2 then forEach pass js p.1 else some p := by
  induction is generalizing s with
  | nil => rfl
  | cons i is ih =>
    simp only [List.cons_append, forEach, Option.bind_assoc]
    refine Option.bind_congr fun p _ => ?_
    cases hp : p.2 with
    | true => simpa [hp] using ih p.1
    | false => simp [hp]

theorem forEach_singleton (i : ι) (s : σ) : forEach pass [i] s = pass i s := by
  rw [forEach]
  cases pass i s with
  | none => rfl
  | some p =>
    obtain ⟨t, go⟩ := p
    cases go <;> rfl

theorem forEach_range_succ (pass : Nat → σ → Option (σ × Bool)) (n : Nat) (s : σ) :
    forEach pass (List.range (n + 1)) s =
      (forEach pass (List.range n) s).bind fun p => if p.2 then pass n p.1 else some p := by
  rw [List.range_succ, forEach_append]
  simp only [forEach_singleton]

/-- A counted loop with an invariant, none of whose passes is the last. -/
theorem forEach_range {pass : Nat → σ → Option (σ × Bool)} {n : Nat} (inv : Nat → σ → Prop)
    (hpass : ∀ k < n, ∀ s, inv k s → ∃ t, pass k s = some (t, true) ∧ inv (k + 1) t)
    (h₀ : inv 0 s) : ∃ t, forEach pass (List.range n) s = some (t, true) ∧ inv n t := by
  induction n with
  | zero => exact ⟨s, rfl, h₀⟩
  | succ n ih =>
    obtain ⟨t, ht, hinv⟩ := ih fun k hk => hpass k (Nat.lt_succ_of_lt hk)
    obtain ⟨u, hu, hinv'⟩ := hpass n n.lt_succ_self t hinv
    refine ⟨u, ?_, hinv'⟩
    rw [forEach_range_succ, ht, Option.bind_some, if_pos rfl, hu]

/-- A counted loop that does not go on after some pass has the result of that pass. -/
theorem forEach_range_left {pass : Nat → σ → Option (σ × Bool)} {k n : Nat} (hk : k < n)
    (h : forEach pass (List.range k) s = some (t, true)) (hpass : ∀ u, pass k t ≠ some (u, true)) :
    forEach pass (List.range n) s = pass k t := by
  induction n with
  | zero => exact absurd hk (Nat.not_lt_zero k)
  | succ n ih =>
    rw [forEach_range_succ]
    obtain hlt | rfl := Nat.lt_succ_iff_lt_or_eq.mp hk
    · rw [ih hlt]
      cases hp : pass k t with
      | none => rfl
      | some p =>
        obtain ⟨u, go⟩ := p
        cases go with
        | false => rfl
        | true => exact absurd hp (hpass u)
    · rw [h, Option.bind_some, if_pos rfl]

/-- A loop faults when one of its passes does and none before is the last. -/
theorem forEach_fault (inv : σ → Prop)
    (hpass : ∀ i ∈ is, ∀ s p, inv s → pass i s = some p → p.2 = true ∧ inv p.1)
    {i : ι} (hi : i ∈ is) (hfault : ∀ s, inv s → pass i s = none) (hs : inv s) :
    forEach pass is s = none := by
  induction is generalizing s with
  | nil => exact absurd hi List.not_mem_nil
  | cons j is ih =>
    rw [forEach]
    cases hj : pass j s with
    | none => rfl
    | some p =>
      obtain ⟨hgo, hinv⟩ := hpass j List.mem_cons_self s p hs hj
      rw [Option.bind_some, if_pos hgo]
      obtain rfl | hi := List.mem_cons.mp hi
      · rw [hfault s hs] at hj
        cases hj
      · exact ih (fun k hk => hpass k (List.mem_cons_of_mem _ hk)) hi hinv

end forEach

end Hpcap.Loops
