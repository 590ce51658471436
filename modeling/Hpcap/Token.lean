import Hpcap.RxRing
import Mathlib.Data.List.Nodup

namespace Hpcap.Token

open Hpcap.Transition Hpcap.RxRing Function

/-- The statements of `hpcap_advance_read_descriptors`, each with one access to what is
shared. -/
inductive Stmt
  | testOwn
  | testPrevious
  | clearPrevious
  | take
  | testFree
  | setQueued
  | setNextToClean
  | setNextToUse
  | release
  | testLast
  | give
  | drop
  | finish
  deriving DecidableEq

/-- Where a consumer is: outside the function, or in front of a statement. -/
inductive Pc
  | outside
  | inside (stmt : Stmt) (lastReadIdx : Nat)
  deriving DecidableEq

/-- Which driver: with `HPCAP_40G` the tail moves by multiples of 8. -/
inductive Variant
  | ixgbe
  | i40e

def nextToUse : Variant → Nat → Nat
  | .ixgbe, lastReadIdx => lastReadIdx
  | .i40e, lastReadIdx => lastReadIdx / 8 * 8

structure State where
  canFree : Nat → Bool
  freedLastRxd : Nat → Bool
  queued : Nat
  nextToClean : Nat
  nextToUse : Nat
  tail : Nat
  rxdIdx : Nat → Nat
  pcs : Nat → Pc

def State.goto (s : State) (i : Nat) (stmt : Stmt) (last : Nat) : State :=
  { s with pcs := update s.pcs i (.inside stmt last) }

def execute (r : Ring) (v : Variant) (s : State) (i last : Nat) : Stmt → State
  | .testOwn => s.goto i (if s.canFree i then .testFree else .testPrevious) last
  | .testPrevious =>
    s.goto i (if s.freedLastRxd (r.previousConsumer i) then .clearPrevious else .testFree) last
  | .clearPrevious =>
    { s.goto i .take last with
      freedLastRxd := update s.freedLastRxd (r.previousConsumer i) false }
  | .take => { s.goto i .testFree last with canFree := update s.canFree i true }
  | .testFree => s.goto i (if s.canFree i then .setQueued else .finish) last
  | .setQueued => { s.goto i .setNextToClean last with queued := (last + 1) % r.size }
  | .setNextToClean => { s.goto i .setNextToUse last with nextToClean := (last + 1) % r.size }
  | .setNextToUse => { s.goto i .release last with nextToUse := nextToUse v last }
  | .release => { s.goto i .testLast last with tail := s.nextToUse }
  | .testLast => s.goto i (if r.isLastDescriptorOfConsumer last i then .give else .finish) last
  | .give => { s.goto i .drop last with freedLastRxd := update s.freedLastRxd i true }
  | .drop => { s.goto i .finish last with canFree := update s.canFree i false }
  | .finish =>
    { s with
      rxdIdx := update s.rxdIdx i (r.rxdCalcNext last i)
      pcs := update s.pcs i .outside }

/-- A consumer calls the function, or executes its next statement. -/
inductive Step
  | call (i lastReadIdx : Nat)
  | next (i : Nat)

def step (r : Ring) (v : Variant) (s : State) : Step → Option State
  | .call i last =>
    if i < r.consumers ∧ s.pcs i = .outside then some (s.goto i .testOwn last) else none
  | .next i =>
    match s.pcs i with
    | .inside stmt last => if i < r.consumers then some (execute r v s i last stmt) else none
    | .outside => none

/-- The flags as `hpcap_launch_poll_threads` leaves them. -/
def init (r : Ring) (firstRxd tail : Nat) : State where
  canFree := fun c => c = r.rxdConsumerOf firstRxd
  freedLastRxd := fun _ => false
  queued := 0
  nextToClean := firstRxd
  nextToUse := tail
  tail := tail
  rxdIdx := fun c => if c = r.rxdConsumerOf firstRxd then firstRxd else c * r.descrPerConsumer
  pcs := fun _ => .outside

/-- The consumer is in front of one of the given statements. -/
def Before (s : State) (i : Nat) (stmts : List Stmt) : Prop :=
  ∃ stmt ∈ stmts, ∃ last, s.pcs i = .inside stmt last

/-- From the test of `can_free`, when it is to succeed, to the end of `ring_rxd_release`. -/
def InRelease (s : State) (i : Nat) : Prop :=
  Before s i [.setQueued, .setNextToClean, .setNextToUse, .release] ∨
    Before s i [.testFree] ∧ s.canFree i = true

/-- Where the right to move the tail is: with a consumer, or left behind by one. -/
inductive Place
  | held (i : Nat)
  | left (i : Nat)
  deriving DecidableEq

def Place.index : Place → Nat
  | .held i => i
  | .left i => i

/-- The consumer has it, whatever the flags still say. -/
def Holds (canFree : Bool) : Pc → Prop
  | .inside .take _ => True
  | .inside .drop _ => False
  | _ => canFree = true

/-- What a consumer knows in front of a statement. -/
def Knows (canFree previous : Bool) : Pc → Prop
  | .inside .testPrevious _ => canFree = false
  | .inside .clearPrevious _ => canFree = false ∧ previous = true
  | .inside .setQueued _ | .inside .setNextToClean _ | .inside .setNextToUse _
  | .inside .release _ | .inside .testLast _ | .inside .give _ => canFree = true
  | _ => True

structure Inv (r : Ring) (s : State) (place : Place) : Prop where
  index : place.index < r.consumers
  held : ∀ j < r.consumers, Holds (s.canFree j) (s.pcs j) ↔ place = .held j
  left : ∀ j < r.consumers, s.freedLastRxd j = true ↔ place = .left j
  knows : ∀ j < r.consumers,
    Knows (s.canFree j) (s.freedLastRxd (r.previousConsumer j)) (s.pcs j)

variable {r : Ring} {v : Variant} {s t : State} {place place' : Place} {i last : Nat}

theorem previousConsumer_lt (r : Ring) (i : Nat) : r.previousConsumer i < r.consumers :=
  Nat.mod_lt _ r.consumers_pos

theorem previousConsumer_inj {j : Nat} (hi : i < r.consumers) (hj : j < r.consumers)
    (h : r.previousConsumer i = r.previousConsumer j) : i = j := by
  have hmod : ∀ k, r.previousConsumer k = r.previousConsumer k % r.consumers :=
    fun k => (Nat.mod_eq_of_lt (previousConsumer_lt r k)).symm
  have hi' := (r.previousConsumer_eq_iff hi).mp (hmod i)
  have hj' := (r.previousConsumer_eq_iff hj).mp (hmod j)
  rw [hi', hj', h]

namespace Inv

/-- A step of consumer `i` that moves the right, if at all, from or to it. -/
theorem change (h : Inv r s place) (hpcs : ∀ j ≠ i, t.pcs j = s.pcs j)
    (hfree : ∀ j ≠ i, t.canFree j = s.canFree j) (hindex : place'.index < r.consumers)
    (hself : Holds (t.canFree i) (t.pcs i) ↔ place' = .held i)
    (hothers : ∀ j ≠ i, place = .held j ↔ place' = .held j)
    (hleft : ∀ j < r.consumers, t.freedLastRxd j = true ↔ place' = .left j)
    (hprevious : ∀ j < r.consumers, j ≠ i → s.freedLastRxd (r.previousConsumer j) = true →
      Knows (s.canFree j) true (s.pcs j) → t.freedLastRxd (r.previousConsumer j) = true)
    (hknows : Knows (t.canFree i) (t.freedLastRxd (r.previousConsumer i)) (t.pcs i)) :
    Inv r t place' := by
  refine ⟨hindex, fun j hj => ?_, hleft, fun j hj => ?_⟩
  · by_cases hji : j = i
    · rw [hji]
      exact hself
    · rw [hfree j hji, hpcs j hji, h.held j hj]
      exact hothers j hji
  · by_cases hji : j = i
    · rw [hji]
      exact hknows
    · have hk := h.knows j hj
      rw [hfree j hji, hpcs j hji]
      cases hprev : s.freedLastRxd (r.previousConsumer j) with
      | true =>
        rw [hprev] at hk
        rw [hprevious j hj hji hprev hk]
        exact hk
      | false =>
        rw [hprev] at hk
        revert hk
        cases s.pcs j with
        | outside => exact id
        | inside stmt last =>
          cases stmt with
          | clearPrevious => exact fun hk => absurd hk.2 Bool.false_ne_true
          | _ => exact id

/-- A step that changes no flag. -/
theorem goto (h : Inv r s place) (hi : i < r.consumers) {pc : Pc} (hpc : t.pcs = update s.pcs i pc)
    (hfree : t.canFree = s.canFree) (hfreed : t.freedLastRxd = s.freedLastRxd)
    (hself : Holds (s.canFree i) pc ↔ Holds (s.canFree i) (s.pcs i))
    (hknows : Knows (s.canFree i) (s.freedLastRxd (r.previousConsumer i)) pc) :
    Inv r t place := by
  have hat : t.pcs i = pc := by rw [hpc, update_self]
  apply h.change (i := i)
  · intro j hj
    rw [hpc, update_of_ne hj]
  · intro j _
    rw [hfree]
  · exact h.index
  · rw [hat, hfree, hself, h.held i hi]
  · exact fun j _ => Iff.rfl
  · rw [hfreed]
    exact h.left
  · intro j _ _ hprev _
    rw [hfreed]
    exact hprev
  · rw [hat, hfree, hfreed]
    exact hknows

theorem clearPrevious (h : Inv r s place) (hi : i < r.consumers)
    (hpc : s.pcs i = .inside .clearPrevious last) :
    Inv r (execute r v s i last .clearPrevious) (.held i) := by
  have hk := h.knows i hi
  rw [hpc] at hk
  obtain ⟨hfree, hprev⟩ := hk
  have hplace := (h.left _ (previousConsumer_lt r i)).mp hprev
  subst hplace
  apply h.change (i := i)
  · exact fun j hj => update_of_ne hj _ _
  · exact fun _ _ => rfl
  · exact hi
  · change Holds _ (update s.pcs i _ i) ↔ _
    rw [update_self]
    exact ⟨fun _ => rfl, fun _ => trivial⟩
  · intro j hj
    exact ⟨nofun, fun he => absurd (Place.held.inj he).symm hj⟩
  · intro j hj
    refine ⟨fun hset => ?_, nofun⟩
    change update s.freedLastRxd (r.previousConsumer i) false j = true at hset
    by_cases hjp : j = r.previousConsumer i
    · rw [hjp, update_self] at hset
      cases hset
    · rw [update_of_ne hjp] at hset
      exact absurd (Place.left.inj ((h.left j hj).mp hset)).symm hjp
  · intro j hj hji hset _
    change update s.freedLastRxd (r.previousConsumer i) false (r.previousConsumer j) = true
    rw [update_of_ne fun he => hji (previousConsumer_inj hj hi he)]
    exact hset
  · change Knows _ _ (update s.pcs i _ i)
    rw [update_self]
    trivial

theorem take (h : Inv r s place) (hi : i < r.consumers) (hpc : s.pcs i = .inside .take last) :
    Inv r (execute r v s i last .take) place := by
  have hheld := h.held i hi
  rw [hpc] at hheld
  apply h.change (i := i)
  · exact fun j hj => update_of_ne hj _ _
  · exact fun j hj => update_of_ne hj _ _
  · exact h.index
  · change Holds (update s.canFree i true i) (update s.pcs i _ i) ↔ _
    rw [update_self, update_self, ← hheld]
    exact ⟨fun _ => trivial, fun _ => rfl⟩
  · exact fun j _ => Iff.rfl
  · exact h.left
  · exact fun j _ _ hset _ => hset
  · change Knows _ _ (update s.pcs i _ i)
    rw [update_self]
    trivial

theorem give (h : Inv r s place) (hi : i < r.consumers) (hpc : s.pcs i = .inside .give last) :
    Inv r (execute r v s i last .give) (.left i) := by
  have hk := h.knows i hi
  have hheld := h.held i hi
  rw [hpc] at hk hheld
  have hplace := hheld.mp hk
  subst hplace
  apply h.change (i := i)
  · exact fun j hj => update_of_ne hj _ _
  · exact fun _ _ => rfl
  · exact hi
  · change Holds _ (update s.pcs i _ i) ↔ _
    rw [update_self]
    exact ⟨False.elim, nofun⟩
  · intro j hj
    exact ⟨fun he => absurd (Place.held.inj he).symm hj, nofun⟩
  · intro j hj
    change update s.freedLastRxd i true j = true ↔ _
    by_cases hji : j = i
    · rw [hji, update_self]
      exact ⟨fun _ => rfl, fun _ => rfl⟩
    · rw [update_of_ne hji]
      constructor
      · intro hset
        cases (h.left j hj).mp hset
      · intro he
        exact absurd (Place.left.inj he).symm hji
  · intro j hj _ hset _
    change update s.freedLastRxd i true (r.previousConsumer j) = true
    by_cases hjp : r.previousConsumer j = i
    · rw [hjp, update_self]
    · rw [update_of_ne hjp]
      exact hset
  · change Knows _ _ (update s.pcs i _ i)
    rw [update_self]
    trivial

theorem drop (h : Inv r s place) (hi : i < r.consumers) (hpc : s.pcs i = .inside .drop last) :
    Inv r (execute r v s i last .drop) place := by
  have hheld := h.held i hi
  rw [hpc] at hheld
  apply h.change (i := i)
  · exact fun j hj => update_of_ne hj _ _
  · exact fun j hj => update_of_ne hj _ _
  · exact h.index
  · change Holds (update s.canFree i false i) (update s.pcs i _ i) ↔ _
    rw [update_self, update_self, ← hheld]
    exact ⟨fun he => absurd he Bool.false_ne_true, False.elim⟩
  · exact fun j _ => Iff.rfl
  · exact h.left
  · exact fun j _ _ hset _ => hset
  · change Knows _ _ (update s.pcs i _ i)
    rw [update_self]
    trivial

/-- The right to move the tail is never doubled and never lost. -/
theorem execute (h : Inv r s place) (hi : i < r.consumers) {stmt : Stmt}
    (hpc : s.pcs i = .inside stmt last) : ∃ place', Inv r (execute r v s i last stmt) place' := by
  have hk := h.knows i hi
  rw [hpc] at hk
  cases stmt with
  | testOwn =>
    refine ⟨place, h.goto hi rfl rfl rfl ?_ ?_⟩
    · rw [hpc]
      split <;> rfl
    · split
      · trivial
      · rename_i hfree
        exact Bool.not_eq_true _ |>.mp hfree
  | testPrevious =>
    refine ⟨place, h.goto hi rfl rfl rfl ?_ ?_⟩
    · rw [hpc]
      split <;> rfl
    · split
      · rename_i hset
        exact ⟨hk, hset⟩
      · trivial
  | clearPrevious => exact ⟨_, h.clearPrevious hi hpc⟩
  | take => exact ⟨_, h.take hi hpc⟩
  | testFree =>
    refine ⟨place, h.goto hi rfl rfl rfl ?_ ?_⟩
    · rw [hpc]
      split <;> rfl
    · split
      · rename_i hfree
        exact hfree
      · trivial
  | setQueued | setNextToClean | setNextToUse | release =>
    refine ⟨place, h.goto hi rfl rfl rfl ?_ hk⟩
    rw [hpc]
    rfl
  | testLast =>
    refine ⟨place, h.goto hi rfl rfl rfl ?_ ?_⟩
    · rw [hpc]
      split <;> rfl
    · split
      · exact hk
      · trivial
  | give => exact ⟨_, h.give hi hpc⟩
  | drop => exact ⟨_, h.drop hi hpc⟩
  | finish =>
    refine ⟨place, h.goto hi rfl rfl rfl ?_ trivial⟩
    rw [hpc]
    rfl

theorem step {a : Step} (h : Inv r s place) (hs : step r v s a = some t) :
    ∃ place', Inv r t place' := by
  cases a with
  | call i last =>
    obtain ⟨⟨hi, hpc⟩, ht⟩ := Option.ite_none_right_eq_some.mp hs
    obtain rfl := Option.some.inj ht
    refine ⟨place, h.goto hi rfl rfl rfl ?_ trivial⟩
    rw [hpc]
    rfl
  | next i =>
    rw [Token.step] at hs
    cases hpc : s.pcs i with
    | outside =>
      rw [hpc] at hs
      cases hs
    | inside stmt last =>
      rw [hpc] at hs
      obtain ⟨hi, ht⟩ := Option.ite_none_right_eq_some.mp hs
      obtain rfl := Option.some.inj ht
      exact h.execute hi hpc

theorem inRelease (h : Inv r s place) (hi : i < r.consumers) (hin : InRelease s i) :
    place = .held i := by
  refine (h.held i hi).mp ?_
  have hk := h.knows i hi
  obtain ⟨stmt, hmem, last, hpc⟩ | ⟨⟨stmt, hmem, last, hpc⟩, hfree⟩ := hin
  · simp only [List.mem_cons, List.not_mem_nil, or_false] at hmem
    rw [hpc] at hk ⊢
    obtain rfl | rfl | rfl | rfl := hmem
    · exact hk
    · exact hk
    · exact hk
    · exact hk
  · obtain rfl := List.mem_singleton.mp hmem
    rw [hpc]
    exact hfree

end Inv

theorem init_inv (r : Ring) (firstRxd tail : Nat) :
    Inv r (init r firstRxd tail) (.held (r.rxdConsumerOf firstRxd)) := by
  refine ⟨?_, fun j _ => ?_, fun j _ => ?_, fun _ _ => trivial⟩
  · have hlt := r.consumerAt_lt firstRxd
    rw [← r.rxdConsumerOf_mod, Ring.rxdConsumerOf, Nat.mod_mod] at hlt
    exact hlt
  · change decide (j = r.rxdConsumerOf firstRxd) = true ↔ _
    rw [decide_eq_true_iff]
    exact ⟨fun h => by rw [h], fun h => (Place.held.inj h).symm⟩
  · simp [init]

/-- The flags that are set. -/
def flagsSet (r : Ring) (s : State) : Nat :=
  (List.range r.consumers).countP s.canFree + (List.range r.consumers).countP s.freedLastRxd

theorem countP_range_one {n k : Nat} {p : Nat → Bool} (hk : k < n)
    (h : ∀ j < n, p j = true ↔ j = k) : (List.range n).countP p = 1 := by
  have he : (List.range n).countP p = (List.range n).count k := by
    apply List.countP_congr
    intro j hj
    rw [h j (List.mem_range.mp hj), beq_iff_eq]
  rw [he]
  exact List.count_eq_one_of_mem List.nodup_range (List.mem_range.mpr hk)

theorem countP_range_zero {n : Nat} {p : Nat → Bool} (h : ∀ j < n, ¬ p j = true) :
    (List.range n).countP p = 0 :=
  List.countP_eq_zero.mpr fun j hj => h j (List.mem_range.mp hj)

theorem Inv.flagsSet (h : Inv r s place) (hout : ∀ j < r.consumers, s.pcs j = .outside) :
    flagsSet r s = 1 := by
  have hheld : ∀ j < r.consumers, s.canFree j = true ↔ place = .held j := by
    intro j hj
    have hj' := h.held j hj
    rw [hout j hj] at hj'
    exact hj'
  have hindex := h.index
  cases place with
  | held k =>
    have hone : (List.range r.consumers).countP s.canFree = 1 := by
      refine countP_range_one (k := k) hindex fun j hj => ?_
      rw [hheld j hj]
      exact ⟨fun he => (Place.held.inj he).symm, fun he => by rw [he]⟩
    have hzero : (List.range r.consumers).countP s.freedLastRxd = 0 :=
      countP_range_zero fun j hj hset => nomatch (h.left j hj).mp hset
    rw [Token.flagsSet, hone, hzero]
  | left k =>
    have hzero : (List.range r.consumers).countP s.canFree = 0 :=
      countP_range_zero fun j hj hset => nomatch (hheld j hj).mp hset
    have hone : (List.range r.consumers).countP s.freedLastRxd = 1 := by
      refine countP_range_one (k := k) hindex fun j hj => ?_
      rw [h.left j hj]
      exact ⟨fun he => (Place.left.inj he).symm, fun he => by rw [he]⟩
    rw [Token.flagsSet, hzero, hone]

/-- No two consumers release at the same time, and between calls one flag is set. -/
theorem release_exclusive (r : Ring) (v : Variant) (firstRxd tail : Nat) (s : State)
    (h : Reach (step r v) Free (fun t => t = init r firstRxd tail) s) :
    (∀ i < r.consumers, ∀ j < r.consumers, InRelease s i → InRelease s j → i = j) ∧
      ((∀ j < r.consumers, s.pcs j = .outside) → flagsSet r s = 1) := by
  obtain ⟨place, hinv⟩ : ∃ place, Inv r s place := by
    refine h.invariant (fun s => ∃ place, Inv r s place) ?_ ?_
    · rintro t rfl
      exact ⟨_, init_inv r firstRxd tail⟩
    · rintro t a u ⟨place, ht⟩ - hs
      exact ht.step hs
  refine ⟨fun i hi j hj hin hjn => ?_, hinv.flagsSet⟩
  exact Place.held.inj ((hinv.inRelease hi hin).symm.trans (hinv.inRelease hj hjn))

/-- Consumer 0 gives away the right before it clears its own flag; consumer 1 takes it. -/
def handOver : List Step :=
  .call 0 1 :: List.replicate 8 (.next 0) ++ .call 1 2 :: List.replicate 5 (.next 1)

theorem release_exclusive_handed_over :
    (∃ s, s.pcs 0 = .inside .drop 1 ∧ s.pcs 1 = .inside .setQueued 2 ∧
      ∀ i < 2, ∀ j < 2, InRelease s i → InRelease s j → i = j) ∧
    ∃ s, s.freedLastRxd 0 = true ∧ flagsSet alone s = 1 := by
  have h₂ : (run (step shared .i40e) (init shared 0 3) handOver).map
      (fun s => (s.pcs 0, s.pcs 1)) = some (.inside .drop 1, .inside .setQueued 2) := by
    decide +kernel
  have h₁ : (run (step alone .ixgbe) (init alone 0 3) (.call 0 3 :: List.replicate 10 (.next 0))).map
      (fun s => (s.freedLastRxd 0, s.pcs 0)) = some (true, .outside) := by
    decide +kernel
  obtain ⟨s, hs, hpcs⟩ := Option.map_eq_some_iff.mp h₂
  obtain ⟨t, ht, hend⟩ := Option.map_eq_some_iff.mp h₁
  obtain ⟨hpc₀, hpc₁⟩ := Prod.mk.inj hpcs
  obtain ⟨hset, hout⟩ := Prod.mk.inj hend
  refine ⟨⟨s, hpc₀, hpc₁, ?_⟩, ⟨t, hset, ?_⟩⟩
  · exact (release_exclusive shared .i40e 0 3 s (.run (.start rfl) hs)).1
  · refine (release_exclusive alone .ixgbe 0 3 t (.run (.start rfl) ht)).2 fun j hj => ?_
    obtain rfl : j = 0 := Nat.lt_one_iff.mp hj
    exact hout

/-- The two models of the function agree on what they share. -/
structure Matches (s : State) (u : RxRing.State) : Prop where
  canFree : s.canFree = u.canFree
  freedLastRxd : s.freedLastRxd = u.freedLastRxd
  tail : s.tail = u.tail
  rxdIdx : s.rxdIdx = u.rxdIdx

theorem run_next (hi : i < r.consumers) {stmt : Stmt} (hpc : s.pcs i = .inside stmt last)
    (as : List Step) :
    run (step r v) s (.next i :: as) = run (step r v) (execute r v s i last stmt) as := by
  simp [run, step, hpc, hi]

theorem run_take (hi : i < r.consumers) (hpc : s.pcs i = .inside .testOwn last)
    (hfree : s.canFree i = false) (hfreed : s.freedLastRxd (r.previousConsumer i) = true)
    (as : List Step) :
    run (step r v) s (.next i :: .next i :: .next i :: .next i :: as) =
      run (step r v) { s.goto i .testFree last with
        freedLastRxd := update s.freedLastRxd (r.previousConsumer i) false
        canFree := update s.canFree i true } as := by
  have htest : execute r v s i last .testOwn = s.goto i .testPrevious last := by
    simp [execute, hfree]
  have hprevious : execute r v (s.goto i .testPrevious last) i last .testPrevious =
      (s.goto i .testPrevious last).goto i .clearPrevious last := by
    simp [execute, State.goto, hfreed]
  rw [run_next hi hpc, htest, run_next hi (update_self _ _ _), hprevious,
    run_next hi (update_self _ _ _), run_next hi (update_self _ _ _)]
  simp only [execute, State.goto, update_idem]

theorem run_release (hi : i < r.consumers) (hpc : s.pcs i = .inside .testFree last)
    (hfree : s.canFree i = true) (as : List Step) :
    run (step r v) s (.next i :: .next i :: .next i :: .next i :: .next i :: as) =
      run (step r v) { s.goto i .testLast last with
        queued := (last + 1) % r.size
        nextToClean := (last + 1) % r.size
        nextToUse := nextToUse v last
        tail := nextToUse v last } as := by
  have htest : execute r v s i last .testFree = s.goto i .setQueued last := by
    simp [execute, hfree]
  rw [run_next hi hpc, htest, run_next hi (update_self _ _ _), run_next hi (update_self _ _ _),
    run_next hi (update_self _ _ _), run_next hi (update_self _ _ _)]
  simp only [execute, State.goto, update_idem]

theorem run_give (hi : i < r.consumers) (hpc : s.pcs i = .inside .testLast last)
    (hlast : r.isLastDescriptorOfConsumer last i) (as : List Step) :
    run (step r v) s (.next i :: .next i :: .next i :: as) =
      run (step r v) { s.goto i .finish last with
        freedLastRxd := update s.freedLastRxd i true
        canFree := update s.canFree i false } as := by
  have htest : execute r v s i last .testLast = s.goto i .give last := by
    simp [execute, hlast]
  rw [run_next hi hpc, htest, run_next hi (update_self _ _ _), run_next hi (update_self _ _ _)]
  simp only [execute, State.goto, update_idem]

theorem run_released (hi : i < r.consumers) (hpc : s.pcs i = .inside .testFree last)
    (hfree : s.canFree i = true) : ∃ as t, run (step r v) s as = some t ∧
      t.pcs = update s.pcs i .outside ∧ t.tail = nextToUse v last ∧
      t.rxdIdx = update s.rxdIdx i (r.rxdCalcNext last i) ∧
      t.canFree = update s.canFree i (!decide (r.isLastDescriptorOfConsumer last i)) ∧
      t.freedLastRxd = if r.isLastDescriptorOfConsumer last i then
        update s.freedLastRxd i true else s.freedLastRxd := by
  by_cases hlast : r.isLastDescriptorOfConsumer last i
  · refine ⟨_, _, (run_release hi hpc hfree _).trans ((run_give hi (update_self _ _ _) hlast _).trans
      (run_next hi (update_self _ _ _) [])), ?_⟩
    simp [execute, State.goto, hlast]
  · have htest : ∀ u : State, execute r v u i last .testLast = u.goto i .finish last := by
      intro u
      simp [execute, hlast]
    refine ⟨_, _, (run_release hi hpc hfree _).trans ((run_next hi (update_self _ _ _) _).trans
      ((congrArg (fun u => run (step r v) u _) (htest _)).trans
        (run_next hi (update_self _ _ _) []))), ?_⟩
    have hsame : update s.canFree i true = s.canFree := by rw [← hfree, update_eq_self]
    simp [execute, State.goto, hlast, hsame]

/-- Called by one consumer with nobody else at work, `hpcap_advance_read_descriptors` is the
function in one step. -/
theorem run_call {u : RxRing.State} (hi : i < r.consumers) (hpc : s.pcs i = .outside)
    (h : Matches s u) :
    ∃ as t, run (step r .ixgbe) s as = some t ∧ t.pcs = s.pcs ∧
      Matches t (hpcapAdvanceReadDescriptors r u i last) := by
  obtain ⟨hfree, hfreed, htail, hidx⟩ := h
  have hcall : ∀ as, run (step r .ixgbe) s (.call i last :: as) =
      run (step r .ixgbe) (s.goto i .testOwn last) as := by
    intro as
    simp [run, step, hi, hpc]
  have hback : update s.pcs i .outside = s.pcs := by rw [← hpc, update_eq_self]
  by_cases hown : s.canFree i = true
  · have htest : execute r .ixgbe (s.goto i .testOwn last) i last .testOwn =
        (s.goto i .testOwn last).goto i .testFree last := by
      simp [execute, State.goto, hown]
    obtain ⟨as, t, hrun, hpcs, htail', hidx', hfree', hfreed'⟩ :=
      run_released (v := .ixgbe) (s := (s.goto i .testOwn last).goto i .testFree last) hi
        (update_self _ _ _) hown
    refine ⟨.call i last :: .next i :: as, t, ?_, ?_, ?_⟩
    · rw [hcall, run_next hi (update_self _ _ _), htest, hrun]
    · rw [hpcs]
      simpa [State.goto] using hback
    · rw [hfree] at hown
      have hmay : mayFree r u i = true := by rw [mayFree, hown, Bool.true_or]
      rw [hpcapAdvanceReadDescriptors, if_pos hmay]
      refine ⟨?_, ?_, htail', ?_⟩
      · simpa [State.goto, hfree] using hfree'
      · simpa [State.goto, hfreed, hown] using hfreed'
      · simpa [State.goto, hidx] using hidx'
  · have hno := Bool.not_eq_true _ |>.mp hown
    by_cases hset : s.freedLastRxd (r.previousConsumer i) = true
    · obtain ⟨as, t, hrun, hpcs, htail', hidx', hfree', hfreed'⟩ :=
        run_released (v := .ixgbe)
          (s := { (s.goto i .testOwn last).goto i .testFree last with
            freedLastRxd := update s.freedLastRxd (r.previousConsumer i) false
            canFree := update s.canFree i true }) hi (update_self _ _ _) (update_self _ _ _)
      refine ⟨.call i last :: .next i :: .next i :: .next i :: .next i :: as, t, ?_, ?_, ?_⟩
      · rw [hcall]
        exact (run_take (s := s.goto i .testOwn last) hi (update_self _ _ _) hno hset as).trans hrun
      · rw [hpcs]
        simpa [State.goto] using hback
      · rw [hfree] at hno
        rw [hfreed] at hset
        have hmay : mayFree r u i = true := by rw [mayFree, hset, Bool.or_true]
        rw [hpcapAdvanceReadDescriptors, if_pos hmay]
        refine ⟨?_, ?_, htail', ?_⟩
        · simpa [State.goto, hfree] using hfree'
        · simpa [State.goto, hfreed, hno, hset] using hfreed'
        · simpa [State.goto, hidx] using hidx'
    · have hunset := Bool.not_eq_true _ |>.mp hset
      refine ⟨[.call i last, .next i, .next i, .next i, .next i],
        { s with rxdIdx := update s.rxdIdx i (r.rxdCalcNext last i) }, ?_, rfl, ?_⟩
      · have htest : execute r .ixgbe (s.goto i .testOwn last) i last .testOwn =
            s.goto i .testPrevious last := by
          simp [execute, State.goto, hno]
        have hprevious : execute r .ixgbe (s.goto i .testPrevious last) i last .testPrevious =
            s.goto i .testFree last := by
          simp [execute, State.goto, hunset]
        have hskip : execute r .ixgbe (s.goto i .testFree last) i last .testFree =
            s.goto i .finish last := by
          simp [execute, State.goto, hno]
        rw [hcall, run_next hi (update_self _ _ _), htest, run_next hi (update_self _ _ _),
          hprevious, run_next hi (update_self _ _ _), hskip, run_next hi (update_self _ _ _)]
        simp [run, execute, State.goto, hback]
      · rw [hfree] at hno
        rw [hfreed] at hunset
        have hmay : ¬ mayFree r u i = true := by rw [mayFree, hno, hunset]; exact Bool.false_ne_true
        rw [hpcapAdvanceReadDescriptors, if_neg hmay]
        exact ⟨hfree, hfreed, htail, by rw [← hidx]⟩

end Hpcap.Token
