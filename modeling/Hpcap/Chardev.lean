import Hpcap.Registration

namespace Hpcap.Chardev

open Hpcap.Registration (Reply)

/-- What there is of a queue: its `struct hpcap_buf`, its device number, its character device,
and, if it has a ring, whether `bufp` of the ring is that structure. -/
structure Queue where
  allocated : Bool
  region : Bool
  cdev : Bool
  ring : Option Bool
  deriving DecidableEq

/-- One pass of the loop of `hpcap_register_chardev`: `ret` and the queue. -/
def registerQueue (reply : Reply) : Int × Queue :=
  let ring := if reply.ring then some false else none
  if !reply.kzalloc then (-1, ⟨false, false, false, ring⟩)
  else if reply.registerChrdevRegion ≠ 0 then (-1, ⟨true, false, false, ring⟩)
  else if reply.cdevAdd < 0 then (-1, ⟨true, false, false, ring⟩)
  else if !reply.ring then (-1, ⟨true, false, true, ring⟩)
  else (reply.cdevAdd, ⟨true, true, true, some true⟩)

def registerLoop : Int → List Reply → Int × List Queue
  | ret, [] => (ret, [])
  | _, reply :: rest =>
    let (ret, queue) := registerQueue reply
    let (ret, queues) := registerLoop ret rest
    (ret, queue :: queues)

/-- One pass of the loop of `hpcap_unregister_chardev`. `hpcap_buf_clear` returns 0. -/
def unregisterQueue (queue : Queue) : Queue :=
  if queue.ring = some true then ⟨false, false, false, some false⟩ else queue

/-- `none` if a ring is `NULL`: `hpcap_stop_poll_threads` looks for `bufp` in all of them. -/
def hpcapUnregisterChardev (queues : List Queue) : Option (List Queue) :=
  if ∀ queue ∈ queues, queue.ring.isSome then some (queues.map unregisterQueue) else none

def hpcapRegisterChardev (replies : List Reply) : Option (Int × List Queue) :=
  let (ret, queues) := registerLoop 0 replies
  if ret = -1 then (hpcapUnregisterChardev queues).map (ret, ·) else some (ret, queues)

def Registered (queue : Queue) : Prop :=
  queue.region = true ∧ queue.cdev = true ∧ queue.ring = some true

instance : DecidablePred Registered := fun _ => inferInstanceAs (Decidable (_ ∧ _))

/-- Nothing of the queue is registered, and its structure is not lost. -/
def Released (queue : Queue) : Prop :=
  queue.region = false ∧ queue.cdev = false ∧ queue.ring ≠ some true ∧
    (queue.allocated = true → queue.ring = some true)

instance : DecidablePred Released := fun _ => inferInstanceAs (Decidable (_ ∧ _))

/-- All queues are registered, or an error is returned and none is. -/
def RegistersRight (replies : List Reply) : Prop :=
  ∃ ret queues, hpcapRegisterChardev replies = some (ret, queues) ∧
    (ret = 0 ∧ (∀ queue ∈ queues, Registered queue) ∨
      ret < 0 ∧ ∀ queue ∈ queues, Released queue)

/-- No step of the queue fails. -/
def Succeeds (reply : Reply) : Prop :=
  reply.kzalloc = true ∧ reply.registerChrdevRegion = 0 ∧ reply.cdevAdd = 0 ∧ reply.ring = true

instance : DecidablePred Succeeds := fun _ => inferInstanceAs (Decidable (_ ∧ _))

/-- `cdev_add` returns 0 or a negative error code. -/
def Documented (reply : Reply) : Prop := reply.cdevAdd ≤ 0

instance : DecidablePred Documented := fun _ => inferInstanceAs (Decidable (_ ≤ _))

/-- Every queue that fails does so for want of memory, the last one among them, and all have
their ring. -/
def FailsClean (replies : List Reply) : Prop :=
  (∃ reply ∈ replies.getLast?, ¬ Succeeds reply) ∧
    ∀ reply ∈ replies, reply.ring = true ∧ (reply.kzalloc = true → Succeeds reply)

instance : DecidablePred FailsClean := fun _ => inferInstanceAs (Decidable (_ ∧ _))

section Pass

variable {reply : Reply} {replies : List Reply}

theorem registerQueue_succeeds (h : Succeeds reply) :
    registerQueue reply = (0, ⟨true, true, true, some true⟩) := by
  obtain ⟨hkzalloc, hregion, hcdev, hring⟩ := h
  simp [registerQueue, hkzalloc, hregion, hcdev, hring]

/-- A queue that fails has no device number, and its ring is as it was. Its structure, if it
has one, is nowhere to be found. -/
theorem registerQueue_fails (hd : Documented reply) (h : ¬ Succeeds reply) :
    (registerQueue reply).1 = -1 ∧ (registerQueue reply).2.region = false ∧
      (registerQueue reply).2.allocated = reply.kzalloc ∧
      (registerQueue reply).2.cdev = (reply.kzalloc && decide (reply.registerChrdevRegion = 0) &&
        decide (reply.cdevAdd = 0)) ∧
      (registerQueue reply).2.ring = if reply.ring then some false else none := by
  have hcdev : ¬ reply.cdevAdd < 0 → reply.cdevAdd = 0 := fun hpos =>
    le_antisymm hd (not_lt.mp hpos)
  simp only [registerQueue]
  split
  · rename_i hkzalloc
    have hkzalloc : reply.kzalloc = false := by simpa using hkzalloc
    simp [hkzalloc]
  · rename_i hkzalloc
    have hkzalloc : reply.kzalloc = true := by simpa using hkzalloc
    split
    · rename_i hregion
      simp [hkzalloc, hregion]
    · rename_i hregion
      have hregion : reply.registerChrdevRegion = 0 := by simpa using hregion
      split
      · rename_i hneg
        simp [hkzalloc, hregion, hneg.ne]
      · rename_i hpos
        have hring : reply.ring = false := by
          cases hring : reply.ring with
          | false => rfl
          | true => exact absurd ⟨hkzalloc, hregion, hcdev hpos, hring⟩ h
        simp [hkzalloc, hregion, hcdev hpos, hring]

theorem registerQueue_registered (hd : Documented reply) :
    Registered (registerQueue reply).2 ↔ Succeeds reply := by
  constructor
  · intro hr
    by_contra hno
    have hregion := (registerQueue_fails hd hno).2.1
    rw [hr.1] at hregion
    cases hregion
  · intro h
    rw [registerQueue_succeeds h]
    exact ⟨rfl, rfl, rfl⟩

theorem registerQueue_ring (hd : Documented reply) :
    (registerQueue reply).2.ring.isSome = reply.ring := by
  by_cases h : Succeeds reply
  · rw [registerQueue_succeeds h, h.2.2.2]
    rfl
  · rw [(registerQueue_fails hd h).2.2.2.2]
    cases reply.ring with
    | false => rfl
    | true => rfl

/-- What is registered is released; what failed is not if it had got its structure. -/
theorem unregisterQueue_released (hd : Documented reply) (hring : reply.ring = true) :
    Released (unregisterQueue (registerQueue reply).2) ↔
      (reply.kzalloc = true → Succeeds reply) := by
  by_cases h : Succeeds reply
  · rw [registerQueue_succeeds h]
    exact iff_of_true (by decide) fun _ => h
  · obtain ⟨-, hregion, hallocated, hcdev, hkept⟩ := registerQueue_fails hd h
    have hfalse : (registerQueue reply).2.ring = some false := by rw [hkept, hring]; rfl
    have hsame : unregisterQueue (registerQueue reply).2 = (registerQueue reply).2 := by
      rw [unregisterQueue, hfalse]
      rfl
    rw [hsame, Released, hregion, hallocated, hcdev, hfalse]
    cases hkzalloc : reply.kzalloc with
    | false => simp
    | true => simp [h]

/-- What the loop returns is the result for the last queue. -/
theorem registerLoop_eq (ret : Int) (replies : List Reply) : registerLoop ret replies =
    ((replies.getLast?.map fun r => (registerQueue r).1).getD ret,
      replies.map fun r => (registerQueue r).2) := by
  induction replies generalizing ret with
  | nil => rfl
  | cons reply rest ih =>
    simp only [registerLoop, ih, List.getLast?_cons, List.map_cons]
    cases rest.getLast? with
    | none => rfl
    | some last => rfl

/-- It is the result that `Registration` has for the loop. -/
theorem registerLoop_registration (auxBufs : Nat) (a : Registration.Adapter) (size offset : Nat)
    (replies : Nat → Reply) :
    (registerLoop 0 ((List.range a.numRxQueues).map replies)).1 =
      (Registration.hpcapRegisterChardev auxBufs a size offset replies).1 := by
  have hpass (acc : Int × List Registration.HpcapBuf) (i : Nat) :
      (Registration.registerQueue auxBufs a size offset replies acc i).1 =
        (registerQueue (replies i)).1 := by
    simp only [Registration.registerQueue, registerQueue]
    split
    · rfl
    · split
      · rfl
      · split
        · rfl
        · split
          · rfl
          · rfl
  have hloop (is : List Nat) (acc : Int × List Registration.HpcapBuf) :
      (is.foldl (Registration.registerQueue auxBufs a size offset replies) acc).1 =
        (registerLoop acc.1 (is.map replies)).1 := by
    induction is generalizing acc with
    | nil => rfl
    | cons i is ih =>
      rw [List.foldl_cons, ih, hpass, List.map_cons, registerLoop]
  exact (hloop _ (0, [])).symm

end Pass

section Register

variable {replies : List Reply} {last : Reply}

/-- Without a queue, or with a last one that succeeds, the loop's result stands. -/
theorem register_ends (hl : ∀ r ∈ replies.getLast?, Succeeds r) :
    hpcapRegisterChardev replies = some (0, replies.map fun r => (registerQueue r).2) := by
  have hret : (replies.getLast?.map fun r => (registerQueue r).1).getD 0 = 0 := by
    cases h : replies.getLast? with
    | none => rfl
    | some last =>
      have hlast : (registerQueue last).1 = 0 := by rw [registerQueue_succeeds (hl last h)]
      exact hlast
  rw [hpcapRegisterChardev, registerLoop_eq]
  simp only [hret]
  exact if_neg (by decide)

theorem register_undone (hd : ∀ r ∈ replies, Documented r) (hl : replies.getLast? = some last)
    (hfails : ¬ Succeeds last) : hpcapRegisterChardev replies =
      (hpcapUnregisterChardev (replies.map fun r => (registerQueue r).2)).map (-1, ·) := by
  have hret : (replies.getLast?.map fun r => (registerQueue r).1).getD 0 = -1 := by
    rw [hl]
    exact (registerQueue_fails (hd last (List.mem_of_getLast? hl)) hfails).1
  rw [hpcapRegisterChardev, registerLoop_eq]
  simp only [hret, if_true]

/-- All rings are looked into, and then nothing is left if what failed had no structure. -/
theorem unregister_released (hd : ∀ r ∈ replies, Documented r) :
    (∃ queues, hpcapUnregisterChardev (replies.map fun r => (registerQueue r).2) = some queues ∧
      ∀ queue ∈ queues, Released queue) ↔
        ∀ r ∈ replies, r.ring = true ∧ (r.kzalloc = true → Succeeds r) := by
  have hrings : (∀ queue ∈ replies.map fun r => (registerQueue r).2, queue.ring.isSome = true) ↔
      ∀ r ∈ replies, r.ring = true := by
    rw [List.forall_mem_map]
    refine forall₂_congr fun r hr => ?_
    rw [registerQueue_ring (hd r hr)]
  rw [hpcapUnregisterChardev]
  by_cases hall : ∀ r ∈ replies, r.ring = true
  · rw [if_pos (hrings.mpr hall)]
    simp only [Option.some.injEq, exists_eq_left', List.map_map, List.forall_mem_map]
    refine forall₂_congr fun r hr => ?_
    exact (unregisterQueue_released (hd r hr) (hall r hr)).trans (and_iff_right (hall r hr)).symm
  · rw [if_neg fun h => hall (hrings.mp h)]
    refine iff_of_false ?_ fun h => hall fun r hr => (h r hr).1
    rintro ⟨queues, hnone, -⟩
    cases hnone

/-- The result is right when no step fails, or when the last queue and all others that fail do
so for want of memory and no ring is missing. -/
theorem register_chardev_iff (replies : List Reply) (hd : ∀ r ∈ replies, Documented r) :
    RegistersRight replies ↔ (∀ r ∈ replies, Succeeds r) ∨ FailsClean replies := by
  have hregistered : (∀ queue ∈ replies.map fun r => (registerQueue r).2, Registered queue) ↔
      ∀ r ∈ replies, Succeeds r := by
    rw [List.forall_mem_map]
    exact forall₂_congr fun r hr => registerQueue_registered (hd r hr)
  rw [RegistersRight, FailsClean]
  by_cases hl : ∀ r ∈ replies.getLast?, Succeeds r
  · rw [register_ends hl, ← hregistered]
    have hno : ¬ ∃ r ∈ replies.getLast?, ¬ Succeeds r := fun ⟨r, hr, hfails⟩ => hfails (hl r hr)
    constructor
    · rintro ⟨ret, queues, he, ⟨-, hall⟩ | ⟨hneg, -⟩⟩
      · cases he
        exact .inl hall
      · cases he
        exact absurd hneg (by decide)
    · rintro (hall | ⟨hlast, -⟩)
      · exact ⟨0, _, rfl, .inl ⟨rfl, hall⟩⟩
      · exact absurd hlast hno
  · simp only [not_forall, exists_prop] at hl
    obtain ⟨last, hlast, hfails⟩ := hl
    have hmem := List.mem_of_getLast? hlast
    rw [register_undone hd hlast hfails]
    constructor
    · rintro ⟨ret, queues, he, ⟨hzero, -⟩ | ⟨-, hall⟩⟩
      · obtain ⟨qs, -, hpair⟩ := Option.map_eq_some_iff.mp he
        cases hpair
        cases hzero
      · obtain ⟨qs, hqs, hpair⟩ := Option.map_eq_some_iff.mp he
        cases hpair
        exact .inr ⟨⟨last, hlast, hfails⟩, (unregister_released hd).mp ⟨_, hqs, hall⟩⟩
    · rintro (hall | ⟨-, hclean⟩)
      · exact absurd (hall last hmem) hfails
      · obtain ⟨queues, hqs, hall⟩ := (unregister_released hd).mpr hclean
        exact ⟨-1, queues, by rw [hqs]; rfl, .inr ⟨by decide, hall⟩⟩

end Register

/-- Every step of the queue succeeds. -/
def granted : Reply := ⟨true, 0, none, 0, true⟩

/-- There is no memory for the structure. -/
def refused : Reply := ⟨false, 0, none, 0, true⟩

theorem register_chardev_iff_refused : RegistersRight [granted, refused] := by
  have hd : ∀ r ∈ [granted, refused], Documented r := by decide
  exact (register_chardev_iff [granted, refused] hd).mpr (.inr (by decide))

/-- The first queue fails and the second one makes good for it. -/
theorem later_queue_hides_failure :
    ¬ ∀ replies : List Reply, (∀ r ∈ replies, Documented r) → RegistersRight replies := by
  intro h
  obtain ⟨ret, queues, he, hright⟩ := h [refused, granted] (by decide)
  have hret : hpcapRegisterChardev [refused, granted] = some (0,
      [⟨false, false, false, some false⟩, ⟨true, true, true, some true⟩]) := rfl
  cases hret.symm.trans he
  obtain ⟨-, hall⟩ | ⟨hneg, -⟩ := hright
  · exact absurd (hall _ List.mem_cons_self) (by decide)
  · exact absurd hneg (by decide)

end Hpcap.Chardev
