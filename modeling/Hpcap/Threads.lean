import Hpcap.Loops
import Hpcap.RxRing
import Mathlib.Data.Nat.Find

namespace Hpcap.Threads

open Hpcap.Loops Hpcap.Transition Function

def maxConsumersPerQ : Nat := 32

/-- What the poll threads depend on of an adapter. The arrays of a buffer have room for its
consumers, and every one of them has descriptors. -/
structure Adapter where
  core : Int
  numRxQueues : Nat
  consumers : Nat
  ringSize : Nat → Nat
  consumers_pos : 0 < consumers
  consumers_le : consumers ≤ maxConsumersPerQ
  consumers_le_ringSize : ∀ i, consumers ≤ ringSize i

/-- What `kthread_create` returns. -/
inductive Reply
  | null
  | err (errno : Nat)
  | created
  deriving DecidableEq

def enomem : Nat := 12

/-- A `struct task_struct *`, or what stands in its place. -/
inductive Task
  | null
  | err (errno : Nat)
  | task (id : Nat)
  deriving DecidableEq

/-- How far the consumers of a queue are, in its ring and in its buffer. -/
structure Progress where
  consumerReadOff : Nat
  consumerWriteOff : Nat
  rxdIdx : Nat → Nat
  canFree : Nat → Bool
  freedLastRxd : Nat → Bool

/-- What the poll threads use of a `struct hpcap_buf`. -/
structure HpcapBuf where
  created : Bool
  consumers : Nat
  descrPerConsumer : Nat
  consumerThreads : Nat → Task
  progress : Progress

structure Thread where
  queue : Nat
  thIndex : Nat
  core : Int
  deriving DecidableEq

/-- The threads that run; `born` is the first number that no thread has had. -/
structure Kernel where
  running : Nat → Option Thread
  born : Nat

/-- The buffers of the rings, and the threads. -/
structure State where
  bufs : Nat → Option HpcapBuf
  kernel : Kernel

def Kernel.create (k : Kernel) (t : Thread) : Kernel :=
  ⟨update k.running k.born (some t), k.born + 1⟩

def Kernel.remove (k : Kernel) (id : Nat) : Kernel := { k with running := update k.running id none }

@[simp] theorem remove_running (k : Kernel) (id : Nat) :
    (k.remove id).running = update k.running id none := rfl

@[simp] theorem create_running (k : Kernel) (t : Thread) :
    (k.create t).running = update k.running k.born (some t) := rfl

/-- `none` for what is no running thread. -/
def kthreadStop (k : Kernel) : Task → Option Kernel
  | .task id => if (k.running id).isSome then some (k.remove id) else none
  | _ => none

def hpcapResetBufferOffsets (p : Progress) : Progress :=
  { p with consumerReadOff := 0, consumerWriteOff := 0 }

/-- Where a consumer starts. -/
def Progress.start (p : Progress) (descrPerConsumer firstRxd startingConsumer j : Nat) : Progress :=
  { p with
    freedLastRxd := update p.freedLastRxd j false
    rxdIdx := update p.rxdIdx j (if j = startingConsumer then firstRxd else j * descrPerConsumer)
    canFree := update p.canFree j (j = startingConsumer) }

def HpcapBuf.start (b : HpcapBuf) (firstRxd startingConsumer j : Nat) : HpcapBuf :=
  { b with progress := b.progress.start b.descrPerConsumer firstRxd startingConsumer j }

def HpcapBuf.put (b : HpcapBuf) (j : Nat) (t : Task) : HpcapBuf :=
  { b with consumerThreads := update b.consumerThreads j t }

structure Launching where
  bufp : HpcapBuf
  kernel : Kernel
  coreCount : Nat

/-- One pass of the inner loop of `hpcap_launch_poll_threads`. An error other than `ENOMEM`
is bound and woken up as a thread. -/
def launchConsumer (a : Adapter) (i firstRxd startingConsumer : Nat) (replies : Nat → Reply)
    (j : Nat) (l : Launching) : Option (Launching × Bool) :=
  let bufp := l.bufp.start firstRxd startingConsumer j
  match replies j with
  | .null => some ({ l with bufp := bufp.put j .null }, false)
  | .err errno =>
    if errno = enomem then some ({ l with bufp := bufp.put j (.err errno) }, false) else none
  | .created =>
    some (⟨bufp.put j (.task l.kernel.born), l.kernel.create ⟨i, j, a.core + l.coreCount⟩,
      l.coreCount + 1⟩, true)

def HpcapBuf.setUp (b : HpcapBuf) (consumers descrPerConsumer : Nat) : HpcapBuf :=
  ⟨true, consumers, descrPerConsumer, b.consumerThreads, hpcapResetBufferOffsets b.progress⟩

/-- One pass of the outer loop. `coreCount` goes on over the queues. -/
def launchQueue (a : Adapter) (nextRxd : Nat → Nat) (replies : Nat → Nat → Reply) (i : Nat)
    (p : State × Nat) : Option ((State × Nat) × Bool) :=
  match p.1.bufs i with
  | none => some (p, false)
  | some b =>
    if b.created then some (p, true)
    else
      let descrPerConsumer := a.ringSize i / a.consumers
      let startingConsumer := nextRxd i % a.ringSize i / descrPerConsumer
      (forEach (launchConsumer a i (nextRxd i) startingConsumer (replies i))
        (List.range a.consumers) ⟨b.setUp a.consumers descrPerConsumer, p.1.kernel, p.2⟩).map fun q =>
          ((⟨update p.1.bufs i (some q.1.bufp), q.1.kernel⟩, q.1.coreCount), q.2)

def hpcapLaunchPollThreads (a : Adapter) (s : State) (nextRxd : Nat → Nat)
    (replies : Nat → Nat → Reply) : Option State :=
  if a.core < 0 then some s
  else (forEach (launchQueue a nextRxd replies) (List.range a.numRxQueues) (s, 0)).map fun q => q.1.1

/-- One pass of the outer loop of `hpcap_stop_poll_threads`. -/
def stopQueue (a : Adapter) (i : Nat) (s : State) : Option (State × Bool) :=
  match s.bufs i with
  | none => some (s, true)
  | some b =>
    if b.created then
      (forEach (fun j k => (kthreadStop k (b.consumerThreads j)).map fun k => (k, true))
        (List.range a.consumers) s.kernel).map fun q =>
          (⟨update s.bufs i (some { b with created := false }), q.1⟩, true)
    else some (s, true)

def hpcapStopPollThreads (a : Adapter) (s : State) : Option State :=
  (forEach (stopQueue a) (List.range a.numRxQueues) s).map Prod.fst

/-- `hpcap_unregister_chardev`, as far as the threads go. -/
def hpcapUnregisterChardev (a : Adapter) (s : State) : Option State :=
  (hpcapStopPollThreads a s).map fun s =>
    { s with bufs := fun i => if i < a.numRxQueues then none else s.bufs i }

/-- The interface goes up or down, the threads of a queue go on, or the driver is unloaded. -/
inductive Step
  | launch (nextRxd : Nat → Nat) (replies : Nat → Nat → Reply)
  | stop
  | poll (queue : Nat) (progress : Progress)
  | unregister

def step (a : Adapter) (s : State) : Step → Option State
  | .launch nextRxd replies => hpcapLaunchPollThreads a s nextRxd replies
  | .stop => hpcapStopPollThreads a s
  | .poll i progress => (s.bufs i).bind fun b =>
    if b.created then some { s with bufs := update s.bufs i (some { b with progress := progress }) }
    else none
  | .unregister => hpcapUnregisterChardev a s

/-- The queues and their consumers, counted through. -/
def number (a : Adapter) (i j : Nat) : Nat := i * a.consumers + j

section number

variable {a : Adapter} {i i' j j' n : Nat}

theorem number_inj (hj : j < a.consumers) (hj' : j' < a.consumers)
    (h : number a i j = number a i' j') : i = i' ∧ j = j' := by
  have hi : i = i' := by
    have hdiv := congrArg (· / a.consumers) h
    simpa only [number, Nat.mul_comm _ a.consumers, Nat.mul_add_div a.consumers_pos,
      Nat.div_eq_of_lt hj, Nat.div_eq_of_lt hj', Nat.add_zero] using hdiv
  subst hi
  exact ⟨rfl, Nat.add_left_cancel h⟩

theorem number_lt_iff (hj : j < a.consumers) : number a i j < number a n 0 ↔ i < n := by
  rw [number, number, Nat.add_zero]
  constructor
  · intro h
    by_contra hn
    have := Nat.mul_le_mul_right a.consumers (Nat.not_lt.mp hn)
    omega
  · intro h
    have := Nat.mul_le_mul_right a.consumers (Nat.succ_le_of_lt h)
    rw [Nat.succ_mul] at this
    omega

theorem number_consumers : number a i a.consumers = number a (i + 1) 0 := by
  rw [number, number, Nat.succ_mul, Nat.add_zero]

end number

/-- The threads that run are those of the consumers numbered from `lo` up to `hi`: one each, on
a core of its own. -/
structure Occupied (a : Adapter) (bufs : Nat → Option HpcapBuf) (k : Kernel) (lo hi : Nat) :
    Prop where
  slot : ∀ i, ∀ j < a.consumers, lo ≤ number a i j → number a i j < hi →
    ∃ b id, bufs i = some b ∧ b.consumerThreads j = .task id ∧
      k.running id = some ⟨i, j, a.core + number a i j⟩
  thread : ∀ id t, k.running id = some t → t.thIndex < a.consumers ∧
    lo ≤ number a t.queue t.thIndex ∧ number a t.queue t.thIndex < hi ∧
      ∃ b, bufs t.queue = some b ∧ b.consumerThreads t.thIndex = .task id
  unborn : ∀ id, k.born ≤ id → k.running id = none

namespace Occupied

variable {a : Adapter} {bufs bufs' : Nat → Option HpcapBuf} {k : Kernel} {lo hi i j : Nat}

theorem congr (h : Occupied a bufs k lo hi)
    (hb : ∀ i b, bufs i = some b →
      ∃ b', bufs' i = some b' ∧ b'.consumerThreads = b.consumerThreads) :
    Occupied a bufs' k lo hi := by
  refine ⟨fun i j hj hlo hhi => ?_, fun id t ht => ?_, h.unborn⟩
  · obtain ⟨b, id, hbuf, hslot, hrun⟩ := h.slot i j hj hlo hhi
    obtain ⟨b', hb', hthreads⟩ := hb i b hbuf
    exact ⟨b', id, hb', hthreads ▸ hslot, hrun⟩
  · obtain ⟨hj, hlo, hhi, b, hbuf, hslot⟩ := h.thread id t ht
    obtain ⟨b', hb', hthreads⟩ := hb _ b hbuf
    exact ⟨hj, hlo, hhi, b', hb', hthreads ▸ hslot⟩

/-- Where nothing runs the buffers do not matter. -/
theorem empty (h : Occupied a bufs k lo lo) (bufs' : Nat → Option HpcapBuf) (lo' : Nat) :
    Occupied a bufs' k lo' lo' := by
  have hnone : ∀ id, k.running id = none := fun id => by
    cases ht : k.running id with
    | none => rfl
    | some t =>
      obtain ⟨-, hlo, hhi, -⟩ := h.thread id t ht
      omega
  refine ⟨fun i j _ hlo hhi => by omega, fun id t ht => ?_, h.unborn⟩
  rw [hnone] at ht
  cases ht

theorem create {b c : HpcapBuf} (h : Occupied a bufs k lo (number a i j)) (hj : j < a.consumers)
    (hlo : lo ≤ number a i j) (hb : bufs i = some b)
    (hb' : c.consumerThreads = update b.consumerThreads j (.task k.born)) :
    Occupied a (update bufs i (some c)) (k.create ⟨i, j, a.core + number a i j⟩) lo
      (number a i j + 1) := by
  have hold : ∀ i' j' b₀ id, j' < a.consumers → number a i' j' < number a i j →
      bufs i' = some b₀ → b₀.consumerThreads j' = .task id →
        ∃ b₁, update bufs i (some c) i' = some b₁ ∧ b₁.consumerThreads j' = .task id := by
    intro i' j' b₀ id hj' hlt hb₀ hslot
    by_cases hi : i' = i
    · subst hi
      obtain rfl := Option.some.inj (hb.symm.trans hb₀)
      have hne : j' ≠ j := fun he => absurd hlt (he ▸ lt_irrefl _)
      exact ⟨c, update_self _ _ _, by rw [hb', update_of_ne hne, hslot]⟩
    · exact ⟨b₀, by rw [update_of_ne hi, hb₀], hslot⟩
  refine ⟨fun i' j' hj' hlo' hhi' => ?_, fun id t ht => ?_, fun id hid => ?_⟩
  · obtain hlt | heq := Nat.lt_succ_iff_lt_or_eq.mp hhi'
    · obtain ⟨b₀, id, hb₀, hslot, hrun⟩ := h.slot i' j' hj' hlo' hlt
      obtain ⟨b₁, hb₁, hslot₁⟩ := hold i' j' b₀ id hj' hlt hb₀ hslot
      have hid : id ≠ k.born := fun he => by
        rw [h.unborn id he.ge] at hrun
        cases hrun
      exact ⟨b₁, id, hb₁, hslot₁, by rw [create_running, update_of_ne hid, hrun]⟩
    · obtain ⟨rfl, rfl⟩ := number_inj hj' hj heq
      exact ⟨c, k.born, update_self _ _ _, by rw [hb', update_self],
        by rw [create_running, update_self]⟩
  · by_cases hid : id = k.born
    · subst hid
      rw [create_running, update_self] at ht
      obtain rfl := Option.some.inj ht
      exact ⟨hj, hlo, Nat.lt_succ_self _, c, update_self _ _ _, by rw [hb', update_self]⟩
    · rw [create_running, update_of_ne hid] at ht
      obtain ⟨hj', hlo', hhi', b₀, hb₀, hslot⟩ := h.thread id t ht
      exact ⟨hj', hlo', hhi'.trans (Nat.lt_succ_self _), hold _ _ b₀ id hj' hhi' hb₀ hslot⟩
  · have hid : k.born + 1 ≤ id := hid
    rw [create_running, update_of_ne (by omega)]
    exact h.unborn id (by omega)

theorem stop (h : Occupied a bufs k (number a i j) hi) (hj : j < a.consumers)
    (hhi : number a i j < hi) :
    ∃ b k', bufs i = some b ∧ kthreadStop k (b.consumerThreads j) = some k' ∧
      Occupied a bufs k' (number a i j + 1) hi := by
  obtain ⟨b, id, hb, hslot, hrun⟩ := h.slot i j hj le_rfl hhi
  refine ⟨b, k.remove id, hb, ?_, ?_⟩
  · rw [hslot, kthreadStop, hrun]
    rfl
  refine ⟨fun i' j' hj' hlo' hhi' => ?_, fun id' t ht => ?_, fun id' hid' => ?_⟩
  · obtain ⟨b₀, id₀, hb₀, hslot₀, hrun₀⟩ := h.slot i' j' hj' (by omega) hhi'
    have hid : id₀ ≠ id := fun he => by
      have hsame := Option.some.inj ((he ▸ hrun₀).symm.trans hrun)
      obtain ⟨rfl, rfl, -⟩ := Thread.mk.inj hsame
      omega
    exact ⟨b₀, id₀, hb₀, hslot₀, by rw [remove_running, update_of_ne hid, hrun₀]⟩
  · have hid : id' ≠ id := fun he => by
      rw [he, remove_running, update_self] at ht
      cases ht
    rw [remove_running, update_of_ne hid] at ht
    obtain ⟨hj', hlo', hhi', b₀, hb₀, hslot₀⟩ := h.thread id' t ht
    refine ⟨hj', lt_of_le_of_ne hlo' fun he => hid ?_, hhi', b₀, hb₀, hslot₀⟩
    obtain ⟨hi', hj₀⟩ := number_inj hj hj' he
    rw [← hi', hb] at hb₀
    obtain rfl := Option.some.inj hb₀
    rw [← hj₀, hslot] at hslot₀
    exact (Task.task.inj hslot₀).symm
  · by_cases hid : id' = id
    · rw [hid, remove_running, update_self]
    · rw [remove_running, update_of_ne hid]
      exact h.unborn id' hid'

end Occupied

/-- The first `n` consumers are where they start. -/
structure Ready (descrPerConsumer firstRxd startingConsumer n : Nat) (p : Progress) : Prop where
  readOff : p.consumerReadOff = 0
  writeOff : p.consumerWriteOff = 0
  rxdIdx : ∀ j < n,
    p.rxdIdx j = if j = startingConsumer then firstRxd else j * descrPerConsumer
  canFree : ∀ j < n, p.canFree j = decide (j = startingConsumer)
  freedLastRxd : ∀ j < n, p.freedLastRxd j = false

theorem Ready.start {d firstRxd startingConsumer n : Nat} {p : Progress}
    (h : Ready d firstRxd startingConsumer n p) :
    Ready d firstRxd startingConsumer (n + 1) (p.start d firstRxd startingConsumer n) := by
  refine ⟨h.readOff, h.writeOff, fun j hj => ?_, fun j hj => ?_, fun j hj => ?_⟩
  · change update p.rxdIdx n _ j = _
    obtain hlt | rfl := Nat.lt_succ_iff_lt_or_eq.mp hj
    · rw [update_of_ne hlt.ne, h.rxdIdx j hlt]
    · rw [update_self]
  · change update p.canFree n _ j = _
    obtain hlt | rfl := Nat.lt_succ_iff_lt_or_eq.mp hj
    · rw [update_of_ne hlt.ne, h.canFree j hlt]
    · rw [update_self]
  · change update p.freedLastRxd n _ j = _
    obtain hlt | rfl := Nat.lt_succ_iff_lt_or_eq.mp hj
    · rw [update_of_ne hlt.ne, h.freedLastRxd j hlt]
    · rw [update_self]

/-- What a launch is to make of a buffer whose next descriptor is `firstRxd`. -/
structure Started (a : Adapter) (i firstRxd : Nat) (b : HpcapBuf) : Prop where
  created : b.created = true
  consumers : b.consumers = a.consumers
  descrPerConsumer : b.descrPerConsumer = a.ringSize i / a.consumers
  ready : Ready (a.ringSize i / a.consumers) firstRxd
    (firstRxd % a.ringSize i / (a.ringSize i / a.consumers)) a.consumers b.progress

/-- The buffer of queue `i` in the inner loop, with the threads of its first `j` consumers. -/
structure UpTo (a : Adapter) (bufs : Nat → Option HpcapBuf) (i firstRxd j : Nat) (l : Launching) :
    Prop where
  coreCount : l.coreCount = number a i j
  created : l.bufp.created = true
  consumers : l.bufp.consumers = a.consumers
  descrPerConsumer : l.bufp.descrPerConsumer = a.ringSize i / a.consumers
  ready : Ready (a.ringSize i / a.consumers) firstRxd
    (firstRxd % a.ringSize i / (a.ringSize i / a.consumers)) j l.bufp.progress
  occupied : Occupied a (update bufs i (some l.bufp)) l.kernel 0 (number a i j)

section launch

variable {a : Adapter} {bufs : Nat → Option HpcapBuf} {i j firstRxd : Nat} {b : HpcapBuf}
  {k : Kernel}

theorem Occupied.replace {lo hi : Nat} {b' : HpcapBuf} (h : Occupied a bufs k lo hi)
    (hb : bufs i = some b) (hb' : b'.consumerThreads = b.consumerThreads) :
    Occupied a (update bufs i (some b')) k lo hi := by
  refine h.congr fun i' b₀ hb₀ => ?_
  by_cases hi : i' = i
  · subst hi
    obtain rfl := Option.some.inj (hb.symm.trans hb₀)
    exact ⟨b', update_self _ _ _, hb'⟩
  · exact ⟨b₀, by rw [update_of_ne hi, hb₀], rfl⟩

theorem UpTo.zero (h : Occupied a bufs k 0 (number a i 0)) (hb : bufs i = some b) :
    UpTo a bufs i firstRxd 0 ⟨b.setUp a.consumers (a.ringSize i / a.consumers), k, number a i 0⟩ :=
  ⟨rfl, rfl, rfl, rfl, ⟨rfl, rfl, fun j hj => absurd hj (Nat.not_lt_zero j),
    fun j hj => absurd hj (Nat.not_lt_zero j), fun j hj => absurd hj (Nat.not_lt_zero j)⟩,
    h.replace hb rfl⟩

theorem UpTo.succ {l : Launching} {replies : Nat → Reply} (h : UpTo a bufs i firstRxd j l)
    (hj : j < a.consumers) (hreply : replies j = .created) :
    ∃ l', launchConsumer a i firstRxd (firstRxd % a.ringSize i / (a.ringSize i / a.consumers))
        replies j l = some (l', true) ∧ UpTo a bufs i firstRxd (j + 1) l' := by
  have hpass : launchConsumer a i firstRxd (firstRxd % a.ringSize i / (a.ringSize i / a.consumers))
      replies j l = some (⟨(l.bufp.start firstRxd
        (firstRxd % a.ringSize i / (a.ringSize i / a.consumers)) j).put j (.task l.kernel.born),
          l.kernel.create ⟨i, j, a.core + number a i j⟩, number a i (j + 1)⟩, true) := by
    simp only [launchConsumer, hreply, h.coreCount]
    rfl
  refine ⟨_, hpass, rfl, h.created, h.consumers, h.descrPerConsumer, ?_, ?_⟩
  · have hready := h.ready.start
    rw [← h.descrPerConsumer] at hready ⊢
    exact hready
  · have hcreate := h.occupied.create (c := (l.bufp.start firstRxd
      (firstRxd % a.ringSize i / (a.ringSize i / a.consumers)) j).put j (.task l.kernel.born)) hj
        (Nat.zero_le _) (update_self _ _ _) rfl
    rw [update_idem] at hcreate
    exact hcreate

/-- A queue that was not created gets its threads, with the cores that come next. -/
theorem launchQueue_launches {nextRxd : Nat → Nat} {replies : Nat → Nat → Reply}
    (h : Occupied a bufs k 0 (number a i 0)) (hb : bufs i = some b) (hnot : b.created = false)
    (hreplies : ∀ j < a.consumers, replies i j = .created) :
    ∃ b' k', launchQueue a nextRxd replies i (⟨bufs, k⟩, number a i 0) =
        some ((⟨update bufs i (some b'), k'⟩, number a (i + 1) 0), true) ∧
      Occupied a (update bufs i (some b')) k' 0 (number a (i + 1) 0) ∧
      Started a i (nextRxd i) b' := by
  obtain ⟨l, hl, hupto⟩ := forEach_range (UpTo a bufs i (nextRxd i))
    (fun j hj l hupto => hupto.succ hj (hreplies j hj)) (.zero h hb)
  obtain ⟨hcount, hcreated, hconsumers, hd, hready, hocc⟩ := hupto
  rw [number_consumers] at hcount hocc
  refine ⟨l.bufp, l.kernel, ?_, hocc, hcreated, hconsumers, hd, hready⟩
  simp only [launchQueue, hb, hnot, Bool.false_eq_true, if_false]
  rw [hl, Option.map_some, hcount]

end launch

/-- A queue that was created loses its threads. -/
theorem stopQueue_stops {a : Adapter} {i hi : Nat} {s : State} {b : HpcapBuf}
    (h : Occupied a s.bufs s.kernel (number a i 0) hi) (hhi : number a (i + 1) 0 ≤ hi)
    (hb : s.bufs i = some b) (hcreated : b.created = true) :
    ∃ k, stopQueue a i s = some (⟨update s.bufs i (some { b with created := false }), k⟩, true) ∧
      Occupied a (update s.bufs i (some { b with created := false })) k (number a (i + 1) 0) hi := by
  have hpass : ∀ j < a.consumers, ∀ k, Occupied a s.bufs k (number a i j) hi →
      ∃ k', (kthreadStop k (b.consumerThreads j)).map (fun k => (k, true)) = some (k', true) ∧
        Occupied a s.bufs k' (number a i (j + 1)) hi := by
    intro j hj k hocc
    have hlt : number a i j < hi := by
      refine lt_of_lt_of_le ?_ hhi
      rw [← number_consumers]
      exact Nat.add_lt_add_left hj _
    obtain ⟨b₀, k', hb₀, hstop, hocc'⟩ := hocc.stop hj hlt
    obtain rfl := Option.some.inj (hb.symm.trans hb₀)
    exact ⟨k', by rw [hstop, Option.map_some], hocc'⟩
  obtain ⟨k, hk, hocc⟩ := forEach_range (fun j k => Occupied a s.bufs k (number a i j) hi) hpass h
  rw [number_consumers] at hocc
  refine ⟨k, ?_, hocc.replace hb rfl⟩
  simp only [stopQueue, hb, hcreated, if_true]
  rw [hk, Option.map_some]

/-- The buffers of all queues are created, none is, or there are none. -/
inductive Phase
  | up
  | down
  | gone

def Phase.Holds (a : Adapter) (s : State) : Phase → Prop
  | .up => (∀ i < a.numRxQueues, ∃ b, s.bufs i = some b ∧ b.created = true) ∧
    Occupied a s.bufs s.kernel 0 (number a a.numRxQueues 0)
  | .down => (∀ i < a.numRxQueues, ∃ b, s.bufs i = some b ∧ b.created = false) ∧
    Occupied a s.bufs s.kernel 0 0
  | .gone => (∀ i < a.numRxQueues, s.bufs i = none) ∧ Occupied a s.bufs s.kernel 0 0

/-- Every thread that is asked for is created. -/
def Granted (a : Adapter) : Step → Prop
  | .launch _ replies => ∀ i < a.numRxQueues, ∀ j < a.consumers, replies i j = .created
  | _ => True

instance (a : Adapter) : DecidablePred (Granted a) := fun act => by
  unfold Granted
  split <;> infer_instance

/-- A loop over the queues at queue `i`: those before are as they are to be, the rest as they
were. -/
structure Swept (before : Nat → Option HpcapBuf) (Done : Nat → HpcapBuf → Prop) (i : Nat)
    (bufs : Nat → Option HpcapBuf) : Prop where
  done : ∀ i' < i, ∃ b, bufs i' = some b ∧ Done i' b
  rest : ∀ i', i ≤ i' → bufs i' = before i'

section Swept

variable {before bufs : Nat → Option HpcapBuf} {Done : Nat → HpcapBuf → Prop} {i : Nat}

theorem Swept.zero : Swept before Done 0 before :=
  ⟨fun i hi => absurd hi (Nat.not_lt_zero i), fun _ _ => rfl⟩

theorem Swept.succ {b : HpcapBuf} (h : Swept before Done i bufs) (hb : Done i b) :
    Swept before Done (i + 1) (update bufs i (some b)) := by
  refine ⟨fun i' hi' => ?_, fun i' hi' => ?_⟩
  · obtain hlt | rfl := Nat.lt_succ_iff_lt_or_eq.mp hi'
    · obtain ⟨b₀, hb₀, hdone⟩ := h.done i' hlt
      exact ⟨b₀, by rw [update_of_ne hlt.ne, hb₀], hdone⟩
    · exact ⟨b, update_self _ _ _, hb⟩
  · rw [update_of_ne (by omega)]
    exact h.rest i' (by omega)

end Swept

section step

variable {a : Adapter} {s t : State} {nextRxd : Nat → Nat} {replies : Nat → Nat → Reply}

theorem number_zero : number a 0 0 = 0 := Nat.zero_mul _

/-- The first `n` queues are launched, as long as their threads can be created. -/
theorem launch_queues (nextRxd : Nat → Nat) {n : Nat} (h : Phase.down.Holds a s)
    (hreplies : ∀ i < n, ∀ j < a.consumers, replies i j = .created) (hn : n ≤ a.numRxQueues) :
    ∃ p, forEach (launchQueue a nextRxd replies) (List.range n) (s, 0) = some (p, true) ∧
      p.2 = number a n 0 ∧ Occupied a p.1.bufs p.1.kernel 0 (number a n 0) ∧
        Swept s.bufs (fun i => Started a i (nextRxd i)) n p.1.bufs := by
  let inv : Nat → State × Nat → Prop := fun i p => p.2 = number a i 0 ∧
    Occupied a p.1.bufs p.1.kernel 0 (number a i 0) ∧
      Swept s.bufs (fun i' => Started a i' (nextRxd i')) i p.1.bufs
  have hpass : ∀ i < n, ∀ p, inv i p →
      ∃ q, launchQueue a nextRxd replies i p = some (q, true) ∧ inv (i + 1) q := by
    rintro i hi ⟨⟨bufs, k⟩, count⟩ ⟨rfl, hocc, hswept⟩
    obtain ⟨b, hb, hnot⟩ := h.1 i (hi.trans_le hn)
    obtain ⟨b', k', hq, hocc', hb'⟩ :=
      launchQueue_launches hocc ((hswept.rest i le_rfl).trans hb) hnot (hreplies i hi)
    exact ⟨_, hq, rfl, hocc', hswept.succ hb'⟩
  refine forEach_range inv hpass ⟨number_zero.symm, ?_, .zero⟩
  rw [number_zero]
  exact h.2

theorem launch_down (nextRxd : Nat → Nat) (h : Phase.down.Holds a s) (hcore : 0 ≤ a.core)
    (hreplies : ∀ i < a.numRxQueues, ∀ j < a.consumers, replies i j = .created) :
    ∃ t, hpcapLaunchPollThreads a s nextRxd replies = some t ∧ Phase.up.Holds a t ∧
      ∀ i < a.numRxQueues, ∃ b, t.bufs i = some b ∧ Started a i (nextRxd i) b := by
  obtain ⟨p, hp, -, hocc, hswept⟩ := launch_queues nextRxd h hreplies le_rfl
  refine ⟨p.1, ?_, ⟨fun i hi => ?_, hocc⟩, hswept.done⟩
  · rw [hpcapLaunchPollThreads, if_neg (not_lt.mpr hcore), hp, Option.map_some]
  · obtain ⟨b, hb, hs⟩ := hswept.done i hi
    exact ⟨b, hb, hs.created⟩

/-- Queues that are created already, or that are not there, are left alone. -/
theorem launch_idle (h : (∀ i < a.numRxQueues, ∃ b, s.bufs i = some b ∧ b.created = true) ∨
    ∀ i < a.numRxQueues, s.bufs i = none) :
    hpcapLaunchPollThreads a s nextRxd replies = some s := by
  rw [hpcapLaunchPollThreads]
  split
  · rfl
  obtain h | h := h
  · have hpass : ∀ i < a.numRxQueues, ∀ p, p = (s, 0) →
        ∃ q, launchQueue a nextRxd replies i p = some (q, true) ∧ q = (s, 0) := by
      rintro i hi p rfl
      obtain ⟨b, hb, hcreated⟩ := h i hi
      exact ⟨(s, 0), by simp only [launchQueue, hb, hcreated, if_true], rfl⟩
    obtain ⟨q, hq, rfl⟩ := forEach_range (fun _ p => p = (s, 0)) hpass rfl
    rw [hq, Option.map_some]
  · cases hn : a.numRxQueues with
    | zero => rfl
    | succ n =>
      have hnone : s.bufs 0 = none := h 0 (hn ▸ n.succ_pos)
      rw [List.range_succ_eq_map, forEach]
      simp only [launchQueue, hnone, Option.bind_some, Bool.false_eq_true, if_false, Option.map_some]

theorem stop_up (h : Phase.up.Holds a s) :
    ∃ t, hpcapStopPollThreads a s = some t ∧ Phase.down.Holds a t := by
  let inv : Nat → State → Prop := fun i u =>
    Occupied a u.bufs u.kernel (number a i 0) (number a a.numRxQueues 0) ∧
      Swept s.bufs (fun _ b => b.created = false) i u.bufs
  have hpass : ∀ i < a.numRxQueues, ∀ u, inv i u →
      ∃ v, stopQueue a i u = some (v, true) ∧ inv (i + 1) v := by
    rintro i hi u ⟨hocc, hswept⟩
    obtain ⟨b, hb, hcreated⟩ := h.1 i hi
    have hle : number a (i + 1) 0 ≤ number a a.numRxQueues 0 :=
      Nat.mul_le_mul_right a.consumers (Nat.succ_le_of_lt hi)
    obtain ⟨k, hk, hocc'⟩ := stopQueue_stops hocc hle ((hswept.rest i le_rfl).trans hb) hcreated
    exact ⟨_, hk, hocc', hswept.succ rfl⟩
  have hinit : inv 0 s := by
    refine ⟨?_, .zero⟩
    rw [number_zero]
    exact h.2
  obtain ⟨t, ht, hocc, hswept⟩ := forEach_range inv hpass hinit
  refine ⟨t, ?_, hswept.done, hocc.empty _ 0⟩
  rw [hpcapStopPollThreads, ht, Option.map_some]

theorem stop_idle (h : ∀ i < a.numRxQueues, ∀ b, s.bufs i = some b → b.created = false) :
    hpcapStopPollThreads a s = some s := by
  have hpass : ∀ i < a.numRxQueues, ∀ u, u = s →
      ∃ v, stopQueue a i u = some (v, true) ∧ v = s := by
    rintro i hi u rfl
    refine ⟨u, ?_, rfl⟩
    cases hb : u.bufs i with
    | none => simp only [stopQueue, hb]
    | some b => simp only [stopQueue, hb, h i hi b hb, Bool.false_eq_true, if_false]
  obtain ⟨t, ht, rfl⟩ := forEach_range (fun _ u => u = s) hpass rfl
  rw [hpcapStopPollThreads, ht, Option.map_some]

theorem nothing_runs (h : Occupied a s.bufs s.kernel 0 0) (id : Nat) :
    s.kernel.running id = none := by
  cases ht : s.kernel.running id with
  | none => rfl
  | some t =>
    obtain ⟨-, -, hlt, -⟩ := h.thread id t ht
    exact absurd hlt (Nat.not_lt_zero _)

/-- Stopping always goes through, and leaves nothing that runs. -/
theorem stop_holds {p : Phase} (h : p.Holds a s) : ∃ t, hpcapStopPollThreads a s = some t ∧
    (Phase.down.Holds a t ∨ Phase.gone.Holds a t) ∧ ∀ id, t.kernel.running id = none := by
  cases p with
  | up =>
    obtain ⟨t, ht, hdown⟩ := stop_up h
    exact ⟨t, ht, .inl hdown, nothing_runs hdown.2⟩
  | down =>
    refine ⟨s, stop_idle fun i hi b hb => ?_, .inl h, nothing_runs h.2⟩
    obtain ⟨b', hb', hnot⟩ := h.1 i hi
    rwa [← Option.some.inj (hb'.symm.trans hb)]
  | gone =>
    refine ⟨s, stop_idle fun i hi b hb => ?_, .inr h, nothing_runs h.2⟩
    rw [h.1 i hi] at hb
    cases hb

theorem launch_holds (nextRxd : Nat → Nat) {p : Phase} (h : p.Holds a s)
    (hreplies : ∀ i < a.numRxQueues, ∀ j < a.consumers, replies i j = .created) :
    ∃ t q, hpcapLaunchPollThreads a s nextRxd replies = some t ∧ Phase.Holds a t q := by
  cases p with
  | up => exact ⟨s, .up, launch_idle (.inl h.1), h⟩
  | gone => exact ⟨s, .gone, launch_idle (.inr h.1), h⟩
  | down =>
    by_cases hcore : a.core < 0
    · exact ⟨s, .down, by rw [hpcapLaunchPollThreads, if_pos hcore], h⟩
    · obtain ⟨t, ht, hup, -⟩ := launch_down nextRxd h (not_lt.mp hcore) hreplies
      exact ⟨t, .up, ht, hup⟩

/-- A thread of a queue goes on: only the progress of that queue changes. -/
theorem poll_holds {p : Phase} {i : Nat} {b : HpcapBuf} (h : p.Holds a s) (hb : s.bufs i = some b)
    (progress : Progress) :
    p.Holds a { s with bufs := update s.bufs i (some { b with progress := progress }) } := by
  have hbufs : ∀ (c : Bool) (i' : Nat), (∃ b', s.bufs i' = some b' ∧ b'.created = c) →
      ∃ b', update s.bufs i (some { b with progress := progress }) i' = some b' ∧ b'.created = c := by
    rintro c i' ⟨b', hb', hc⟩
    by_cases hi : i' = i
    · subst hi
      obtain rfl := Option.some.inj (hb.symm.trans hb')
      exact ⟨_, update_self _ _ _, hc⟩
    · exact ⟨b', by rw [update_of_ne hi, hb'], hc⟩
  cases p with
  | up => exact ⟨fun i' hi' => hbufs true i' (h.1 i' hi'), h.2.replace hb rfl⟩
  | down => exact ⟨fun i' hi' => hbufs false i' (h.1 i' hi'), h.2.replace hb rfl⟩
  | gone =>
    refine ⟨fun i' hi' => ?_, h.2.replace hb rfl⟩
    have hi : i' ≠ i := fun he => by
      rw [← he, h.1 i' hi'] at hb
      cases hb
    change update s.bufs i _ i' = none
    rw [update_of_ne hi, h.1 i' hi']

theorem step_holds {p : Phase} {act : Step} (h : p.Holds a s) (hok : Granted a act)
    (ht : step a s act = some t) : ∃ q : Phase, q.Holds a t := by
  cases act with
  | launch nextRxd replies =>
    obtain ⟨u, q, hu, hq⟩ := launch_holds nextRxd h hok
    obtain rfl := Option.some.inj (hu.symm.trans ht)
    exact ⟨q, hq⟩
  | stop =>
    obtain ⟨u, hu, hq, -⟩ := stop_holds h
    obtain rfl := Option.some.inj (hu.symm.trans ht)
    exact hq.elim (fun hq => ⟨.down, hq⟩) fun hq => ⟨.gone, hq⟩
  | poll i progress =>
    obtain ⟨b, hb, ht⟩ := Option.bind_eq_some_iff.mp ht
    obtain ⟨-, rfl⟩ := Option.ite_none_right_eq_some.mp ht |>.imp_right Option.some.inj
    exact ⟨p, poll_holds h hb progress⟩
  | unregister =>
    obtain ⟨u, hu, rfl⟩ := Option.map_eq_some_iff.mp ht
    obtain ⟨u', hu', hq, -⟩ := stop_holds h
    obtain rfl := Option.some.inj (hu'.symm.trans hu)
    have hocc : Occupied a u'.bufs u'.kernel 0 0 := hq.elim And.right And.right
    refine ⟨.gone, fun i hi => ?_, hocc.empty _ 0⟩
    exact if_pos hi

end step

/-- The buffers of all queues are set up, and no thread runs yet. -/
def Registered (a : Adapter) (s : State) : Prop :=
  (∀ i < a.numRxQueues, ∃ b, s.bufs i = some b ∧ b.created = false) ∧
    ∀ id, s.kernel.running id = none

theorem reach_holds {a : Adapter} {s : State}
    (h : Reach (step a) (fun _ => Granted a) (Registered a) s) : ∃ p : Phase, p.Holds a s := by
  refine h.invariant (fun t => ∃ p : Phase, p.Holds a t) ?_ ?_
  · rintro t ⟨hbufs, hnone⟩
    refine ⟨.down, hbufs, fun i j _ _ hhi => absurd hhi (Nat.not_lt_zero _), fun id u hu => ?_,
      fun id _ => hnone id⟩
    rw [hnone] at hu
    cases hu
  · rintro t act u ⟨p, hp⟩ hok hu
    exact step_holds hp hok hu

/-- The consumers start as those of the ring. -/
def AsInit (r : RxRing.Ring) (firstRxd : Nat) (p : Progress) : Prop :=
  ∀ c < r.consumers, p.rxdIdx c = (RxRing.init r firstRxd).rxdIdx c ∧
    p.canFree c = (RxRing.init r firstRxd).canFree c ∧
    p.freedLastRxd c = (RxRing.init r firstRxd).freedLastRxd c

theorem Started.asInit {a : Adapter} {i firstRxd : Nat} {b : HpcapBuf} {r : RxRing.Ring}
    (h : Started a i firstRxd b) (hsize : r.size = a.ringSize i)
    (hconsumers : r.consumers = a.consumers) : AsInit r firstRxd b.progress := by
  intro c hc
  rw [hconsumers] at hc
  simp only [RxRing.init, RxRing.Ring.rxdConsumerOf, RxRing.Ring.descrPerConsumer, hsize, hconsumers]
  exact ⟨h.ready.rxdIdx c hc, h.ready.canFree c hc, h.ready.freedLastRxd c hc⟩

/-- What a launch in state `s` leads to. -/
structure Launches (a : Adapter) (s t : State) (nextRxd : Nat → Nat) : Prop where
  again : (∀ i < a.numRxQueues, ∃ b, s.bufs i = some b ∧ b.created = true) → t = s
  first : 0 ≤ a.core → (∀ i < a.numRxQueues, ∃ b, s.bufs i = some b ∧ b.created = false) →
    ∀ i < a.numRxQueues, ∃ b, t.bufs i = some b ∧ Started a i (nextRxd i) b ∧
      ∀ r : RxRing.Ring, r.size = a.ringSize i → r.consumers = a.consumers →
        AsInit r (nextRxd i) b.progress

/-- The threads that run are one for each consumer of each queue that is created. No two share
a core, nothing else is ever stopped, and a launch starts what is not yet running. -/
structure Matched (a : Adapter) (s : State) : Prop where
  one_each : ∀ i < a.numRxQueues, ∀ b, s.bufs i = some b → b.created = true →
    ∀ j < a.consumers, ∃ id core, b.consumerThreads j = .task id ∧
      s.kernel.running id = some ⟨i, j, core⟩
  belongs : ∀ id t, s.kernel.running id = some t → t.queue < a.numRxQueues ∧
    t.thIndex < a.consumers ∧ ∃ b, s.bufs t.queue = some b ∧ b.created = true ∧
      b.consumerThreads t.thIndex = .task id
  cores : ∀ id id' t t', s.kernel.running id = some t → s.kernel.running id' = some t' →
    t.core = t'.core → id = id'
  stops : ∃ t, hpcapStopPollThreads a s = some t ∧ ∀ id, t.kernel.running id = none
  launches : ∀ nextRxd replies, Granted a (.launch nextRxd replies) →
    ∃ t, hpcapLaunchPollThreads a s nextRxd replies = some t ∧ Launches a s t nextRxd

theorem Occupied.core_eq {a : Adapter} {bufs : Nat → Option HpcapBuf} {k : Kernel} {lo hi id : Nat}
    {t : Thread} (h : Occupied a bufs k lo hi) (ht : k.running id = some t) :
    t.core = a.core + number a t.queue t.thIndex := by
  obtain ⟨hj, hlo, hhi, b, hb, hslot⟩ := h.thread id t ht
  obtain ⟨b', id', hb', hslot', hrun⟩ := h.slot _ _ hj hlo hhi
  obtain rfl := Option.some.inj (hb.symm.trans hb')
  obtain rfl := Task.task.inj (hslot.symm.trans hslot')
  exact (congrArg Thread.core (Option.some.inj (ht.symm.trans hrun)))

theorem Occupied.cores {a : Adapter} {bufs : Nat → Option HpcapBuf} {k : Kernel}
    {lo hi id id' : Nat} {t t' : Thread} (h : Occupied a bufs k lo hi) (ht : k.running id = some t)
    (ht' : k.running id' = some t') (hcore : t.core = t'.core) : id = id' := by
  rw [h.core_eq ht, h.core_eq ht'] at hcore
  obtain ⟨hj, -, -, b, hb, hslot⟩ := h.thread id t ht
  obtain ⟨hj', -, -, b', hb', hslot'⟩ := h.thread id' t' ht'
  obtain ⟨hi, hindex⟩ := number_inj hj hj' (Int.ofNat.inj (Int.add_left_cancel hcore))
  rw [← hi, hb] at hb'
  obtain rfl := Option.some.inj hb'
  rw [← hindex, hslot] at hslot'
  exact Task.task.inj hslot'

theorem Phase.Holds.occupied {a : Adapter} {s : State} {p : Phase} (h : p.Holds a s) :
    ∃ hi, Occupied a s.bufs s.kernel 0 hi := by
  cases p with
  | up | down | gone => exact ⟨_, h.2⟩

/-- With every buffer there and none created, the threads are stopped. -/
theorem Phase.Holds.down {a : Adapter} {s : State} {p : Phase} (h : p.Holds a s)
    (hall : ∀ i < a.numRxQueues, ∃ b, s.bufs i = some b ∧ b.created = false) :
    Phase.down.Holds a s := by
  cases p with
  | down => exact h
  | gone => exact ⟨hall, h.2⟩
  | up =>
    refine ⟨hall, ?_⟩
    obtain hn | hn := Nat.eq_zero_or_pos a.numRxQueues
    · have hocc := h.2
      rw [hn, number_zero] at hocc
      exact hocc
    · obtain ⟨b, hb, hnot⟩ := hall 0 hn
      obtain ⟨b', hb', hcreated⟩ := h.1 0 hn
      rw [Option.some.inj (hb.symm.trans hb'), hcreated] at hnot
      cases hnot

section failure

variable {a : Adapter} {s t : State} {nextRxd : Nat → Nat} {replies : Nat → Nat → Reply}

theorem UpTo.fails {bufs : Nat → Option HpcapBuf} {i j firstRxd : Nat} {l : Launching}
    {replies : Nat → Reply} (h : UpTo a bufs i firstRxd j l) (hreply : replies j ≠ .created) :
    launchConsumer a i firstRxd (firstRxd % a.ringSize i / (a.ringSize i / a.consumers)) replies j l =
      none ∨ ∃ l', launchConsumer a i firstRxd
        (firstRxd % a.ringSize i / (a.ringSize i / a.consumers)) replies j l = some (l', false) ∧
          l'.bufp.created = true ∧ ∀ id, l'.bufp.consumerThreads j ≠ .task id := by
  have hslot : ∀ (b : HpcapBuf) (task : Task), (∀ id, task ≠ .task id) →
      ∀ id, (b.put j task).consumerThreads j ≠ .task id := fun b task hne id => by
    change update b.consumerThreads j task j ≠ _
    rw [update_self]
    exact hne id
  simp only [launchConsumer]
  cases hr : replies j with
  | null => exact .inr ⟨_, rfl, h.created, hslot _ _ fun _ => Task.noConfusion⟩
  | err errno =>
    dsimp only
    split
    · exact .inr ⟨_, rfl, h.created, hslot _ _ fun _ => Task.noConfusion⟩
    · exact .inl rfl
  | created => exact absurd hr hreply

/-- The queue is marked as created and has no thread in the slot of consumer `j`. -/
def Missing (bufs : Nat → Option HpcapBuf) (i j : Nat) : Prop :=
  ∃ b, bufs i = some b ∧ b.created = true ∧ ∀ id, b.consumerThreads j ≠ .task id

theorem launchQueue_fails (nextRxd : Nat → Nat) {bufs : Nat → Option HpcapBuf} {k : Kernel}
    {i j : Nat} {b : HpcapBuf}
    (h : Occupied a bufs k 0 (number a i 0)) (hb : bufs i = some b) (hnot : b.created = false)
    (hj : j < a.consumers) (hreply : replies i j ≠ .created)
    (hbefore : ∀ j' < j, replies i j' = .created) :
    launchQueue a nextRxd replies i (⟨bufs, k⟩, number a i 0) = none ∨
      ∃ q, launchQueue a nextRxd replies i (⟨bufs, k⟩, number a i 0) = some (q, false) ∧
        Missing q.1.bufs i j := by
  obtain ⟨l, hl, hupto⟩ := forEach_range (UpTo a bufs i (nextRxd i))
    (fun j' hj' l hupto => hupto.succ (hj'.trans hj) (hbefore j' hj')) (.zero h hb)
  have hfail := hupto.fails hreply
  have hleft := forEach_range_left hj hl fun u hu => by
    obtain hnone | ⟨l', hl', -⟩ := hfail
    · rw [hnone] at hu
      cases hu
    · rw [hl'] at hu
      cases hu
  simp only [launchQueue, hb, hnot, Bool.false_eq_true, if_false]
  rw [hleft]
  obtain hnone | ⟨l', hl', hcreated, hslot⟩ := hfail
  · exact .inl (by rw [hnone, Option.map_none])
  · refine .inr ⟨_, by rw [hl', Option.map_some], l'.bufp, update_self _ _ _, hcreated, hslot⟩

/-- The first creation that fails ends the launch, or its error is taken for a thread. -/
theorem launch_fails (nextRxd : Nat → Nat) (h : Phase.down.Holds a s) (hcore : 0 ≤ a.core)
    {i j : Nat} (hi : i < a.numRxQueues) (hj : j < a.consumers) (hreply : replies i j ≠ .created)
    (hqueues : ∀ i' < i, ∀ j' < a.consumers, replies i' j' = .created)
    (hconsumers : ∀ j' < j, replies i j' = .created) :
    hpcapLaunchPollThreads a s nextRxd replies = none ∨
      ∃ t, hpcapLaunchPollThreads a s nextRxd replies = some t ∧ Missing t.bufs i j := by
  obtain ⟨⟨⟨bufs, k⟩, count⟩, hloop, rfl, hocc, hswept⟩ :=
    launch_queues nextRxd h hqueues hi.le
  obtain ⟨b, hb, hnot⟩ := h.1 i hi
  have hfail := launchQueue_fails nextRxd hocc ((hswept.rest i le_rfl).trans hb) hnot hj
    hreply hconsumers
  have hleft := forEach_range_left hi hloop fun u hu => by
    obtain hnone | ⟨q, hq, -⟩ := hfail
    · rw [hnone] at hu
      cases hu
    · rw [hq] at hu
      cases hu
  rw [hpcapLaunchPollThreads, if_neg (not_lt.mpr hcore), hleft]
  obtain hnone | ⟨q, hq, hmissing⟩ := hfail
  · exact .inl (by rw [hnone, Option.map_none])
  · exact .inr ⟨q.1, by rw [hq, Option.map_some], hmissing⟩

/-- To stop what is no thread is a fault. -/
theorem stop_fault {i j : Nat} (hi : i < a.numRxQueues) (hj : j < a.consumers)
    (h : Missing s.bufs i j) : hpcapStopPollThreads a s = none := by
  obtain ⟨b, hb, hcreated, hslot⟩ := h
  have hthread : ∀ k : Kernel, kthreadStop k (b.consumerThreads j) = none := fun k => by
    cases ht : b.consumerThreads j with
    | null | err => rfl
    | task id => exact absurd ht (hslot id)
  have hinner : ∀ k, forEach (fun j k => (kthreadStop k (b.consumerThreads j)).map fun k => (k, true))
      (List.range a.consumers) k = none := fun k => by
    refine forEach_fault (fun _ => True) (fun j' _ k' p _ hp => ?_) (List.mem_range.mpr hj)
      (fun k' _ => by rw [hthread k', Option.map_none]) trivial
    obtain ⟨k'', -, rfl⟩ := Option.map_eq_some_iff.mp hp
    exact ⟨rfl, trivial⟩
  have hqueue : ∀ u : State, u.bufs i = some b → stopQueue a i u = none := fun u hu => by
    simp only [stopQueue, hu, hcreated, if_true]
    rw [hinner, Option.map_none]
  rw [hpcapStopPollThreads, forEach_fault (fun u => u.bufs i = some b) (fun i' _ u p hu hp => ?_)
    (List.mem_range.mpr hi) hqueue hb, Option.map_none]
  have hne : i ≠ i' := fun he => by
    rw [← he, hqueue u hu] at hp
    cases hp
  cases hb' : u.bufs i' with
  | none =>
    simp only [stopQueue, hb', Option.some.injEq] at hp
    exact hp ▸ ⟨rfl, hu⟩
  | some b' =>
    simp only [stopQueue, hb'] at hp
    split at hp
    · obtain ⟨q, -, rfl⟩ := Option.map_eq_some_iff.mp hp
      refine ⟨rfl, ?_⟩
      change update u.bufs i' _ i = _
      rw [update_of_ne hne, hu]
    · exact Option.some.inj hp ▸ ⟨rfl, hu⟩

end failure

/-- As long as threads can be created, the interface may go up and down in any order. -/
theorem poll_threads_match (a : Adapter) (s : State)
    (h : Reach (step a) (fun _ => Granted a) (Registered a) s) : Matched a s := by
  obtain ⟨p, hp⟩ := reach_holds h
  obtain ⟨hi, hocc⟩ := hp.occupied
  refine ⟨fun i hi b hb hcreated j hj => ?_, fun id t ht => ?_,
    fun id id' t t' ht ht' => hocc.cores ht ht', ?_, fun nextRxd replies hreplies => ?_⟩
  · cases p with
    | up =>
      have hlt : number a i j < number a a.numRxQueues 0 := (number_lt_iff hj).mpr hi
      obtain ⟨b', id, hb', hslot, hrun⟩ := hp.2.slot i j hj (Nat.zero_le _) hlt
      obtain rfl := Option.some.inj (hb.symm.trans hb')
      exact ⟨id, _, hslot, hrun⟩
    | down =>
      obtain ⟨b', hb', hnot⟩ := hp.1 i hi
      rw [← Option.some.inj (hb.symm.trans hb'), hcreated] at hnot
      cases hnot
    | gone =>
      rw [hp.1 i hi] at hb
      cases hb
  · cases p with
    | up =>
      obtain ⟨hj, -, hlt, b, hb, hslot⟩ := hp.2.thread id t ht
      have hq : t.queue < a.numRxQueues := (number_lt_iff hj).mp hlt
      obtain ⟨b', hb', hcreated⟩ := hp.1 _ hq
      obtain rfl := Option.some.inj (hb.symm.trans hb')
      exact ⟨hq, hj, b, hb, hcreated, hslot⟩
    | down | gone =>
      rw [nothing_runs hp.2 id] at ht
      cases ht
  · obtain ⟨t, ht, -, hnone⟩ := stop_holds hp
    exact ⟨t, ht, hnone⟩
  · obtain ⟨t, q, ht, -⟩ := launch_holds nextRxd hp hreplies
    refine ⟨t, ht, fun hall => ?_, fun hcore hall i hi => ?_⟩
    · exact Option.some.inj (ht.symm.trans (launch_idle (.inl hall)))
    · obtain ⟨u, hu, -, hstarted⟩ :=
        launch_down nextRxd (hp.down hall) hcore hreplies
      obtain rfl := Option.some.inj (hu.symm.trans ht)
      obtain ⟨b, hb, hs⟩ := hstarted i hi
      exact ⟨b, hb, hs, fun r hsize hconsumers => hs.asInit hsize hconsumers⟩

/-- Two queues with two consumers each, on cores from 4 on. -/
def twoByTwo : Adapter :=
  ⟨4, 2, 2, fun _ => 512, Nat.two_pos, Nat.le_add_right 2 30, fun _ => Nat.le_add_right 2 510⟩

def blank : HpcapBuf :=
  ⟨false, 0, 0, fun _ => .null, ⟨0, 0, fun _ => 0, fun _ => false, fun _ => false⟩⟩

def allStopped : State := ⟨fun i => if i < 2 then some blank else none, fun _ => none, 0⟩

/-- Up, up again, down, and up once more. -/
def upAndDown : List Step :=
  [.launch (fun _ => 300) fun _ _ => .created, .launch (fun _ => 0) fun _ _ => .created, .stop,
    .launch (fun _ => 7) fun _ _ => .created]

theorem poll_threads_match_up_and_down : ∃ s, Matched twoByTwo s ∧
    (List.range 9).map s.kernel.running = [none, none, none, none,
      some ⟨0, 0, 4⟩, some ⟨0, 1, 5⟩, some ⟨1, 0, 6⟩, some ⟨1, 1, 7⟩, none] := by
  have hrun : (run (guard (step twoByTwo) fun _ => Granted twoByTwo) allStopped upAndDown).map
      (fun s => (List.range 9).map s.kernel.running) = some [none, none, none, none,
        some ⟨0, 0, 4⟩, some ⟨0, 1, 5⟩, some ⟨1, 0, 6⟩, some ⟨1, 1, 7⟩, none] := by
    decide +kernel
  obtain ⟨s, hs, hrunning⟩ := Option.map_eq_some_iff.mp hrun
  have hstart : Registered twoByTwo allStopped :=
    ⟨fun i hi => ⟨blank, if_pos hi, rfl⟩, fun _ => rfl⟩
  exact ⟨s, poll_threads_match twoByTwo s (.run_guard (.start hstart) hs), hrunning⟩

/-- After a launch from a state without threads the next stop goes through just when every
thread could be created. -/
theorem launch_then_stop_iff (a : Adapter) (hcore : 0 ≤ a.core) (s : State)
    (h : Reach (step a) (fun _ => Granted a) (Registered a) s)
    (hall : ∀ i < a.numRxQueues, ∃ b, s.bufs i = some b ∧ b.created = false)
    (nextRxd : Nat → Nat) (replies : Nat → Nat → Reply) :
    ((hpcapLaunchPollThreads a s nextRxd replies).bind (hpcapStopPollThreads a)).isSome = true ↔
      ∀ i < a.numRxQueues, ∀ j < a.consumers, replies i j = .created := by
  obtain ⟨p, hp⟩ := reach_holds h
  have hdown := hp.down hall
  constructor
  · intro hsome
    by_contra hno
    have hex : ∃ i, i < a.numRxQueues ∧ ∃ j, j < a.consumers ∧ replies i j ≠ .created := by
      simpa only [not_forall, exists_prop] using hno
    have hex' := (Nat.find_spec hex).2
    have hreply := Nat.find_spec hex'
    have hqueues : ∀ i' < Nat.find hex, ∀ j' < a.consumers, replies i' j' = .created := by
      intro i' hi' j' hj'
      by_contra hne
      exact Nat.find_min hex hi' ⟨hi'.trans (Nat.find_spec hex).1, j', hj', hne⟩
    have hconsumers : ∀ j' < Nat.find hex', replies (Nat.find hex) j' = .created := by
      intro j' hj'
      by_contra hne
      exact Nat.find_min hex' hj' ⟨hj'.trans hreply.1, hne⟩
    obtain hnone | ⟨t, ht, hmissing⟩ := launch_fails nextRxd hdown hcore (Nat.find_spec hex).1
      hreply.1 hreply.2 hqueues hconsumers
    · rw [hnone] at hsome
      cases hsome
    · rw [ht, Option.bind_some, stop_fault (Nat.find_spec hex).1 hreply.1 hmissing] at hsome
      cases hsome
  · intro hreplies
    obtain ⟨t, ht, hup, -⟩ := launch_down nextRxd hdown hcore hreplies
    obtain ⟨u, hu, -⟩ := stop_up hup
    rw [ht, Option.bind_some, hu]
    rfl

/-- Without memory for the last of four threads, the next stop is given what is no thread. -/
theorem launch_then_stop_iff_last_fails :
    ((hpcapLaunchPollThreads twoByTwo allStopped (fun _ => 0) fun i j =>
      if i = 1 ∧ j = 1 then .err enomem else .created).bind
        (hpcapStopPollThreads twoByTwo)).isSome = false := by
  have hstart : Registered twoByTwo allStopped :=
    ⟨fun i hi => ⟨blank, if_pos hi, rfl⟩, fun _ => rfl⟩
  have hiff := launch_then_stop_iff twoByTwo (by decide) allStopped (.start hstart) hstart.1
    (fun _ => 0) fun i j => if i = 1 ∧ j = 1 then .err enomem else .created
  refine Bool.eq_false_iff.mpr fun hsome => ?_
  have hlast := hiff.mp hsome 1 (by decide) 1 (by decide)
  exact absurd hlast (by decide)

end Hpcap.Threads
