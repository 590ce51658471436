import Hpcap.RxRing

namespace Hpcap.Arrivals

open Hpcap.Transition Hpcap.RxRing Function

variable {α : Type*}

/-- The ring with its frames: the one in the buffer of each descriptor, those that the
hardware has received, and those that the consumers have read, each with its consumer. -/
structure State (α : Type*) where
  ring : RxRing.State
  buffers : Nat → Option α
  received : List α
  taken : List (Nat × α)

inductive Step (α : Type*)
  | enter (consumer : Nat)
  | read (consumer : Nat)
  | release (consumer : Nat)
  | leave (consumer : Nat)
  | receive (frame : α)

def Step.ring : Step α → RxRing.Step
  | .enter c => .enter c
  | .read c => .read c
  | .release c => .release c
  | .leave c => .leave c
  | .receive _ => .fill

/-- The descriptor that a consumer looks at next. -/
def rxdToRead (s : RxRing.State) (c : Nat) : Nat :=
  match s.pcs c with
  | .idle => s.rxdIdx c
  | .loop qidx _ _ _ => qidx
  | .read qidx _ _ => qidx

/-- What `check4packet` hands to the consumer. -/
def fetch (r : Ring) (s : State α) (c : Nat) : List (Nat × α) :=
  ((s.buffers (rxdToRead s.ring c % r.size)).map (Prod.mk c)).toList

def step (r : Ring) (s : State α) (a : Step α) : Option (State α) :=
  (RxRing.step r s.ring a.ring).map fun t =>
    match a with
    | .receive frame =>
      ⟨t, update s.buffers s.ring.head (some frame), s.received ++ [frame], s.taken⟩
    | .read c => ⟨t, s.buffers, s.received, s.taken ++ fetch r s c⟩
    | _ => ⟨t, s.buffers, s.received, s.taken⟩

def start (r : Ring) (firstRxd : Nat) : State α := ⟨init r firstRxd, fun _ => none, [], []⟩

/-- What a consumer has read. -/
def State.takenBy (s : State α) (c : Nat) : List α :=
  (s.taken.filter fun p => p.1 = c).map Prod.snd

/-- The frames that went to the descriptors of a consumer, as they came. -/
def dealt (r : Ring) (firstRxd : Nat) (frames : List α) (c : Nat) : List α :=
  ((frames.zipIdx firstRxd).filter fun p => r.rxdConsumerOf p.2 = c).map Prod.fst

/-- Each consumer has read the first of its frames, as they came and once each, and all of
them when the next descriptor is not done. -/
structure InOrder (r : Ring) (firstRxd : Nat) (s : State α) : Prop where
  prefix_dealt : ∀ c < r.consumers, s.takenBy c <+: dealt r firstRxd s.received c
  caught_up : ∀ c < r.consumers, (s.ring.descs (rxdToRead s.ring c % r.size)).dd = false →
    s.takenBy c = dealt r firstRxd s.received c
  consumer_lt : ∀ p ∈ s.taken, p.1 < r.consumers

section dealt

variable {r : Ring} {firstRxd c : Nat} {frames : List α}

theorem rxdConsumerOf_eq (r : Ring) (x : Nat) : r.rxdConsumerOf x = r.consumerAt x := by
  rw [← r.rxdConsumerOf_mod, Ring.rxdConsumerOf, Ring.rxdConsumerOf, Nat.mod_mod]

theorem consumerAt_base (r : Ring) (firstRxd k : Nat) :
    r.consumerAt (firstRxd + r.size + k) = r.consumerAt (firstRxd + k) := by
  rw [Nat.add_right_comm, consumerAt_add_size]

theorem dealt_append_singleton (r : Ring) (firstRxd c : Nat) (frames : List α) (frame : α) :
    dealt r firstRxd (frames ++ [frame]) c = dealt r firstRxd frames c ++
      if r.consumerAt (firstRxd + frames.length) = c then [frame] else [] := by
  simp only [dealt, List.zipIdx_append, List.filter_append, List.map_append, rxdConsumerOf_eq,
    List.zipIdx_singleton, List.filter_singleton]
  split <;> simp_all

theorem dealt_take_succ {k : Nat} (hk : k < frames.length) :
    dealt r firstRxd (frames.take (k + 1)) c = dealt r firstRxd (frames.take k) c ++
      if r.consumerAt (firstRxd + k) = c then [frames[k]] else [] := by
  rw [← List.take_append_getElem hk, dealt_append_singleton, List.length_take,
    Nat.min_eq_left hk.le]

/-- Frames for other consumers make no difference. -/
theorem dealt_take_of_forall_ne {k m : Nat} (hkm : k ≤ m)
    (hne : ∀ x, k ≤ x → x < m → r.consumerAt (firstRxd + x) ≠ c) :
    dealt r firstRxd (frames.take m) c = dealt r firstRxd (frames.take k) c := by
  induction m, hkm using Nat.le_induction with
  | base => rfl
  | succ m hkm ih =>
    rw [← ih fun x hx hxm => hne x hx (by omega)]
    by_cases hm : m < frames.length
    · rw [dealt_take_succ hm, if_neg (hne m hkm (by omega)), List.append_nil]
    · rw [List.take_of_length_le (by omega), List.take_of_length_le (by omega)]

theorem dealt_take_prefix (r : Ring) (firstRxd c k : Nat) (frames : List α) :
    dealt r firstRxd (frames.take k) c <+: dealt r firstRxd frames c := by
  have happend : dealt r firstRxd frames c = dealt r firstRxd (frames.take k) c ++
      dealt r (firstRxd + (frames.take k).length) (frames.drop k) c := by
    nth_rewrite 1 [← List.take_append_drop k frames]
    rw [dealt, List.zipIdx_append, List.filter_append, List.map_append]
    rfl
  exact ⟨_, happend.symm⟩

end dealt

/-- The ring unrolled, with the frames in it. The frame received `k`-th went to position
`firstRxd + r.size + k`, and is there for one round. -/
structure Inv (r : Ring) (firstRxd : Nat) (s : State α) (S H : Nat) (n : Nat → Nat)
    (held : Bool) : Prop where
  ring : RxRing.Inv r s.ring S H n held
  received : H = firstRxd + r.size + s.received.length
  base_le : ∀ c < r.consumers, firstRxd + r.size ≤ n c
  buffers : ∀ (k : Nat) (hk : k < s.received.length), s.received.length ≤ k + r.size →
    s.buffers ((firstRxd + r.size + k) % r.size) = some s.received[k]
  taken : ∀ c < r.consumers,
    s.takenBy c = dealt r firstRxd (s.received.take (n c - (firstRxd + r.size))) c
  consumer_lt : ∀ p ∈ s.taken, p.1 < r.consumers

theorem takenBy_append (s : State α) (c : Nat) (ps : List (Nat × α)) (t : RxRing.State) :
    (State.mk t s.buffers s.received (s.taken ++ ps)).takenBy c =
      s.takenBy c ++ (ps.filter fun p => p.1 = c).map Prod.snd := by
  rw [State.takenBy, List.filter_append, List.map_append]
  rfl

namespace Inv

variable {r : Ring} {firstRxd : Nat} {s : State α} {S H : Nat} {n : Nat → Nat} {held : Bool}

theorem rxdToRead_mod (h : RxRing.Inv r s.ring S H n held) {c : Nat} (hc : c < r.consumers) :
    rxdToRead s.ring c % r.size = n c % r.size := by
  have ht := h.threads c hc
  simp only [ThreadAt] at ht
  unfold rxdToRead
  cases hp : s.ring.pcs c with
  | idle =>
    rw [hp] at ht
    dsimp only
    rw [ht.1, Nat.mod_mod]
  | loop | read =>
    rw [hp] at ht
    dsimp only
    rw [ht.1, Nat.mod_mod]

/-- A step that moves no frame. -/
theorem still (h : Inv r firstRxd s S H n held) {t : RxRing.State} {S' : Nat} {held' : Bool}
    (ht : RxRing.Inv r t S' H n held') :
    Inv r firstRxd ⟨t, s.buffers, s.received, s.taken⟩ S' H n held' :=
  ⟨ht, h.received, h.base_le, h.buffers, h.taken, h.consumer_lt⟩

theorem receive (h : Inv r firstRxd s S H n held) {t : RxRing.State} {S' : Nat} {held' : Bool}
    (frame : α) (ht : RxRing.Inv r t S' (H + 1) n held') :
    Inv r firstRxd ⟨t, update s.buffers s.ring.head (some frame), s.received ++ [frame], s.taken⟩
      S' (H + 1) n held' := by
  have hrec := h.received
  have hhead : s.ring.head = (firstRxd + r.size + s.received.length) % r.size := by
    rw [h.ring.head, hrec]
  refine ⟨ht, ?_, h.base_le, fun k hk hround => ?_, fun c hc => ?_, h.consumer_lt⟩
  · simp only [List.length_append, List.length_singleton]
    omega
  · simp only [List.length_append, List.length_singleton] at hk hround ⊢
    rw [hhead]
    by_cases hlast : k = s.received.length
    · subst hlast
      simp
    · have hold : k < s.received.length := by omega
      have hother : (firstRxd + r.size + k) % r.size ≠
          (firstRxd + r.size + s.received.length) % r.size := fun he => by
        have := mod_inj (S := firstRxd + r.size + k) le_rfl (by have := r.size_pos; omega) (by omega)
          (by omega) he
        omega
      rw [update_of_ne hother, h.buffers k hold (by omega), List.getElem_append_left hold]
  · change s.takenBy c = _
    rw [h.taken c hc]
    by_cases hle : n c ≤ H
    · rw [List.take_append_of_le_length (by omega)]
    · have hmiss : r.consumerAt (firstRxd + s.received.length) ≠ c := fun hh => by
        rw [← consumerAt_base, ← hrec] at hh
        have := h.ring.above H (hh.symm ▸ Nat.not_le.mp hle)
        omega
      have hall : (s.received ++ [frame]).length ≤ n c - (firstRxd + r.size) := by
        rw [List.length_append, List.length_singleton]
        omega
      dsimp only
      rw [List.take_of_length_le hall, List.take_of_length_le (by omega), dealt_append_singleton,
        if_neg hmiss, List.append_nil]

theorem fetch_eq (h : Inv r firstRxd s S H n held) {c : Nat} (hc : c < r.consumers)
    (hlt : S < n c) (hk : n c - (firstRxd + r.size) < s.received.length) :
    fetch r s c = [(c, s.received[n c - (firstRxd + r.size)])] := by
  have hbase := h.base_le c hc
  have hrec := h.received
  have hle := h.ring.le
  have hbuf := h.buffers (n c - (firstRxd + r.size)) hk (by omega)
  rw [Nat.add_sub_cancel' hbase] at hbuf
  rw [fetch, rxdToRead_mod h.ring hc, hbuf]
  rfl

theorem read (h : Inv r firstRxd s S H n held) {c : Nat} {t : RxRing.State} {S' : Nat}
    {held' : Bool} (hc : c < r.consumers) (hlt : S < n c) (hH : n c < H)
    (ht : RxRing.Inv r t S' H (update n c (r.nextPos (n c))) held') :
    Inv r firstRxd ⟨t, s.buffers, s.received, s.taken ++ fetch r s c⟩ S' H
      (update n c (r.nextPos (n c))) held' := by
  have hbase := h.base_le c hc
  have hrec := h.received
  have hk : n c - (firstRxd + r.size) < s.received.length := by omega
  have hnext := r.lt_nextPos (n c)
  have hown := h.ring.own c hc
  have hfetch := h.fetch_eq hc hlt hk
  refine ⟨ht, hrec, fun c' hc' => ?_, h.buffers, fun c' hc' => ?_, fun p hp => ?_⟩
  · by_cases he : c' = c
    · rw [he, update_self]
      omega
    · rw [update_of_ne he]
      exact h.base_le c' hc'
  · rw [takenBy_append, hfetch, h.taken c' hc']
    by_cases he : c' = c
    · subst he
      have hskip : ∀ x, n c' - (firstRxd + r.size) + 1 ≤ x →
          x < r.nextPos (n c') - (firstRxd + r.size) → r.consumerAt (firstRxd + x) ≠ c' := by
        intro x hx hx' hh
        rw [← consumerAt_base] at hh
        have := (r.lt_nextPos_iff (hh.trans hown.symm)).mp (by omega)
        omega
      have hmine : r.consumerAt (firstRxd + (n c' - (firstRxd + r.size))) = c' := by
        rw [← consumerAt_base, Nat.add_sub_cancel' hbase, hown]
      rw [update_self, dealt_take_of_forall_ne (by omega) hskip, dealt_take_succ hk, if_pos hmine]
      simp
    · rw [update_of_ne he]
      simp [Ne.symm he]
  · rw [hfetch] at hp
    obtain hp | hp := List.mem_append.mp hp
    · exact h.consumer_lt p hp
    · rw [List.mem_singleton.mp hp]
      exact hc

theorem start (hfirst : firstRxd < r.size) :
    Inv r firstRxd (Arrivals.start r firstRxd : State α) (firstRxd + r.size - 1)
      (firstRxd + r.size) (firstPos r firstRxd) true := by
  refine ⟨init_inv hfirst, rfl, fun c hc => ?_, fun k hk => absurd hk (Nat.not_lt_zero k),
    fun c hc => ?_, fun p hp => absurd hp List.not_mem_nil⟩
  · have hread := lt_firstPos_iff hfirst (firstPos r firstRxd c)
    rw [consumerAt_firstPos r firstRxd hc] at hread
    exact Nat.not_lt.mp fun hlt => absurd (hread.mpr hlt) (lt_irrefl _)
  · rw [show (Arrivals.start r firstRxd : State α).received = [] from rfl, List.take_nil]
    rfl

theorem step (h : Inv r firstRxd s S H n held) {a : Step α} {t : State α}
    (ht : Arrivals.step r s a = some t) (hok : Fresh r s.ring a.ring) :
    ∃ S' H' n' held', Inv r firstRxd t S' H' n' held' := by
  obtain ⟨u, hu, rfl⟩ := Option.map_eq_some_iff.mp ht
  obtain ⟨S', held', hinv⟩ := h.ring.step_frontiers hu hok
  refine ⟨S', filledAfter H a.ring, nextAfter r n a.ring, held', ?_⟩
  cases a with
  | receive frame => exact h.receive frame hinv
  | read c =>
    obtain ⟨hc, hlt, hH⟩ := h.ring.reads hu
    exact h.read hc hlt hH hinv
  | enter | release | leave => exact h.still hinv

theorem inOrder (h : Inv r firstRxd s S H n held) : InOrder r firstRxd s := by
  refine ⟨fun c hc => ?_, fun c hc hdd => ?_, h.consumer_lt⟩
  · rw [h.taken c hc]
    exact dealt_take_prefix r firstRxd c _ _
  · rw [rxdToRead_mod h.ring hc] at hdd
    have hend := h.ring.next_undone hc hdd
    have hrec := h.received
    rw [h.taken c hc, List.take_of_length_le (by omega)]

end Inv

/-- As long as the call after the loop is fresh, no frame is lost, read twice or out of order. -/
theorem frames_in_order (r : Ring) (firstRxd : Nat) (hfirst : firstRxd < r.size) (s : State α)
    (h : Reach (step r) (fun s a => Fresh r s.ring a.ring) (· = start r firstRxd) s) :
    InOrder r firstRxd s := by
  have hinv : ∃ S H n held, Inv r firstRxd s S H n held := by
    refine h.invariant (fun t => ∃ S H n held, Inv r firstRxd t S H n held) ?_ ?_
    · rintro t rfl
      exact ⟨_, _, _, _, Inv.start hfirst⟩
    · rintro t a u ⟨S, H, n, held, hinv⟩ hok hu
      exact hinv.step hu hok
  obtain ⟨S, H, n, held, hinv⟩ := hinv
  exact hinv.inOrder

/-- Two consumers read three frames, the first two of them from the segment of consumer 0. -/
def twoReaders : List (Step Nat) :=
  [.receive 10, .receive 11, .receive 12, .enter 0, .enter 1, .read 0, .read 1, .release 1,
    .release 0, .read 0, .release 0, .leave 0]

theorem frames_in_order_two_readers :
    ∃ s : State Nat, s.taken = [(0, 10), (1, 12), (0, 11)] ∧ InOrder shared 0 s := by
  have hrun : (run (guard (step shared) fun (s : State Nat) a => Fresh shared s.ring a.ring)
      (start shared 0) twoReaders).map State.taken = some [(0, 10), (1, 12), (0, 11)] := by
    decide +kernel
  obtain ⟨s, hs, htaken⟩ := Option.map_eq_some_iff.mp hrun
  exact ⟨s, htaken, frames_in_order shared 0 (by decide) s (.run_guard (.start rfl) hs)⟩

end Hpcap.Arrivals
