import Hpcap.Arrivals
import Hpcap.Budget
import Hpcap.Capture

namespace Hpcap.Wire

open Hpcap.Reservation Hpcap.Rx Hpcap.Listeners Hpcap.Transition Function
open Hpcap.RxRing (Ring alone)
open Hpcap.Stream (frameOf)
open Hpcap.Capture (tiny)
open Hpcap.Arrivals (rxdToRead)

variable {σ A : Type*} {cfg : Config}

/-- A system around a queue. An iteration of `hpcap_poll` is one of its steps, and the others
leave alone what `hpcap_rx` works on. -/
structure Host (cfg : Config) (σ A : Type*) where
  step : σ → A → Option σ
  allowed : σ → A → Prop
  queue : σ → Poll.State
  put : σ → Poll.State → σ
  poll : List Frame → A
  polls : A → Bool
  queue_put : ∀ s q, queue (put s q) = q
  put_put : ∀ s q q', put (put s q) q' = put s q'
  step_poll : ∀ s frames,
    step s (poll frames) = some (put s (Poll.hpcapPoll cfg 1 0 frames (queue s)).2)
  allowed_poll : ∀ s frames, (∀ f ∈ frames, f.size ≤ maxDescrSize) → allowed s (poll frames)
  rx_eq : ∀ s a t, polls a = false → step s a = some t → (queue t).rx = (queue s).rx

/-- An iteration of `hpcap_poll`: whether it has a buffer, and the frames that it reads. -/
structure Iteration where
  pktBuf : Bool
  frames : List Frame

/-- The poll thread in `hpcap_rx`. -/
structure Thread extends Iteration where
  cnt : Nat
  outOfSpace : Bool
  limit : Nat

/-- The receive ring, the system around its queue, and the poll thread while it receives. The
iterations that have ended are recorded. -/
structure State (σ : Type*) where
  ring : Arrivals.State Frame
  host : σ
  thread : Option Thread
  ended : List Iteration

/-- The iterations that have begun. -/
def State.begun (s : State σ) : List Iteration :=
  s.ended ++ s.thread.toList.map Thread.toIteration

theorem State.begun_of_idle {s : State σ} (hs : s.thread = none) : s.begun = s.ended := by
  rw [State.begun, hs]
  exact List.append_nil _

theorem State.begun_of_busy {s : State σ} {l : Thread} (hs : s.thread = some l) :
    s.begun = s.ended ++ [l.toIteration] := by
  rw [State.begun, hs]
  rfl

inductive Step (A : Type*)
  | receive (frame : Frame)
  | enter
  | read
  | release
  | leave
  | client (a : A)

/-- What the ring shows of the next descriptor. -/
def shown (r : Ring) (ring : Arrivals.State Frame) : Option Frame :=
  if (ring.ring.descs (rxdToRead ring.ring 0 % r.size)).dd then
    ring.buffers (rxdToRead ring.ring 0 % r.size)
  else none

/-- The frame that the loop takes next. One without bytes looks like an empty ring to a thread
that has a buffer. -/
def takes (r : Ring) (ring : Arrivals.State Frame) (l : Thread) : Option Frame :=
  if l.cnt < l.limit ∧ l.outOfSpace = false then
    (shown r ring).filter fun f => ¬ (l.pktBuf = true ∧ f.size = 0)
  else none

/-- The start of an iteration of `hpcap_poll`, up to the loop of `hpcap_rx`. -/
def enter (h : Host cfg σ A) (s : State σ) (ring : Arrivals.State Frame) : State σ :=
  let q := Poll.rewind (h.queue s.host)
  let l : Iteration := ⟨(h.queue s.host).lstnr.listenersCount ≠ 0, []⟩
  ⟨ring, h.put s.host q, some ⟨l, 0, false, availBytes q.lstnr.global / 1⟩, s.ended⟩

/-- A pass of the loop, up to the release of descriptors. -/
def read (h : Host cfg σ A) (s : State σ) (l : Thread) (f : Frame) (ring : Arrivals.State Frame) :
    State σ :=
  let out := rxFrame cfg l.limit l.pktBuf f l.cnt (h.queue s.host).rx
  ⟨ring, h.put s.host { h.queue s.host with rx := out.2.2 },
    some ⟨⟨l.pktBuf, l.frames ++ [f]⟩, out.1 + f.size, out.2.1, l.limit⟩, s.ended⟩

/-- What follows the loop of `hpcap_rx`. -/
def leave (h : Host cfg σ A) (s : State σ) (l : Thread) (ring : Arrivals.State Frame) : State σ :=
  ⟨ring, h.put s.host (Poll.publish cfg (h.queue s.host)), none, s.ended ++ [l.toIteration]⟩

/-- The card receives frames at any time; clients do something between two iterations. -/
def step (r : Ring) (h : Host cfg σ A) (s : State σ) : Step A → Option (State σ)
  | .receive f => (Arrivals.step r s.ring (.receive f)).map fun ring => { s with ring := ring }
  | .enter =>
    if s.thread.isNone then (Arrivals.step r s.ring (.enter 0)).map (enter h s) else none
  | .read => s.thread.bind fun l => (takes r s.ring l).bind fun f =>
    (Arrivals.step r s.ring (.read 0)).map (read h s l f)
  | .release => (Arrivals.step r s.ring (.release 0)).map fun ring => { s with ring := ring }
  | .leave => s.thread.bind fun l =>
    if (takes r s.ring l).isNone then (Arrivals.step r s.ring (.leave 0)).map (leave h s l)
    else none
  | .client a =>
    if s.thread.isNone ∧ h.polls a = false then
      (h.step s.host a).map fun host => { s with host := host }
    else none

/-- Frames fit a descriptor. -/
def Allowed (h : Host cfg σ A) (s : State σ) : Step A → Prop
  | .receive f => f.size ≤ maxDescrSize
  | .client a => h.allowed s.host a
  | _ => True

/-- What becomes of a frame that is read. -/
inductive Fate
  | accepted
  | filtered
  | discarded
  | lost
  deriving DecidableEq

/-- The frames that are accepted. -/
def kept (fs : List (Frame × Fate)) : List Frame :=
  (fs.filter fun p => p.2 = .accepted).map Prod.fst

/-- The frames read between two states of a queue, with the stream they leave and what the
adapter counts of the others. What is `old` went when the offsets were reset. -/
structure Accounted (cfg : Config) (x y : Rx.State) (fs : List (Frame × Fate)) (old : List Frame) :
    Prop where
  filtered : ∀ p ∈ fs, p.2 = .filtered ↔ passesFilter cfg p.1 = false
  lost : y.hpcapClientLoss = x.hpcapClientLoss + (fs.map Prod.snd).count .lost
  discarded : y.hpcapClientDiscard = x.hpcapClientDiscard + (fs.map Prod.snd).count .discarded
  accepted : old ++ y.trace.accepted.reverse = x.trace.accepted.reverse ++ kept fs

section Accounted

variable {x y z : Rx.State} {fs fs' : List (Frame × Fate)} {old old' : List Frame}

theorem kept_append (fs fs' : List (Frame × Fate)) : kept (fs ++ fs') = kept fs ++ kept fs' := by
  rw [kept, List.filter_append, List.map_append]
  rfl

theorem Accounted.refl (cfg : Config) (x : Rx.State) : Accounted cfg x x [] [] :=
  ⟨nofun, rfl, rfl, (List.append_nil _).symm⟩

theorem Accounted.trans (h : Accounted cfg x y fs old) (h' : Accounted cfg y z fs' old') :
    Accounted cfg x z (fs ++ fs') (old ++ old') := by
  refine ⟨fun p hp => (List.mem_append.mp hp).elim (h.filtered p) (h'.filtered p), ?_, ?_, ?_⟩
  · rw [h'.lost, h.lost, List.map_append, List.count_append, Nat.add_assoc]
  · rw [h'.discarded, h.discarded, List.map_append, List.count_append, Nat.add_assoc]
  · rw [List.append_assoc, h'.accepted, ← List.append_assoc, h.accepted, List.append_assoc,
      kept_append]

theorem foldl_setPadding_discard (cfg : Config) (pads : List Pad) (s : Rx.State) :
    (pads.foldl (setPadding cfg) s).hpcapClientDiscard = s.hpcapClientDiscard := by
  induction pads generalizing s with
  | nil => rfl
  | cons p ps ih =>
    rw [List.foldl_cons, ih, setPadding]
    split <;> rfl

theorem reserveLoop_discard (cfg : Config) (limit toWrite fuel cnt : Nat) (s : Rx.State) :
    (reserveLoop cfg limit toWrite fuel cnt s).2.2.hpcapClientDiscard = s.hpcapClientDiscard := by
  induction fuel generalizing cnt s with
  | zero => rfl
  | succ fuel ih =>
    rw [reserveLoop]
    dsimp only
    split
    · rfl
    · split
      · rw [ih]
        exact foldl_setPadding_discard cfg _ _
      · exact foldl_setPadding_discard cfg _ _

/-- A frame that is read is accepted, or it does not pass the filter, or it is counted. -/
theorem rxFrame_accounted (cfg : Config) (limit : Nat) (pktBuf : Bool) (f : Frame) (cnt : Nat)
    (x : Rx.State) :
    ∃ fate, Accounted cfg x (rxFrame cfg limit pktBuf f cnt x).2.2 [(f, fate)] [] ∧
      (fate = .discarded ↔ pktBuf = false ∧ passesFilter cfg f = true) := by
  by_cases hp : passesFilter cfg f = false
  · refine ⟨.filtered, ?_, iff_of_false (by decide) fun h => Bool.false_ne_true (hp.symm.trans h.2)⟩
    rw [rxFrame, if_pos hp]
    exact ⟨by simp [hp], rfl, rfl, (List.append_nil _).symm⟩
  · have hpass : ∀ fate, fate ≠ .filtered → ∀ p ∈ [(f, fate)],
        p.2 = Fate.filtered ↔ passesFilter cfg p.1 = false := by
      rintro fate hne p hmem
      rw [List.mem_singleton.mp hmem]
      exact iff_of_false hne hp
    rw [rxFrame, if_neg hp]
    cases pktBuf with
    | false => exact ⟨.discarded, ⟨hpass _ (by decide), rfl, rfl, (List.append_nil _).symm⟩,
        iff_of_true rfl ⟨rfl, eq_true_of_ne_false hp⟩⟩
    | true =>
      have hdiscard := reserveLoop_discard cfg limit (calcCaplen cfg.caplen f.size + rawHlen) limit
        cnt x
      have hacc := (Stream.reserveLoop_grows cfg limit (calcCaplen cfg.caplen f.size + rawHlen)
        limit cnt x).2
      rw [if_neg (by decide)]
      cases hr : reserveLoop cfg limit (calcCaplen cfg.caplen f.size + rawHlen) limit cnt x with
      | mk cnt' rest =>
        obtain ⟨o, t⟩ := rest
        rw [hr] at hdiscard hacc
        cases o with
        | none =>
          have hloss := (Budget.reserveLoop_none (Nat.add_pos_right _ (by decide)) (by omega) hr).2
          refine ⟨.lost, ⟨hpass _ (by decide), hloss, hdiscard, ?_⟩,
            iff_of_false (by decide) fun h => absurd h.1 (by decide)⟩
          exact (congrArg List.reverse hacc).trans (List.append_nil _).symm
        | some slot =>
          obtain ⟨offset, pos⟩ := slot
          have hloss := (Budget.reserveLoop_some hr).1
          refine ⟨.accepted, ⟨hpass _ (by decide), hloss, hdiscard, ?_⟩,
            iff_of_false (by decide) fun h => absurd h.1 (by decide)⟩
          change (f :: t.trace.accepted).reverse = _
          rw [hacc, List.reverse_cons]
          rfl

/-- Without listeners the stream is begun anew. -/
theorem rewind_accounted (cfg : Config) (q : Poll.State) :
    ∃ old, Accounted cfg q.rx (Poll.rewind q).rx [] old ∧
      (old = [] ∨ q.lstnr.listenersCount = 0) := by
  by_cases hc : q.lstnr.listenersCount = 0
  · rw [Poll.rewind, if_pos hc]
    exact ⟨_, ⟨fun _ h => absurd h List.not_mem_nil, rfl, rfl, rfl⟩, .inr hc⟩
  · rw [Poll.rewind, if_neg hc]
    exact ⟨[], .refl cfg q.rx, .inl rfl⟩

end Accounted

section Step

variable {r : Ring} {h : Host cfg σ A} {s t w : State σ} {a : Step A} {firstRxd : Nat}

/-- What a step does. -/
inductive Stepped (r : Ring) (h : Host cfg σ A) (s : State σ) : Step A → State σ → Prop
  | receive {f ring} : Arrivals.step r s.ring (.receive f) = some ring →
      Stepped r h s (.receive f) { s with ring := ring }
  | enter {ring} : s.thread = none → Arrivals.step r s.ring (.enter 0) = some ring →
      Stepped r h s .enter (enter h s ring)
  | read {l f ring} : s.thread = some l → l.cnt < l.limit → l.outOfSpace = false →
      ¬ (l.pktBuf = true ∧ f.size = 0) → shown r s.ring = some f →
      Arrivals.step r s.ring (.read 0) = some ring → Stepped r h s .read (read h s l f ring)
  | release {ring} : Arrivals.step r s.ring (.release 0) = some ring →
      Stepped r h s .release { s with ring := ring }
  | leave {l ring} : s.thread = some l → Arrivals.step r s.ring (.leave 0) = some ring →
      Stepped r h s .leave (leave h s l ring)
  | client {a host} : s.thread = none → h.polls a = false → h.step s.host a = some host →
      Stepped r h s (.client a) { s with host := host }

theorem step_stepped (hs : step r h s a = some t) : Stepped r h s a t := by
  cases a with
  | receive f =>
    obtain ⟨ring, hring, rfl⟩ := Option.map_eq_some_iff.mp hs
    exact .receive hring
  | enter =>
    obtain ⟨hnone, hs⟩ := Option.ite_none_right_eq_some.mp hs
    obtain ⟨ring, hring, rfl⟩ := Option.map_eq_some_iff.mp hs
    exact .enter (Option.isNone_iff_eq_none.mp hnone) hring
  | read =>
    obtain ⟨l, hl, hs⟩ := Option.bind_eq_some_iff.mp hs
    obtain ⟨f, hf, hs⟩ := Option.bind_eq_some_iff.mp hs
    obtain ⟨ring, hring, rfl⟩ := Option.map_eq_some_iff.mp hs
    obtain ⟨⟨hlt, hspace⟩, hf⟩ := Option.ite_none_right_eq_some.mp hf
    obtain ⟨hshown, hsize⟩ := Option.filter_eq_some_iff.mp hf
    exact .read hl hlt hspace (of_decide_eq_true hsize) hshown hring
  | release =>
    obtain ⟨ring, hring, rfl⟩ := Option.map_eq_some_iff.mp hs
    exact .release hring
  | leave =>
    obtain ⟨l, hl, hs⟩ := Option.bind_eq_some_iff.mp hs
    obtain ⟨-, hs⟩ := Option.ite_none_right_eq_some.mp hs
    obtain ⟨ring, hring, rfl⟩ := Option.map_eq_some_iff.mp hs
    exact .leave hl hring
  | client a =>
    obtain ⟨⟨hnone, hpolls⟩, hs⟩ := Option.ite_none_right_eq_some.mp hs
    obtain ⟨host, hhost, rfl⟩ := Option.map_eq_some_iff.mp hs
    exact .client (Option.isNone_iff_eq_none.mp hnone) hpolls hhost

/-- The frames are in the ring as they came. -/
def OnRing (r : Ring) (firstRxd : Nat) (ring : Arrivals.State Frame) : Prop :=
  ∃ S H n held, Arrivals.Inv r firstRxd ring S H n held

theorem OnRing.step {ring ring' : Arrivals.State Frame} {b : Arrivals.Step Frame}
    (ho : OnRing r firstRxd ring) (hone : r.consumers = 1)
    (hs : Arrivals.step r ring b = some ring') : OnRing r firstRxd ring' := by
  obtain ⟨S, H, n, held, hinv⟩ := ho
  exact hinv.step hs (RxRing.freshCall_alone hone _ _ _)

theorem Stepped.onRing (hs : Stepped r h s a t) (hone : r.consumers = 1)
    (ho : OnRing r firstRxd s.ring) : OnRing r firstRxd t.ring := by
  cases hs with
  | receive hring | release hring => exact ho.step hone hring
  | enter _ hring => exact ho.step hone hring
  | read _ _ _ _ _ hring => exact ho.step hone hring
  | leave _ hring => exact ho.step hone hring
  | client => exact ho

/-- Frames in the ring fit a descriptor. -/
def Sized (ring : Arrivals.State Frame) : Prop :=
  ∀ i f, ring.buffers i = some f → f.size ≤ maxDescrSize

theorem Sized.step {ring ring' : Arrivals.State Frame} {b : Arrivals.Step Frame}
    (hsized : Sized ring) (hs : Arrivals.step r ring b = some ring')
    (hb : ∀ f, b = .receive f → f.size ≤ maxDescrSize) : Sized ring' := by
  obtain ⟨u, -, rfl⟩ := Option.map_eq_some_iff.mp hs
  cases b with
  | receive f =>
    intro i f' hf'
    by_cases hi : i = ring.ring.head
    · have hf' : update ring.buffers ring.ring.head (some f) i = some f' := hf'
      rw [hi, update_self] at hf'
      exact Option.some.inj hf' ▸ hb f rfl
    · exact hsized i f' ((update_of_ne hi _ _).symm.trans hf')
  | enter | read | release | leave => exact hsized

theorem Stepped.sized (hs : Stepped r h s a t) (ha : Allowed h s a) (hsized : Sized s.ring) :
    Sized t.ring := by
  cases hs with
  | receive hring =>
    refine hsized.step hring fun f hf => ?_
    obtain rfl := Arrivals.Step.receive.inj hf
    exact ha
  | enter _ hring | leave _ hring => exact hsized.step hring nofun
  | read _ _ _ _ _ hring => exact hsized.step hring nofun
  | release hring => exact hsized.step hring nofun
  | client => exact hsized

/-- What a step takes from the ring. -/
theorem taken_step {ring ring' : Arrivals.State Frame} {b : Arrivals.Step Frame}
    (hs : Arrivals.step r ring b = some ring') (hb : ∀ c, b ≠ .read c) :
    ring'.taken = ring.taken := by
  obtain ⟨u, -, rfl⟩ := Option.map_eq_some_iff.mp hs
  cases b with
  | read c => exact absurd rfl (hb c)
  | receive | enter | release | leave => rfl

theorem shown_taken {ring ring' : Arrivals.State Frame} {f : Frame} (hf : shown r ring = some f)
    (hs : Arrivals.step r ring (.read 0) = some ring') : ring'.taken = ring.taken ++ [(0, f)] := by
  obtain ⟨u, -, rfl⟩ := Option.map_eq_some_iff.mp hs
  obtain ⟨-, hf⟩ := Option.ite_none_right_eq_some.mp hf
  dsimp only
  rw [Arrivals.fetch, hf]
  rfl

end Step

section Simulation

variable {r : Ring} {h : Host cfg σ A} {s t w : State σ} {a : Step A}

/-- A run of the system from `q`, with the frames that its iterations of `hpcap_poll` are given,
and whether they have a buffer for these. -/
inductive Polls (h : Host cfg σ A) (q : σ) : List Iteration → σ → Prop
  | start : Polls h q [] q
  | poll {its : List Iteration} {u v : σ} (frames : List Frame) : Polls h q its u →
      (∀ f ∈ frames, f.size ≤ maxDescrSize) → h.step u (h.poll frames) = some v →
      Polls h q (its ++ [⟨(h.queue u).lstnr.listenersCount ≠ 0, frames⟩]) v
  | client {its : List Iteration} {u v : σ} (a : A) : Polls h q its u → h.polls a = false →
      h.allowed u a → h.step u a = some v → Polls h q its v

variable {q u v : σ} {its : List Iteration}

theorem Polls.reach (hp : Polls h q its v) : Reach h.step h.allowed (· = q) v := by
  induction hp with
  | start => exact .start rfl
  | poll frames _ hsized hst ih => exact .next ih (h.allowed_poll _ frames hsized) hst
  | client a _ _ ha hst ih => exact .next ih ha hst

/-- The iteration that began in `u` has come as far as `hpcap_rx` comes with the frames read
before it sees what is behind them. -/
structure Midway (h : Host cfg σ A) (u host : σ) (l : Thread) : Prop where
  put : host = h.put u { Poll.rewind (h.queue u) with rx := (h.queue host).rx }
  limit : l.limit = availBytes (Poll.rewind (h.queue u)).lstnr.global / 1
  pktBuf : l.pktBuf = decide ((h.queue u).lstnr.listenersCount ≠ 0)
  sized : ∀ f ∈ l.frames, f.size ≤ maxDescrSize
  loop : ∀ rest,
    (rxLoop cfg l.limit l.pktBuf (l.frames ++ rest) 0 (Poll.rewind (h.queue u)).rx).2.2 =
      if l.outOfSpace then (h.queue host).rx
      else (rxLoop cfg l.limit l.pktBuf rest l.cnt (h.queue host).rx).2.2

theorem Midway.enter (h : Host cfg σ A) (s : State σ) (ring : Arrivals.State Frame) :
    ∃ l, (enter h s ring).thread = some l ∧ Midway h s.host (enter h s ring).host l := by
  refine ⟨_, rfl, ?_, rfl, rfl, nofun, fun rest => ?_⟩
  · rw [Wire.enter, h.queue_put]
  · rw [Wire.enter, h.queue_put]
    rfl

theorem rxLoop_cons {limit cnt : Nat} {pktBuf : Bool} {f : Frame} (rest : List Frame)
    (x : Rx.State) (hlt : cnt < limit) (hsize : ¬ (pktBuf = true ∧ f.size = 0)) :
    (rxLoop cfg limit pktBuf (f :: rest) cnt x).2.2 =
      if (rxFrame cfg limit pktBuf f cnt x).2.1 then (rxFrame cfg limit pktBuf f cnt x).2.2
      else (rxLoop cfg limit pktBuf rest ((rxFrame cfg limit pktBuf f cnt x).1 + f.size)
        (rxFrame cfg limit pktBuf f cnt x).2.2).2.2 := by
  rw [rxLoop, if_pos hlt, if_neg hsize]
  generalize rxFrame cfg limit pktBuf f cnt x = out
  obtain ⟨cnt', outOfSpace, y⟩ := out
  cases outOfSpace <;> rfl

theorem Midway.read {l : Thread} {f : Frame} (hm : Midway h u s.host l) (hlt : l.cnt < l.limit)
    (hspace : l.outOfSpace = false) (hzero : ¬ (l.pktBuf = true ∧ f.size = 0))
    (hsize : f.size ≤ maxDescrSize) (ring : Arrivals.State Frame) :
    ∃ l', (read h s l f ring).thread = some l' ∧ Midway h u (read h s l f ring).host l' := by
  refine ⟨_, rfl, ?_, hm.limit, hm.pktBuf, ?_, fun rest => ?_⟩
  · have hhost := hm.put
    rw [Wire.read, h.queue_put]
    rw [hhost, h.put_put, h.queue_put]
  · rintro g hg
    obtain hg | hg := List.mem_append.mp hg
    · exact hm.sized g hg
    · rw [List.mem_singleton.mp hg]
      exact hsize
  · rw [Wire.read, h.queue_put]
    dsimp only
    rw [List.append_assoc, List.singleton_append, hm.loop, hspace, rxLoop_cons rest _ hlt hzero]
    rfl

/-- At its end it is what `hpcap_poll` does with the frames read. -/
theorem Midway.leave {l : Thread} (hm : Midway h u s.host l) (ring : Arrivals.State Frame) :
    h.step u (h.poll l.frames) = some (leave h s l ring).host := by
  have hrx := hm.loop []
  have hend : (if l.outOfSpace then (h.queue s.host).rx
      else (rxLoop cfg l.limit l.pktBuf [] l.cnt (h.queue s.host).rx).2.2) =
        (h.queue s.host).rx := by
    split <;> rfl
  rw [hend, List.append_nil, hm.limit, hm.pktBuf] at hrx
  have hpoll : (Poll.hpcapPoll cfg 1 0 l.frames (h.queue u)).2 =
      Poll.publish cfg { Poll.rewind (h.queue u) with rx := (h.queue s.host).rx } := by
    rw [← hrx]
    rfl
  have hhost := hm.put
  rw [h.step_poll, hpoll, Wire.leave]
  generalize (h.queue s.host).rx = x at hhost ⊢
  rw [hhost, h.put_put, h.queue_put]

/-- The system has come to where the thread is by the iterations of `hpcap_poll` that have ended,
and by what the clients did between these. -/
def Simulates (h : Host cfg σ A) (q : σ) (s : State σ) : Prop :=
  match s.thread with
  | none => Polls h q s.ended s.host
  | some l => ∃ u, Polls h q s.ended u ∧ Midway h u s.host l

theorem Simulates.idle (hsim : Simulates h q s) (hs : s.thread = none) :
    Polls h q s.ended s.host := by
  rwa [Simulates, hs] at hsim

theorem Simulates.busy {l : Thread} (hsim : Simulates h q s) (hs : s.thread = some l) :
    ∃ u, Polls h q s.ended u ∧ Midway h u s.host l := by
  rwa [Simulates, hs] at hsim

theorem Simulates.of_busy (hu : Polls h q s.ended u)
    (hm : ∃ l, s.thread = some l ∧ Midway h u s.host l) : Simulates h q s := by
  obtain ⟨l, hl, hm⟩ := hm
  rw [Simulates, hl]
  exact ⟨u, hu, hm⟩

theorem Stepped.simulates (hs : Stepped r h s a t) (ha : Allowed h s a) (hsized : Sized s.ring)
    (hsim : Simulates h q s) : Simulates h q t := by
  cases hs with
  | receive | release => exact hsim
  | enter hnone => exact .of_busy (hsim.idle hnone) (Midway.enter h s _)
  | read hl hlt hspace hzero hshown =>
    obtain ⟨u, hu, hm⟩ := hsim.busy hl
    obtain ⟨-, hf⟩ := Option.ite_none_right_eq_some.mp hshown
    exact .of_busy hu (hm.read hlt hspace hzero (hsized _ _ hf) _)
  | @leave l ring hl =>
    obtain ⟨u, hu, hm⟩ := hsim.busy hl
    have hend := Polls.poll l.frames hu hm.sized (hm.leave ring)
    rwa [← hm.pktBuf] at hend
  | client hnone hpolls hhost =>
    have hidle := hsim.idle hnone
    rw [Simulates]
    dsimp only
    rw [hnone]
    exact .client _ hidle hpolls ha hhost

theorem begun_enter (hs : s.thread = none) (ring : Arrivals.State Frame) :
    (enter h s ring).begun = s.begun ++ [⟨(h.queue s.host).lstnr.listenersCount ≠ 0, []⟩] := by
  rw [State.begun_of_idle hs, State.begun_of_busy rfl]
  rfl

theorem begun_read (l : Thread) (f : Frame) (ring : Arrivals.State Frame) :
    (read h s l f ring).begun = s.ended ++ [⟨l.pktBuf, l.frames ++ [f]⟩] := by
  rw [State.begun_of_busy rfl]
  rfl

theorem begun_leave {l : Thread} (hs : s.thread = some l) (ring : Arrivals.State Frame) :
    (leave h s l ring).begun = s.begun := by
  rw [State.begun_of_busy hs, State.begun_of_idle rfl]
  rfl

/-- What a step adds to what the iterations have read. -/
theorem Stepped.taken (hs : Stepped r h s a t) {before : List Frame}
    (htaken : s.ring.taken.map Prod.snd = before ++ s.begun.flatMap Iteration.frames) :
    t.ring.taken.map Prod.snd = before ++ t.begun.flatMap Iteration.frames := by
  cases hs with
  | receive hring | release hring =>
    rw [taken_step hring nofun]
    exact htaken
  | enter hnone hring =>
    refine (congrArg (List.map Prod.snd) (taken_step hring nofun)).trans ?_
    rw [htaken, begun_enter hnone, List.flatMap_append]
    simp
  | @read l f ring hl _ _ _ hshown hring =>
    refine (congrArg (List.map Prod.snd) (shown_taken hshown hring)).trans ?_
    rw [List.map_append, htaken, begun_read, State.begun_of_busy hl]
    simp
  | leave hl hring =>
    refine (congrArg (List.map Prod.snd) (taken_step hring nofun)).trans ?_
    rw [htaken, begun_leave hl]
  | client => exact htaken

/-- What became of the frames of an iteration. -/
structure Fared (cfg : Config) (i : Iteration) (fs : List (Frame × Fate)) : Prop where
  frames : fs.map Prod.fst = i.frames
  discarded : ∀ p ∈ fs, p.2 = .discarded ↔ i.pktBuf = false ∧ passesFilter cfg p.1 = true

/-- What has become of the frames read since the queue was in the state `x`. -/
structure Handled (h : Host cfg σ A) (x : Rx.State) (s : State σ)
    (fss : List (List (Frame × Fate))) (old : List Frame) : Prop where
  fared : List.Forall₂ (Fared cfg) s.begun fss
  accounted : Accounted cfg x (h.queue s.host).rx fss.flatten old
  anew : old = [] ∨ ∃ i ∈ s.begun, i.pktBuf = false

theorem Handled.start (h : Host cfg σ A) (hw : w.begun = []) :
    Handled h (h.queue w.host).rx w [] [] :=
  ⟨hw ▸ .nil, .refl cfg _, .inl rfl⟩

section Handled

variable {x : Rx.State} {fss : List (List (Frame × Fate))} {old : List Frame}

theorem Handled.enter (hd : Handled h x s fss old) (hs : s.thread = none)
    (ring : Arrivals.State Frame) :
    ∃ gone, Handled h x (enter h s ring) (fss ++ [[]]) (old ++ gone) := by
  obtain ⟨gone, hacc, hgone⟩ := rewind_accounted cfg (h.queue s.host)
  rw [← h.queue_put s.host (Poll.rewind (h.queue s.host))] at hacc
  refine ⟨gone, ?_, ?_, ?_⟩
  · rw [begun_enter hs]
    exact List.rel_append hd.fared (.cons ⟨rfl, nofun⟩ .nil)
  · rw [List.flatten_append]
    exact hd.accounted.trans hacc
  · rw [begun_enter hs]
    obtain rfl | hcount := hgone
    · rw [List.append_nil]
      exact hd.anew.imp_right fun ⟨i, hi, hbuf⟩ => ⟨i, List.mem_append_left _ hi, hbuf⟩
    · exact .inr ⟨_, List.mem_append_right _ List.mem_cons_self, by simp [hcount]⟩

/-- The frame that is read is the last one of the last iteration. -/
theorem Handled.read (hd : Handled h x s fss old) {l : Thread} (hs : s.thread = some l) (f : Frame)
    (ring : Arrivals.State Frame) : ∃ fss', Handled h x (read h s l f ring) fss' old := by
  obtain ⟨fate, hacc, hfate⟩ := rxFrame_accounted cfg l.limit l.pktBuf f l.cnt (h.queue s.host).rx
  have hqueue : (rxFrame cfg l.limit l.pktBuf f l.cnt (h.queue s.host).rx).2.2 =
      (h.queue (Wire.read h s l f ring).host).rx := by
    rw [Wire.read, h.queue_put]
  rw [hqueue] at hacc
  obtain ⟨hfared, haccounted, hanew⟩ := hd
  rw [State.begun_of_busy hs] at hfared hanew
  obtain ⟨gss, _, rfl, hended, hlast⟩ := Slots.forall₂_split hfared
  obtain ⟨gs, _, hgs, hnil, rfl⟩ := List.forall₂_cons_left_iff.mp hlast
  obtain rfl := List.forall₂_nil_left_iff.mp hnil
  refine ⟨gss ++ [gs ++ [(f, fate)]], ?_, ?_, ?_⟩
  · rw [begun_read]
    refine List.rel_append hended (.cons ⟨?_, fun p hp => ?_⟩ .nil)
    · rw [List.map_append, hgs.frames]
      rfl
    · obtain hp | hp := List.mem_append.mp hp
      · exact hgs.discarded p hp
      · rw [List.mem_singleton.mp hp]
        exact hfate
  · simpa using haccounted.trans hacc
  · rw [begun_read]
    refine hanew.imp_right fun ⟨i, hi, hbuf⟩ => ?_
    obtain hi | hi := List.mem_append.mp hi
    · exact ⟨i, List.mem_append_left _ hi, hbuf⟩
    · rw [List.mem_singleton.mp hi] at hbuf
      exact ⟨_, List.mem_append_right _ List.mem_cons_self, hbuf⟩

theorem Handled.leave (hd : Handled h x s fss old) {l : Thread} (hs : s.thread = some l)
    (ring : Arrivals.State Frame) : Handled h x (leave h s l ring) fss old := by
  have hqueue : (h.queue (Wire.leave h s l ring).host).rx = (h.queue s.host).rx := by
    rw [Wire.leave, h.queue_put]
    rfl
  obtain ⟨hfared, haccounted, hanew⟩ := hd
  constructor
  · rw [begun_leave hs]
    exact hfared
  · rw [hqueue]
    exact haccounted
  · rw [begun_leave hs]
    exact hanew

theorem Stepped.handled (hs : Stepped r h s a t) (hd : Handled h x s fss old) :
    ∃ fss' old', Handled h x t fss' old' := by
  cases hs with
  | receive | release => exact ⟨fss, old, hd.fared, hd.accounted, hd.anew⟩
  | enter hnone =>
    obtain ⟨gone, hd⟩ := hd.enter hnone _
    exact ⟨_, _, hd⟩
  | read hl =>
    obtain ⟨fss', hd⟩ := hd.read hl _ _
    exact ⟨fss', old, hd⟩
  | leave hl => exact ⟨fss, old, hd.leave hl _⟩
  | client _ hpolls hhost =>
    refine ⟨fss, old, hd.fared, ?_, hd.anew⟩
    rw [h.rx_eq _ _ _ hpolls hhost]
    exact hd.accounted

end Handled

/-- What holds along a run from `w`. -/
structure Inv (r : Ring) (h : Host cfg σ A) (firstRxd : Nat) (w s : State σ) : Prop where
  onRing : OnRing r firstRxd s.ring
  sized : Sized s.ring
  simulates : Simulates h w.host s
  taken : s.ring.taken.map Prod.snd =
    w.ring.taken.map Prod.snd ++ s.begun.flatMap Iteration.frames
  handled : ∃ fss old, Handled h (h.queue w.host).rx s fss old

theorem reach_inv {firstRxd : Nat} (hone : r.consumers = 1) (hring : OnRing r firstRxd w.ring)
    (hsized : Sized w.ring) (hidle : w.thread = none) (hended : w.ended = [])
    (hs : Reach (step r h) (Allowed h) (· = w) s) : Inv r h firstRxd w s := by
  have hbegun : w.begun = [] := (State.begun_of_idle hidle).trans hended
  refine hs.invariant (Inv r h firstRxd w) ?_ fun s a t hinv ha hst => ?_
  · rintro s rfl
    refine ⟨hring, hsized, ?_, ?_, [], [], .start h hbegun⟩
    · rw [Simulates, hidle, hended]
      exact .start
    · rw [hbegun]
      exact (List.append_nil _).symm
  · have hs := step_stepped hst
    obtain ⟨fss, old, hd⟩ := hinv.handled
    exact ⟨hs.onRing hone hinv.onRing, hs.sized ha hinv.sized,
      hs.simulates ha hinv.sized hinv.simulates, hs.taken hinv.taken, hs.handled hd⟩

end Simulation

section Waiting

variable {r : Ring} {firstRxd : Nat} {ring : Arrivals.State Frame}

/-- A consumer that is alone gets everything. -/
theorem dealt_alone (hone : r.consumers = 1) (frames : List Frame) :
    Arrivals.dealt r firstRxd frames 0 = frames := by
  have hall : ∀ p ∈ frames.zipIdx firstRxd, decide (r.rxdConsumerOf p.2 = 0) = true := by
    rintro p -
    have hlt := r.consumerAt_lt p.2
    rw [hone] at hlt
    rw [Arrivals.rxdConsumerOf_eq]
    exact decide_eq_true (by omega)
  rw [Arrivals.dealt, List.filter_eq_self.mpr hall, List.zipIdx_map_fst]

/-- The frames that are not yet read are fewer than there are descriptors. -/
theorem OnRing.waiting (ho : OnRing r firstRxd ring) (hone : r.consumers = 1) :
    ∃ waiting, ring.received = ring.taken.map Prod.snd ++ waiting ∧ waiting.length < r.size := by
  obtain ⟨S, H, n, held, hinv⟩ := ho
  have hzero : 0 < r.consumers := by omega
  have hmine : ring.takenBy 0 = ring.taken.map Prod.snd := by
    have hall : ∀ p ∈ ring.taken, decide (p.1 = 0) = true := by
      intro p hp
      have hlt := hinv.consumer_lt p hp
      exact decide_eq_true (by omega)
    rw [Arrivals.State.takenBy, List.filter_eq_self.mpr hall]
  have htaken := hinv.taken 0 hzero
  rw [hmine, dealt_alone hone] at htaken
  refine ⟨ring.received.drop (n 0 - (firstRxd + r.size)), ?_, ?_⟩
  · rw [htaken, List.take_append_drop]
  · have hrec := hinv.received
    have hbase := hinv.base_le 0 hzero
    have hle := hinv.ring.le
    have hbelow := hinv.ring.below S le_rfl
    have hcons : r.consumerAt S = 0 := by
      have hlt := r.consumerAt_lt S
      omega
    rw [hcons] at hbelow
    have hpos := r.size_pos
    rw [List.length_drop]
    omega

end Waiting

/-- As the threads are launched, on a system in state `q`. -/
def launched (r : Ring) (firstRxd : Nat) (q : σ) : State σ :=
  ⟨Arrivals.start r firstRxd, q, none, []⟩

theorem launched_inv {r : Ring} {h : Host cfg σ A} {firstRxd : Nat} {q : σ} {s : State σ}
    (hone : r.consumers = 1) (hfirst : firstRxd < r.size)
    (hs : Reach (step r h) (Allowed h) (· = launched r firstRxd q) s) :
    Inv r h firstRxd (launched r firstRxd q) s := by
  refine reach_inv hone ⟨_, _, _, _, Arrivals.Inv.start hfirst⟩ ?_ rfl rfl hs
  intro i f hf
  cases hf

/-- A queue and its clients. -/
def polled (cfg : Config) : Host cfg Poll.State Poll.Op where
  step := Poll.step cfg
  allowed := Opening.Received
  queue := id
  put := fun _ q => q
  poll := .poll
  polls := fun
    | .poll _ => true
    | _ => false
  queue_put := fun _ _ => rfl
  put_put := fun _ _ _ => rfl
  step_poll := fun _ _ => rfl
  allowed_poll := fun _ _ h => h
  rx_eq := fun _ a _ hpolls hs => by
    obtain hrx | ⟨frames, rfl, -⟩ := Opening.step_rx hs
    · exact hrx
    · cases hpolls

instance (h : Host cfg σ A) [∀ s a, Decidable (h.allowed s a)] (s : State σ) :
    DecidablePred (Allowed h s)
  | .receive f => inferInstanceAs (Decidable (f.size ≤ maxDescrSize))
  | .client a => inferInstanceAs (Decidable (h.allowed s.host a))
  | .enter | .read | .release | .leave => inferInstanceAs (Decidable True)

instance (cfg : Config) (s : Poll.State) (a : Poll.Op) : Decidable ((polled cfg).allowed s a) :=
  inferInstanceAs (Decidable (Opening.Received s a))

/-- A frame comes before there are listeners, and four more afterwards. There is room for two. -/
def roomForTwo : List (Step Poll.Op) :=
  [.receive (frameOf 8), .enter, .read, .release, .leave, .client (.add 1), .receive (frameOf 8),
    .receive (frameOf 9), .enter, .read, .release, .receive (frameOf 10), .read, .release, .read,
    .release, .leave, .receive (frameOf 11)]

theorem roomForTwo_run : ∃ s, Reach (step alone (polled tiny)) (Allowed (polled tiny))
    (· = launched alone 0 (Poll.init tiny Stream.blank)) s ∧ s.thread = none ∧
      s.ring.received.length = 5 ∧ s.host.rx.trace.accepted.length = 2 ∧
      s.ended.map (fun i => (i.pktBuf, i.frames.length)) = [(false, 1), (true, 3)] := by
  have hrun : (run (guard (step alone (polled tiny)) (Allowed (polled tiny)))
      (launched alone 0 (Poll.init tiny Stream.blank)) roomForTwo).map (fun s =>
        (s.thread.isNone, s.ring.received.length, s.host.rx.trace.accepted.length,
          s.ended.map fun i => (i.pktBuf, i.frames.length))) =
        some (true, 5, 2, [(false, 1), (true, 3)]) := by
    decide +kernel
  obtain ⟨s, hs, he⟩ := Option.map_eq_some_iff.mp hrun
  simp only [Prod.mk.injEq, Option.isNone_iff_eq_none] at he
  exact ⟨s, .run_guard (.start rfl) hs, he⟩

/-- Descriptor by descriptor, with the card at work all the time, a system does nothing that it
does not do with whole iterations of `hpcap_poll`, each on the frames that it has read from the
ring. These are the frames that came, from the first one on. -/
theorem runs_are_polls (r : Ring) (hone : r.consumers = 1) (h : Host cfg σ A) (firstRxd : Nat)
    (hfirst : firstRxd < r.size) (q : σ) (s : State σ)
    (hs : Reach (step r h) (Allowed h) (· = launched r firstRxd q) s) (hidle : s.thread = none) :
    Polls h q s.ended s.host ∧
      s.ended.flatMap Iteration.frames = s.ring.taken.map Prod.snd ∧
      ∃ waiting, s.ring.received = s.ended.flatMap Iteration.frames ++ waiting ∧
        waiting.length < r.size := by
  have hinv := launched_inv hone hfirst hs
  have htaken := hinv.taken
  rw [State.begun_of_idle hidle] at htaken
  obtain ⟨waiting, hrec, hlt⟩ := hinv.onRing.waiting hone
  rw [htaken] at hrec
  exact ⟨hinv.simulates.idle hidle, htaken.symm, waiting, hrec, hlt⟩

theorem runs_are_polls_two : ∃ (s : State Poll.State) (its : List Iteration),
    s.host.rx.trace.accepted.length = 2 ∧
      its.map (fun i => (i.pktBuf, i.frames.length)) = [(false, 1), (true, 3)] ∧
      Polls (polled tiny) (Poll.init tiny Stream.blank) its s.host ∧
      its.flatMap Iteration.frames = s.ring.taken.map Prod.snd := by
  obtain ⟨s, hs, hidle, -, htwo, hits⟩ := roomForTwo_run
  obtain ⟨hpolls, htaken, -⟩ := runs_are_polls alone rfl (polled tiny) 0 (by decide) _ s hs hidle
  exact ⟨s, s.ended, htwo, hits, hpolls, htaken⟩

end Hpcap.Wire
