import Hpcap.Rx
import Hpcap.Segments

namespace Hpcap.Descriptors

open Hpcap.Rx Hpcap.Segments
open Hpcap.RxRing (Ring hpcapRxBufferWrite)

/-- What `check4packet` is shown of a descriptor: whether `can_lock_ring` applies, the data
bit, and the frame, whose length is that of the descriptor's length field. -/
structure View where
  locks : Bool
  hasData : Bool
  frame : Frame

/-- What the calls of `hpcap_rx` on one ring have in common. -/
structure Setting where
  ring : Shares
  consumer : Nat
  cfg : Config
  limit : Nat
  dstBuf : Bool

/-- The locals of `hpcap_rx`, `thi->rxd_idx`, and the descriptors that
`hpcap_advance_read_descriptors` was called with, the newest first. -/
structure Thread where
  cnt : Nat
  outOfSpace : Bool
  qidx : Nat
  nextQidx : Nat
  lastReadIdx : Nat
  readDescriptors : Nat
  rxdIdx : Nat
  released : List Nat
  state : State

variable (e : Setting)

/-- The result is the size, or 0 for no frame, or -1 where there is no buffer. -/
def check4packet (v : View) (qidx : Nat) : Int × Nat :=
  if v.locks then (0, qidx)
  else if v.hasData = false then (0, qidx)
  else
    let qidx := e.ring.rxdCalcNext qidx e.consumer
    if e.dstBuf = false then (-1, qidx) else (v.frame.size, qidx)

def hpcapAdvanceReadDescriptors (t : Thread) : Thread :=
  { t with
    rxdIdx := e.ring.rxdCalcNext t.lastReadIdx e.consumer
    released := t.lastReadIdx :: t.released }

/-- The loop from `check4packet` on, up to the next test. -/
def body (v : View) (nextQidx : Nat) (t : Thread) : Thread :=
  let out := rxFrame e.cfg e.limit e.dstBuf v.frame t.cnt t.state
  let t := { t with
    cnt := out.1
    outOfSpace := out.2.1
    nextQidx := nextQidx
    lastReadIdx := t.qidx
    readDescriptors := t.readDescriptors + 1
    state := out.2.2 }
  let t := if t.readDescriptors % hpcapRxBufferWrite = 0 ∨
      e.ring.isLastDescriptorOfConsumer t.lastReadIdx e.consumer then
    hpcapAdvanceReadDescriptors e t else t
  { t with cnt := t.cnt + v.frame.size, qidx := nextQidx }

/-- The receive loop, for exactly the descriptors that it comes to. -/
def loop : List View → Thread → Option Thread
  | [], t => if t.cnt < e.limit ∧ t.outOfSpace = false then none else some t
  | v :: vs, t =>
    if t.cnt < e.limit ∧ t.outOfSpace = false then
      let out := check4packet e v t.qidx
      if out.1 = 0 then (if vs.isEmpty then some { t with nextQidx := out.2 } else none)
      else loop vs (body e v out.2 t)
    else none

/-- The release behind the loop. -/
def finish (t : Thread) : Thread :=
  if t.readDescriptors > 0 then hpcapAdvanceReadDescriptors e t else t

def enter (rxdIdx : Nat) (s : State) : Thread := ⟨0, false, rxdIdx, rxdIdx, 0, 0, rxdIdx, [], s⟩

def hpcapRx (views : List View) (rxdIdx : Nat) (s : State) : Option Thread :=
  (loop e views (enter rxdIdx s)).map (finish e)

/-- The descriptor `n` steps behind `rxdIdx`. -/
def index (rxdIdx n : Nat) : Nat := (fun i => e.ring.rxdCalcNext i e.consumer)^[n] rxdIdx

/-- The descriptor is seen, and has data. -/
def View.filled (v : View) : Bool := !v.locks && v.hasData

/-- It does not look like an empty one. -/
def View.taken (v : View) : Bool := v.filled && (!e.dstBuf || v.frame.size != 0)

/-- All filled descriptors that a call comes to are consumed, and the thread goes on behind
the last of them. -/
structure Consumes (views : List View) (rxdIdx : Nat) (t : Thread) : Prop where
  first : 0 < e.limit → ∀ v ∈ views.head?, v.filled = true → 0 < t.readDescriptors
  all : t.readDescriptors = views.countP View.filled
  none : views.countP View.filled = 0 → t.rxdIdx = rxdIdx
  behind : ∀ n, views.countP View.filled = n + 1 →
    t.rxdIdx = e.ring.rxdCalcNext (index e rxdIdx n) e.consumer

variable {e}

theorem index_succ (e : Setting) (rxdIdx n : Nat) :
    index e rxdIdx (n + 1) = e.ring.rxdCalcNext (index e rxdIdx n) e.consumer :=
  Function.iterate_succ_apply' _ _ _

theorem check4packet_taken {v : View} (h : v.taken e = true) (qidx : Nat) :
    (check4packet e v qidx).1 ≠ 0 ∧
      (check4packet e v qidx).2 = e.ring.rxdCalcNext qidx e.consumer := by
  simp only [View.taken, View.filled, Bool.and_eq_true, Bool.not_eq_true', Bool.or_eq_true,
    bne_iff_ne] at h
  obtain ⟨⟨hlocks, hdata⟩, hbuf⟩ := h
  cases hb : e.dstBuf with
  | false => simp [check4packet, hlocks, hdata, hb]
  | true =>
    have hsize : v.frame.size ≠ 0 := by simpa [hb] using hbuf
    simp [check4packet, hlocks, hdata, hb] at hsize ⊢
    exact hsize

theorem check4packet_not_taken {v : View} (h : v.taken e = false) (qidx : Nat) :
    (check4packet e v qidx).1 = 0 := by
  cases hlocks : v.locks with
  | true => simp [check4packet, hlocks]
  | false =>
    cases hdata : v.hasData with
    | false => simp [check4packet, hlocks, hdata]
    | true =>
      simp [View.taken, View.filled, hlocks, hdata] at h
      simp [check4packet, hlocks, hdata, h]

/-- Where a thread is that has read from `rxdIdx` on. -/
structure At (e : Setting) (rxdIdx : Nat) (t : Thread) : Prop where
  qidx : t.qidx = index e rxdIdx t.readDescriptors
  start : t.readDescriptors = 0 → t.rxdIdx = rxdIdx
  last : ∀ n, t.readDescriptors = n + 1 → t.lastReadIdx = index e rxdIdx n

theorem At.enter (e : Setting) (rxdIdx : Nat) (s : State) : At e rxdIdx (enter rxdIdx s) :=
  ⟨rfl, fun _ => rfl, fun _ h => by cases h⟩

theorem body_fields (v : View) (nextQidx : Nat) (t : Thread) :
    (body e v nextQidx t).readDescriptors = t.readDescriptors + 1 ∧
      (body e v nextQidx t).lastReadIdx = t.qidx ∧ (body e v nextQidx t).qidx = nextQidx := by
  by_cases hrel : (t.readDescriptors + 1) % hpcapRxBufferWrite = 0 ∨
      e.ring.isLastDescriptorOfConsumer t.qidx e.consumer
  · simp [body, hrel, hpcapAdvanceReadDescriptors]
  · simp [body, hrel]

/-- The rest is what `rxFrame` makes of the frame. -/
theorem body_rxFrame (v : View) (nextQidx : Nat) (t : Thread) :
    let out := rxFrame e.cfg e.limit e.dstBuf v.frame t.cnt t.state
    (body e v nextQidx t).cnt = out.1 + v.frame.size ∧
      (body e v nextQidx t).outOfSpace = out.2.1 ∧ (body e v nextQidx t).state = out.2.2 := by
  by_cases hrel : (t.readDescriptors + 1) % hpcapRxBufferWrite = 0 ∨
      e.ring.isLastDescriptorOfConsumer t.qidx e.consumer
  · simp [body, hrel, hpcapAdvanceReadDescriptors]
  · simp [body, hrel]

theorem At.body {rxdIdx : Nat} {t : Thread} (h : At e rxdIdx t) (v : View) :
    At e rxdIdx (body e v (e.ring.rxdCalcNext t.qidx e.consumer) t) := by
  obtain ⟨hread, hlast, hqidx⟩ :=
    body_fields (e := e) v (e.ring.rxdCalcNext t.qidx e.consumer) t
  refine ⟨?_, fun hzero => by omega, fun n hn => ?_⟩
  · rw [hqidx, hread, index_succ, h.qidx]
  · obtain rfl : n = t.readDescriptors := by omega
    rw [hlast, h.qidx]

theorem loop_nil {t u : Thread} (hu : loop e [] t = some u) : u = t := by
  simp only [loop] at hu
  split at hu
  · cases hu
  · exact (Option.some_inj.mp hu).symm

/-- A descriptor that the loop comes to is the last one, or it is taken. -/
theorem loop_cons {v : View} {vs : List View} {t u : Thread} (hu : loop e (v :: vs) t = some u) :
    t.cnt < e.limit ∧
      (v.taken e = false ∧ vs = [] ∧ u = { t with nextQidx := (check4packet e v t.qidx).2 } ∨
        v.taken e = true ∧
          loop e vs (body e v (e.ring.rxdCalcNext t.qidx e.consumer) t) = some u) := by
  simp only [loop] at hu
  split at hu
  · rename_i hgoes
    refine ⟨hgoes.1, ?_⟩
    cases htaken : v.taken e with
    | true =>
      obtain ⟨hret, hnext⟩ := check4packet_taken htaken t.qidx
      rw [if_neg hret, hnext] at hu
      exact .inr ⟨rfl, hu⟩
    | false =>
      rw [if_pos (check4packet_not_taken htaken t.qidx)] at hu
      obtain ⟨hempty, hu⟩ := Option.ite_none_right_eq_some.mp hu
      exact .inl ⟨rfl, List.isEmpty_iff.mp hempty, (Option.some_inj.mp hu).symm⟩
  · cases hu

/-- Every descriptor that is taken is read, and no other. -/
theorem loop_reads {rxdIdx : Nat} {views : List View} {t u : Thread} (h : At e rxdIdx t)
    (hu : loop e views t = some u) :
    At e rxdIdx u ∧ u.readDescriptors = t.readDescriptors + views.countP (View.taken e) := by
  induction views generalizing t with
  | nil =>
    obtain rfl := loop_nil hu
    exact ⟨h, rfl⟩
  | cons v vs ih =>
    obtain ⟨-, ⟨htaken, rfl, rfl⟩ | ⟨htaken, hu⟩⟩ := loop_cons hu
    · refine ⟨⟨h.qidx, h.start, h.last⟩, ?_⟩
      simp [htaken]
    · obtain ⟨hat, hcount⟩ := ih (h.body v) hu
      refine ⟨hat, ?_⟩
      rw [hcount, (body_fields v _ t).1, List.countP_cons_of_pos htaken]
      omega

theorem hpcapRx_reads {rxdIdx : Nat} {views : List View} {s : State} {u : Thread}
    (hu : hpcapRx e views rxdIdx s = some u) :
    u.readDescriptors = views.countP (View.taken e) ∧
      u.rxdIdx = index e rxdIdx (views.countP (View.taken e)) := by
  obtain ⟨t, ht, rfl⟩ := Option.map_eq_some_iff.mp hu
  obtain ⟨hat, hcount⟩ := loop_reads (At.enter e rxdIdx s) ht
  have hreads : t.readDescriptors = views.countP (View.taken e) := by
    rw [hcount]
    exact Nat.zero_add _
  by_cases hpos : t.readDescriptors > 0
  · rw [finish, if_pos hpos]
    refine ⟨hreads, ?_⟩
    obtain ⟨n, hn⟩ : ∃ n, t.readDescriptors = n + 1 := ⟨_, (Nat.sub_add_cancel hpos).symm⟩
    rw [← hreads, hn, index_succ, ← hat.last n hn]
    rfl
  · have hzero : t.readDescriptors = 0 := by omega
    rw [finish, if_neg hpos]
    refine ⟨hreads, ?_⟩
    rw [← hreads, hzero, hat.start hzero]
    rfl

theorem View.filled_of_taken {v : View} (h : v.taken e = true) : v.filled = true :=
  (Bool.and_eq_true_iff.mp h).1

theorem View.taken_iff {v : View} (h : v.filled = true) :
    v.taken e = true ↔ (e.dstBuf = true → v.frame.size ≠ 0) := by
  cases hb : e.dstBuf <;> simp [View.taken, h, hb]

/-- As many are taken as are filled only if they are the same. -/
theorem taken_of_countP {views : List View}
    (h : views.countP (View.taken e) = views.countP View.filled) :
    ∀ v ∈ views, v.filled = true → v.taken e = true := by
  induction views with
  | nil => simp
  | cons v vs ih =>
    have hle : vs.countP (View.taken e) ≤ vs.countP View.filled :=
      List.countP_mono_left fun _ _ => View.filled_of_taken
    have hv : v.filled = true → v.taken e = true := by
      intro hfilled
      by_contra htaken
      rw [List.countP_cons_of_pos hfilled, List.countP_cons_of_neg htaken] at h
      omega
    refine List.forall_mem_cons.mpr ⟨hv, ih ?_⟩
    cases hfilled : v.filled with
    | true =>
      rw [List.countP_cons_of_pos hfilled, List.countP_cons_of_pos (hv hfilled)] at h
      exact Nat.succ.inj h
    | false =>
      have htaken : ¬ v.taken e = true := fun ht => by
        rw [View.filled_of_taken ht] at hfilled
        cases hfilled
      rwa [List.countP_cons_of_neg htaken, List.countP_cons_of_neg (by simp [hfilled])] at h

/-- A call goes on behind what it was shown exactly if no filled descriptor that it comes to,
with a buffer to go to, has length 0. -/
theorem hpcapRx_consumes (e : Setting) (views : List View) (rxdIdx : Nat) (s : State) (u : Thread)
    (hu : hpcapRx e views rxdIdx s = some u) :
    Consumes e views rxdIdx u ↔
      ∀ v ∈ views, e.dstBuf = true → v.filled = true → v.frame.size ≠ 0 := by
  obtain ⟨hreads, hidx⟩ := hpcapRx_reads hu
  constructor
  · intro h v hv hbuf hfilled
    exact (View.taken_iff hfilled).mp (taken_of_countP (hreads.symm.trans h.all) v hv hfilled) hbuf
  · intro h
    have hsame : views.countP (View.taken e) = views.countP View.filled := by
      refine List.countP_congr fun v hv => ⟨View.filled_of_taken, fun hfilled => ?_⟩
      exact (View.taken_iff hfilled).mpr fun hbuf => h v hv hbuf hfilled
    rw [hsame] at hreads hidx
    refine ⟨fun _ v hv hfilled => ?_, hreads, fun hzero => ?_, fun n hn => ?_⟩
    · rw [hreads]
      exact List.countP_pos_iff.mpr ⟨v, List.mem_of_mem_head? hv, hfilled⟩
    · rw [hidx, hzero]
      rfl
    · rw [hidx, hn, index_succ]

theorem hpcapRx_consumes_two :
    let e : Setting := ⟨⟨512, 1, by decide, by decide⟩, 0, ⟨4096, 4096, 0, false, []⟩, 64, true⟩
    let v : View := ⟨false, true, ⟨[1, 2], 0, 0⟩⟩
    ∃ u, hpcapRx e [v, v, ⟨false, false, ⟨[], 0, 0⟩⟩] 511 (.init fun _ => 0) = some u ∧
      u.rxdIdx = 1 ∧ Consumes e [v, v, ⟨false, false, ⟨[], 0, 0⟩⟩] 511 u := by
  have hrun : (hpcapRx ⟨⟨512, 1, by decide, by decide⟩, 0, ⟨4096, 4096, 0, false, []⟩, 64, true⟩
      [⟨false, true, ⟨[1, 2], 0, 0⟩⟩, ⟨false, true, ⟨[1, 2], 0, 0⟩⟩, ⟨false, false, ⟨[], 0, 0⟩⟩]
      511 (.init fun _ => 0)).map Thread.rxdIdx = some 1 := by
    decide +kernel
  obtain ⟨u, hu, hidx⟩ := Option.map_eq_some_iff.mp hrun
  exact ⟨u, hu, hidx, (hpcapRx_consumes _ _ _ _ _ hu).mpr (by simp [View.filled])⟩

/-- A filled descriptor without bytes is taken for an empty one. The call ends where it began,
and so does the next. -/
theorem hpcapRx_stuck :
    let e : Setting := ⟨⟨512, 1, by decide, by decide⟩, 0, ⟨4096, 4096, 0, false, []⟩, 4095, true⟩
    let v : View := ⟨false, true, ⟨[], 0, 0⟩⟩
    let s : State := .init fun _ => 0
    ∃ u, hpcapRx e [v] 7 s = some u ∧ u.rxdIdx = 7 ∧ u.state = s ∧ ¬ Consumes e [v] 7 u := by
  refine ⟨_, rfl, rfl, rfl, fun h => ?_⟩
  exact absurd (h.first (by decide) _ rfl rfl) (by decide)

section Total

/-- The first `n` descriptors that the ring shows. -/
def shown (ring : Nat → View) (n : Nat) : List View := (List.range n).map ring

theorem shown_succ (ring : Nat → View) (n : Nat) :
    shown ring (n + 1) = ring 0 :: shown (fun k => ring (k + 1)) n := by
  simp [shown, List.range_succ_eq_map, Function.comp_def]

/-- The loop ends, or it takes the first descriptor and goes on. -/
theorem loop_shown (e : Setting) (ring : Nat → View) (t : Thread) :
    (∃ n, (loop e (shown ring n) t).isSome) ∨
      (ring 0).taken e = true ∧ t.cnt < e.limit ∧ ∀ n, loop e (shown ring (n + 1)) t =
        loop e (shown (fun k => ring (k + 1)) n)
          (body e (ring 0) (e.ring.rxdCalcNext t.qidx e.consumer) t) := by
  by_cases hgoes : t.cnt < e.limit ∧ t.outOfSpace = false
  · cases htaken : (ring 0).taken e with
    | true =>
      obtain ⟨hret, hnext⟩ := check4packet_taken htaken t.qidx
      refine .inr ⟨rfl, hgoes.1, fun n => ?_⟩
      rw [shown_succ]
      simp only [loop, if_pos hgoes, if_neg hret, hnext]
    | false =>
      refine .inl ⟨1, ?_⟩
      rw [shown_succ]
      simp [loop, hgoes, check4packet_not_taken htaken t.qidx, shown]
  · exact .inl ⟨0, by simp only [shown, List.range_zero, List.map_nil, loop, if_neg hgoes]; rfl⟩

/-- With a buffer every frame that is taken uses up some of the limit. -/
theorem loop_ends {fuel : Nat} (ring : Nat → View) {t : Thread} (hbuf : e.dstBuf = true)
    (hfuel : e.limit - t.cnt ≤ fuel) : ∃ n, (loop e (shown ring n) t).isSome := by
  induction fuel generalizing ring t with
  | zero =>
    obtain h | ⟨-, hlt, -⟩ := loop_shown e ring t
    · exact h
    · omega
  | succ fuel ih =>
    obtain h | ⟨htaken, hlt, hloop⟩ := loop_shown e ring t
    · exact h
    · have hsize := (View.taken_iff (View.filled_of_taken htaken)).mp htaken hbuf
      obtain ⟨hcnt, -⟩ :=
        body_rxFrame (e := e) (ring 0) (e.ring.rxdCalcNext t.qidx e.consumer) t
      have hle := (rxFrame_cnt e.cfg e.limit e.dstBuf (ring 0).frame t.cnt t.state).1
      obtain ⟨n, hn⟩ := ih (fun k => ring (k + 1))
        (t := body e (ring 0) (e.ring.rxdCalcNext t.qidx e.consumer) t) (by omega)
      exact ⟨n + 1, by rw [hloop]; exact hn⟩

theorem loop_meets_empty {k : Nat} (ring : Nat → View) {t : Thread}
    (hempty : (ring k).filled = false) : ∃ n, (loop e (shown ring n) t).isSome := by
  induction k generalizing ring t with
  | zero =>
    obtain h | ⟨htaken, -⟩ := loop_shown e ring t
    · exact h
    · rw [View.filled_of_taken htaken] at hempty
      cases hempty
  | succ k ih =>
    obtain h | ⟨-, -, hloop⟩ := loop_shown e ring t
    · exact h
    · obtain ⟨n, hn⟩ := ih (fun k => ring (k + 1))
        (t := body e (ring 0) (e.ring.rxdCalcNext t.qidx e.consumer) t) hempty
      exact ⟨n + 1, by rw [hloop]; exact hn⟩

/-- Whatever the ring shows, a call ends: always with a buffer, and without one as soon as
there is no more data. -/
theorem hpcapRx_ends (e : Setting) (ring : Nat → View) (rxdIdx : Nat) (s : State)
    (h : e.dstBuf = true ∨ ∃ k, (ring k).filled = false) :
    ∃ n, (hpcapRx e (shown ring n) rxdIdx s).isSome := by
  have hloop : ∃ n, (loop e (shown ring n) (enter rxdIdx s)).isSome := by
    obtain hbuf | ⟨k, hk⟩ := h
    · exact loop_ends _ hbuf le_rfl
    · exact loop_meets_empty _ hk
  obtain ⟨n, hn⟩ := hloop
  exact ⟨n, by rw [hpcapRx, Option.isSome_map]; exact hn⟩

end Total

/-- The frames of the filled descriptors. -/
def frames (views : List View) : List Frame := (views.filter View.filled).map View.frame

/-- What the loop does to the buffer is what it does for the frames it is shown. -/
theorem loop_rxLoop {views : List View} {t u : Thread} (ht : t.outOfSpace = false)
    (hu : loop e views t = some u) :
    (rxLoop e.cfg e.limit e.dstBuf (frames views) t.cnt t.state).1 = u.cnt ∧
      (rxLoop e.cfg e.limit e.dstBuf (frames views) t.cnt t.state).2.2 = u.state := by
  induction views generalizing t with
  | nil =>
    obtain rfl := loop_nil hu
    exact ⟨rfl, rfl⟩
  | cons v vs ih =>
    obtain ⟨hlimit, ⟨htaken, rfl, rfl⟩ | ⟨htaken, hu⟩⟩ := loop_cons hu
    · cases hfilled : v.filled with
      | false =>
        have hnone : frames [v] = [] := by simp [frames, hfilled]
        rw [hnone]
        exact ⟨rfl, rfl⟩
      | true =>
        have hone : frames [v] = [v.frame] := by simp [frames, hfilled]
        have hskip : e.dstBuf = true ∧ v.frame.size = 0 := by
          simpa [View.taken, hfilled] using htaken
        rw [hone, rxLoop, if_pos hlimit, if_pos hskip]
        exact ⟨rfl, rfl⟩
    · have hfilled := View.filled_of_taken htaken
      have hcons : frames (v :: vs) = v.frame :: frames vs := by simp [frames, hfilled]
      have hkeep : ¬ (e.dstBuf = true ∧ v.frame.size = 0) := fun h =>
        (View.taken_iff hfilled).mp htaken h.1 h.2
      obtain ⟨hcnt, hout, hstate⟩ :=
        body_rxFrame (e := e) v (e.ring.rxdCalcNext t.qidx e.consumer) t
      rw [hcons, rxLoop, if_pos hlimit, if_neg hkeep]
      generalize body e v (e.ring.rxdCalcNext t.qidx e.consumer) t = b at hu hcnt hout hstate
      generalize rxFrame e.cfg e.limit e.dstBuf v.frame t.cnt t.state = r at hcnt hout hstate
      obtain ⟨cnt', out, s⟩ := r
      dsimp only at hcnt hout hstate
      cases out with
      | true =>
        cases vs with
        | nil =>
          obtain rfl := loop_nil hu
          exact ⟨hcnt.symm, hstate.symm⟩
        | cons w ws => simp [loop, hout] at hu
      | false =>
        have h := ih hout hu
        rw [hcnt, hstate] at h
        exact h

theorem hpcapRx_refines {views : List View} {rxdIdx : Nat} {s : State} {u : Thread}
    (hu : hpcapRx e views rxdIdx s = some u) :
    (Rx.hpcapRx e.cfg e.limit e.dstBuf (frames views) s).1 = u.cnt ∧
      (Rx.hpcapRx e.cfg e.limit e.dstBuf (frames views) s).2.2 = u.state := by
  obtain ⟨t, ht, rfl⟩ := Option.map_eq_some_iff.mp hu
  obtain ⟨hcnt, hstate⟩ := loop_rxLoop rfl ht
  simp only [finish]
  split <;> exact ⟨hcnt, hstate⟩

section Released

variable {r : Ring} {w : RxRing.State}

/-- The calls of `hpcap_advance_read_descriptors`, made on the shared ring. -/
def release (r : Ring) (consumer : Nat) (released : List Nat) (w : RxRing.State) : RxRing.State :=
  released.foldr (fun last w => RxRing.hpcapAdvanceReadDescriptors r w consumer last) w

/-- The thread's index is the one that its releases leave on the shared ring. -/
def Agrees (e : Setting) (r : Ring) (w : RxRing.State) (t : Thread) : Prop :=
  (release r e.consumer t.released w).rxdIdx e.consumer = t.rxdIdx

theorem agrees_advance (hr : e.ring = .ofRing r) (t : Thread) :
    Agrees e r w (hpcapAdvanceReadDescriptors e t) := by
  change (RxRing.hpcapAdvanceReadDescriptors r _ _ _).rxdIdx _ = e.ring.rxdCalcNext _ _
  rw [RxRing.hpcapAdvanceReadDescriptors_rxdIdx, Function.update_self, hr,
    Shares.ofRing_rxdCalcNext]

theorem agrees_body (hr : e.ring = .ofRing r) {t : Thread} (h : Agrees e r w t) (v : View)
    (nextQidx : Nat) : Agrees e r w (body e v nextQidx t) := by
  simp only [body]
  split
  · exact agrees_advance hr _
  · exact h

theorem agrees_loop (hr : e.ring = .ofRing r) {views : List View} {t u : Thread}
    (h : Agrees e r w t) (hu : loop e views t = some u) : Agrees e r w u := by
  induction views generalizing t with
  | nil =>
    obtain rfl := loop_nil hu
    exact h
  | cons v vs ih =>
    obtain ⟨-, ⟨-, -, rfl⟩ | ⟨-, hu⟩⟩ := loop_cons hu
    · exact h
    · exact ih (agrees_body hr h v _) hu

theorem hpcapRx_releases (hr : e.ring = .ofRing r) {views : List View} {s : State} {u : Thread}
    (hu : hpcapRx e views (w.rxdIdx e.consumer) s = some u) : Agrees e r w u := by
  obtain ⟨t, ht, rfl⟩ := Option.map_eq_some_iff.mp hu
  have henter : Agrees e r w (enter (w.rxdIdx e.consumer) s) := rfl
  have h := agrees_loop hr henter ht
  simp only [finish]
  split
  · exact agrees_advance hr t
  · exact h

end Released

end Hpcap.Descriptors
