import Hpcap.RxRing

namespace Hpcap.Xl710

open Hpcap.Transition Function
open Hpcap.RxRing hiding State mayFree hpcapAdvanceReadDescriptors step init Fresh Launched Inv

/-- The receive ring of the XL710: of a descriptor only the done bit counts here. -/
structure State where
  tail : Nat
  head : Nat
  dd : Nat → Bool
  canFree : Nat → Bool
  freedLastRxd : Nat → Bool
  rxdIdx : Nat → Nat
  pcs : Nat → Pc

def State.goto (s : State) (c : Nat) (pc : Pc) : State := { s with pcs := update s.pcs c pc }

/-- The consumer may free: it already could, or the one before it has just finished. -/
def mayFree (r : Ring) (s : State) (c : Nat) : Bool :=
  s.canFree c || s.freedLastRxd (r.previousConsumer c)

/-- Without the token a consumer leaves the last nine descriptors of its segment alone. The
difference is one of `uint32_t`. -/
def canLockRing (r : Ring) (s : State) (rxdToRead c : Nat) : Bool :=
  !s.canFree c && !s.freedLastRxd (r.previousConsumer c) &&
    decide (UInt32.ofNat (r.getLastDescriptorOfConsumer c) - UInt32.ofNat rxdToRead ≤ 8)

/-- The index to read after `qidx`, if there is something to read. -/
def check4packet (r : Ring) (s : State) (qidx c : Nat) : Option Nat :=
  if canLockRing r s qidx c then none
  else if s.dd (qidx % r.size) then some (r.rxdCalcNext qidx c)
  else none

/-- `hpcap_advance_read_descriptors`: the tail moves by multiples of 8. -/
def hpcapAdvanceReadDescriptors (r : Ring) (s : State) (c lastReadIdx : Nat) : State :=
  let next := r.rxdCalcNext lastReadIdx c
  if mayFree r s c then
    let freed := if !s.canFree c && s.freedLastRxd (r.previousConsumer c) then
      update s.freedLastRxd (r.previousConsumer c) false else s.freedLastRxd
    let isLast : Bool := r.isLastDescriptorOfConsumer lastReadIdx c
    { s with
      tail := lastReadIdx / 8 * 8
      freedLastRxd := if isLast then update freed c true else freed
      canFree := update s.canFree c !isLast
      rxdIdx := update s.rxdIdx c next }
  else { s with rxdIdx := update s.rxdIdx c next }

def step (r : Ring) (s : State) : Step → Option State
  | .enter c =>
    match s.pcs c with
    | .idle => if c < r.consumers then some (s.goto c (.loop (s.rxdIdx c) 0 0 false)) else none
    | _ => none
  | .read c =>
    match s.pcs c with
    | .loop qidx _ n _ =>
      (check4packet r s qidx c).map fun next =>
        { s.goto c (.read next qidx (n + 1)) with dd := update s.dd (qidx % r.size) false }
    | _ => none
  | .release c =>
    match s.pcs c with
    | .read qidx last n =>
      if n % hpcapRxBufferWrite = 0 ∨ r.isLastDescriptorOfConsumer last c then
        some ((hpcapAdvanceReadDescriptors r s c last).goto c
          (.loop qidx last n (mayFree r s c)))
      else some (s.goto c (.loop qidx last n false))
    | _ => none
  | .leave c =>
    match s.pcs c with
    | .loop _ last n _ =>
      if 0 < n then some ((hpcapAdvanceReadDescriptors r s c last).goto c .idle)
      else some (s.goto c .idle)
    | _ => none
  | .fill =>
    if s.head ≠ s.tail then
      some { s with dd := update s.dd s.head true, head := (s.head + 1) % r.size }
    else none

/-- As `hpcap_launch_poll_threads` finds it, with everything but one descriptor given to the
hardware. -/
def init (r : Ring) (firstRxd : Nat) : State where
  tail := (firstRxd + r.size - 1) % r.size
  head := firstRxd
  dd := fun _ => false
  canFree := fun c => c = r.rxdConsumerOf firstRxd
  freedLastRxd := fun _ => false
  rxdIdx := fun c => if c = r.rxdConsumerOf firstRxd then firstRxd else c * r.descrPerConsumer
  pcs := fun _ => .idle

/-- The states the poll threads may be launched in; the drivers of the XL710 clean the ring
back to descriptor 0 before. -/
def Launched (r : Ring) (s : State) : Prop := ∃ firstRxd < r.size, 8 ∣ firstRxd ∧ s = init r firstRxd

def Fresh (r : Ring) (s : State) : Step → Prop := FreshCall r s.freedLastRxd s.pcs

instance (r : Ring) (s : State) : DecidablePred (Fresh r s) :=
  inferInstanceAs (DecidablePred (FreshCall r s.freedLastRxd s.pcs))

/-- Nothing is left for the consumer to read, and the call after the loop, if it is still to
come, changes nothing. -/
def Stuck (r : Ring) (s : State) (c : Nat) : Prop :=
  match s.pcs c with
  | .idle => check4packet r s (s.rxdIdx c) c = none
  | .loop qidx last reads _ =>
    check4packet r s qidx c = none ∧ (0 < reads → hpcapAdvanceReadDescriptors r s c last = s)
  | .read _ _ _ => False

/-- The hardware may fill no descriptor and every consumer is stuck. -/
structure Dead (r : Ring) (s : State) : Prop where
  full : s.head = s.tail
  stuck : ∀ c < r.consumers, Stuck r s c

/-- The consumer is out of the loop, or has just come in. -/
def AtRest (r : Ring) (s : State) (c : Nat) : Prop :=
  s.pcs c = .idle ∨ c < r.consumers ∧ s.pcs c = .loop (s.rxdIdx c) 0 0 false

theorem Stuck.missing {r : Ring} {s : State} {c : Nat} (h : Stuck r s c) (hrest : AtRest r s c) :
    check4packet r s (s.rxdIdx c) c = none := by
  obtain hp | ⟨-, hp⟩ := hrest
  · simpa only [Stuck, hp] using h
  · simp only [Stuck, hp] at h
    exact h.1

/-- In a dead ring the consumers can only come and go. -/
theorem Dead.step {r : Ring} {s t : State} {a : Step} (h : Dead r s) (hrest : ∀ c, AtRest r s c)
    (ht : step r s a = some t) :
    ∃ pcs, t = { s with pcs := pcs } ∧ Dead r t ∧ ∀ c, AtRest r t c := by
  have hmove : ∀ c pc, (pc = .idle ∨ c < r.consumers ∧ pc = .loop (s.rxdIdx c) 0 0 false) →
      t = s.goto c pc → ∃ pcs, t = { s with pcs := pcs } ∧ Dead r t ∧ ∀ c, AtRest r t c := by
    rintro c pc hpc rfl
    have hrest' : ∀ c', AtRest r (s.goto c pc) c' := by
      intro c'
      by_cases he : c' = c
      · have hself : (s.goto c pc).pcs c' = pc := by rw [he]; exact update_self _ _ _
        rw [AtRest, hself, he]
        exact hpc
      · have hother : (s.goto c pc).pcs c' = s.pcs c' := update_of_ne he _ _
        rw [AtRest, hother]
        exact hrest c'
    refine ⟨_, rfl, ⟨h.full, fun c' hc' => ?_⟩, hrest'⟩
    have hmiss : check4packet r (s.goto c pc) ((s.goto c pc).rxdIdx c') c' = none :=
      (h.stuck c' hc').missing (hrest c')
    obtain hp | ⟨-, hp⟩ := hrest' c'
    · simpa only [Stuck, hp] using hmiss
    · simp only [Stuck, hp]
      exact ⟨hmiss, fun h0 => absurd h0 (lt_irrefl 0)⟩
  cases a with
  | enter c =>
    obtain hp | ⟨-, hp⟩ := hrest c
    · simp only [Xl710.step, hp] at ht
      obtain ⟨hc, ht⟩ := Option.ite_none_right_eq_some.mp ht
      exact hmove c _ (.inr ⟨hc, rfl⟩) (Option.some.inj ht).symm
    · simp [Xl710.step, hp] at ht
  | read c =>
    obtain hp | ⟨hc, hp⟩ := hrest c
    · simp [Xl710.step, hp] at ht
    · simp [Xl710.step, hp, (h.stuck c hc).missing (hrest c)] at ht
  | release c =>
    obtain hp | ⟨-, hp⟩ := hrest c
    · simp [Xl710.step, hp] at ht
    · simp [Xl710.step, hp] at ht
  | leave c =>
    obtain hp | ⟨-, hp⟩ := hrest c
    · simp [Xl710.step, hp] at ht
    · simp only [Xl710.step, hp, if_neg (lt_irrefl 0), Option.some.injEq] at ht
      exact hmove c _ (.inl rfl) ht.symm
  | fill =>
    simp [Xl710.step, h.full] at ht

/-- Whatever happens from then on, a dead ring stays as it is. -/
theorem Dead.forever {r : Ring} {s t : State} {as : List Step} (h : Dead r s)
    (hrest : ∀ c, AtRest r s c) (hr : run (Xl710.step r) s as = some t) :
    ∃ pcs, t = { s with pcs := pcs } := by
  induction as generalizing s with
  | nil => exact ⟨_, (Option.some.inj hr).symm⟩
  | cons a as ih =>
    obtain ⟨u, hu, hr⟩ := Option.bind_eq_some_iff.mp hr
    obtain ⟨pcs, rfl, hdead, hrest'⟩ := h.step hrest hu
    obtain ⟨pcs', he⟩ := ih hdead hrest' hr
    exact ⟨pcs', he⟩

/-- The ring of the other model, with another tail. -/
def view (u : RxRing.State) (tail : Nat) : State where
  tail := tail
  head := u.head
  dd := fun i => (u.descs i).dd
  canFree := u.canFree
  freedLastRxd := u.freedLastRxd
  rxdIdx := u.rxdIdx
  pcs := u.pcs

theorem view_goto (u : RxRing.State) (tail c : Nat) (pc : Pc) :
    (view u tail).goto c pc = view (u.goto c pc) tail := rfl

theorem view_advance (r : Ring) (u : RxRing.State) (tail c last : Nat) :
    hpcapAdvanceReadDescriptors r (view u tail) c last =
      view (RxRing.hpcapAdvanceReadDescriptors r u c last)
        (if RxRing.mayFree r u c then last / 8 * 8 else tail) := by
  have hview : mayFree r (view u tail) c = RxRing.mayFree r u c := rfl
  rw [hpcapAdvanceReadDescriptors, RxRing.hpcapAdvanceReadDescriptors, hview]
  by_cases hmay : RxRing.mayFree r u c = true
  · have hdd : ∀ i, (if HandedOver r u.tail last i then { u.descs i with owned := true }
        else u.descs i).dd = (u.descs i).dd := by
      intro i
      split <;> rfl
    simp only [if_pos hmay, view, hdd]
    rfl
  · simp only [if_neg hmay, view]

theorem view_read (u : RxRing.State) (tail k c : Nat) :
    update (view u tail).dd k false =
      fun i => (update u.descs k ((u.descs k).rearm c) i).dd := by
  funext i
  by_cases hi : i = k
  · rw [hi, update_self, update_self]
    rfl
  · rw [update_of_ne hi, update_of_ne hi]
    rfl

theorem view_fill (u : RxRing.State) (tail : Nat) :
    update (view u tail).dd (view u tail).head true =
      fun i => (update u.descs u.head ⟨false, true, []⟩ i).dd := by
  funext i
  by_cases hi : i = u.head
  · rw [hi, update_self]
    exact update_self _ _ _
  · rw [update_of_ne hi]
    exact update_of_ne hi _ _

theorem view_init (r : Ring) (firstRxd : Nat) :
    init r firstRxd = view (RxRing.init r firstRxd) ((firstRxd + r.size - 1) % r.size) := by
  have hdd : ∀ i, ((RxRing.init r firstRxd).descs i).dd = false := by
    intro i
    simp only [RxRing.init]
    split <;> rfl
  simp only [view, hdd]
  rfl

variable {r : Ring} {s : State} {u : RxRing.State} {S H T : Nat} {n : Nat → Nat} {held : Bool}
  {c l last : Nat}

/-- Where a consumer may be: no segment ahead of the token, and right behind the released
frontier if it holds the token and has nothing left to release. -/
def Bound (r : Ring) (u : RxRing.State) (S : Nat) (held : Bool) (n c : Nat) : Prop :=
  match u.pcs c with
  | .idle => n / r.descrPerConsumer < tokenSeg r S + r.consumers ∧
      (Holds r S held c ∨ r.consumers = 1 → n = S + 1)
  | .loop _ _ reads _ => n / r.descrPerConsumer < tokenSeg r S + r.consumers ∧
      (reads = 0 → Holds r S held c ∨ r.consumers = 1 → n = S + 1)
  | .read _ last _ => n / r.descrPerConsumer < tokenSeg r S + r.consumers ∨
      r.isLastDescriptorOfConsumer last c ∧ c = r.consumerAt (S + 1)

/-- The tail register is at `T`: at the multiple of 8 below the released frontier, or where
it was at the launch. -/
structure Inv (r : Ring) (u : RxRing.State) (S H : Nat) (n : Nat → Nat) (held : Bool) (T : Nat) : Prop
    extends RxRing.Inv r u S H n held where
  fits : H ≤ T + r.size
  rounded : T = S / 8 * 8 ∨
    T = S ∧ 8 ∣ S + 1 ∧ ∀ c qidx last reads, u.pcs c ≠ .loop qidx last reads true
  bound : ∀ c < r.consumers, Bound r u S held (n c) c

theorem div_mul_mod {l n : Nat} (h : 8 ∣ n) : l % n / 8 * 8 = l / 8 * 8 % n := by
  obtain ⟨m, rfl⟩ := h
  rw [Nat.mod_mul_right_div_self, Nat.mul_comm 8 m, Nat.mul_mod_mul_right]

theorem nextPos_consecutive (r : Ring) (hl : r.consumerAt l = r.consumerAt (l + 1)) :
    r.nextPos l = l + 1 := by
  rw [Ring.nextPos]
  split
  · rename_i h
    have hs := r.succ_div l
    rw [if_pos h] at hs
    rw [Ring.consumerAt, Ring.consumerAt, hs] at hl
    have hone : r.consumers = 1 :=
      Nat.dvd_one.mp (by simpa using (Nat.modEq_iff_dvd' (Nat.le_succ _)).mp hl)
    rw [hone, Nat.sub_self, Nat.mul_zero, Nat.add_zero]
  · rfl

theorem Bound.congr {t : RxRing.State} {m : Nat} (h : Bound r u S held m c)
    (hp : t.pcs c = u.pcs c) : Bound r t S held m c := by
  rw [Bound, hp]
  exact h

theorem tokenSeg_mono {S' : Nat} (h : S ≤ S') : tokenSeg r S ≤ tokenSeg r S' :=
  Nat.div_le_div_right (Nat.succ_le_succ h)

/-- The consumer of the token's segment is not ahead of that segment. -/
theorem seg_le_tokenSeg {x : Nat} (hx : r.consumerAt x = r.consumerAt (S + 1))
    (hlt : x / r.descrPerConsumer < tokenSeg r S + r.consumers) :
    x / r.descrPerConsumer ≤ tokenSeg r S := by
  by_contra hgt
  have hround := add_le_of_mod_eq hx.symm (Nat.not_le.mp hgt)
  exact absurd hlt (Nat.not_lt.mpr hround)

theorem nextPos_bound (l : Nat) :
    r.nextPos l / r.descrPerConsumer < tokenSeg r l + r.consumers := by
  have hs := r.succ_div l
  have hC := r.consumers_pos
  by_cases hend : (l + 1) % r.descrPerConsumer = 0
  · rw [if_pos hend] at hs
    rw [r.nextPos_div_last hend, tokenSeg, hs]
    omega
  · rw [if_neg hend] at hs
    rw [r.nextPos_div_inner hend, tokenSeg, hs]
    omega

theorem Bound.release {S' m c' : Nat} {held' : Bool} (h : Bound r u S held m c') (hle : S ≤ S')
    (hm : c' ≠ r.consumerAt (S + 1)) (hno : ¬ Holds r S' held' c') (hmany : r.consumers ≠ 1) :
    Bound r u S' held' m c' := by
  have hseg := tokenSeg_mono (r := r) hle
  have hcannot : ¬ (Holds r S' held' c' ∨ r.consumers = 1) := not_or.mpr ⟨hno, hmany⟩
  unfold Bound at h ⊢
  cases hp : u.pcs c' with
  | idle =>
    rw [hp] at h
    exact ⟨by omega, fun hh => absurd hh hcannot⟩
  | loop =>
    rw [hp] at h
    exact ⟨by omega, fun _ hh => absurd hh hcannot⟩
  | read =>
    rw [hp] at h
    have := h.resolve_right fun hh => hm hh.2
    exact .inl (by omega)

namespace Inv

theorem tail_le (h : Inv r u S H n held T) (hcase : l = S ∧ T = S / 8 * 8 ∨ S < l) :
    T ≤ l / 8 * 8 := by
  obtain ⟨rfl, rfl⟩ | hlt := hcase
  · exact le_rfl
  · obtain rfl | ⟨rfl, ⟨k, hk⟩, -⟩ := h.rounded
    · omega
    · omega

theorem tail_le_frontier (h : Inv r u S H n held T) : T ≤ S := by
  obtain rfl | ⟨rfl, -, -⟩ := h.rounded
  · omega
  · exact le_rfl

theorem frontier_lt (h : Inv r u S H n held T) : S < T + 8 := by
  obtain rfl | ⟨rfl, -, -⟩ := h.rounded
  · omega
  · omega

/-- A step of one consumer that leaves the frontier and the tail alone. -/
theorem of_thread (h : Inv r u S H n held T) {v : RxRing.State} {n' : Nat → Nat} (pc : Pc)
    (hinv : RxRing.Inv r v S H n' held) (hpcs : v.pcs = update u.pcs c pc)
    (hn : ∀ c' ≠ c, n' c' = n c') (hfresh : ∀ qidx last reads, pc ≠ .loop qidx last reads true)
    (hself : Bound r v S held (n' c) c) : Inv r v S H n' held T := by
  refine ⟨hinv, h.fits, h.rounded.imp_right fun hh => ⟨hh.1, hh.2.1, ?_⟩, fun c' hc' => ?_⟩
  · intro c' qidx last reads
    rw [hpcs]
    by_cases he : c' = c
    · rw [he, update_self]
      exact hfresh _ _ _
    · rw [update_of_ne he]
      exact hh.2.2 _ _ _ _
  · by_cases he : c' = c
    · rw [he]
      exact hself
    · rw [hn c' he]
      exact (h.bound c' hc').congr (by rw [hpcs, update_of_ne he])

/-- A release by the consumer with the token. -/
theorem advance (h : Inv r u S H n held T) {pc : Pc} (hc : c < r.consumers)
    (hm : c = r.consumerAt (S + 1)) (hl : LastRead r (n c) c last l)
    (hcase : l = S ∧ T = S / 8 * 8 ∨ S < l)
    (hinv : RxRing.Inv r ((RxRing.hpcapAdvanceReadDescriptors r u c last).goto c pc) l H n
      (decide ((l + 1) % r.descrPerConsumer ≠ 0)))
    (hpc : pc = .idle ∨ ∃ qidx last reads handed, 0 < reads ∧ pc = .loop qidx last reads handed) :
    Inv r ((RxRing.hpcapAdvanceReadDescriptors r u c last).goto c pc) l H n
      (decide ((l + 1) % r.descrPerConsumer ≠ 0)) (l / 8 * 8) := by
  obtain ⟨-, hnext, hcl⟩ := hl
  have hSl : S ≤ l := hcase.elim (fun hh => hh.1.ge) Nat.le_of_lt
  have htail := h.tail_le hcase
  have hfits := h.fits
  refine ⟨hinv, by omega, .inl rfl, fun c' hc' => ?_⟩
  by_cases he : c' = c
  · subst he
    have hlt : n c' / r.descrPerConsumer < tokenSeg r l + r.consumers := hnext ▸ nextPos_bound l
    have hback : Holds r l (decide ((l + 1) % r.descrPerConsumer ≠ 0)) c' ∨ r.consumers = 1 →
        n c' = l + 1 := by
      intro hh
      rw [← hnext]
      refine nextPos_consecutive r ?_
      obtain hh | hone := hh
      · exact hcl.trans hh.2
      · rw [Ring.consumerAt, Ring.consumerAt, hone, Nat.mod_one, Nat.mod_one]
    rw [Bound, goto_pcs, update_self]
    obtain rfl | ⟨qidx, last, reads, handed, hpos, rfl⟩ := hpc
    · exact ⟨hlt, hback⟩
    · exact ⟨hlt, fun h0 => absurd h0 hpos.ne'⟩
  · have hbound : Bound r u l (decide ((l + 1) % r.descrPerConsumer ≠ 0)) (n c') c' := by
      refine (h.bound c' hc').release hSl (fun hh => he (hh.trans hm.symm)) (fun hh => he ?_) (by omega)
      have hs := r.succ_div l
      rw [if_neg (of_decide_eq_true hh.1)] at hs
      rw [hh.2, Ring.consumerAt, hs]
      exact hcl
    exact hbound.congr (by rw [goto_pcs, update_of_ne he, hpcapAdvanceReadDescriptors_pcs])

theorem enter (h : Inv r u S H n held T) (hp : u.pcs c = .idle) (hc : c < r.consumers) :
    Inv r (u.goto c (.loop (u.rxdIdx c) 0 0 false)) S H n held T := by
  have hb := h.bound c hc
  rw [Bound, hp] at hb
  refine h.of_thread _ (h.toInv.enter hp hc) rfl (fun _ _ => rfl) nofun ?_
  rw [Bound, goto_pcs, update_self]
  exact ⟨hb.1, fun _ => hb.2⟩

/-- Whoever reads has the token ahead of it, or leaves the end of its segment alone. -/
theorem read (h : Inv r u S H n held T) {qidx reads next tail : Nat} {handed : Bool}
    (hp : u.pcs c = .loop qidx last reads handed)
    (hcheck : check4packet r (view u tail) qidx c = some next) :
    next = r.rxdCalcNext qidx c ∧
      Inv r { u.goto c (.read next qidx (reads + 1)) with
        descs := update u.descs (qidx % r.size) ((u.descs (qidx % r.size)).rearm c) }
        S H (update n c (r.nextPos (n c))) held T := by
  have hc : c < r.consumers := h.consumer_lt (by rw [hp]; nofun)
  obtain ⟨hlock, hcheck⟩ := Option.ite_none_left_eq_some.mp hcheck
  obtain ⟨hdd, hcheck⟩ := Option.ite_none_right_eq_some.mp hcheck
  obtain rfl := Option.some.inj hcheck
  have ht := h.threads c hc
  simp only [ThreadAt, hp] at ht
  have hb := h.bound c hc
  rw [Bound, hp] at hb
  have hown := h.own c hc
  have hlast := r.isLastDescriptorOfConsumer_mod hown
  refine ⟨rfl, h.of_thread _ (h.toInv.read hp hdd) rfl (fun _ hne => update_of_ne hne _ _) (by simp) ?_⟩
  change Bound r _ S held (update n c _ c) c
  rw [Bound, update_self]
  change (match update u.pcs c _ c with | .idle => _ | .loop _ _ _ _ => _ | .read _ _ _ => _)
  rw [update_self]
  by_cases hend : (n c + 1) % r.descrPerConsumer = 0
  · refine .inr ⟨ht.1 ▸ hlast.mpr hend, ?_⟩
    -- the check refuses the last descriptor without the token
    by_contra hm
    have hmay : RxRing.mayFree r u c = false :=
      Bool.not_eq_true _ ▸ mt (h.mayFree_iff hc).mp hm
    obtain ⟨hcan, hfreed⟩ := Bool.or_eq_false_iff.mp hmay
    have hidx : qidx = r.getLastDescriptorOfConsumer c := by
      have hl := hlast.mpr hend
      rw [Ring.isLastDescriptorOfConsumer, Nat.mod_mod] at hl
      rw [ht.1, hl]
    apply hlock
    simp [canLockRing, view, hcan, hfreed, hidx]
  · exact .inl (by rw [r.nextPos_div_inner hend]; exact hb.1)

theorem keep (h : Inv r u S H n held T) {qidx reads : Nat} (hp : u.pcs c = .read qidx last reads)
    (hin : ¬ r.isLastDescriptorOfConsumer last c) :
    Inv r (u.goto c (.loop qidx last reads false)) S H n held T := by
  have hc : c < r.consumers := h.consumer_lt (by simp [hp])
  have ht := h.threads c hc
  simp only [ThreadAt, hp] at ht
  have hb := h.bound c hc
  rw [Bound, hp] at hb
  refine h.of_thread _ (h.toInv.keep hp hin) rfl (fun _ _ => rfl) (by simp) ?_
  rw [Bound, goto_pcs, update_self]
  exact ⟨hb.resolve_right fun hh => hin hh.1, fun h0 => absurd h0 ht.2.1.ne'⟩

theorem release (h : Inv r u S H n held T) {qidx reads : Nat}
    (hp : u.pcs c = .read qidx last reads) :
    (RxRing.mayFree r u c = true → ∃ l held', last = l % r.size ∧
      Inv r ((RxRing.hpcapAdvanceReadDescriptors r u c last).goto c
        (.loop qidx last reads (RxRing.mayFree r u c))) l H n held' (l / 8 * 8)) ∧
    (RxRing.mayFree r u c = false →
      Inv r ((RxRing.hpcapAdvanceReadDescriptors r u c last).goto c
        (.loop qidx last reads (RxRing.mayFree r u c))) S H n held T) := by
  have hc : c < r.consumers := h.consumer_lt (by simp [hp])
  have ht := h.threads c hc
  simp only [ThreadAt, hp] at ht
  have hpos := ht.2.1
  refine ⟨fun hmay => ?_, fun hmay => ?_⟩
  · have hm := (h.mayFree_iff hc).mp hmay
    obtain ⟨l, hl, hSl, -, hinv⟩ := h.release_token hp hc hm
    exact ⟨l, _, hl.1, h.advance hc hm hl (.inr hSl) hinv (.inr ⟨_, _, _, _, hpos, rfl⟩)⟩
  · have hm : c ≠ r.consumerAt (S + 1) := by
      intro hm
      rw [(h.mayFree_iff hc).mpr hm] at hmay
      cases hmay
    have hinv := h.release_waiting hp hc hm
    rw [hmay] at hinv ⊢
    have hb := h.bound c hc
    rw [Bound, hp] at hb
    refine h.of_thread (.loop qidx last reads false) hinv
      (by rw [goto_pcs, hpcapAdvanceReadDescriptors_pcs]) (fun _ _ => rfl) (by simp) ?_
    rw [Bound, goto_pcs, update_self]
    exact ⟨hb.resolve_right fun hh => hm hh.2, fun h0 => absurd h0 hpos.ne'⟩

/-- Before the first release no index has been handed over. -/
theorem repeated (h : Inv r u S H n held T) {qidx reads : Nat}
    (hp : u.pcs c = .loop qidx last reads true) : T = S / 8 * 8 :=
  h.rounded.resolve_right fun hh => hh.2.2 _ _ _ _ hp

theorem leave (h : Inv r u S H n held T) {qidx reads : Nat} {handed : Bool}
    (hp : u.pcs c = .loop qidx last reads handed) (hpos : 0 < reads)
    (hok : RxRing.Fresh r u (.leave c)) :
    (RxRing.mayFree r u c = true → ∃ l held', last = l % r.size ∧
      Inv r ((RxRing.hpcapAdvanceReadDescriptors r u c last).goto c .idle) l H n held' (l / 8 * 8)) ∧
    (RxRing.mayFree r u c = false →
      Inv r ((RxRing.hpcapAdvanceReadDescriptors r u c last).goto c .idle) S H n held T) := by
  have hc : c < r.consumers := h.consumer_lt (by rw [hp]; nofun)
  refine ⟨fun hmay => ?_, fun hmay => ?_⟩
  · have hm := (h.mayFree_iff hc).mp hmay
    obtain ⟨l, hl, hcase, hinv⟩ := h.leave_token hp hc hm hpos hok
    refine ⟨l, _, hl.1, h.advance hc hm hl (hcase.imp ?_ And.left) hinv (.inl rfl)⟩
    rintro ⟨rfl, hlS⟩
    exact ⟨hlS, h.repeated hp⟩
  · have hm : c ≠ r.consumerAt (S + 1) := by
      intro hm
      rw [(h.mayFree_iff hc).mpr hm] at hmay
      cases hmay
    have hb := h.bound c hc
    rw [Bound, hp] at hb
    refine h.of_thread .idle (h.leave_waiting hp hc hm hpos)
      (by rw [goto_pcs, hpcapAdvanceReadDescriptors_pcs]) (fun _ _ => rfl) nofun ?_
    rw [Bound, goto_pcs, update_self]
    refine ⟨hb.1, fun hh => ?_⟩
    obtain hh | hone := hh
    · exact absurd hh.2 hm
    · have := r.consumerAt_lt (S + 1)
      omega

theorem leave_empty (h : Inv r u S H n held T) {qidx : Nat} {handed : Bool}
    (hp : u.pcs c = .loop qidx last 0 handed) : Inv r (u.goto c .idle) S H n held T := by
  have hc : c < r.consumers := h.consumer_lt (by rw [hp]; nofun)
  have hb := h.bound c hc
  rw [Bound, hp] at hb
  refine h.of_thread .idle (h.toInv.leave_empty hp) rfl (fun _ _ => rfl) nofun ?_
  rw [Bound, goto_pcs, update_self]
  exact ⟨hb.1, hb.2 rfl⟩

/-- The head meets the tail one round behind it. -/
theorem full_iff (h : Inv r u S H n held T) : u.head = T % r.size ↔ H = T + r.size := by
  have hSH := h.lt
  have hfits := h.fits
  have hT := h.tail_le_frontier
  rw [h.head]
  constructor
  · intro he
    by_contra hne
    have := mod_inj (show T ≤ H by omega) (show H < T + r.size by omega) le_rfl
      (by have := r.size_pos; omega) he
    omega
  · rintro rfl
    exact Nat.add_mod_right _ _

theorem fill (h : Inv r u S H n held T) (hne : u.head ≠ T % r.size) :
    Inv r { u with
      descs := update u.descs u.head ⟨false, true, []⟩
      head := (u.head + 1) % r.size } S (H + 1) n held T := by
  have hfits := h.fits
  have hH : H ≠ T + r.size := mt h.full_iff.mpr hne
  have hle := h.tail_le_frontier
  refine ⟨h.toInv.fill fun he => hH ?_, by omega, h.rounded, fun c hc => (h.bound c hc).congr rfl⟩
  have hround : H = S + r.size := by
    have hSH := h.lt
    have hHS := h.le
    by_contra hlt
    rw [h.head, h.tail] at he
    have := mod_inj hSH.le (show H < S + r.size by omega) le_rfl
      (by have := r.size_pos; omega) he
    omega
  omega

end Inv

/-- The state is that of the other model but for the tail, which is at its place. -/
def Good (r : Ring) (s : State) : Prop :=
  ∃ u S H n held T, s = view u (T % r.size) ∧ Inv r u S H n held T

/-- The call moves the tail to the multiple of 8, or leaves it. -/
theorem good_advance (h8 : 8 ∣ r.size) (pc : Pc)
    (hfree : RxRing.mayFree r u c = true → ∃ l held', last = l % r.size ∧
      Inv r ((RxRing.hpcapAdvanceReadDescriptors r u c last).goto c pc) l H n held' (l / 8 * 8))
    (hwait : RxRing.mayFree r u c = false →
      Inv r ((RxRing.hpcapAdvanceReadDescriptors r u c last).goto c pc) S H n held T) :
    Good r ((hpcapAdvanceReadDescriptors r (view u (T % r.size)) c last).goto c pc) := by
  rw [view_advance, view_goto]
  cases hmay : RxRing.mayFree r u c with
  | true =>
    obtain ⟨l, held', rfl, hinv⟩ := hfree hmay
    refine ⟨_, _, _, _, _, _, ?_, hinv⟩
    rw [if_pos rfl, div_mul_mod h8]
  | false =>
    exact ⟨_, _, _, _, _, _, by rw [if_neg Bool.false_ne_true], hwait hmay⟩

theorem good_step (h8 : 8 ∣ r.size) {t : State} {a : Step} (h : Good r s)
    (ht : step r s a = some t) (hok : Fresh r s a) : Good r t := by
  obtain ⟨u, S, H, n, held, T, rfl, h⟩ := h
  cases a with
  | enter c =>
    cases hp : u.pcs c with
    | idle =>
      simp only [step, view, hp, Option.ite_none_right_eq_some, Option.some.injEq] at ht
      obtain ⟨hc, rfl⟩ := ht
      exact ⟨_, _, _, _, _, _, rfl, h.enter hp hc⟩
    | loop | read => simp [step, view, hp] at ht
  | read c =>
    cases hp : u.pcs c with
    | loop qidx last reads handed =>
      have hp' : (view u (T % r.size)).pcs c = .loop qidx last reads handed := hp
      simp only [step, hp', Option.map_eq_some_iff] at ht
      obtain ⟨next, hcheck, rfl⟩ := ht
      refine ⟨_, _, _, _, _, _, ?_, (h.read hp hcheck).2⟩
      rw [view_read u _ _ c]
      rfl
    | idle | read => simp [step, view, hp] at ht
  | release c =>
    cases hp : u.pcs c with
    | read qidx last reads =>
      have hp' : (view u (T % r.size)).pcs c = .read qidx last reads := hp
      simp only [step, hp'] at ht
      obtain ⟨hfree, hwait⟩ := h.release hp
      by_cases hcall : reads % hpcapRxBufferWrite = 0 ∨ r.isLastDescriptorOfConsumer last c
      · rw [if_pos hcall, Option.some.injEq] at ht
        rw [← ht]
        exact good_advance h8 _ hfree hwait
      · rw [if_neg hcall, Option.some.injEq] at ht
        exact ⟨u.goto c _, _, _, _, _, T, ht.symm, h.keep hp (not_or.mp hcall).2⟩
    | idle | loop => simp [step, view, hp] at ht
  | leave c =>
    cases hp : u.pcs c with
    | loop qidx last reads handed =>
      have hp' : (view u (T % r.size)).pcs c = .loop qidx last reads handed := hp
      simp only [step, hp'] at ht
      by_cases hpos : 0 < reads
      · rw [if_pos hpos, Option.some.injEq] at ht
        obtain ⟨hfree, hwait⟩ := h.leave hp hpos hok
        rw [← ht]
        exact good_advance h8 _ hfree hwait
      · rw [if_neg hpos, Option.some.injEq] at ht
        obtain rfl := Nat.eq_zero_of_not_pos hpos
        exact ⟨u.goto c _, _, _, _, _, T, ht.symm, h.leave_empty hp⟩
    | idle | read => simp [step, view, hp] at ht
  | fill =>
    simp only [step, Option.ite_none_right_eq_some, Option.some.injEq] at ht
    obtain ⟨hne, rfl⟩ := ht
    refine ⟨_, _, _, _, _, _, ?_, h.fill hne⟩
    rw [view_fill]
    rfl

theorem good_init {firstRxd : Nat} (h8 : 8 ∣ r.size) (hfirst : firstRxd < r.size)
    (hdvd : 8 ∣ firstRxd) : Good r (init r firstRxd) := by
  have hN := r.size_pos
  have hnext : firstRxd + r.size - 1 + 1 = firstRxd + r.size := by omega
  have hseg : tokenSeg r (firstRxd + r.size - 1) = firstRxd / r.descrPerConsumer + r.consumers := by
    rw [tokenSeg, hnext, ← r.size_eq, Nat.add_mul_div_right _ _ r.descrPerConsumer_pos]
  have hstart := consumerAt_of_lt r hfirst
  refine ⟨_, _, _, _, _, _, view_init r firstRxd, init_inv hfirst, by omega,
    .inr ⟨rfl, ?_, fun _ _ _ _ h => by cases h⟩, fun c hc => ⟨?_, fun hh => ?_⟩⟩
  · rw [hnext]
    exact Nat.dvd_add hdvd h8
  · have hround : ∀ k, (r.descrPerConsumer * c + k * r.size) / r.descrPerConsumer =
        c + k * r.consumers := by
      intro k
      rw [← r.size_eq, ← Nat.mul_assoc, Nat.add_mul_div_right _ _ r.descrPerConsumer_pos,
        Nat.mul_div_cancel_left _ r.descrPerConsumer_pos]
    rw [hseg, firstPos]
    split
    · rw [← r.size_eq, Nat.add_mul_div_right _ _ r.descrPerConsumer_pos]
      omega
    · split
      · have := hround 1
        rw [Nat.one_mul, Nat.one_mul] at this
        omega
      · rw [hround 2]
        omega
  · rw [hnext, firstPos, if_pos]
    obtain ⟨-, rfl⟩ | hone := hh
    · rw [hnext, consumerAt_add_size]
    · have := r.consumerAt_lt firstRxd
      omega

theorem reach_good (h8 : 8 ∣ r.size) (h : Reach (step r) (Fresh r) (Launched r) s) : Good r s := by
  refine h.invariant (Good r) ?_ ?_
  · rintro t ⟨firstRxd, hfirst, hdvd, rfl⟩
    exact good_init h8 hfirst hdvd
  · intro t a v ht hok hv
    exact good_step h8 ht hv hok

namespace Inv

/-- The consumer with the token is not refused: it reads whatever is there. -/
theorem next_missing (h : Inv r u S H n held T) {tail : Nat} (hc : c < r.consumers)
    (hm : c = r.consumerAt (S + 1)) (hcheck : check4packet r (view u tail) (n c % r.size) c = none) :
    H ≤ n c := by
  have hmay := (h.mayFree_iff hc).mpr hm
  have hlock : canLockRing r (view u tail) (n c % r.size) c ≠ true := by
    rw [canLockRing, ← Bool.not_or]
    change ¬ (!RxRing.mayFree r u c && _) = true
    rw [hmay]
    exact Bool.false_ne_true
  rw [check4packet, if_neg hlock, Nat.mod_mod] at hcheck
  have hempty : (u.descs (n c % r.size)).dd = false := by
    cases hdd : (u.descs (n c % r.size)).dd with
    | false => rfl
    | true => exact absurd ((if_pos hdd).symm.trans hcheck) nofun
  by_contra hlt
  have hown := h.own c hc
  have hahead : S < n c := by
    by_contra hle
    have := h.below (n c) (Nat.not_lt.mp hle)
    rw [hown] at this
    omega
  have hle := h.le
  rw [h.full _ hahead.le (by omega), hown] at hempty
  exact of_decide_eq_false hempty ⟨by omega, le_rfl⟩

/-- With the tail behind by less than eight, whatever is next to be released is filled. -/
theorem near_filled (h : Inv r u S H n held T) (h8 : 8 ∣ r.descrPerConsumer) (hbig : 8 < r.size)
    (hfull : H = T + r.size) (hm : c = r.consumerAt (S + 1)) (hc : c < r.consumers)
    (hseg : n c / r.descrPerConsumer < tokenSeg r S + r.consumers)
    (hback : Holds r S held c ∨ r.consumers = 1 → n c ≤ T + 8) : n c < H := by
  obtain ⟨m, hm8⟩ := h8
  have hD := r.descrPerConsumer_pos
  have hsize := r.size_eq
  by_cases hnear : Holds r S held c ∨ r.consumers = 1
  · have := hback hnear
    omega
  · obtain ⟨hno, hmany⟩ := not_or.mp hnear
    have htransit : held = false := by
      cases held with
      | false => rfl
      | true => exact absurd ⟨rfl, hm⟩ hno
    have hC := r.consumers_pos
    have htwo : 2 * r.descrPerConsumer ≤ r.size := by
      rw [← hsize]
      exact Nat.mul_le_mul_right _ (by omega)
    have hle := seg_le_tokenSeg ((h.own c hc).trans hm) hseg
    have hend := Nat.lt_mul_div_succ (n c) hD
    have hmul := Nat.mul_le_mul_left r.descrPerConsumer (Nat.succ_le_succ hle)
    have hstart := Nat.div_add_mod (S + 1) r.descrPerConsumer
    rw [h.transit htransit] at hstart
    rw [Nat.succ_eq_add_one, Nat.succ_eq_add_one, Nat.mul_succ, Nat.mul_succ, tokenSeg] at hmul
    rw [Nat.mul_succ] at hend
    have hT := h.frontier_lt
    omega

/-- A release that changes nothing is of the last eight descriptors before the tail's. -/
theorem repeat_near (h : Inv r u S H n held T) (h8 : 8 ∣ r.size) (hfull : H = T + r.size)
    (hc : c < r.consumers) (hm : c = r.consumerAt (S + 1)) (hl : LastRead r (n c) c last l)
    (hcase : l = S ∨ S < l)
    (hsame : hpcapAdvanceReadDescriptors r (view u (T % r.size)) c last = view u (T % r.size))
    (hback : Holds r S held c ∨ r.consumers = 1) : n c ≤ T + 8 := by
  obtain ⟨rfl, hnext, hcl⟩ := hl
  have hmay := (h.mayFree_iff hc).mpr hm
  rw [view_advance, if_pos hmay] at hsame
  have htail : l % r.size / 8 * 8 = T % r.size := congrArg State.tail hsame
  rw [div_mul_mod h8] at htail
  have hlH : l < H := h.above l (by rw [hcl, ← hnext]; exact r.lt_nextPos l)
  have hnear : l < T + 8 := by
    obtain rfl | hlt := hcase
    · exact h.frontier_lt
    · have hle := h.tail_le (.inr hlt)
      have heq := mod_inj hle (by omega) le_rfl (by have := r.size_pos; omega) htail
      omega
  have hcons : r.consumerAt l = r.consumerAt (l + 1) := by
    obtain hh | hone := hback
    · -- at the end of its segment it would have passed the token on
      have hin : ¬ (l + 1) % r.descrPerConsumer = 0 := by
        intro hend
        have hlast := (r.isLastDescriptorOfConsumer_mod hcl).mpr hend
        have hfree := congrFun (congrArg State.canFree hsame) c
        have hcan := (h.canFree c hc).mpr hh
        simp [view, RxRing.hpcapAdvanceReadDescriptors, hmay, hlast, hcan] at hfree
      have hs := r.succ_div l
      rw [if_neg hin] at hs
      rw [Ring.consumerAt, Ring.consumerAt, hs]
    · rw [Ring.consumerAt, Ring.consumerAt, hone, Nat.mod_one, Nat.mod_one]
  rw [← hnext, nextPos_consecutive r hcons]
  omega

/-- The hardware has descriptors to fill, or the consumer with the token has something to do. -/
theorem not_dead (h : Inv r u S H n held T) (h8 : 8 ∣ r.descrPerConsumer) (hbig : 8 < r.size) :
    ¬ Dead r (view u (T % r.size)) := by
  rintro ⟨hfull, hstuck⟩
  have hround := h.full_iff.mp hfull
  have hfront := h.frontier_lt
  have hc := r.consumerAt_lt (S + 1)
  obtain ⟨c, hm⟩ : ∃ c, c = r.consumerAt (S + 1) := ⟨_, rfl⟩
  rw [← hm] at hc
  have hb := h.bound c hc
  have ht := h.threads c hc
  have hno := hstuck c hc
  cases hp : u.pcs c with
  | idle =>
    rw [Bound, hp] at hb
    simp only [ThreadAt, hp] at ht
    simp only [Stuck, view, hp] at hno
    rw [ht.1] at hno
    have hlt := h.near_filled h8 hbig hround hm hc hb.1 fun hh => by
      rw [hb.2 hh]
      omega
    exact absurd (h.next_missing hc hm hno) (Nat.not_le.mpr hlt)
  | loop qidx last reads handed =>
    rw [Bound, hp] at hb
    simp only [ThreadAt, hp] at ht
    have hno : check4packet r (view u (T % r.size)) qidx c = none ∧ (0 < reads →
        hpcapAdvanceReadDescriptors r (view u (T % r.size)) c last = view u (T % r.size)) := by
      have hp' : (view u (T % r.size)).pcs c = .loop qidx last reads handed := hp
      simpa only [Stuck, hp'] using hno
    obtain ⟨hq, -, -, hlast⟩ := ht
    rw [hq] at hno
    refine absurd (h.next_missing hc hm hno.1) (Nat.not_le.mpr ?_)
    refine h.near_filled h8 hbig hround hm hc hb.1 fun hh => ?_
    rcases Nat.eq_zero_or_pos reads with hz | hpos
    · rw [hb.2 hz hh]
      omega
    · obtain ⟨l, hl, hfresh, hrepeat⟩ := hlast hpos
      have hcase : l = S ∨ S < l := by
        cases handed with
        | true => exact .inl (hrepeat rfl hh)
        | false => exact .inr (hfresh rfl)
      have hdvd : 8 ∣ r.size := by
        rw [← r.size_eq]
        exact h8.mul_left _
      exact h.repeat_near hdvd hround hc hm hl hcase (hno.2 hpos) hh
  | read =>
    simp only [Stuck, view, hp] at hno

end Inv

/-- The ring never dies, if it has more than eight descriptors and no call after the loop takes
the token to repeat an index handed over before. -/
theorem never_dead (r : Ring) (h8 : 8 ∣ r.descrPerConsumer) (hbig : 8 < r.size) (s : State)
    (h : Reach (step r) (Fresh r) (Launched r) s) : ¬ Dead r s := by
  have hdvd : 8 ∣ r.size := by
    rw [← r.size_eq]
    exact h8.mul_left _
  obtain ⟨u, S, H, n, held, T, rfl, hinv⟩ := reach_good hdvd h
  exact hinv.not_dead h8 hbig

/-- The smallest ring the drivers accept, shared by two consumers. -/
def sixtyFour : Ring := ⟨64, 2, by decide, Nat.two_pos, by decide⟩

def eight : Ring := ⟨8, 1, by decide, Nat.one_pos, by decide⟩

/-- The hardware has filled all it owns, and yet the ring is not dead. -/
theorem never_dead_full : ∃ s, s.head = s.tail ∧ ¬ Dead sixtyFour s := by
  have hrun : (run (guard (step sixtyFour) (Fresh sixtyFour)) (init sixtyFour 0)
      (List.replicate 63 .fill)).map (fun s => (s.head, s.tail)) = some (63, 63) := by
    decide +kernel
  obtain ⟨s, hs, he⟩ := Option.map_eq_some_iff.mp hrun
  obtain ⟨hhead, htail⟩ := Prod.mk.inj he
  refine ⟨s, hhead.trans htail.symm, never_dead sixtyFour (by decide) (by decide) s ?_⟩
  exact .run_guard (.start ⟨0, by decide, by decide, rfl⟩) hs

def reads (c k : Nat) : List Step := (List.replicate k [.read c, .release c]).flatten

/-- Consumer 1 gives the token back while consumer 0 is still in its loop. The call after that
loop moves the tail back and the token on, and consumer 0 may not read its next segment out. -/
def lockRing : List Step :=
  List.replicate 63 .fill ++ .enter 0 :: reads 0 32 ++ .fill :: .enter 1 :: reads 1 32 ++
    [.leave 1, .leave 0] ++ List.replicate 24 .fill ++ .enter 0 :: reads 0 23 ++ [.leave 0]

/-- With eight descriptors the tail never leaves the first one. -/
def lockEight : List Step :=
  List.replicate 7 .fill ++ .enter 0 :: reads 0 7 ++ .leave 0 :: .fill :: .enter 0 :: reads 0 1 ++
    [.leave 0]

theorem ring_dies :
    (¬ ∀ s, Reach (step sixtyFour) Free (Launched sixtyFour) s → ¬ Dead sixtyFour s) ∧
      ¬ ∀ s, Reach (step eight) (Fresh eight) (Launched eight) s → ¬ Dead eight s := by
  refine ⟨fun h => ?_, fun h => ?_⟩
  · have hrun : (run (step sixtyFour) (init sixtyFour 0) lockRing).map (fun s =>
        (s.head, s.tail, (s.pcs 0, check4packet sixtyFour s (s.rxdIdx 0) 0),
          s.pcs 1, check4packet sixtyFour s (s.rxdIdx 1) 1)) =
        some (24, 24, (.idle, none), .idle, none) := by
      decide +kernel
    obtain ⟨s, hs, he⟩ := Option.map_eq_some_iff.mp hrun
    simp only [Prod.mk.injEq] at he
    obtain ⟨hhead, htail, ⟨hp₀, hc₀⟩, hp₁, hc₁⟩ := he
    refine h s (.run (.start ⟨0, by decide, by decide, rfl⟩) hs) ⟨hhead.trans htail.symm, ?_⟩
    intro c hc
    obtain rfl | rfl : c = 0 ∨ c = 1 := by
      change c < 2 at hc
      omega
    · simpa only [Stuck, hp₀] using hc₀
    · simpa only [Stuck, hp₁] using hc₁
  · have hrun : (run (guard (step eight) (Fresh eight)) (init eight 0) lockEight).map (fun s =>
        (s.head, s.tail, s.pcs 0, check4packet eight s (s.rxdIdx 0) 0)) =
        some (0, 0, .idle, none) := by
      decide +kernel
    obtain ⟨s, hs, he⟩ := Option.map_eq_some_iff.mp hrun
    simp only [Prod.mk.injEq] at he
    obtain ⟨hhead, htail, hp₀, hc₀⟩ := he
    refine h s (.run_guard (.start ⟨0, by decide, by decide, rfl⟩) hs)
      ⟨hhead.trans htail.symm, fun c hc => ?_⟩
    obtain rfl : c = 0 := Nat.lt_one_iff.mp hc
    simpa only [Stuck, hp₀] using hc₀

end Hpcap.Xl710
