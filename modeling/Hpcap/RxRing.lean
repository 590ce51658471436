import Hpcap.SharedLog
import Hpcap.Transition
import Mathlib.Algebra.Order.Group.Nat
import Mathlib.Logic.Function.Basic

namespace Hpcap.RxRing

open Hpcap.SharedLog Hpcap.Transition Function

/-- A receive ring whose descriptors the consumers share in segments of equal length. -/
structure Ring where
  size : Nat
  consumers : Nat
  size_pos : 0 < size
  consumers_pos : 0 < consumers
  dvd : consumers ∣ size

namespace Ring

variable (r : Ring)

def descrPerConsumer : Nat := r.size / r.consumers

def previousConsumer (idx : Nat) : Nat := (idx + r.consumers - 1) % r.consumers

def getLastDescriptorOfConsumer (consumer : Nat) : Nat :=
  ((consumer + 1) * r.descrPerConsumer - 1) % r.size

def isLastDescriptorOfConsumer (lastReadIdx consumer : Nat) : Prop :=
  lastReadIdx % r.size = r.getLastDescriptorOfConsumer consumer

instance (lastReadIdx consumer : Nat) : Decidable (r.isLastDescriptorOfConsumer lastReadIdx consumer) :=
  inferInstanceAs (Decidable (_ = _))

def rxdConsumerOf (rxdIndex : Nat) : Nat := rxdIndex % r.size / r.descrPerConsumer

def rxdCalcNext (qidx consumer : Nat) : Nat :=
  let next := (qidx + 1) % r.size
  if r.rxdConsumerOf next ≠ consumer then
    (next + r.descrPerConsumer * (r.consumers - 1)) % r.size
  else next

end Ring

/-- A descriptor: whether the hardware may write to it, the done bit, and the consumers
that have read it since the hardware last filled it. -/
structure Descriptor where
  owned : Bool
  dd : Bool
  readBy : List Nat
  deriving DecidableEq

/-- The descriptor after its frame is read: it is armed again, with the done bit cleared. -/
def Descriptor.rearm (d : Descriptor) (consumer : Nat) : Descriptor :=
  { d with dd := false, readBy := consumer :: d.readBy }

/-- Where a consumer is in `hpcap_rx`: at the head of the loop, or behind a read and
before the release that follows it. `handed` says that this release has handed over
`lastReadIdx`; the code does not keep it. -/
inductive Pc
  | idle
  | loop (qidx lastReadIdx readDescriptors : Nat) (handed : Bool)
  | read (qidx lastReadIdx readDescriptors : Nat)
  deriving DecidableEq

structure State where
  tail : Nat
  head : Nat
  descs : Nat → Descriptor
  canFree : Nat → Bool
  freedLastRxd : Nat → Bool
  rxdIdx : Nat → Nat
  pcs : Nat → Pc

inductive Step
  | enter (consumer : Nat)
  | read (consumer : Nat)
  | release (consumer : Nat)
  | leave (consumer : Nat)
  | fill

abbrev hpcapRxBufferWrite : Nat := 32

/-- The consumer may free: it already could, or the one before it has just finished. -/
def mayFree (r : Ring) (s : State) (c : Nat) : Bool :=
  s.canFree c || s.freedLastRxd (r.previousConsumer c)

/-- The descriptors from the old tail up to the new one. -/
def HandedOver (r : Ring) (tail tail' i : Nat) : Prop := gap r.size tail i < gap r.size tail tail'

instance (r : Ring) (tail tail' i : Nat) : Decidable (HandedOver r tail tail' i) :=
  inferInstanceAs (Decidable (_ < _))

/-- `hpcap_advance_read_descriptors`. -/
def hpcapAdvanceReadDescriptors (r : Ring) (s : State) (c lastReadIdx : Nat) : State :=
  let next := r.rxdCalcNext lastReadIdx c
  let freed := if !s.canFree c && s.freedLastRxd (r.previousConsumer c) then
    update s.freedLastRxd (r.previousConsumer c) false else s.freedLastRxd
  if mayFree r s c then
    let isLast : Bool := r.isLastDescriptorOfConsumer lastReadIdx c
    { s with
      tail := lastReadIdx
      descs := fun i => if HandedOver r s.tail lastReadIdx i then { s.descs i with owned := true }
        else s.descs i
      freedLastRxd := if isLast then update freed c true else freed
      canFree := update s.canFree c !isLast
      rxdIdx := update s.rxdIdx c next }
  else { s with rxdIdx := update s.rxdIdx c next }

def State.goto (s : State) (c : Nat) (pc : Pc) : State := { s with pcs := update s.pcs c pc }

@[simp] theorem goto_pcs (s : State) (c : Nat) (pc : Pc) :
    (s.goto c pc).pcs = update s.pcs c pc := rfl

@[simp] theorem goto_rxdIdx (s : State) (c : Nat) (pc : Pc) : (s.goto c pc).rxdIdx = s.rxdIdx := rfl

@[simp] theorem hpcapAdvanceReadDescriptors_pcs (r : Ring) (s : State) (c last : Nat) :
    (hpcapAdvanceReadDescriptors r s c last).pcs = s.pcs := by
  rw [hpcapAdvanceReadDescriptors]
  split <;> rfl

@[simp] theorem hpcapAdvanceReadDescriptors_rxdIdx (r : Ring) (s : State) (c last : Nat) :
    (hpcapAdvanceReadDescriptors r s c last).rxdIdx =
      update s.rxdIdx c (r.rxdCalcNext last c) := by
  rw [hpcapAdvanceReadDescriptors]
  split <;> rfl

def step (r : Ring) (s : State) : Step → Option State
  | .enter c =>
    match s.pcs c with
    | .idle => if c < r.consumers then some (s.goto c (.loop (s.rxdIdx c) 0 0 false)) else none
    | _ => none
  | .read c =>
    match s.pcs c with
    | .loop qidx _ n _ =>
      if (s.descs (qidx % r.size)).dd then
        some { s.goto c (.read (r.rxdCalcNext qidx c) qidx (n + 1)) with
          descs := update s.descs (qidx % r.size) ((s.descs (qidx % r.size)).rearm c) }
      else none
    | _ => none
  | .release c =>
    match s.pcs c with
    | .read qidx last n =>
      if n % hpcapRxBufferWrite = 0 ∨ r.isLastDescriptorOfConsumer last c then
        some ((hpcapAdvanceReadDescriptors r s c last).goto c (.loop qidx last n (mayFree r s c)))
      else some (s.goto c (.loop qidx last n false))
    | _ => none
  | .leave c =>
    match s.pcs c with
    | .loop _ last n _ =>
      if 0 < n then some ((hpcapAdvanceReadDescriptors r s c last).goto c .idle)
      else some (s.goto c .idle)
    | _ => none
  | .fill =>
    if s.head ≠ s.tail then
      some { s with
        descs := update s.descs s.head ⟨false, true, []⟩
        head := (s.head + 1) % r.size }
    else none

/-- The index a step writes to the tail register, if it does. -/
def released (r : Ring) (s : State) : Step → Option Nat
  | .release c =>
    match s.pcs c with
    | .read _ last n =>
      if (n % hpcapRxBufferWrite = 0 ∨ r.isLastDescriptorOfConsumer last c) ∧ mayFree r s c then
        some last
      else none
    | _ => none
  | .leave c =>
    match s.pcs c with
    | .loop _ last n _ => if 0 < n ∧ mayFree r s c then some last else none
    | _ => none
  | _ => none

/-- As `hpcap_launch_poll_threads` leaves it. All descriptors but the one before `firstRxd`
are the hardware's; that one is the driver's, as after a read. -/
def init (r : Ring) (firstRxd : Nat) : State where
  tail := (firstRxd + r.size - 1) % r.size
  head := firstRxd
  descs := fun i => if i = (firstRxd + r.size - 1) % r.size then ⟨false, false, [r.rxdConsumerOf i]⟩
    else ⟨true, false, []⟩
  canFree := fun c => c = r.rxdConsumerOf firstRxd
  freedLastRxd := fun _ => false
  rxdIdx := fun c => if c = r.rxdConsumerOf firstRxd then firstRxd else c * r.descrPerConsumer
  pcs := fun _ => .idle

theorem add_le_of_mod_eq {a b n : Nat} (h : a % n = b % n) (hlt : a < b) : a + n ≤ b := by
  obtain ⟨k, hk⟩ := (Nat.modEq_iff_dvd' hlt.le).mp h
  cases k with
  | zero => omega
  | succ k =>
    have := Nat.le_mul_of_pos_right n (show 0 < k + 1 by omega)
    omega

namespace Ring

variable (r : Ring)

theorem size_eq : r.consumers * r.descrPerConsumer = r.size :=
  Nat.mul_div_cancel' r.dvd

theorem descrPerConsumer_pos : 0 < r.descrPerConsumer :=
  Nat.div_pos (Nat.le_of_dvd r.size_pos r.dvd) r.consumers_pos

/-- The consumer whose segment holds the position `x` of the ring unrolled. -/
def consumerAt (x : Nat) : Nat := x / r.descrPerConsumer % r.consumers

theorem consumerAt_lt (x : Nat) : r.consumerAt x < r.consumers := Nat.mod_lt _ r.consumers_pos

theorem rxdConsumerOf_mod (x : Nat) : r.rxdConsumerOf (x % r.size) = r.consumerAt x := by
  rw [rxdConsumerOf, Nat.mod_mod, ← r.size_eq, Nat.mul_comm, Nat.mod_mul_right_div_self, consumerAt]

/-- The position the consumer of `x` reads after `x`. -/
def nextPos (x : Nat) : Nat :=
  if (x + 1) % r.descrPerConsumer = 0 then x + 1 + r.descrPerConsumer * (r.consumers - 1) else x + 1

theorem succ_div (x : Nat) : (x + 1) / r.descrPerConsumer =
    if (x + 1) % r.descrPerConsumer = 0 then x / r.descrPerConsumer + 1
    else x / r.descrPerConsumer := by
  rw [Nat.succ_div]
  simp only [Nat.dvd_iff_mod_eq_zero]
  split <;> rfl

theorem nextPos_div_last {x : Nat} (h : (x + 1) % r.descrPerConsumer = 0) :
    r.nextPos x / r.descrPerConsumer = x / r.descrPerConsumer + r.consumers := by
  have hc := r.consumers_pos
  have hs := r.succ_div x
  rw [if_pos h] at hs
  rw [nextPos, if_pos h, Nat.add_mul_div_left _ _ r.descrPerConsumer_pos, hs]
  omega

theorem nextPos_div_inner {x : Nat} (h : (x + 1) % r.descrPerConsumer ≠ 0) :
    r.nextPos x / r.descrPerConsumer = x / r.descrPerConsumer := by
  have hs := r.succ_div x
  rw [if_neg h] at hs
  rw [nextPos, if_neg h, hs]

theorem lt_nextPos (x : Nat) : x < r.nextPos x := by
  simp only [nextPos]
  split <;> omega

theorem consumerAt_nextPos (x : Nat) : r.consumerAt (r.nextPos x) = r.consumerAt x := by
  simp only [consumerAt]
  by_cases h : (x + 1) % r.descrPerConsumer = 0
  · rw [r.nextPos_div_last h, Nat.add_mod_right]
  · rw [r.nextPos_div_inner h]

/-- No position of the same consumer lies between one and the next. -/
theorem lt_nextPos_iff {x n : Nat} (h : r.consumerAt x = r.consumerAt n) :
    x < r.nextPos n ↔ x ≤ n := by
  constructor
  · intro hx
    by_contra hn
    have hn := Nat.not_le.mp hn
    by_cases hl : (n + 1) % r.descrPerConsumer = 0
    · have hs := r.succ_div n
      rw [if_pos hl] at hs
      have hlo := Nat.div_le_div_right (c := r.descrPerConsumer) (show n + 1 ≤ x by omega)
      rw [hs] at hlo
      have hhi : x / r.descrPerConsumer < n / r.descrPerConsumer + r.consumers := by
        rw [← r.nextPos_div_last hl]
        have hd : (r.nextPos n) % r.descrPerConsumer = 0 := by
          rw [nextPos, if_pos hl, Nat.add_mul_mod_self_left, hl]
        have he := Nat.div_add_mod (r.nextPos n) r.descrPerConsumer
        refine (Nat.div_lt_iff_lt_mul r.descrPerConsumer_pos).mpr ?_
        rw [Nat.mul_comm]
        omega
      have hadd := add_le_of_mod_eq h.symm (show n / r.descrPerConsumer < x / r.descrPerConsumer by
        omega)
      omega
    · rw [nextPos, if_neg hl] at hx
      omega
  · intro hx
    exact lt_of_le_of_lt hx (r.lt_nextPos n)

theorem rxdCalcNext_mod {x c : Nat} (hc : r.consumerAt x = c) :
    r.rxdCalcNext (x % r.size) c = r.nextPos x % r.size := by
  have hnext : (x % r.size + 1) % r.size = (x + 1) % r.size := Nat.mod_add_mod _ _ _
  unfold rxdCalcNext
  dsimp only
  rw [hnext, rxdConsumerOf_mod]
  by_cases hl : (x + 1) % r.descrPerConsumer = 0
  · rw [nextPos, if_pos hl]
    split
    · rw [Nat.mod_add_mod]
    · rename_i hsame
      have hone : r.consumers = 1 := by
        have hs := r.succ_div x
        rw [if_pos hl] at hs
        have he : r.consumerAt (x + 1) = r.consumerAt x := by
          rw [hc]
          exact not_not.mp hsame
        rw [consumerAt, consumerAt, hs] at he
        have hd := (Nat.modEq_iff_dvd' (Nat.le_succ _)).mp he.symm
        rw [Nat.succ_sub (Nat.le_refl _), Nat.sub_self] at hd
        exact Nat.dvd_one.mp hd
      rw [hone]
      simp
  · have hs := r.succ_div x
    rw [if_neg hl] at hs
    have hsame : r.consumerAt (x + 1) = c := by
      rw [consumerAt, hs]
      exact hc
    rw [if_neg (not_not.mpr hsame), nextPos, if_neg hl]

theorem mod_size_eq (x : Nat) :
    x % r.size = r.descrPerConsumer * r.consumerAt x + x % r.descrPerConsumer := by
  rw [← r.size_eq, Nat.mul_comm, Nat.mod_mul, consumerAt, Nat.add_comm]

theorem isLastDescriptorOfConsumer_mod {x c : Nat} (hc : r.consumerAt x = c) :
    r.isLastDescriptorOfConsumer (x % r.size) c ↔ (x + 1) % r.descrPerConsumer = 0 := by
  have hlt := r.consumerAt_lt x
  have hD := r.descrPerConsumer_pos
  rw [hc] at hlt
  have hbound : (c + 1) * r.descrPerConsumer ≤ r.size := by
    rw [← r.size_eq]
    exact Nat.mul_le_mul_right _ hlt
  have hmul : (c + 1) * r.descrPerConsumer = r.descrPerConsumer * c + r.descrPerConsumer := by
    rw [Nat.mul_comm, Nat.mul_succ]
  have hmod := Nat.mod_lt x hD
  rw [isLastDescriptorOfConsumer, getLastDescriptorOfConsumer, Nat.mod_mod, r.mod_size_eq x, hc,
    Nat.mod_eq_of_lt (show (c + 1) * r.descrPerConsumer - 1 < r.size by omega), hmul,
    ← Nat.mod_add_mod x]
  constructor
  · intro h
    have he : x % r.descrPerConsumer + 1 = r.descrPerConsumer := by omega
    rw [he, Nat.mod_self]
  · intro h
    have he : x % r.descrPerConsumer + 1 = r.descrPerConsumer := by
      by_contra hne
      rw [Nat.mod_eq_of_lt (by omega)] at h
      omega
    omega

theorem previousConsumer_eq_iff {c k : Nat} (hc : c < r.consumers) :
    r.previousConsumer c = k % r.consumers ↔ c = (k + 1) % r.consumers := by
  have hpos := r.consumers_pos
  have hp : (r.previousConsumer c + 1) % r.consumers = c := by
    rw [previousConsumer, Nat.mod_add_mod, Nat.sub_add_cancel (by omega), Nat.add_mod_right,
      Nat.mod_eq_of_lt hc]
  constructor
  · intro h
    rw [← hp, h, Nat.mod_add_mod]
  · intro h
    have hm : r.previousConsumer c + 1 ≡ k + 1 [MOD r.consumers] := by
      rw [Nat.ModEq, hp, h]
    have := Nat.ModEq.add_right_cancel' 1 hm
    have hlt : r.previousConsumer c < r.consumers := Nat.mod_lt _ hpos
    rwa [Nat.ModEq, Nat.mod_eq_of_lt hlt] at this

end Ring

/-- The read frontier of a thread's last read: it is behind `lastReadIdx`, and the position
`n` is the one to be read next. -/
def LastRead (r : Ring) (n c lastReadIdx l : Nat) : Prop :=
  lastReadIdx = l % r.size ∧ r.nextPos l = n ∧ r.consumerAt l = c

/-- The segment of the token: the one the released frontier `S` leads into. -/
def tokenSeg (r : Ring) (S : Nat) : Nat := (S + 1) / r.descrPerConsumer

/-- The consumer holds the token. -/
def Holds (r : Ring) (S : Nat) (held : Bool) (c : Nat) : Prop :=
  held = true ∧ c = r.consumerAt (S + 1)

/-- What is known of a consumer that reads position `n` next, when everything before `S` is
released. A holder does not read beyond its segment. -/
def ThreadAt (r : Ring) (s : State) (S : Nat) (held : Bool) (n c : Nat) : Prop :=
  match s.pcs c with
  | .idle =>
    s.rxdIdx c = n % r.size ∧ (Holds r S held c → n / r.descrPerConsumer ≤ tokenSeg r S)
  | .loop qidx last reads handed =>
    qidx = n % r.size ∧ (Holds r S held c → n / r.descrPerConsumer ≤ tokenSeg r S) ∧
      (reads = 0 → s.rxdIdx c = n % r.size ∧ handed = false) ∧
      (0 < reads → ∃ l, LastRead r n c last l ∧ (handed = false → S < l) ∧
        (handed = true → Holds r S held c ∨ r.consumers = 1 → l = S))
  | .read qidx last reads =>
    qidx = n % r.size ∧ 0 < reads ∧ ∃ l, LastRead r n c last l ∧ S < l ∧
      (Holds r S held c → l / r.descrPerConsumer ≤ tokenSeg r S)

/-- The ring unrolled. Everything before `S` is released, so that the tail register is at
`S`; the hardware has filled everything before `H`; consumer `c` reads `n c` next. The token
is held by the consumer of the segment that `S` leads into, or is on its way there. -/
structure Core (r : Ring) (s : State) (S H : Nat) (n : Nat → Nat) (held : Bool) : Prop where
  tail : s.tail = S % r.size
  head : s.head = H % r.size
  lt : S < H
  le : H ≤ S + r.size
  own : ∀ c < r.consumers, r.consumerAt (n c) = c
  below : ∀ x ≤ S, x < n (r.consumerAt x)
  above : ∀ x, x < n (r.consumerAt x) → x < H
  owned : ∀ x, S ≤ x → x < S + r.size → (s.descs (x % r.size)).owned = decide (H ≤ x)
  full : ∀ x, S ≤ x → x < S + r.size →
    (s.descs (x % r.size)).dd = decide (x < H ∧ n (r.consumerAt x) ≤ x)
  once : ∀ x, S ≤ x → x < S + r.size → x < n (r.consumerAt x) →
    (s.descs (x % r.size)).readBy = [r.consumerAt x]
  fresh : ∀ x, S ≤ x → x < S + r.size → x < H → n (r.consumerAt x) ≤ x →
    (s.descs (x % r.size)).readBy = []
  canFree : ∀ c < r.consumers, s.canFree c = true ↔ Holds r S held c
  freed : ∀ c < r.consumers, s.freedLastRxd c = true ↔ held = false ∧ c = r.consumerAt S
  transit : held = false → (S + 1) % r.descrPerConsumer = 0

structure Inv (r : Ring) (s : State) (S H : Nat) (n : Nat → Nat) (held : Bool) : Prop
    extends Core r s S H n held where
  threads : ∀ c < r.consumers, ThreadAt r s S held (n c) c
  others : ∀ c, r.consumers ≤ c → s.pcs c = .idle

/-- What a release is to hand over: descriptors the hardware does not own, with nothing
left to read, read once since they were filled, and by their consumer. The hardware's share grows by just these. -/
structure Sound (r : Ring) (s : State) (tail' : Nat) : Prop where
  forward : gap r.size s.head tail' = gap r.size s.head s.tail + gap r.size s.tail tail'
  read : ∀ i < r.size, HandedOver r s.tail tail' i →
    (s.descs i).owned = false ∧ (s.descs i).dd = false ∧ (s.descs i).readBy = [r.rxdConsumerOf i]

theorem mod_inj {n S x y : Nat} (hx : S ≤ x) (hx' : x < S + n) (hy : S ≤ y) (hy' : y < S + n)
    (h : x % n = y % n) : x = y := by
  have hgx := gap_mod hx hx'
  have hgy := gap_mod hy hy'
  rw [h, hgy] at hgx
  omega

namespace Core

variable {r : Ring} {s : State} {S H : Nat} {n : Nat → Nat} {held : Bool} {c l last : Nat}

theorem goto {pc : Pc} (h : Core r s S H n held) : Core r (s.goto c pc) S H n held :=
  ⟨h.tail, h.head, h.lt, h.le, h.own, h.below, h.above, h.owned, h.full, h.once, h.fresh, h.canFree,
    h.freed, h.transit⟩

/-- The token is at `c`, held or on its way. -/
theorem mayFree_iff (h : Core r s S H n held) (hc : c < r.consumers) :
    mayFree r s c = true ↔ c = r.consumerAt (S + 1) := by
  have hp : r.previousConsumer c < r.consumers := Nat.mod_lt _ r.consumers_pos
  rw [mayFree, Bool.or_eq_true, h.canFree c hc, h.freed _ hp]
  have hnext : held = false →
      (r.previousConsumer c = r.consumerAt S ↔ c = r.consumerAt (S + 1)) := by
    intro hh
    have hs := r.succ_div S
    rw [if_pos (h.transit hh)] at hs
    rw [Ring.consumerAt, r.previousConsumer_eq_iff hc, Ring.consumerAt, hs]
  cases held with
  | true => simp [Holds]
  | false =>
    rw [← hnext rfl]
    simp [Holds]

/-- While the token is on its way nobody has read beyond its segment. -/
theorem read_seg_le (h : Core r s S H n false) (hm : r.consumerAt l = r.consumerAt (S + 1))
    (hl : l < H) : l / r.descrPerConsumer ≤ tokenSeg r S := by
  by_contra hlt
  have hseg := add_le_of_mod_eq hm.symm (Nat.not_le.mp hlt)
  have he := Nat.div_add_mod (S + 1) r.descrPerConsumer
  rw [h.transit rfl] at he
  have hle := h.le
  have hmul := Nat.mul_le_mul_left r.descrPerConsumer hseg
  have hd := Nat.div_mul_le_self l r.descrPerConsumer
  have hsize := r.size_eq
  rw [Nat.mul_add, Nat.mul_comm r.descrPerConsumer r.consumers] at hmul
  rw [Nat.mul_comm] at hd
  omega

/-- What a holder releases has been read, by the holder itself. -/
theorem read_upto (h : Core r s S H n held) (hm : c = r.consumerAt (S + 1)) (hl : l < n c)
    (hcase : l = S ∨ S < l ∧ l / r.descrPerConsumer = tokenSeg r S) {x : Nat} (hx : x ≤ l) :
    x < n (r.consumerAt x) := by
  rcases Nat.lt_or_ge S x with hgt | hle
  · obtain rfl | ⟨-, hseg⟩ := hcase
    · omega
    · have hlo := Nat.div_le_div_right (c := r.descrPerConsumer) (Nat.succ_le_of_lt hgt)
      have hhi := Nat.div_le_div_right (c := r.descrPerConsumer) hx
      have hsame : r.consumerAt x = c := by
        rw [hm, Ring.consumerAt, Ring.consumerAt, le_antisymm (hhi.trans hseg.le) hlo, tokenSeg]
      rw [hsame]
      omega
  · exact h.below x hle

/-- A release up to the last position read in the token's segment is sound. -/
theorem sound (h : Core r s S H n held) (hm : c = r.consumerAt (S + 1)) (hl : l < n c)
    (hcl : r.consumerAt l = c) (hcase : l = S ∨ S < l ∧ l / r.descrPerConsumer = tokenSeg r S) :
    Sound r s (l % r.size) := by
  have hlH := h.above l (hcl ▸ hl)
  have hle := h.le
  have hSH := h.lt
  have hSl : S ≤ l := by omega
  have hgap : gap r.size s.tail (l % r.size) = l - S := by
    rw [h.tail, gap_mod hSl (by omega)]
  constructor
  · have hback : ∀ x, S ≤ x → x < H → gap r.size s.head (x % r.size) = x + r.size - H := by
      intro x hx hxH
      rw [h.head, ← Nat.add_mod_right x, gap_mod (by omega) (by omega)]
    rw [hgap, hback l hSl hlH, h.tail, hback S le_rfl hSH]
    omega
  · intro i hi hand
    rw [HandedOver, hgap] at hand
    have hS := Nat.mod_lt S r.size_pos
    have hx := add_gap hS hi
    rw [h.tail] at hand
    rw [Nat.mod_add_mod] at hx
    generalize gap r.size (S % r.size) i = d at hand hx
    have hread := h.read_upto hm hl hcase (show S + d ≤ l by omega)
    have hxH := h.above _ hread
    rw [← hx, h.owned _ (by omega) (by omega), h.full _ (by omega) (by omega)]
    refine ⟨decide_eq_false (by omega), decide_eq_false (by omega), ?_⟩
    rw [r.rxdConsumerOf_mod]
    exact h.once _ (by omega) (by omega) hread

/-- Once the token is taken no consumer's flag is set. -/
theorem freed_cleared (h : Core r s S H n held) (hc : c < r.consumers)
    (hm : c = r.consumerAt (S + 1)) {c' : Nat} (hc' : c' < r.consumers) :
    (if !s.canFree c && s.freedLastRxd (r.previousConsumer c) then
      update s.freedLastRxd (r.previousConsumer c) false else s.freedLastRxd) c' = false := by
  have hp : r.previousConsumer c < r.consumers := Nat.mod_lt _ r.consumers_pos
  have hmay := (h.mayFree_iff hc).mpr hm
  cases hcan : s.canFree c with
  | true =>
    have hheld := ((h.canFree c hc).mp hcan).1
    have hno := mt (h.freed c' hc').mp fun hf => by
      rw [hheld] at hf
      exact absurd hf.1 (by decide)
    simpa using hno
  | false =>
    have hprev : s.freedLastRxd (r.previousConsumer c) = true := by
      rw [mayFree, hcan, Bool.false_or] at hmay
      exact hmay
    rw [hprev]
    by_cases hcp : c' = r.previousConsumer c
    · simp [hcp]
    · have hno := mt (h.freed c' hc').mp fun hf =>
        hcp (hf.2.trans ((h.freed _ hp).mp hprev).2.symm)
      simpa [update_of_ne hcp] using hno

/-- After a release up to `l`, a position of the new window is in the old one, or one round
after what is handed over. -/
theorem handedOver_descs (h : Core r s S H n held) {x : Nat} (hSl : S ≤ l) (hlH : l < H)
    (hx : l ≤ x) (hx' : x < l + r.size) :
    (if HandedOver r s.tail (l % r.size) (x % r.size) then
      { s.descs (x % r.size) with owned := true } else s.descs (x % r.size)) =
    if x < S + r.size then s.descs (x % r.size)
    else { s.descs ((x - r.size) % r.size) with owned := true } := by
  have hle := h.le
  have hgap : gap r.size s.tail (l % r.size) = l - S := by
    rw [h.tail, gap_mod hSl (by omega)]
  by_cases hold : x < S + r.size
  · have hno : ¬ HandedOver r s.tail (l % r.size) (x % r.size) := by
      rw [HandedOver, hgap, h.tail, gap_mod (by omega) hold]
      omega
    rw [if_neg hno, if_pos hold]
  · have hback : x % r.size = (x - r.size) % r.size := by
      rw [← Nat.add_mod_right (x - r.size), Nat.sub_add_cancel (by omega)]
    have hyes : HandedOver r s.tail (l % r.size) (x % r.size) := by
      rw [HandedOver, hgap, h.tail, hback, gap_mod (by omega) (by omega)]
      omega
    rw [if_pos hyes, if_neg hold, hback]

/-- The consumer keeps the token until the last descriptor of its segment. -/
theorem holds_advance (h : Core r s S H n held) (hm : c = r.consumerAt (S + 1))
    (hcl : r.consumerAt l = c) {c' : Nat} (hc' : c' < r.consumers) :
    update s.canFree c (!decide (r.isLastDescriptorOfConsumer (l % r.size) c)) c' = true ↔
      Holds r l (decide ((l + 1) % r.descrPerConsumer ≠ 0)) c' := by
  by_cases hcc : c' = c
  · subst hcc
    rw [update_self, Bool.not_eq_true', decide_eq_false_iff_not, r.isLastDescriptorOfConsumer_mod hcl,
      Holds, decide_eq_true_iff]
    refine ⟨fun hne => ⟨hne, ?_⟩, And.left⟩
    have hs := r.succ_div l
    rw [if_neg hne] at hs
    rw [Ring.consumerAt, hs]
    exact hcl.symm
  · rw [update_of_ne hcc, h.canFree c' hc']
    constructor
    · intro hh
      exact absurd (hh.2.trans hm.symm) hcc
    · rintro ⟨hh, he⟩
      have hs := r.succ_div l
      rw [if_neg (of_decide_eq_true hh)] at hs
      rw [Ring.consumerAt, hs] at he
      exact absurd (he.trans hcl) hcc

/-- A release moves the frontier to `l`, and passes the token on at the end of the segment. -/
theorem advance (h : Core r s S H n held) (hc : c < r.consumers)
    (hm : c = r.consumerAt (S + 1)) (hl : l < n c) (hcl : r.consumerAt l = c)
    (hcase : l = S ∨ S < l ∧ l / r.descrPerConsumer = tokenSeg r S) :
    Core r (hpcapAdvanceReadDescriptors r s c (l % r.size)) l H n
      (decide ((l + 1) % r.descrPerConsumer ≠ 0)) := by
  have hlH := h.above l (hcl ▸ hl)
  have hle := h.le
  have hSH := h.lt
  have hSl : S ≤ l := by omega
  have hread := fun {x} => h.read_upto (x := x) hm hl hcase
  have hlast := r.isLastDescriptorOfConsumer_mod hcl
  have hmay := (h.mayFree_iff hc).mpr hm
  unfold hpcapAdvanceReadDescriptors
  dsimp only
  rw [if_pos hmay]
  have hdesc := fun x => h.handedOver_descs (x := x) hSl hlH
  refine ⟨rfl, h.head, hlH, by omega, h.own, fun x hx => hread hx, h.above, ?_, ?_, ?_, ?_, ?_, ?_,
    fun hh => not_not.mp (of_decide_eq_false hh)⟩
  · intro x hx hx'
    dsimp only
    rw [hdesc x hx hx']
    split
    · exact h.owned x (by omega) (by assumption)
    · exact (decide_eq_true (by omega)).symm
  · intro x hx hx'
    dsimp only
    rw [hdesc x hx hx']
    split
    · exact h.full x (by omega) (by assumption)
    · have hr := hread (show x - r.size ≤ l by omega)
      dsimp only
      rw [h.full _ (by omega) (by omega), decide_eq_false (by omega), decide_eq_false (by omega)]
  · intro x hx hx' hxr
    have hxH := h.above x hxr
    dsimp only
    rw [hdesc x hx hx', if_pos (by omega)]
    exact h.once x (by omega) (by omega) hxr
  · intro x hx hx' hxH hxn
    dsimp only
    rw [hdesc x hx hx', if_pos (by omega)]
    exact h.fresh x (by omega) (by omega) hxH hxn
  · exact fun c' hc' => h.holds_advance hm hcl hc'
  · intro c' hc'
    have hno := h.freed_cleared hc hm hc'
    dsimp only
    rw [decide_eq_false_iff_not, not_not, hcl]
    by_cases hend : (l + 1) % r.descrPerConsumer = 0
    · rw [if_pos (decide_eq_true (hlast.mpr hend))]
      by_cases hcc : c' = c
      · simp [hcc, hend]
      · rw [update_of_ne hcc, hno]
        simp [hcc]
    · rw [if_neg (by simpa using mt hlast.mp hend), hno]
      simp [hend]

/-- Without the token nothing is released. -/
theorem advance_waiting (h : Core r s S H n held) (hc : c < r.consumers)
    (hm : c ≠ r.consumerAt (S + 1)) :
    Core r (hpcapAdvanceReadDescriptors r s c last) S H n held := by
  have hmay : mayFree r s c ≠ true := mt (h.mayFree_iff hc).mp hm
  unfold hpcapAdvanceReadDescriptors
  dsimp only
  rw [if_neg hmay]
  exact ⟨h.tail, h.head, h.lt, h.le, h.own, h.below, h.above, h.owned, h.full, h.once, h.fresh,
    h.canFree, h.freed, h.transit⟩

/-- The hardware fills the next descriptor it owns. -/
theorem fill (h : Core r s S H n held) (hne : s.head ≠ s.tail) :
    Core r { s with
      descs := update s.descs s.head ⟨false, true, []⟩
      head := (s.head + 1) % r.size } S (H + 1) n held := by
  have hSH := h.lt
  have hlt : H < S + r.size := by
    refine lt_of_le_of_ne h.le fun he => hne ?_
    rw [h.head, h.tail, he, Nat.add_mod_right]
  have hH : ∀ x, S ≤ x → x < S + r.size → x ≠ H →
      update s.descs s.head ⟨false, true, []⟩ (x % r.size) = s.descs (x % r.size) := by
    intro x hx hx' hxH
    rw [h.head]
    exact update_of_ne (fun he => hxH (mod_inj hx hx' hSH.le hlt he)) _ _
  have hself : update s.descs s.head ⟨false, true, []⟩ (H % r.size) = ⟨false, true, []⟩ := by
    rw [h.head, update_self]
  have hunread : n (r.consumerAt H) ≤ H :=
    Nat.not_lt.mp fun hr => absurd (h.above H hr) (lt_irrefl H)
  refine ⟨h.tail, ?_, by omega, by omega, h.own, h.below, fun x hx => ?_, ?_, ?_, ?_, ?_,
    h.canFree, h.freed, h.transit⟩
  · dsimp only
    rw [h.head, Nat.mod_add_mod]
  · have := h.above x hx
    omega
  · intro x hx hx'
    dsimp only
    by_cases hxH : x = H
    · rw [hxH, hself, decide_eq_false (by omega)]
    · rw [hH x hx hx' hxH, h.owned x hx hx']
      exact decide_eq_decide.mpr (by omega)
  · intro x hx hx'
    dsimp only
    by_cases hxH : x = H
    · rw [hxH, hself]
      exact (decide_eq_true ⟨by omega, hunread⟩).symm
    · rw [hH x hx hx' hxH, h.full x hx hx']
      exact decide_eq_decide.mpr (by omega)
  · intro x hx hx' hr
    have := h.above x hr
    dsimp only
    rw [hH x hx hx' (by omega)]
    exact h.once x hx hx' hr
  · intro x hx hx' hxH hxn
    dsimp only
    by_cases he : x = H
    · rw [he, hself]
    · rw [hH x hx hx' he]
      exact h.fresh x hx hx' (by omega) hxn

/-- The done bit is that of the position the consumer reads next. -/
theorem next_full (h : Core r s S H n held) (hc : c < r.consumers)
    (hdd : (s.descs (n c % r.size)).dd = true) : S < n c ∧ n c < H := by
  have hown := h.own c hc
  have hlo : S < n c := by
    by_contra hle
    have := h.below (n c) (Nat.not_lt.mp hle)
    rw [hown] at this
    omega
  -- the window holds one position with this index
  obtain ⟨x, hx, hx', he⟩ : ∃ x, S ≤ x ∧ x < S + r.size ∧ x % r.size = n c % r.size := by
    have hg := add_gap (Nat.mod_lt S r.size_pos) (Nat.mod_lt (n c) r.size_pos)
    have hlt := gap_lt (Nat.mod_lt S r.size_pos) (Nat.mod_lt (n c) r.size_pos)
    rw [Nat.mod_add_mod] at hg
    exact ⟨_, Nat.le_add_right _ _, Nat.add_lt_add_left hlt S, hg⟩
  have hcx : r.consumerAt x = c := by
    rw [← hown, ← r.rxdConsumerOf_mod, he, r.rxdConsumerOf_mod]
  rw [← he, h.full x hx hx', hcx] at hdd
  obtain ⟨hxH, hnx⟩ := of_decide_eq_true hdd
  have hle := h.le
  have hsame : x = n c := mod_inj hx hx' hlo.le (by omega) he
  rw [← hsame]
  exact ⟨by omega, hxH⟩

/-- Without a done bit there is nothing left for the consumer to read. -/
theorem next_undone (h : Core r s S H n held) (hc : c < r.consumers)
    (hdd : (s.descs (n c % r.size)).dd = false) : H ≤ n c := by
  by_contra hlt
  have hle := h.le
  have hlo : S < n c := by
    by_contra hno
    have := h.below (n c) (Nat.not_lt.mp hno)
    rw [h.own c hc] at this
    omega
  rw [h.full (n c) hlo.le (by omega), h.own c hc] at hdd
  exact of_decide_eq_false hdd ⟨Nat.not_le.mp hlt, le_rfl⟩

/-- The consumer reads its next descriptor. -/
theorem read (h : Core r s S H n held) (hc : c < r.consumers)
    (hdd : (s.descs (n c % r.size)).dd = true) :
    Core r { s with
      descs := update s.descs (n c % r.size) ((s.descs (n c % r.size)).rearm c) }
      S H (update n c (r.nextPos (n c))) held := by
  obtain ⟨hlo, hhi⟩ := h.next_full hc hdd
  have hle := h.le
  have hown := h.own c hc
  have hread : ∀ x, x < update n c (r.nextPos (n c)) (r.consumerAt x) ↔
      x < n (r.consumerAt x) ∨ x = n c := by
    intro x
    by_cases hx : r.consumerAt x = c
    · rw [hx, update_self, r.lt_nextPos_iff (hx.trans hown.symm)]
      exact Nat.le_iff_lt_or_eq
    · rw [update_of_ne hx]
      refine ⟨.inl, fun hr => hr.resolve_right fun he => hx ?_⟩
      rw [he, hown]
  have hother : ∀ x, S ≤ x → x < S + r.size → x ≠ n c →
      update s.descs (n c % r.size) ((s.descs (n c % r.size)).rearm c) (x % r.size) =
        s.descs (x % r.size) :=
    fun x hx hx' hne => update_of_ne
      (fun he => hne (mod_inj hx hx' hlo.le (by omega) he)) _ _
  refine ⟨h.tail, h.head, h.lt, hle, ?_, fun x hx => (hread x).mpr (.inl (h.below x hx)), ?_, ?_, ?_,
    ?_, ?_, h.canFree, h.freed, h.transit⟩
  · intro c' hc'
    by_cases he : c' = c
    · rw [he, update_self, r.consumerAt_nextPos, hown]
    · rw [update_of_ne he, h.own c' hc']
  · intro x hx
    obtain hx | rfl := (hread x).mp hx
    · exact h.above x hx
    · exact hhi
  · intro x hx hx'
    dsimp only
    by_cases he : x = n c
    · subst he
      rw [update_self]
      exact h.owned _ hx hx'
    · rw [hother x hx hx' he]
      exact h.owned x hx hx'
  · intro x hx hx'
    dsimp only
    by_cases he : x = n c
    · subst he
      rw [update_self]
      refine (decide_eq_false fun hh => ?_).symm
      have := (hread (n c)).mpr (.inr rfl)
      omega
    · rw [hother x hx hx' he, h.full x hx hx']
      refine decide_eq_decide.mpr (and_congr_right fun _ => ?_)
      rw [← Nat.not_lt, ← Nat.not_lt, hread, or_iff_left he]
  · intro x hx hx' hr
    dsimp only
    by_cases he : x = n c
    · subst he
      rw [update_self]
      change c :: (s.descs (n c % r.size)).readBy = [r.consumerAt (n c)]
      rw [h.fresh (n c) hx hx' hhi (by rw [hown]), hown]
    · rw [hother x hx hx' he]
      exact h.once x hx hx' (((hread x).mp hr).resolve_right he)
  · intro x hx hx' hxH hxn
    dsimp only
    have hno : ¬ x < update n c (r.nextPos (n c)) (r.consumerAt x) := Nat.not_lt.mpr hxn
    rw [hread, not_or] at hno
    rw [hother x hx hx' hno.2]
    exact h.fresh x hx hx' hxH (Nat.not_lt.mp hno.1)

end Core

theorem ThreadAt.congr {r : Ring} {s t : State} {S m c : Nat} {held : Bool}
    (h : ThreadAt r s S held m c) (hp : t.pcs c = s.pcs c) (hi : t.rxdIdx c = s.rxdIdx c) :
    ThreadAt r t S held m c := by
  simp only [ThreadAt] at h ⊢
  rw [hp, hi]
  exact h

/-- The release of one consumer leaves what is known of another. -/
theorem ThreadAt.release {r : Ring} {s : State} {S m c c' l : Nat} {held held' : Bool}
    (h : ThreadAt r s S held m c') (hc : c < r.consumers) (hc' : c' < r.consumers) (hne : c' ≠ c)
    (hcl : r.consumerAt l = c)
    (hcase : l = S ∨ S < l ∧ l / r.descrPerConsumer = tokenSeg r S)
    (hheld : held' = true → r.consumerAt (l + 1) = c) : ThreadAt r s l held' m c' := by
  have hno : ¬ Holds r l held' c' := fun hh => hne (hh.2.trans (hheld hh.1))
  have hone : r.consumers ≠ 1 := by omega
  have hbehind : ∀ x, r.consumerAt x = c' → S < x → l < x := by
    intro x hx hSx
    obtain rfl | ⟨-, hseg⟩ := hcase
    · exact hSx
    · have hle : tokenSeg r S ≤ x / r.descrPerConsumer :=
        Nat.div_le_div_right (Nat.succ_le_of_lt hSx)
      refine Nat.lt_of_div_lt_div (c := r.descrPerConsumer) (lt_of_le_of_ne (hseg ▸ hle) ?_)
      intro he
      exact hne (by rw [← hx, ← hcl, Ring.consumerAt, Ring.consumerAt, he])
  simp only [ThreadAt] at h ⊢
  cases hp : s.pcs c' with
  | idle =>
    rw [hp] at h
    exact ⟨h.1, fun hh => absurd hh hno⟩
  | loop qidx last reads handed =>
    rw [hp] at h
    obtain ⟨hq, -, hz, hpos⟩ := h
    refine ⟨hq, fun hh => absurd hh hno, hz, fun h0 => ?_⟩
    obtain ⟨x, hx, hf, -⟩ := hpos h0
    refine ⟨x, hx, fun hh => hbehind x hx.2.2 (hf hh), fun _ hh => ?_⟩
    exact absurd (hh.resolve_left hno) hone
  | read qidx last reads =>
    rw [hp] at h
    obtain ⟨hq, h0, x, hx, hSx, -⟩ := h
    exact ⟨hq, h0, x, hx, hbehind x hx.2.2 hSx, fun hh => absurd hh hno⟩

/-- The call after the loop does not repeat an index that the loop has handed over, unless the
consumer before has not finished its segment since, or is the same. -/
def FreshCall (r : Ring) (freedLastRxd : Nat → Bool) (pcs : Nat → Pc) : Step → Prop
  | .leave c =>
    match pcs c with
    | .loop _ _ _ true => r.consumers = 1 ∨ freedLastRxd (r.previousConsumer c) = false
    | _ => True
  | _ => True

instance (r : Ring) (freedLastRxd : Nat → Bool) (pcs : Nat → Pc) :
    DecidablePred (FreshCall r freedLastRxd pcs) := fun a => by
  unfold FreshCall
  split
  · split <;> infer_instance
  · infer_instance

theorem freshCall_alone {r : Ring} (hone : r.consumers = 1) (freedLastRxd : Nat → Bool)
    (pcs : Nat → Pc) (a : Step) : FreshCall r freedLastRxd pcs a := by
  unfold FreshCall
  split
  · split
    · exact .inl hone
    · trivial
  · trivial

def Fresh (r : Ring) (s : State) : Step → Prop := FreshCall r s.freedLastRxd s.pcs

instance (r : Ring) (s : State) : DecidablePred (Fresh r s) :=
  inferInstanceAs (DecidablePred (FreshCall r s.freedLastRxd s.pcs))

/-- How far the hardware has filled the ring after a step. -/
def filledAfter (H : Nat) : Step → Nat
  | .fill => H + 1
  | _ => H

/-- What each consumer reads next after a step. -/
def nextAfter (r : Ring) (n : Nat → Nat) : Step → Nat → Nat
  | .read c => update n c (r.nextPos (n c))
  | _ => n

namespace Inv

variable {r : Ring} {s : State} {S H : Nat} {n : Nat → Nat} {held : Bool} {c : Nat}

theorem consumer_lt (h : Inv r s S H n held) (hp : s.pcs c ≠ .idle) : c < r.consumers := by
  by_contra hc
  exact hp (h.others c (Nat.not_lt.mp hc))

theorem seg_le (h : Inv r s S H n held) {l : Nat} (hm : c = r.consumerAt (S + 1))
    (hl : l < n c) (hcl : r.consumerAt l = c)
    (hheld : Holds r S held c → l / r.descrPerConsumer ≤ tokenSeg r S) :
    l / r.descrPerConsumer ≤ tokenSeg r S := by
  cases held with
  | true => exact hheld ⟨rfl, hm⟩
  | false => exact h.read_seg_le (hcl.trans hm) (h.above l (hcl ▸ hl))

/-- In the loop a consumer with the token releases what it has just read. -/
theorem release_case (h : Inv r s S H n held) {qidx last reads : Nat}
    (hp : s.pcs c = .read qidx last reads) (hc : c < r.consumers)
    (hm : c = r.consumerAt (S + 1)) :
    ∃ l, LastRead r (n c) c last l ∧ S < l ∧ l / r.descrPerConsumer = tokenSeg r S := by
  have ht := h.threads c hc
  simp only [ThreadAt] at ht
  rw [hp] at ht
  obtain ⟨-, -, l, hl, hSl, hheld⟩ := ht
  have hlt := hl.2.1 ▸ r.lt_nextPos l
  refine ⟨l, hl, hSl, le_antisymm (h.seg_le hm hlt hl.2.2 hheld) ?_⟩
  exact Nat.div_le_div_right (Nat.succ_le_of_lt hSl)

/-- So it does after the loop, or repeats what it released last. -/
theorem leave_case (h : Inv r s S H n held) {qidx last reads : Nat} {handed : Bool}
    (hp : s.pcs c = .loop qidx last reads handed) (hc : c < r.consumers)
    (hm : c = r.consumerAt (S + 1)) (hpos : 0 < reads) (hok : Fresh r s (.leave c)) :
    ∃ l, LastRead r (n c) c last l ∧
      (handed = true ∧ l = S ∨ S < l ∧ l / r.descrPerConsumer = tokenSeg r S) := by
  have ht := h.threads c hc
  simp only [ThreadAt] at ht
  rw [hp] at ht
  obtain ⟨-, hheld, -, hlast⟩ := ht
  obtain ⟨l, hl, hfresh, hrepeat⟩ := hlast hpos
  have hlt := hl.2.1 ▸ r.lt_nextPos l
  refine ⟨l, hl, ?_⟩
  cases handed with
  | true =>
    have hok : r.consumers = 1 ∨ s.freedLastRxd (r.previousConsumer c) = false := by
      simpa only [Fresh, FreshCall, hp] using hok
    refine .inl ⟨rfl, hrepeat rfl (hok.symm.imp_left fun hfree => ?_)⟩
    have hmay := (h.mayFree_iff hc).mpr hm
    rw [mayFree, hfree, Bool.or_false] at hmay
    exact (h.canFree c hc).mp hmay
  | false =>
    have hSl := hfresh rfl
    have hle : l / r.descrPerConsumer ≤ tokenSeg r S := by
      refine h.seg_le hm hlt hl.2.2 fun hh => ?_
      exact (Nat.div_le_div_right hlt.le).trans (hheld hh)
    exact .inr ⟨hSl, le_antisymm hle (Nat.div_le_div_right (Nat.succ_le_of_lt hSl))⟩

/-- A step of one consumer is one of its own thread and of what all share. -/
theorem of_thread (h : Inv r s S H n held) {t : State} {S' H' : Nat} {n' : Nat → Nat} {held' : Bool}
    (pc : Pc) (hc : c < r.consumers) (hcore : Core r t S' H' n' held')
    (hpcs : t.pcs = update s.pcs c pc) (hself : ThreadAt r t S' held' (n' c) c)
    (hother : ∀ c' < r.consumers, c' ≠ c → ThreadAt r t S' held' (n' c') c') :
    Inv r t S' H' n' held' := by
  refine ⟨hcore, fun c' hc' => ?_, fun c' hc' => ?_⟩
  · by_cases he : c' = c
    · rw [he]
      exact hself
    · exact hother c' hc' he
  · rw [hpcs, update_of_ne (by omega)]
    exact h.others c' hc'

theorem enter (h : Inv r s S H n held) (hp : s.pcs c = .idle) (hc : c < r.consumers) :
    Inv r (s.goto c (.loop (s.rxdIdx c) 0 0 false)) S H n held := by
  have ht := h.threads c hc
  simp only [ThreadAt, hp] at ht
  refine h.of_thread _ hc h.toCore.goto rfl ?_ fun c' hc' hne => ?_
  · simp only [ThreadAt, goto_pcs, update_self]
    exact ⟨ht.1, ht.2, fun _ => ⟨ht.1, trivial⟩, fun hpos => absurd hpos (lt_irrefl 0)⟩
  · exact (h.threads c' hc').congr (update_of_ne hne _ _) rfl

theorem read (h : Inv r s S H n held) {qidx last reads : Nat} {handed : Bool}
    (hp : s.pcs c = .loop qidx last reads handed)
    (hdd : (s.descs (qidx % r.size)).dd = true) :
    Inv r { s.goto c (.read (r.rxdCalcNext qidx c) qidx (reads + 1)) with
      descs := update s.descs (qidx % r.size) ((s.descs (qidx % r.size)).rearm c) }
      S H (update n c (r.nextPos (n c))) held := by
  have hc : c < r.consumers := h.consumer_lt (by rw [hp]; nofun)
  have ht := h.threads c hc
  simp only [ThreadAt, hp] at ht
  obtain ⟨hq, hheld, -, -⟩ := ht
  have hqm : qidx % r.size = n c % r.size := by rw [hq, Nat.mod_mod]
  rw [hqm] at hdd ⊢
  have hown := h.own c hc
  have hcore : Core r (s.goto c (.read (r.rxdCalcNext qidx c) qidx (reads + 1))) S H n held :=
    h.toCore.goto
  refine h.of_thread _ hc (hcore.read hc hdd) rfl ?_ fun c' hc' hne => ?_
  · simp only [ThreadAt, goto_pcs, update_self]
    refine ⟨?_, Nat.succ_pos _, n c, ⟨hq, rfl, hown⟩, (h.next_full hc hdd).1, hheld⟩
    rw [hq, r.rxdCalcNext_mod hown]
  · rw [update_of_ne hne]
    exact (h.threads c' hc').congr (update_of_ne hne _ _) rfl

/-- What a consumer reads has been filled and not released. -/
theorem reads (h : Inv r s S H n held) {t : State} (ht : step r s (.read c) = some t) :
    c < r.consumers ∧ S < n c ∧ n c < H := by
  cases hp : s.pcs c with
  | loop qidx last reads handed =>
    have hc : c < r.consumers := h.consumer_lt (by rw [hp]; nofun)
    have hth := h.threads c hc
    simp only [ThreadAt, hp] at hth
    simp only [step, hp, Option.ite_none_right_eq_some] at ht
    have hdd := ht.1
    rw [hth.1, Nat.mod_mod] at hdd
    exact ⟨hc, h.next_full hc hdd⟩
  | idle | read => simp [step, hp] at ht

/-- What a holder reads next after a release inside its segment is in that segment. -/
theorem next_seg {l : Nat} (hl : r.nextPos l = n c)
    (hin : decide ((l + 1) % r.descrPerConsumer ≠ 0) = true) :
    n c / r.descrPerConsumer ≤ tokenSeg r l := by
  rw [← hl, Ring.nextPos, if_neg (of_decide_eq_true hin), tokenSeg]

theorem advance (h : Inv r s S H n held) {l : Nat} {last : Nat} {pc : Pc} (hc : c < r.consumers)
    (hm : c = r.consumerAt (S + 1)) (hl : LastRead r (n c) c last l)
    (hcase : l = S ∨ S < l ∧ l / r.descrPerConsumer = tokenSeg r S)
    (hself : ThreadAt r ((hpcapAdvanceReadDescriptors r s c last).goto c pc) l
      (decide ((l + 1) % r.descrPerConsumer ≠ 0)) (n c) c) :
    Inv r ((hpcapAdvanceReadDescriptors r s c last).goto c pc) l H n
      (decide ((l + 1) % r.descrPerConsumer ≠ 0)) := by
  obtain ⟨rfl, hnext, hcl⟩ := hl
  have hlt := hnext ▸ r.lt_nextPos l
  refine h.of_thread pc hc (h.toCore.advance hc hm hlt hcl hcase).goto ?_ hself fun c' hc' hne => ?_
  · rw [goto_pcs, hpcapAdvanceReadDescriptors_pcs]
  · refine ((h.threads c' hc').release hc hc' hne hcl hcase fun hin => ?_).congr ?_ ?_
    · have hs := r.succ_div l
      rw [if_neg (of_decide_eq_true hin)] at hs
      rw [Ring.consumerAt, hs]
      exact hcl
    · rw [goto_pcs, update_of_ne hne, hpcapAdvanceReadDescriptors_pcs]
    · rw [goto_rxdIdx, hpcapAdvanceReadDescriptors_rxdIdx, update_of_ne hne]

theorem advance_waiting (h : Inv r s S H n held) {last : Nat} {pc : Pc} (hc : c < r.consumers)
    (hm : c ≠ r.consumerAt (S + 1))
    (hself : ThreadAt r ((hpcapAdvanceReadDescriptors r s c last).goto c pc) S held (n c) c) :
    Inv r ((hpcapAdvanceReadDescriptors r s c last).goto c pc) S H n held := by
  refine h.of_thread pc hc (h.toCore.advance_waiting hc hm).goto ?_ hself fun c' hc' hne => ?_
  · rw [goto_pcs, hpcapAdvanceReadDescriptors_pcs]
  · refine (h.threads c' hc').congr ?_ ?_
    · rw [goto_pcs, update_of_ne hne, hpcapAdvanceReadDescriptors_pcs]
    · rw [goto_rxdIdx, hpcapAdvanceReadDescriptors_rxdIdx, update_of_ne hne]

theorem release_token (h : Inv r s S H n held) {qidx last reads : Nat}
    (hp : s.pcs c = .read qidx last reads) (hc : c < r.consumers) (hm : c = r.consumerAt (S + 1)) :
    ∃ l, LastRead r (n c) c last l ∧ S < l ∧ l / r.descrPerConsumer = tokenSeg r S ∧
      Inv r ((hpcapAdvanceReadDescriptors r s c last).goto c
        (.loop qidx last reads (mayFree r s c))) l H n
        (decide ((l + 1) % r.descrPerConsumer ≠ 0)) := by
  obtain ⟨l, hl, hSl, hseg⟩ := h.release_case hp hc hm
  have ht := h.threads c hc
  simp only [ThreadAt, hp] at ht
  obtain ⟨hq, hpos, -⟩ := ht
  refine ⟨l, hl, hSl, hseg, h.advance hc hm hl (.inr ⟨hSl, hseg⟩) ?_⟩
  simp only [ThreadAt, goto_pcs, update_self]
  refine ⟨hq, fun hh => next_seg hl.2.1 hh.1, fun h0 => absurd h0 hpos.ne', fun _ => ?_⟩
  refine ⟨l, hl, fun hno => ?_, fun _ _ => rfl⟩
  rw [(h.mayFree_iff hc).mpr hm] at hno
  exact absurd hno (by decide)

theorem release_waiting (h : Inv r s S H n held) {qidx last reads : Nat}
    (hp : s.pcs c = .read qidx last reads) (hc : c < r.consumers) (hm : c ≠ r.consumerAt (S + 1)) :
    Inv r ((hpcapAdvanceReadDescriptors r s c last).goto c
      (.loop qidx last reads (mayFree r s c))) S H n held := by
  have ht := h.threads c hc
  simp only [ThreadAt, hp] at ht
  obtain ⟨hq, hpos, l, hl, hSl, -⟩ := ht
  have hmay : mayFree r s c = false := Bool.not_eq_true _ ▸ mt (h.mayFree_iff hc).mp hm
  refine h.advance_waiting hc hm ?_
  simp only [ThreadAt, goto_pcs, update_self]
  refine ⟨hq, fun hh => absurd hh.2 hm, fun h0 => absurd h0 hpos.ne', fun _ => ?_⟩
  refine ⟨l, hl, fun _ => hSl, fun hyes => ?_⟩
  rw [hmay] at hyes
  exact absurd hyes (by decide)

theorem release (h : Inv r s S H n held) {qidx last reads : Nat}
    (hp : s.pcs c = .read qidx last reads) :
    ∃ S' held', Inv r ((hpcapAdvanceReadDescriptors r s c last).goto c
      (.loop qidx last reads (mayFree r s c))) S' H n held' := by
  have hc : c < r.consumers := h.consumer_lt (by rw [hp]; nofun)
  by_cases hm : c = r.consumerAt (S + 1)
  · obtain ⟨l, -, -, -, hinv⟩ := h.release_token hp hc hm
    exact ⟨l, _, hinv⟩
  · exact ⟨S, held, h.release_waiting hp hc hm⟩

/-- Inside its segment a consumer may keep what it has read for later. -/
theorem keep (h : Inv r s S H n held) {qidx last reads : Nat}
    (hp : s.pcs c = .read qidx last reads) (hin : ¬ r.isLastDescriptorOfConsumer last c) :
    Inv r (s.goto c (.loop qidx last reads false)) S H n held := by
  have hc : c < r.consumers := h.consumer_lt (by rw [hp]; nofun)
  have ht := h.threads c hc
  simp only [ThreadAt, hp] at ht
  obtain ⟨hq, hpos, l, hl, hSl, hheld⟩ := ht
  refine h.of_thread _ hc h.toCore.goto rfl ?_ fun c' hc' hne => ?_
  · simp only [ThreadAt, goto_pcs, update_self]
    refine ⟨hq, fun hh => ?_, fun h0 => absurd h0 hpos.ne',
      fun _ => ⟨l, hl, fun _ => hSl, fun hyes => absurd hyes (by decide)⟩⟩
    rw [hl.1, r.isLastDescriptorOfConsumer_mod hl.2.2] at hin
    rw [← hl.2.1, r.nextPos_div_inner hin]
    exact hheld hh
  · exact (h.threads c' hc').congr (update_of_ne hne _ _) rfl

theorem rxdCalcNext_last {last l : Nat} (hl : LastRead r (n c) c last l) :
    r.rxdCalcNext last c = n c % r.size := by
  obtain ⟨rfl, hn, hcl⟩ := hl
  rw [r.rxdCalcNext_mod hcl, hn]

theorem leave_token (h : Inv r s S H n held) {qidx last reads : Nat} {handed : Bool}
    (hp : s.pcs c = .loop qidx last reads handed) (hc : c < r.consumers)
    (hm : c = r.consumerAt (S + 1)) (hpos : 0 < reads) (hok : Fresh r s (.leave c)) :
    ∃ l, LastRead r (n c) c last l ∧
      (handed = true ∧ l = S ∨ S < l ∧ l / r.descrPerConsumer = tokenSeg r S) ∧
      Inv r ((hpcapAdvanceReadDescriptors r s c last).goto c .idle) l H n
        (decide ((l + 1) % r.descrPerConsumer ≠ 0)) := by
  obtain ⟨l, hl, hcase⟩ := h.leave_case hp hc hm hpos hok
  refine ⟨l, hl, hcase, h.advance hc hm hl (hcase.imp_left And.right) ?_⟩
  simp only [ThreadAt, goto_pcs, goto_rxdIdx, hpcapAdvanceReadDescriptors_rxdIdx, update_self]
  exact ⟨rxdCalcNext_last hl, fun hh => next_seg hl.2.1 hh.1⟩

theorem leave_waiting (h : Inv r s S H n held) {qidx last reads : Nat} {handed : Bool}
    (hp : s.pcs c = .loop qidx last reads handed) (hc : c < r.consumers)
    (hm : c ≠ r.consumerAt (S + 1)) (hpos : 0 < reads) :
    Inv r ((hpcapAdvanceReadDescriptors r s c last).goto c .idle) S H n held := by
  have ht := h.threads c hc
  simp only [ThreadAt, hp] at ht
  obtain ⟨l, hl, -⟩ := ht.2.2.2 hpos
  refine h.advance_waiting hc hm ?_
  simp only [ThreadAt, goto_pcs, goto_rxdIdx, hpcapAdvanceReadDescriptors_rxdIdx, update_self]
  exact ⟨rxdCalcNext_last hl, fun hh => absurd hh.2 hm⟩

theorem leave (h : Inv r s S H n held) {qidx last reads : Nat} {handed : Bool}
    (hp : s.pcs c = .loop qidx last reads handed) (hpos : 0 < reads) (hok : Fresh r s (.leave c)) :
    ∃ S' held', Inv r ((hpcapAdvanceReadDescriptors r s c last).goto c .idle) S' H n held' := by
  have hc : c < r.consumers := h.consumer_lt (by rw [hp]; nofun)
  by_cases hm : c = r.consumerAt (S + 1)
  · obtain ⟨l, -, -, hinv⟩ := h.leave_token hp hc hm hpos hok
    exact ⟨l, _, hinv⟩
  · exact ⟨S, held, h.leave_waiting hp hc hm hpos⟩

theorem leave_empty (h : Inv r s S H n held) {qidx last : Nat} {handed : Bool}
    (hp : s.pcs c = .loop qidx last 0 handed) : Inv r (s.goto c .idle) S H n held := by
  have hc : c < r.consumers := h.consumer_lt (by rw [hp]; nofun)
  have ht := h.threads c hc
  simp only [ThreadAt, hp] at ht
  refine h.of_thread _ hc h.toCore.goto rfl ?_ fun c' hc' hne => ?_
  · simp only [ThreadAt, goto_pcs, update_self]
    exact ⟨(ht.2.2.1 trivial).1, ht.2.1⟩
  · exact (h.threads c' hc').congr (update_of_ne hne _ _) rfl

theorem fill (h : Inv r s S H n held) (hne : s.head ≠ s.tail) :
    Inv r { s with
      descs := update s.descs s.head ⟨false, true, []⟩
      head := (s.head + 1) % r.size } S (H + 1) n held :=
  ⟨h.toCore.fill hne, fun c hc => (h.threads c hc).congr rfl rfl, h.others⟩

/-- Every step keeps the invariant, as long as the call after the loop is fresh. -/
theorem step_frontiers (h : Inv r s S H n held) {a : Step} {t : State} (ht : step r s a = some t)
    (hok : Fresh r s a) : ∃ S' held', Inv r t S' (filledAfter H a) (nextAfter r n a) held' := by
  cases a with
  | enter c =>
    cases hp : s.pcs c with
    | idle =>
      simp only [step, hp, Option.ite_none_right_eq_some, Option.some.injEq] at ht
      obtain ⟨hc, rfl⟩ := ht
      exact ⟨_, _, h.enter hp hc⟩
    | loop | read => simp [step, hp] at ht
  | read c =>
    cases hp : s.pcs c with
    | loop qidx last reads handed =>
      simp only [step, hp, Option.ite_none_right_eq_some, Option.some.injEq] at ht
      obtain ⟨hdd, rfl⟩ := ht
      exact ⟨_, _, h.read hp hdd⟩
    | idle | read => simp [step, hp] at ht
  | release c =>
    cases hp : s.pcs c with
    | read qidx last reads =>
      simp only [step, hp] at ht
      by_cases hcall : reads % hpcapRxBufferWrite = 0 ∨ r.isLastDescriptorOfConsumer last c
      · rw [if_pos hcall, Option.some.injEq] at ht
        exact ht ▸ h.release hp
      · rw [if_neg hcall, Option.some.injEq] at ht
        exact ⟨_, _, ht ▸ h.keep hp (not_or.mp hcall).2⟩
    | idle | loop => simp [step, hp] at ht
  | leave c =>
    cases hp : s.pcs c with
    | loop qidx last reads handed =>
      simp only [step, hp] at ht
      by_cases hpos : 0 < reads
      · rw [if_pos hpos, Option.some.injEq] at ht
        exact ht ▸ h.leave hp hpos hok
      · rw [if_neg hpos, Option.some.injEq] at ht
        obtain rfl := Nat.eq_zero_of_not_pos hpos
        exact ⟨_, _, ht ▸ h.leave_empty hp⟩
    | idle | read => simp [step, hp] at ht
  | fill =>
    simp only [step, Option.ite_none_right_eq_some, Option.some.injEq] at ht
    obtain ⟨hne, rfl⟩ := ht
    exact ⟨_, _, h.fill hne⟩

theorem step_inv (h : Inv r s S H n held) {a : Step} {t : State} (ht : step r s a = some t)
    (hok : Fresh r s a) : ∃ S' H' n' held', Inv r t S' H' n' held' := by
  obtain ⟨S', held', hinv⟩ := h.step_frontiers ht hok
  exact ⟨S', _, _, held', hinv⟩

/-- What such a step releases is sound. -/
theorem released_sound (h : Inv r s S H n held) {a : Step} {last : Nat}
    (hrel : released r s a = some last) (hok : Fresh r s a) : Sound r s last := by
  cases a with
  | release c =>
    cases hp : s.pcs c with
    | read qidx last' reads =>
      have hc : c < r.consumers := h.consumer_lt (by rw [hp]; nofun)
      simp only [released, hp, Option.ite_none_right_eq_some, Option.some.injEq] at hrel
      obtain ⟨⟨-, hmay⟩, rfl⟩ := hrel
      have hm := (h.mayFree_iff hc).mp hmay
      obtain ⟨l, ⟨rfl, hnext, hcl⟩, hcase⟩ := h.release_case hp hc hm
      exact h.sound hm (hnext ▸ r.lt_nextPos l) hcl (.inr hcase)
    | idle | loop => simp [released, hp] at hrel
  | leave c =>
    cases hp : s.pcs c with
    | loop qidx last' reads handed =>
      have hc : c < r.consumers := h.consumer_lt (by rw [hp]; nofun)
      simp only [released, hp, Option.ite_none_right_eq_some, Option.some.injEq] at hrel
      obtain ⟨⟨hpos, hmay⟩, rfl⟩ := hrel
      have hm := (h.mayFree_iff hc).mp hmay
      obtain ⟨l, ⟨rfl, hnext, hcl⟩, hcase⟩ := h.leave_case hp hc hm hpos hok
      exact h.sound hm (hnext ▸ r.lt_nextPos l) hcl (hcase.imp_left And.right)
    | idle | read => simp [released, hp] at hrel
  | enter | read | fill => simp [released] at hrel

end Inv

/-- The position each consumer reads first, one round up. -/
def firstPos (r : Ring) (firstRxd c : Nat) : Nat :=
  if c = r.consumerAt firstRxd then firstRxd + r.size
  else if r.consumerAt firstRxd < c then r.descrPerConsumer * c + r.size
  else r.descrPerConsumer * c + 2 * r.size

section init

variable {r : Ring} {firstRxd : Nat}

theorem consumerAt_add_size (r : Ring) (x : Nat) : r.consumerAt (x + r.size) = r.consumerAt x := by
  rw [← r.rxdConsumerOf_mod, Nat.add_mod_right, r.rxdConsumerOf_mod]

theorem consumerAt_mul (r : Ring) {c : Nat} (hc : c < r.consumers) :
    r.consumerAt (r.descrPerConsumer * c) = c := by
  rw [Ring.consumerAt, Nat.mul_div_cancel_left _ r.descrPerConsumer_pos, Nat.mod_eq_of_lt hc]

theorem consumerAt_of_lt (r : Ring) {x : Nat} (hx : x < r.size) :
    r.consumerAt x = x / r.descrPerConsumer := by
  refine Nat.mod_eq_of_lt ((Nat.div_lt_iff_lt_mul r.descrPerConsumer_pos).mpr ?_)
  rwa [r.size_eq]

theorem consumerAt_firstPos (r : Ring) (firstRxd : Nat) {c : Nat} (hc : c < r.consumers) :
    r.consumerAt (firstPos r firstRxd c) = c := by
  by_cases h₀ : c = r.consumerAt firstRxd
  · rw [firstPos, if_pos h₀, consumerAt_add_size, h₀]
  · by_cases h₁ : r.consumerAt firstRxd < c
    · rw [firstPos, if_neg h₀, if_pos h₁, consumerAt_add_size, consumerAt_mul r hc]
    · rw [firstPos, if_neg h₀, if_neg h₁, Nat.two_mul, ← Nat.add_assoc, consumerAt_add_size,
        consumerAt_add_size, consumerAt_mul r hc]

/-- What is before one round past `firstRxd` is read, and nothing else. -/
theorem lt_firstPos_iff (hfirst : firstRxd < r.size) (x : Nat) :
    x < firstPos r firstRxd (r.consumerAt x) ↔ x < firstRxd + r.size := by
  have hD := r.descrPerConsumer_pos
  have hs₀ := consumerAt_of_lt r hfirst
  have hback : r.size ≤ x → r.consumerAt (x - r.size) = r.consumerAt x := by
    intro hx
    rw [← consumerAt_add_size, Nat.sub_add_cancel hx]
  have hback₂ : 2 * r.size ≤ x → r.consumerAt (x - 2 * r.size) = r.consumerAt x := by
    intro hx
    rw [← consumerAt_add_size, ← consumerAt_add_size]
    congr 1
    omega
  have hseg : r.descrPerConsumer * r.consumerAt x < r.size := by
    rw [← r.size_eq, Nat.mul_comm]
    exact Nat.mul_lt_mul_of_pos_right (r.consumerAt_lt x) hD
  have hlow : ∀ y, y < r.descrPerConsumer * r.consumerAt x → r.consumerAt y < r.consumerAt x := by
    intro y hy
    rw [consumerAt_of_lt r (hy.trans hseg)]
    exact Nat.div_lt_of_lt_mul hy
  rw [firstPos]
  by_cases h₀ : r.consumerAt x = r.consumerAt firstRxd
  · rw [if_pos h₀]
  rw [if_neg h₀]
  by_cases h₁ : r.consumerAt firstRxd < r.consumerAt x
  · have hfirst' : firstRxd < r.descrPerConsumer * r.consumerAt x := by
      rw [hs₀, Nat.div_lt_iff_lt_mul hD] at h₁
      rwa [Nat.mul_comm] at h₁
    rw [if_pos h₁]
    refine ⟨fun hx => ?_, fun hx => by omega⟩
    by_contra hge
    have hlt := hlow (x - r.size) (by omega)
    rw [hback (by omega)] at hlt
    exact absurd hlt (lt_irrefl _)
  · rw [if_neg h₁]
    refine ⟨fun hx => ?_, fun hx => by omega⟩
    by_contra hge
    by_cases hround : x < 2 * r.size
    · have hmono := Nat.div_le_div_right (c := r.descrPerConsumer) (show firstRxd ≤ x - r.size by omega)
      rw [← hs₀, ← consumerAt_of_lt r (by omega), hback (by omega)] at hmono
      omega
    · have hlt := hlow (x - 2 * r.size) (by omega)
      rw [hback₂ (by omega)] at hlt
      exact absurd hlt (lt_irrefl _)

theorem init_core (hfirst : firstRxd < r.size) :
    Core r (init r firstRxd) (firstRxd + r.size - 1) (firstRxd + r.size) (firstPos r firstRxd)
      true := by
  have hN := r.size_pos
  have hread := fun x => lt_firstPos_iff hfirst x
  have hnext : firstRxd + r.size - 1 + 1 = firstRxd + r.size := by omega
  have hs₀ : r.rxdConsumerOf firstRxd = r.consumerAt firstRxd := by
    rw [← r.rxdConsumerOf_mod, Nat.mod_eq_of_lt hfirst]
  -- of the window only its first position is not the hardware's
  have hdesc : ∀ x, firstRxd + r.size - 1 ≤ x → x < firstRxd + r.size - 1 + r.size →
      (init r firstRxd).descs (x % r.size) =
        if x < firstRxd + r.size then ⟨false, false, [r.consumerAt x]⟩ else ⟨true, false, []⟩ := by
    intro x hx hx'
    change (if x % r.size = _ then Descriptor.mk false false [r.rxdConsumerOf (x % r.size)] else _) = _
    rw [r.rxdConsumerOf_mod]
    refine if_congr ⟨fun he => ?_, fun hlt => ?_⟩ rfl rfl
    · have := mod_inj hx hx' le_rfl (by omega) he
      omega
    · rw [show x = firstRxd + r.size - 1 by omega]
  refine ⟨rfl, ?_, by omega, by omega, fun c hc => consumerAt_firstPos r firstRxd hc,
    fun x hx => (hread x).mpr (by omega), fun x hx => (hread x).mp hx, ?_, ?_, ?_, ?_, ?_, ?_, nofun⟩
  · rw [Nat.add_mod_right, Nat.mod_eq_of_lt hfirst]
    rfl
  · intro x hx hx'
    rw [hdesc x hx hx']
    split
    · exact (decide_eq_false (by omega)).symm
    · exact (decide_eq_true (by omega)).symm
  · intro x hx hx'
    rw [hdesc x hx hx', decide_eq_false fun hh => absurd ((hread x).mpr hh.1) (Nat.not_lt.mpr hh.2)]
    split <;> rfl
  · intro x hx hx' hxr
    rw [hdesc x hx hx', if_pos ((hread x).mp hxr)]
  · intro x hx hx' hxH hxn
    exact absurd ((hread x).mpr hxH) (Nat.not_lt.mpr hxn)
  · intro c hc
    rw [Holds, hnext, consumerAt_add_size, ← hs₀]
    simp [init]
  · intro c hc
    simp [init]

theorem init_inv (hfirst : firstRxd < r.size) :
    Inv r (init r firstRxd) (firstRxd + r.size - 1) (firstRxd + r.size) (firstPos r firstRxd)
      true := by
  refine ⟨init_core hfirst, fun c hc => ⟨?_, fun hh => ?_⟩, fun c hc => rfl⟩
  · have hs₀ : r.rxdConsumerOf firstRxd = r.consumerAt firstRxd := by
      rw [← r.rxdConsumerOf_mod, Nat.mod_eq_of_lt hfirst]
    have hseg : r.descrPerConsumer * c < r.size := by
      rw [← r.size_eq, Nat.mul_comm]
      exact Nat.mul_lt_mul_of_pos_right hc r.descrPerConsumer_pos
    change (if c = r.rxdConsumerOf firstRxd then firstRxd else c * r.descrPerConsumer) = _
    rw [firstPos, hs₀, Nat.mul_comm c]
    by_cases h₀ : c = r.consumerAt firstRxd
    · rw [if_pos h₀, if_pos h₀, Nat.add_mod_right, Nat.mod_eq_of_lt hfirst]
    · rw [if_neg h₀, if_neg h₀]
      split
      · rw [Nat.add_mod_right, Nat.mod_eq_of_lt hseg]
      · rw [Nat.add_mul_mod_self_right, Nat.mod_eq_of_lt hseg]
  · obtain ⟨-, rfl⟩ := hh
    have hnext : firstRxd + r.size - 1 + 1 = firstRxd + r.size := by
      have := r.size_pos
      omega
    rw [tokenSeg, hnext, firstPos, consumerAt_add_size, if_pos rfl]

end init

/-- The states the poll threads may be launched in. -/
def Launched (r : Ring) (s : State) : Prop := ∃ firstRxd < r.size, s = init r firstRxd

theorem reach_inv {r : Ring} {s : State} (h : Reach (step r) (Fresh r) (Launched r) s) :
    ∃ S H n held, Inv r s S H n held := by
  refine h.invariant (fun t => ∃ S H n held, Inv r t S H n held) ?_ ?_
  · rintro t ⟨firstRxd, hfirst, rfl⟩
    exact ⟨_, _, _, _, init_inv hfirst⟩
  · rintro t a u ⟨S, H, n, held, hinv⟩ hok hu
    exact hinv.step_inv hu hok

/-- From `s` to `t` the hardware is given what the release of an index hands over. -/
structure Gives (r : Ring) (s t : State) (rel : Option Nat) : Prop where
  tail : t.tail = rel.getD s.tail
  given : ∀ i, (s.descs i).owned = false → (t.descs i).owned = true →
    ∃ last, rel = some last ∧ HandedOver r s.tail last i

/-- The tail register moves and the hardware is given descriptors by a release only, and
what is released is sound. -/
structure SoundStep (r : Ring) (s : State) (a : Step) (t : State) : Prop
    extends Gives r s t (released r s a) where
  sound : ∀ last, released r s a = some last → Sound r s last

theorem hpcapAdvanceReadDescriptors_tail (r : Ring) (s : State) (c last : Nat) :
    (hpcapAdvanceReadDescriptors r s c last).tail = if mayFree r s c then last else s.tail := by
  rw [hpcapAdvanceReadDescriptors]
  split <;> rfl

theorem hpcapAdvanceReadDescriptors_given {r : Ring} {s : State} {c last i : Nat}
    (h : (s.descs i).owned = false)
    (hi : ((hpcapAdvanceReadDescriptors r s c last).descs i).owned = true) :
    mayFree r s c = true ∧ HandedOver r s.tail last i := by
  rw [hpcapAdvanceReadDescriptors] at hi
  dsimp only at hi
  split at hi
  · rename_i hmay
    refine ⟨hmay, ?_⟩
    by_contra hno
    dsimp only at hi
    rw [if_neg hno, h] at hi
    exact absurd hi (by decide)
  · dsimp only at hi
    rw [h] at hi
    exact absurd hi (by decide)

theorem Gives.advance (r : Ring) (s : State) (c last : Nat) (pc : Pc) :
    Gives r s ((hpcapAdvanceReadDescriptors r s c last).goto c pc)
      (if mayFree r s c then some last else none) := by
  refine ⟨?_, fun i hi hi' => ?_⟩
  · change (hpcapAdvanceReadDescriptors r s c last).tail = _
    rw [hpcapAdvanceReadDescriptors_tail]
    split <;> rfl
  · obtain ⟨hmay, hand⟩ := hpcapAdvanceReadDescriptors_given hi hi'
    exact ⟨last, if_pos hmay, hand⟩

theorem Gives.nothing {r : Ring} {s t : State} (ht : t.tail = s.tail)
    (hd : ∀ i, (s.descs i).owned = false → (t.descs i).owned = false) : Gives r s t none := by
  refine ⟨ht, fun i hi hi' => ?_⟩
  rw [hd i hi] at hi'
  exact absurd hi' (by decide)

theorem step_gives {r : Ring} {s t : State} {a : Step} (ht : step r s a = some t) :
    Gives r s t (released r s a) := by
  cases a with
  | enter c =>
    cases hp : s.pcs c with
    | idle =>
      simp only [step, hp, Option.ite_none_right_eq_some, Option.some.injEq] at ht
      obtain ⟨-, rfl⟩ := ht
      exact .nothing rfl fun i hi => hi
    | loop | read => simp [step, hp] at ht
  | read c =>
    cases hp : s.pcs c with
    | loop qidx last reads handed =>
      simp only [step, hp, Option.ite_none_right_eq_some, Option.some.injEq] at ht
      obtain ⟨-, rfl⟩ := ht
      refine .nothing rfl fun i hi => ?_
      dsimp only
      by_cases he : i = qidx % r.size
      · subst he
        rw [update_self]
        exact hi
      · rw [update_of_ne he]
        exact hi
    | idle | read => simp [step, hp] at ht
  | release c =>
    cases hp : s.pcs c with
    | read qidx last reads =>
      simp only [step, hp] at ht
      simp only [released, hp]
      by_cases hcall : reads % hpcapRxBufferWrite = 0 ∨ r.isLastDescriptorOfConsumer last c
      · rw [if_pos hcall, Option.some.injEq] at ht
        simp only [hcall, true_and]
        exact ht ▸ .advance r s c last _
      · rw [if_neg hcall, Option.some.injEq] at ht
        rw [if_neg fun hh => hcall hh.1, ← ht]
        exact .nothing rfl fun i hi => hi
    | idle | loop => simp [step, hp] at ht
  | leave c =>
    cases hp : s.pcs c with
    | loop qidx last reads handed =>
      simp only [step, hp] at ht
      simp only [released, hp]
      by_cases hpos : 0 < reads
      · rw [if_pos hpos, Option.some.injEq] at ht
        simp only [hpos, true_and]
        exact ht ▸ .advance r s c last _
      · rw [if_neg hpos, Option.some.injEq] at ht
        rw [if_neg fun hh => hpos hh.1, ← ht]
        exact .nothing rfl fun i hi => hi
    | idle | read => simp [step, hp] at ht
  | fill =>
    simp only [step, Option.ite_none_right_eq_some, Option.some.injEq] at ht
    obtain ⟨-, rfl⟩ := ht
    refine .nothing rfl fun i hi => ?_
    dsimp only
    by_cases he : i = s.head
    · rw [he, update_self]
    · rw [update_of_ne he]
      exact hi

/-- Every release is sound, as long as the call after the loop does not take the token to
repeat an index handed over before, which a single consumer may. -/
theorem releases_are_sound (r : Ring) (s t : State) (a : Step) (ht : step r s a = some t) :
    (Reach (step r) (Fresh r) (Launched r) s → Fresh r s a → SoundStep r s a t) ∧
      (r.consumers = 1 → Reach (step r) Free (Launched r) s → SoundStep r s a t) := by
  have hsound : Reach (step r) (Fresh r) (Launched r) s → Fresh r s a → SoundStep r s a t := by
    intro h hok
    obtain ⟨S, H, n, held, hinv⟩ := reach_inv h
    exact ⟨step_gives ht, fun last hrel => hinv.released_sound hrel hok⟩
  refine ⟨hsound, fun hone h => ?_⟩
  have hfresh : ∀ s a, Fresh r s a := fun s a => freshCall_alone hone s.freedLastRxd s.pcs a
  exact hsound (h.mono fun s a _ => hfresh s a) (hfresh s a)

/-- A ring of four descriptors. -/
def ringOfFour (consumers : Nat) (hpos : 0 < consumers) (hd : consumers ∣ 4) : Ring :=
  ⟨4, consumers, by decide, hpos, hd⟩

def shared : Ring := ringOfFour 2 (by decide) (by decide)

def alone : Ring := ringOfFour 1 (by decide) (by decide)

/-- The hardware fills what it owns, and a consumer reads one descriptor. -/
def readOne (c : Nat) : List Step := [.fill, .fill, .fill, .enter c, .read c, .release c]

/-- A consumer reads the two descriptors of its segment, and is still in the loop. -/
def readSegment (c : Nat) : List Step := [.enter c, .read c, .release c, .read c, .release c]

/-- The call after the loop releases the descriptor, with one consumer and with two. -/
theorem releases_are_sound_after_loop :
    (∃ s t, released shared s (.leave 0) = some 0 ∧ SoundStep shared s (.leave 0) t) ∧
      ∃ s t, released alone s (.leave 0) = some 0 ∧ SoundStep alone s (.leave 0) t := by
  have h₂ : ((run (guard (step shared) (Fresh shared)) (init shared 0) (readOne 0)).bind fun s =>
      (step shared s (.leave 0)).map fun _ => released shared s (.leave 0)) = some (some 0) := by
    decide +kernel
  have h₁ : ((run (step alone) (init alone 0) (readOne 0)).bind fun s =>
      (step alone s (.leave 0)).map fun _ => released alone s (.leave 0)) = some (some 0) := by
    decide +kernel
  obtain ⟨s, hs, h₂⟩ := Option.bind_eq_some_iff.mp h₂
  obtain ⟨t, ht, hrel⟩ := Option.map_eq_some_iff.mp h₂
  obtain ⟨s', hs', h₁⟩ := Option.bind_eq_some_iff.mp h₁
  obtain ⟨t', ht', hrel'⟩ := Option.map_eq_some_iff.mp h₁
  refine ⟨⟨s, t, hrel, ?_⟩, ⟨s', t', hrel', ?_⟩⟩
  · refine (releases_are_sound shared s t _ ht).1 (.run_guard (.start ⟨0, by decide, rfl⟩) hs) ?_
    have hpc : (run (guard (step shared) (Fresh shared)) (init shared 0) (readOne 0)).all
        fun s => decide (Fresh shared s (.leave 0)) := by decide +kernel
    rw [hs] at hpc
    exact of_decide_eq_true hpc
  · exact (releases_are_sound alone s' t' _ ht').2 rfl (.run (.start ⟨0, by decide, rfl⟩) hs')

/-- While consumer 0 is between the release of its last descriptor and the end of the loop,
consumer 1 releases its own segment and the token is back. The call after the loop then
gives the whole of the first segment to the hardware again, unread. -/
theorem repeated_release_moves_back :
    ¬ ∀ s a t, Reach (step shared) Free (Launched shared) s → step shared s a = some t →
      SoundStep shared s a t := by
  intro h
  have hrun : ((run (step shared) (init shared 0)
      ([.fill, .fill, .fill] ++ readSegment 0 ++ [.fill] ++ readSegment 1)).bind fun s =>
        (step shared s (.leave 0)).map fun _ =>
          (released shared s (.leave 0), s.tail, (s.descs 0).owned)) = some (some 1, 3, true) := by
    decide +kernel
  obtain ⟨s, hs, hrun⟩ := Option.bind_eq_some_iff.mp hrun
  obtain ⟨t, ht, he⟩ := Option.map_eq_some_iff.mp hrun
  obtain ⟨hrel, he⟩ := Prod.mk.inj he
  obtain ⟨htail, howned⟩ := Prod.mk.inj he
  have hread := ((h s _ t (.run (.start ⟨0, by decide, rfl⟩) hs) ht).sound 1 hrel).read 0 (by decide)
  rw [htail, howned] at hread
  exact absurd (hread (by decide)).1 (by decide)

end Hpcap.RxRing
