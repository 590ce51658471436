import Hpcap.Client
import Hpcap.Opening

namespace Hpcap.Capture

open Hpcap.Reservation Hpcap.SharedLog Hpcap.Tiling Hpcap.Rx Hpcap.Stream
open Hpcap.Listeners Hpcap.Registry Hpcap.Transition Hpcap.Client Hpcap.Opening

/-- A listener that has acknowledged the stream up to `p`, of what is written up to `q`. -/
structure Reader (n p q : Nat) (l : Listener) : Prop extends At n p q l where
  le : p ≤ q
  fits : q < p + n

theorem Reader.stands {n p q : Nat} {l : Listener} (h : Reader n p q l) :
    Stands n q l.bufferRdOffset p :=
  ⟨h.rd, h.le, h.fits⟩

theorem Reader.used {n p q : Nat} {l : Listener} (h : Reader n p q l) : usedBytes l = q - p :=
  h.usedBytes h.le h.fits

section Writer

variable {cfg : Config} {q t : Poll.State} {id : Int} {j p : Nat} {l : Listener}

/-- What is not done on the given handle. -/
def Elsewhere (id : Int) : Poll.Op → Prop
  | .poll _ => True
  | .add other | .del other | .pop other _ | .ack other _ => other ≠ id

instance (id : Int) : DecidablePred (Elsewhere id)
  | .poll _ => inferInstanceAs (Decidable True)
  | .add other | .del other | .pop other _ | .ack other _ =>
    inferInstanceAs (Decidable (other ≠ id))

theorem getListener_publish (cfg : Config) (q : Poll.State) (id : Int) :
    ∃ f : Listener → Listener, (∀ l, (f l).bufferRdOffset = l.bufferRdOffset) ∧
      hpcapGetListener (Poll.publish cfg q).lstnr id =
        (hpcapGetListener q.lstnr id).map fun s => (s.1, f s.2) := by
  unfold Poll.publish
  dsimp only
  generalize distance _ _ _ = count
  by_cases hnew : count > 0
  · refine ⟨fun l => (pushSlot count l).1, fun l => pushSlot_rd count l, ?_⟩
    rw [if_pos hnew, getListener_pushAll, getListener_popGlobal]
  · refine ⟨fun l => l, fun _ => rfl, ?_⟩
    rw [if_neg hnew, getListener_popGlobal]
    simp

theorem registered_reader (hinv : Poll.Inv cfg q) (hid : id ≠ listenerEmpty)
    (hl : hpcapGetListener q.lstnr id = some (j, l)) :
    q.lstnr.listenersCount ≠ 0 ∧ ∃ r, Reader cfg.bufSize r q.rx.trace.reserved l ∧
      q.rx.trace.reserved + availBytes q.lstnr.global < r + cfg.bufSize := by
  obtain ⟨-, L, hL, hw⟩ := hinv
  obtain ⟨hget, hlid⟩ := findSlot_some hl
  have hne : l.id ≠ listenerEmpty := of_decide_eq_true hlid ▸ hid
  obtain ⟨r, -, hmem, hat⟩ := hL.reader hget hne
  rw [hw] at hat
  have hle := L.le_write r hmem
  have hfits := L.reader_fits hmem
  have hfloor := L.floor_le r hmem
  refine ⟨fun hc => hL.no_reader hc r hmem, r, ⟨hat, by omega, by omega⟩, ?_⟩
  rw [hL.availBytes_global]
  simp only [Log.room]
  omega

/-- The listener stands where it stood after an iteration of the poll thread. -/
theorem Reader.poll (h : Reader cfg.bufSize p q.rx.trace.reserved l)
    (hd : cfg.bufSize ∣ 2 ^ 32) (hinv : Poll.Inv cfg q) (hid : id ≠ listenerEmpty)
    (hl : hpcapGetListener q.lstnr id = some (j, l)) (frames : List Frame) :
    ∃ m, hpcapGetListener (Poll.hpcapPoll cfg 1 0 frames q).2.lstnr id = some (j, m) ∧
      Reader cfg.bufSize p (Poll.hpcapPoll cfg 1 0 frames q).2.rx.trace.reserved m ∧
      q.rx.trace.reserved ≤ (Poll.hpcapPoll cfg 1 0 frames q).2.rx.trace.reserved := by
  obtain ⟨hcount, r, hr, hroom⟩ := registered_reader hinv hid hl
  have hpr := h.stands.unique hr.stands
  subst hpr
  obtain ⟨hc', hlo, hhi⟩ := hpcapRx_counted cfg (availBytes q.lstnr.global / 1)
    (q.lstnr.listenersCount ≠ 0) frames hinv.1
  have hrewind : Poll.rewind q = q := if_neg hcount
  have hinv' := Poll.hpcapPoll_inv hd frames hinv
  have hpoll : (Poll.hpcapPoll cfg 1 0 frames q).2 = Poll.publish cfg { q with
      rx := (hpcapRx cfg (availBytes q.lstnr.global / 1) (q.lstnr.listenersCount ≠ 0) frames
        q.rx).2.2 } := by
    unfold Poll.hpcapPoll
    dsimp only
    rw [hrewind, if_pos rfl]
  obtain ⟨f, hf, hget⟩ := getListener_publish cfg { q with
    rx := (hpcapRx cfg (availBytes q.lstnr.global / 1) (q.lstnr.listenersCount ≠ 0) frames
      q.rx).2.2 } id
  rw [← hpoll, hl] at hget
  obtain ⟨-, r', hr', -⟩ := registered_reader hinv' hid hget
  have hres : (Poll.hpcapPoll cfg 1 0 frames q).2.rx.trace.reserved =
      (hpcapRx cfg (availBytes q.lstnr.global / 1) (q.lstnr.listenersCount ≠ 0) frames
        q.rx).2.2.trace.reserved := by
    rw [hpoll]
    rfl
  rw [Nat.div_one] at hlo hhi hres
  have hle := h.le
  have hsame : p = r' := by
    have hp : Stands cfg.bufSize (Poll.hpcapPoll cfg 1 0 frames q).2.rx.trace.reserved
        l.bufferRdOffset p := by
      rw [hres]
      exact ⟨h.rd, by omega, by omega⟩
    exact hp.unique (hf l ▸ hr'.stands)
  subst hsame
  refine ⟨f l, hget, hr', ?_⟩
  rw [hres]
  exact hlo

/-- Whatever is done elsewhere, the listener stands where it stood. -/
theorem Reader.step (h : Reader cfg.bufSize p q.rx.trace.reserved l)
    (hd : cfg.bufSize ∣ 2 ^ 32) (hinv : Poll.Inv cfg q) (hid : id ≠ listenerEmpty)
    (hl : hpcapGetListener q.lstnr id = some (j, l)) {a : Poll.Op} (ha : Elsewhere id a)
    (hs : Poll.step cfg q a = some t) :
    ∃ m, hpcapGetListener t.lstnr id = some (j, m) ∧
      Reader cfg.bufSize p t.rx.trace.reserved m ∧ q.rx.trace.reserved ≤ t.rx.trace.reserved := by
  cases a with
  | poll frames =>
    cases hs
    exact h.poll hd hinv hid hl frames
  | add other =>
    obtain ⟨-, ht⟩ := Option.ite_none_right_eq_some.mp hs
    obtain rfl := Option.some.inj ht
    exact ⟨l, (getListener_add ha hid).trans hl, h, le_rfl⟩
  | del other =>
    obtain ⟨-, ht⟩ := Option.ite_none_right_eq_some.mp hs
    obtain rfl := Option.some.inj ht
    exact ⟨l, (getListener_del ha hid).trans hl, h, le_rfl⟩
  | pop other count =>
    obtain ⟨-, ht⟩ := Option.ite_none_right_eq_some.mp hs
    obtain rfl := Option.some.inj ht
    exact ⟨l, (getListener_pop ha count).trans hl, h, le_rfl⟩
  | ack other count =>
    obtain ⟨-, ht⟩ := Option.ite_none_right_eq_some.mp hs
    obtain rfl := Option.some.inj ht
    exact ⟨l, (getListener_pop ha count).trans hl, h, le_rfl⟩

end Writer

/-- What `hpcap_write_block` writes to the file: `length` bytes from the buffer offset, at a
time when the stream goes up to `reserved`. -/
structure Block where
  offset : Nat
  length : Nat
  reserved : Nat
  deriving DecidableEq

/-- Where `hpcapdd` is. A call of `hpcap_ack_wait_timeout` is two steps, the acknowledgement
and the answer to the wait. -/
inductive Pc
  | nextFile
  | filling
  | waiting
  | writing
  | lastWaiting
  | lastWriting
  | closing
  | exited
  deriving DecidableEq

/-- The queue, and an `hpcapdd` with a handle: the blocks of its open file and the files it
has closed. -/
structure State where
  queue : Poll.State
  handle : Handle
  pc : Pc
  stop : Bool
  written : Nat
  blocks : List Block
  files : List (List Block)

/-- The part of `_hpcap_do_listener_op` that acknowledges, or nothing when it aborts. -/
def acknowledge (id : Int) (s : State) (pc : Pc) : Option State :=
  if s.handle.avail < s.handle.acks then none
  else some { s with
    queue := if s.handle.acks > 0 then
        { s.queue with
          lstnr := popHandle { s.queue.lstnr with alreadyPopped := true } id s.handle.acks }
      else s.queue
    handle := { s.handle with avail := s.handle.avail - s.handle.acks, acks := 0 }
    pc := pc }

/-- The end of the wait, with or without the bytes waited for. -/
def look (id : Int) (expect : Nat) (s : State) (pc : Pc) : Option State :=
  (hpcapGetListener s.queue.lstnr id).map fun slot =>
    { s with
      handle := if usedBytes slot.2 ≥ expect then
          hpcapAdvanceRdoffTo { s.handle with avail := usedBytes slot.2 } slot.2.bufferRdOffset
        else s.handle
      pc := pc }

/-- `hpcap_write_block`, with a file and all writes succeeding. It exits when a block that
goes over the end of the buffer starts behind it. -/
def hpcapWriteBlock (bs maxBytesToWrite : Nat) (s : State) (pc : Pc) : Option State :=
  if min s.handle.avail maxBytesToWrite < bs then some { s with pc := pc }
  else if s.handle.rdoff + bs > s.handle.bufSize ∧ s.handle.rdoff > s.handle.bufSize then none
  else
    let h := hpcapAdvanceRdoffBy s.handle bs
    some { s with
      handle := { h with acks := h.acks + bs }
      written := s.written + bs
      blocks := s.blocks ++ [⟨s.handle.rdoff, bs, s.queue.rx.trace.reserved⟩]
      pc := pc }

/-- The next step of the capture loop. -/
def capture (cfg : Config) (bs : Nat) (id : Int) (s : State) : Option State :=
  match s.pc with
  | .nextFile =>
    some (if s.stop then { s with pc := .exited }
      else { s with written := 0, blocks := [], pc := .filling })
  | .filling =>
    if s.stop = false ∧ s.written < cfg.fileSize then acknowledge id s .waiting
    else if s.stop then acknowledge id s .lastWaiting
    else some { s with pc := .closing }
  | .waiting => look id bs s .writing
  | .writing =>
    if s.handle.avail ≥ bs then hpcapWriteBlock bs (cfg.fileSize - s.written) s .filling
    else some { s with pc := .filling }
  | .lastWaiting => look id 1 s .lastWriting
  | .lastWriting =>
    if s.handle.avail > 0 then hpcapWriteBlock bs (cfg.fileSize - s.written) s .closing
    else some { s with pc := .closing }
  | .closing =>
    (acknowledge id s .nextFile).map fun t => { t with blocks := [], files := s.files ++ [s.blocks] }
  | .exited => none

/-- A step of `hpcapdd`, the signal that stops it, or something done elsewhere. -/
inductive Step
  | capture
  | stop
  | op (a : Poll.Op)

def step (cfg : Config) (bs : Nat) (id : Int) (s : State) : Step → Option State
  | .capture => capture cfg bs id s
  | .stop => some { s with stop := true }
  | .op a =>
    if Elsewhere id a then (Poll.step cfg s.queue a).map fun q => { s with queue := q } else none

/-- Once the device is opened and its memory mapped. -/
def opened (cfg : Config) (q : Poll.State) (id : Int) : State where
  queue := { q with lstnr := (hpcapAddListener q.lstnr id).1 }
  handle := ⟨0, 0, 0, 0, cfg.bufSize⟩
  pc := .nextFile
  stop := false
  written := 0
  blocks := []
  files := []

def Received (s : State) : Step → Prop
  | .op a => Opening.Received s.queue a
  | _ => True

instance (s : State) : DecidablePred (Received s) := fun a => by
  unfold Received
  split <;> infer_instance

/-- The blocks are the stream from position `pos` on. -/
def Holds (n : Nat) : Nat → List Block → Prop
  | _, [] => True
  | pos, b :: bs => Stands n b.reserved b.offset pos ∧ pos + b.length ≤ b.reserved ∧
    Holds n (pos + b.length) bs

def size (blocks : List Block) : Nat := (blocks.map Block.length).sum

theorem Holds.snoc {n pos : Nat} {blocks : List Block} {b : Block} (h : Holds n pos blocks)
    (hs : Stands n b.reserved b.offset (pos + size blocks))
    (hle : pos + size blocks + b.length ≤ b.reserved) : Holds n pos (blocks ++ [b]) := by
  induction blocks generalizing pos with
  | nil => exact ⟨hs, hle, trivial⟩
  | cons c cs ih =>
    obtain ⟨hc, hcle, hrest⟩ := h
    have hsize : pos + size (c :: cs) = pos + c.length + size cs := by
      simp [size, Nat.add_assoc]
    rw [hsize] at hs hle
    exact ⟨hc, hcle, ih hrest hs hle⟩

/-- Where the stream position `joinOffset` stands for is. -/
def joinPos (q : Poll.State) : Nat :=
  if q.lstnr.listenersCount = 0 ∨ q.lstnr.alreadyPopped = false then released q
  else q.rx.trace.reserved

/-- A complete file is a file of the stream. -/
def IsFile (cfg : Config) (starts : List Nat) (blocks : List Block) : Prop :=
  size blocks = cfg.fileSize →
    ∃ pos ∈ starts, cfg.fileSize ∣ pos ∧ Holds cfg.bufSize pos blocks

/-- The handle of a listener that has acknowledged the stream up to `p`. -/
structure Reading (n p q : Nat) (h : Handle) : Prop where
  bufSize : h.bufSize = n
  rdoff_lt : h.rdoff < n
  acks_le : h.acks ≤ h.avail
  avail_le : p + h.avail ≤ q
  rdoff : 0 < h.avail → h.rdoff = (p + h.acks) % n

/-- The open file holds the stream from a file boundary up to `pos`. -/
def Filled (cfg : Config) (s : State) (pos : Nat) : Prop :=
  ∃ b, cfg.fileSize ∣ b ∧ pos = b + s.written ∧ Holds cfg.bufSize b s.blocks ∧
    size s.blocks = s.written ∧ s.written ≤ cfg.fileSize

/-- What holds at each place of the loop. -/
def Placed (cfg : Config) (s : State) (pos : Nat) : Prop :=
  match s.pc with
  | .nextFile => s.blocks = [] ∧ (s.stop = true ∨ cfg.fileSize ∣ pos)
  | .filling => Filled cfg s pos
  | .waiting | .writing => Filled cfg s pos ∧ s.handle.acks = 0
  | .lastWaiting | .lastWriting => Filled cfg s pos ∧ s.handle.acks = 0 ∧ s.stop = true
  | .closing => Filled cfg s pos ∧ (s.stop = true ∨ s.written = cfg.fileSize)
  | .exited => s.blocks = []

/-- Queue, listener, handle and files, wherever the loop is. -/
structure Core (cfg : Config) (id : Int) (s : State) (p : Nat) : Prop where
  queue : Opening.Inv cfg s.queue
  listener : ∃ j l, hpcapGetListener s.queue.lstnr id = some (j, l) ∧
    Reader cfg.bufSize p s.queue.rx.trace.reserved l
  handle : Reading cfg.bufSize p s.queue.rx.trace.reserved s.handle
  files : ∀ f ∈ s.files, ∃ b, cfg.fileSize ∣ b ∧ Holds cfg.bufSize b f ∧
    b + size f ≤ s.queue.rx.trace.reserved

def Inv (cfg : Config) (id : Int) (s : State) : Prop :=
  ∃ p, Core cfg id s p ∧ Placed cfg s (p + s.handle.acks)

section Loop

variable {cfg : Config} {bs : Nat} {id : Int} {s t : State} {p : Nat} {pc : Pc}

theorem Core.goto (h : Core cfg id s p) (pc : Pc) : Core cfg id { s with pc := pc } p :=
  ⟨h.queue, h.listener, h.handle, h.files⟩

theorem Core.acks_le (h : Core cfg id s p) : p + s.handle.acks ≤ s.queue.rx.trace.reserved := by
  have ha := h.handle.acks_le
  have hv := h.handle.avail_le
  omega

theorem Core.pos (h : Core cfg id s p) : 0 < cfg.bufSize := by
  have hr := h.handle.rdoff_lt
  omega

/-- Nothing but the acknowledgement is pending once it is made. -/
theorem Core.acknowledged (h : Core cfg id s p) (hb : cfg.bufSize ∣ cfg.fileSize)
    (hd : cfg.bufSize ∣ 2 ^ 32) (hid : id ≠ listenerEmpty) (ht : acknowledge id s pc = some t) :
    Core cfg id t (p + s.handle.acks) ∧ t = { s with queue := t.queue, handle := t.handle, pc := pc } ∧
      t.handle.acks = 0 ∧ t.queue.rx = s.queue.rx := by
  obtain ⟨j, l, hl, hr⟩ := h.listener
  have hle := h.acks_le
  have hacks := h.handle.acks_le
  have havail := h.handle.avail_le
  obtain ⟨-, ht⟩ := Option.ite_none_left_eq_some.mp ht
  obtain rfl := Option.some.inj ht
  have hread : Reading cfg.bufSize (p + s.handle.acks) s.queue.rx.trace.reserved
      { s.handle with avail := s.handle.avail - s.handle.acks, acks := 0 } := by
    refine ⟨h.handle.bufSize, h.handle.rdoff_lt, Nat.zero_le _, ?_, fun hpos => ?_⟩
    · change p + s.handle.acks + (s.handle.avail - s.handle.acks) ≤ _
      omega
    · exact h.handle.rdoff (Nat.lt_of_lt_of_le hpos (Nat.sub_le _ _))
  by_cases hpos : s.handle.acks > 0
  · rw [if_pos hpos]
    have hstep : Poll.step cfg s.queue (.ack id s.handle.acks) = some { s.queue with
        lstnr := popHandle { s.queue.lstnr with alreadyPopped := true } id s.handle.acks } :=
      if_pos ⟨hid, by rw [hl]; rfl, hpos⟩
    have hat : At cfg.bufSize (p + min s.handle.acks (s.queue.rx.trace.reserved - p))
        s.queue.rx.trace.reserved (hpcapPopListener l s.handle.acks).1 :=
      hr.toAt.pop hr.le hr.fits
    rw [Nat.min_eq_left (by omega)] at hat
    have hreader : Reader cfg.bufSize (p + s.handle.acks) s.queue.rx.trace.reserved
        (hpcapPopListener l s.handle.acks).1 := by
      have hfits := hr.fits
      exact ⟨hat, hle, by omega⟩
    have hok : Opening.Received s.queue (.ack id s.handle.acks) := trivial
    refine ⟨⟨h.queue.step hb hd hok hstep, ⟨j, _, ?_, hreader⟩, hread, h.files⟩, rfl, rfl, rfl⟩
    exact getListener_popSelf (t := { s.queue.lstnr with alreadyPopped := true }) hl s.handle.acks
  · rw [if_neg hpos]
    have hzero : s.handle.acks = 0 := Nat.eq_zero_of_not_pos hpos
    refine ⟨⟨h.queue, ⟨j, l, hl, ?_⟩, hread, h.files⟩, rfl, rfl, rfl⟩
    rw [hzero]
    exact hr

theorem Core.looked (h : Core cfg id s p) (hd : cfg.bufSize ∣ 2 ^ 32) {expect : Nat}
    (hacks : s.handle.acks = 0) (ht : look id expect s pc = some t) :
    Core cfg id t p ∧ t = { s with handle := t.handle, pc := pc } ∧ t.handle.acks = 0 := by
  obtain ⟨j, l, hl, hr⟩ := h.listener
  obtain ⟨slot, hslot, rfl⟩ := Option.map_eq_some_iff.mp ht
  obtain rfl := Option.some.inj (hl.symm.trans hslot)
  have hle := hr.le
  have hmax : cfg.bufSize ≤ 2 ^ 32 := Nat.le_of_dvd (by norm_num) hd
  by_cases hfound : usedBytes l ≥ expect
  · rw [if_pos hfound]
    have hoff : l.bufferRdOffset < cfg.bufSize := by
      rw [hr.rd]
      exact Nat.mod_lt _ h.pos
    have hrdoff : (hpcapAdvanceRdoffTo { s.handle with avail := usedBytes l }
        l.bufferRdOffset).rdoff = l.bufferRdOffset := by
      refine advanceRdoffTo_rdoff ?_ ?_ ?_
      · rw [h.handle.bufSize]
        exact hmax.trans (by norm_num)
      · rw [h.handle.bufSize]
        exact h.handle.rdoff_lt
      · rw [h.handle.bufSize]
        exact hoff
    refine ⟨⟨h.queue, ⟨j, l, hl, hr⟩, ⟨h.handle.bufSize, ?_, ?_, ?_, fun _ => ?_⟩, h.files⟩, rfl,
      hacks⟩
    · rw [hrdoff]
      exact hoff
    · change s.handle.acks ≤ usedBytes l
      omega
    · change p + usedBytes l ≤ s.queue.rx.trace.reserved
      rw [hr.used]
      omega
    · rw [hrdoff, hr.rd]
      change p % _ = (p + s.handle.acks) % _
      rw [hacks, Nat.add_zero]
  · rw [if_neg hfound]
    exact ⟨h.goto pc, rfl, hacks⟩

/-- A block is the stream that follows what the file holds. -/
theorem Core.writeBlock (h : Core cfg id s p) (hd : cfg.bufSize ∣ 2 ^ 32) (hbs : 0 < bs)
    (hacks : s.handle.acks = 0) (hfilled : Filled cfg s p)
    (ht : hpcapWriteBlock bs (cfg.fileSize - s.written) s pc = some t) :
    Core cfg id t p ∧ Filled cfg t (p + t.handle.acks) ∧ t.pc = pc ∧ t.stop = s.stop := by
  rw [hpcapWriteBlock] at ht
  by_cases hready : min s.handle.avail (cfg.fileSize - s.written) < bs
  · rw [if_pos hready] at ht
    obtain rfl := Option.some.inj ht
    refine ⟨h.goto pc, ?_, rfl, rfl⟩
    dsimp only
    rw [hacks]
    exact hfilled
  rw [if_neg hready] at ht
  obtain ⟨-, ht⟩ := Option.ite_none_left_eq_some.mp ht
  obtain rfl := Option.some.inj ht
  obtain ⟨j, l, hl, hr⟩ := h.listener
  have havail := h.handle.avail_le
  have hfits := hr.fits
  have hlt := h.handle.rdoff_lt
  have hmax : cfg.bufSize ≤ 2 ^ 32 := Nat.le_of_dvd (by norm_num) hd
  have hrdoff := h.handle.rdoff (by omega)
  rw [hacks, Nat.add_zero] at hrdoff
  have hadd : add64 s.handle.rdoff bs = s.handle.rdoff + bs := add64_small (by omega)
  have hmove : (hpcapAdvanceRdoffBy s.handle bs).rdoff = (p + bs) % cfg.bufSize := by
    change add64 s.handle.rdoff bs % s.handle.bufSize = _
    rw [hadd, h.handle.bufSize, hrdoff, Nat.mod_add_mod]
  refine ⟨⟨h.queue, ⟨j, l, hl, hr⟩, ⟨h.handle.bufSize, ?_, ?_, havail, fun _ => ?_⟩, h.files⟩, ?_,
    rfl, rfl⟩
  · change (hpcapAdvanceRdoffBy s.handle bs).rdoff < _
    rw [hmove]
    exact Nat.mod_lt _ h.pos
  · change s.handle.acks + bs ≤ s.handle.avail
    omega
  · change (hpcapAdvanceRdoffBy s.handle bs).rdoff = (p + (s.handle.acks + bs)) % _
    rw [hmove, hacks, Nat.zero_add]
  · obtain ⟨b, hdvd, hp, hholds, hsize, hwritten⟩ := hfilled
    refine ⟨b, hdvd, ?_, hholds.snoc ⟨?_, ?_, ?_⟩ ?_, ?_, ?_⟩
    · change p + (s.handle.acks + bs) = b + (s.written + bs)
      omega
    · rw [hsize, ← hp]
      exact hrdoff
    · dsimp only
      rw [hsize, ← hp]
      exact hr.le
    · dsimp only
      rw [hsize, ← hp]
      exact hfits
    · dsimp only
      omega
    · simp only [size, List.map_append, List.sum_append, List.map_singleton, List.sum_singleton]
      rw [← hsize, size]
    · change s.written + bs ≤ cfg.fileSize
      omega

/-- An acknowledgement leaves the open file as it is. -/
theorem Core.acknowledged_filled (h : Core cfg id s p) (hb : cfg.bufSize ∣ cfg.fileSize)
    (hd : cfg.bufSize ∣ 2 ^ 32) (hid : id ≠ listenerEmpty)
    (hfilled : Filled cfg s (p + s.handle.acks)) (ht : acknowledge id s pc = some t) :
    ∃ p', Core cfg id t p' ∧ Filled cfg t (p' + t.handle.acks) ∧ t.handle.acks = 0 ∧ t.pc = pc ∧
      t.stop = s.stop := by
  obtain ⟨hcore, he, hacks, -⟩ := h.acknowledged hb hd hid ht
  refine ⟨_, hcore, ?_, hacks, by rw [he], by rw [he]⟩
  rw [hacks, he]
  exact hfilled

/-- So does the end of a wait. -/
theorem Core.looked_filled (h : Core cfg id s p) (hd : cfg.bufSize ∣ 2 ^ 32) {expect : Nat}
    (hacks : s.handle.acks = 0) (hfilled : Filled cfg s (p + s.handle.acks))
    (ht : look id expect s pc = some t) :
    Core cfg id t p ∧ Filled cfg t (p + t.handle.acks) ∧ t.handle.acks = 0 ∧ t.pc = pc ∧
      t.stop = s.stop := by
  obtain ⟨hcore, he, hacks'⟩ := h.looked hd hacks ht
  refine ⟨hcore, ?_, hacks', by rw [he], by rw [he]⟩
  rw [hacks] at hfilled
  rw [hacks', he]
  exact hfilled

/-- A file that is closed is a stretch of the stream from a file boundary on. -/
theorem Core.closed (h : Core cfg id s p) (hb : cfg.bufSize ∣ cfg.fileSize)
    (hd : cfg.bufSize ∣ 2 ^ 32) (hid : id ≠ listenerEmpty)
    (hfilled : Filled cfg s (p + s.handle.acks)) (hdone : s.stop = true ∨ s.written = cfg.fileSize)
    (ht : acknowledge id s .nextFile = some t) :
    Inv cfg id { t with blocks := [], files := s.files ++ [s.blocks] } := by
  obtain ⟨b, hdvd, hpos, hholds, hsize, hwritten⟩ := hfilled
  have hle := h.acks_le
  obtain ⟨hcore, he, hacks, hrx⟩ := h.acknowledged hb hd hid ht
  refine ⟨_, ⟨hcore.queue, hcore.listener, hcore.handle, fun f hf => ?_⟩, ?_⟩
  · obtain hf | hf := List.mem_append.mp hf
    · obtain ⟨b, hbd, hbh, hbs⟩ := h.files f hf
      exact ⟨b, hbd, hbh, hrx ▸ hbs⟩
    · obtain rfl := List.mem_singleton.mp hf
      refine ⟨b, hdvd, hholds, ?_⟩
      rw [hrx, hsize, ← hpos]
      exact hle
  · rw [he] at hacks ⊢
    dsimp only at hacks ⊢
    rw [hacks, Nat.add_zero]
    refine ⟨rfl, hdone.imp_right fun hw => ?_⟩
    rw [hpos, hw]
    exact Nat.dvd_add hdvd (Nat.dvd_refl _)

theorem Core.placed (h : Core cfg id s p) (hb : cfg.bufSize ∣ cfg.fileSize)
    (hd : cfg.bufSize ∣ 2 ^ 32) (hbs : 0 < bs) (hid : id ≠ listenerEmpty)
    (hp : Placed cfg s (p + s.handle.acks)) (ht : capture cfg bs id s = some t) :
    Inv cfg id t := by
  obtain ⟨queue, handle, pc, stop, written, blocks, files⟩ := s
  cases pc with
  | nextFile =>
    obtain ⟨hempty, hstart⟩ := hp
    by_cases hstop : stop = true
    · have ht : some _ = some t := (congrArg some (if_pos hstop)).symm.trans ht
      obtain rfl := Option.some.inj ht
      exact ⟨p, h.goto .exited, hempty⟩
    · have ht : some _ = some t := (congrArg some (if_neg hstop)).symm.trans ht
      obtain rfl := Option.some.inj ht
      have hdvd := hstart.resolve_left hstop
      exact ⟨p, ⟨h.queue, h.listener, h.handle, h.files⟩, _, hdvd, rfl, trivial, rfl, Nat.zero_le _⟩
  | filling =>
    have hfilled : Filled cfg _ _ := hp
    by_cases hmore : stop = false ∧ written < cfg.fileSize
    · have ht : acknowledge id _ .waiting = some t := (if_pos hmore).symm.trans ht
      obtain ⟨p', hcore, hfilled', hacks, hpc, -⟩ := h.acknowledged_filled hb hd hid hfilled ht
      refine ⟨p', hcore, ?_⟩
      rw [Placed, hpc]
      exact ⟨hfilled', hacks⟩
    by_cases hstop : stop = true
    · have ht : acknowledge id _ .lastWaiting = some t :=
        ((if_neg hmore).trans (if_pos hstop)).symm.trans ht
      obtain ⟨p', hcore, hfilled', hacks, hpc, hstop'⟩ :=
        h.acknowledged_filled hb hd hid hfilled ht
      refine ⟨p', hcore, ?_⟩
      rw [Placed, hpc]
      exact ⟨hfilled', hacks, hstop'.trans hstop⟩
    · have ht := ((if_neg hmore).trans (if_neg hstop)).symm.trans ht
      obtain rfl := Option.some.inj ht
      obtain ⟨b, hdvd, hpos, hholds, hsize, hwritten⟩ := hfilled
      have hstop : stop = false := Bool.not_eq_true _ |>.mp hstop
      have hle : cfg.fileSize ≤ written := Nat.not_lt.mp fun hlt => hmore ⟨hstop, hlt⟩
      exact ⟨p, h.goto .closing, ⟨b, hdvd, hpos, hholds, hsize, hwritten⟩,
        .inr (Nat.le_antisymm hwritten hle)⟩
  | waiting =>
    obtain ⟨hfilled, hacks⟩ := hp
    obtain ⟨hcore, hfilled', hacks', hpc, -⟩ := h.looked_filled hd hacks hfilled ht
    refine ⟨p, hcore, ?_⟩
    rw [Placed, hpc]
    exact ⟨hfilled', hacks'⟩
  | writing =>
    obtain ⟨hfilled, hacks⟩ := hp
    by_cases hready : handle.avail ≥ bs
    · have ht : hpcapWriteBlock bs _ _ .filling = some t := (if_pos hready).symm.trans ht
      rw [hacks] at hfilled
      obtain ⟨hcore, hfilled', hpc, -⟩ := h.writeBlock hd hbs hacks hfilled ht
      refine ⟨p, hcore, ?_⟩
      rw [Placed, hpc]
      exact hfilled'
    · obtain rfl := Option.some.inj ((if_neg hready).symm.trans ht)
      exact ⟨p, h.goto .filling, hfilled⟩
  | lastWaiting =>
    obtain ⟨hfilled, hacks, hstop⟩ := hp
    obtain ⟨hcore, hfilled', hacks', hpc, hstop'⟩ := h.looked_filled hd hacks hfilled ht
    refine ⟨p, hcore, ?_⟩
    rw [Placed, hpc]
    exact ⟨hfilled', hacks', hstop'.trans hstop⟩
  | lastWriting =>
    obtain ⟨hfilled, hacks, hstop⟩ := hp
    by_cases hready : handle.avail > 0
    · have ht : hpcapWriteBlock bs _ _ .closing = some t := (if_pos hready).symm.trans ht
      rw [hacks] at hfilled
      obtain ⟨hcore, hfilled', hpc, hstop'⟩ := h.writeBlock hd hbs hacks hfilled ht
      refine ⟨p, hcore, ?_⟩
      rw [Placed, hpc]
      exact ⟨hfilled', .inl (hstop'.trans hstop)⟩
    · obtain rfl := Option.some.inj ((if_neg hready).symm.trans ht)
      exact ⟨p, h.goto .closing, hfilled, .inl hstop⟩
  | closing =>
    obtain ⟨hfilled, hdone⟩ := hp
    obtain ⟨u, hu, rfl⟩ := Option.map_eq_some_iff.mp ht
    exact h.closed hb hd hid hfilled hdone hu
  | exited => cases ht

theorem Inv.step (hb : cfg.bufSize ∣ cfg.fileSize) (hd : cfg.bufSize ∣ 2 ^ 32) (hbs : 0 < bs)
    (hid : id ≠ listenerEmpty) {a : Step} (h : Inv cfg id s) (ha : Received s a)
    (hs : step cfg bs id s a = some t) : Inv cfg id t := by
  obtain ⟨p, hcore, hp⟩ := h
  cases a with
  | capture => exact hcore.placed hb hd hbs hid hp hs
  | stop =>
    obtain rfl := Option.some.inj hs
    refine ⟨p, ⟨hcore.queue, hcore.listener, hcore.handle, hcore.files⟩, ?_⟩
    obtain ⟨queue, handle, pc, stop, written, blocks, files⟩ := s
    cases pc with
    | nextFile => exact ⟨hp.1, .inl rfl⟩
    | filling => exact hp
    | waiting | writing => exact hp
    | lastWaiting | lastWriting => exact ⟨hp.1, hp.2.1, rfl⟩
    | closing => exact ⟨hp.1, .inl rfl⟩
    | exited => exact hp
  | op a =>
    obtain ⟨helse, hs⟩ := Option.ite_none_right_eq_some.mp hs
    obtain ⟨q, hq, rfl⟩ := Option.map_eq_some_iff.mp hs
    obtain ⟨j, l, hl, hr⟩ := hcore.listener
    obtain ⟨m, hm, hrm, hle⟩ := hr.step hd hcore.queue.queue hid hl helse hq
    have hh := hcore.handle
    refine ⟨p, ⟨hcore.queue.step hb hd ha hq, ⟨j, m, hm, hrm⟩,
      ⟨hh.bufSize, hh.rdoff_lt, hh.acks_le, hh.avail_le.trans hle, hh.rdoff⟩, fun f hf => ?_⟩, hp⟩
    obtain ⟨b, hdvd, hholds, hbs⟩ := hcore.files f hf
    exact ⟨b, hdvd, hholds, hbs.trans hle⟩

end Loop

theorem joinOffset_stands {cfg : Config} {q : Poll.State} (h : Poll.Inv cfg q) :
    Stands cfg.bufSize q.rx.trace.reserved (joinOffset q.lstnr) (joinPos q) := by
  obtain ⟨hrd, hwr⟩ := global_stands h
  simp only [joinOffset, joinPos]
  split
  · exact hrd
  · exact hwr

/-- The device is opened. -/
theorem opened_core {cfg : Config} (hb : cfg.bufSize ∣ cfg.fileSize) (hd : cfg.bufSize ∣ 2 ^ 32)
    {q : Poll.State} {id : Int} (h : Opening.Inv cfg q) (hid : id ≠ listenerEmpty)
    (hnew : hpcapGetListener q.lstnr id = none) (hslot : (joinSlot q.lstnr id).isSome) :
    Core cfg id (opened cfg q id) (joinPos q) := by
  have hstep : Poll.step cfg q (.add id) =
      some { q with lstnr := (hpcapAddListener q.lstnr id).1 } := if_pos ⟨hid, hnew⟩
  have hq := h.step hb hd (show Opening.Received q (.add id) from trivial) hstep
  have hstands := joinOffset_stands h.queue
  obtain ⟨hn, -⟩ | ⟨i, m, -, hm, -, hempty, he⟩ := add_cases q.lstnr id
  · rw [hn] at hslot
    cases hslot
  have hlt := (List.getElem?_eq_some_iff.mp hm).1
  obtain ⟨j, l, hl⟩ : ∃ j l, hpcapGetListener (hpcapAddListener q.lstnr id).1 id = some (j, l) := by
    have hsome : (hpcapGetListener (hpcapAddListener q.lstnr id).1 id).isSome := by
      rw [he]
      exact findSlot_isSome (List.mem_set hlt _) (decide_eq_true rfl)
    obtain ⟨⟨j, l⟩, hl⟩ := Option.isSome_iff_exists.mp hsome
    exact ⟨j, l, hl⟩
  obtain ⟨-, r, hr, -⟩ := registered_reader hq.queue hid hl
  have hrd : l.bufferRdOffset = joinOffset q.lstnr := by
    obtain ⟨hget, hlid⟩ := findSlot_some hl
    rw [he] at hget
    by_cases hij : i = j
    · subst hij
      rw [List.getElem?_set_self hlt] at hget
      cases hget
      rfl
    · rw [List.getElem?_set_ne hij] at hget
      have hsome := findSlot_isSome (p := fun l => l.id = id) (List.mem_of_getElem? hget) hlid
      rw [← hpcapGetListener, hnew] at hsome
      cases hsome
  have hpos : r = joinPos q := (hrd ▸ hr.stands).unique hstands
  subst hpos
  have hn : 0 < cfg.bufSize := by
    have hle := hr.le
    have hfits := hr.fits
    omega
  refine ⟨hq, ⟨j, l, hl, hr⟩, ⟨rfl, hn, le_rfl, hr.le, ?_⟩, ?_⟩
  · exact fun h0 => absurd h0 (Nat.lt_irrefl 0)
  · exact fun f hf => absurd hf List.not_mem_nil

/-- The device is opened at a file boundary of the stream. -/
theorem opened_inv {cfg : Config} (hb : cfg.bufSize ∣ cfg.fileSize) (hd : cfg.bufSize ∣ 2 ^ 32)
    {q : Poll.State} {id : Int} (h : Opening.Inv cfg q) (hid : id ≠ listenerEmpty)
    (hnew : hpcapGetListener q.lstnr id = none) (hslot : (joinSlot q.lstnr id).isSome)
    (hfile : cfg.fileSize ∣ joinPos q) : Inv cfg id (opened cfg q id) :=
  ⟨joinPos q, opened_core hb hd h hid hnew hslot, rfl, .inr hfile⟩

/-- If the device is opened at a file boundary of the stream, all complete files are files
of the stream. -/
theorem complete_files_line_up (cfg : Config) (hb : cfg.bufSize ∣ cfg.fileSize)
    (hd : cfg.bufSize ∣ 2 ^ 32) (hfs : 0 < cfg.fileSize) (bs : Nat) (hbs : 0 < bs)
    (buf : Nat → UInt8) (q : Poll.State)
    (hq : Reach (Poll.step cfg) Opening.Received (fun t => t = Poll.init cfg buf) q)
    (id : Int) (hid : id ≠ listenerEmpty) (hnew : hpcapGetListener q.lstnr id = none)
    (hslot : (joinSlot q.lstnr id).isSome) (hfile : cfg.fileSize ∣ joinPos q) (s : State)
    (h : Reach (step cfg bs id) Received (fun t => t = opened cfg q id) s)
    (hsound : Sound cfg s.queue.rx.trace) :
    ∃ base starts, LaidTo cfg base s.queue.rx.dstBuf s.queue.rx.trace
      s.queue.rx.trace.reserved starts ∧ ∀ f ∈ s.blocks :: s.files, IsFile cfg starts f := by
  obtain ⟨p, hcore, hp⟩ : Inv cfg id s := by
    refine h.invariant (Inv cfg id) ?_ fun _ _ _ hu ha hs => hu.step hb hd hbs hid ha hs
    rintro t rfl
    exact opened_inv hb hd (reach_inv hb hd hq) hid hnew hslot hfile
  obtain ⟨base, hready⟩ := hcore.queue.ready
  obtain ⟨-, starts, hl⟩ := hready hsound
  have hstart : ∀ b, cfg.fileSize ∣ b → b < s.queue.rx.trace.reserved → b ∈ starts := by
    rintro b ⟨k, rfl⟩ hlt
    rw [Nat.mul_comm] at hlt ⊢
    exact hl.atFile k hlt
  have hfull : ∀ f b, cfg.fileSize ∣ b → Holds cfg.bufSize b f →
      b + size f ≤ s.queue.rx.trace.reserved → IsFile cfg starts f := by
    intro f b hdvd hholds hle hsize
    exact ⟨b, hstart b hdvd (by omega), hdvd, hholds⟩
  refine ⟨base, starts, hl, fun f hf => ?_⟩
  cases hf with
  | head =>
    have hempty : s.blocks = [] → IsFile cfg starts s.blocks := by
      intro he hsize
      rw [he] at hsize
      exact absurd hsize (Nat.ne_of_lt hfs)
    have hopen : Filled cfg s (p + s.handle.acks) → IsFile cfg starts s.blocks := by
      rintro ⟨b, hdvd, hpos, hholds, hsize, -⟩
      refine hfull _ b hdvd hholds ?_
      rw [hsize, ← hpos]
      exact hcore.acks_le
    simp only [Placed] at hp
    split at hp
    · exact hempty hp.1
    · exact hopen hp
    · exact hopen hp.1
    · exact hopen hp.1
    · exact hopen hp.1
    · exact hopen hp.1
    · exact hopen hp.1
    · exact hempty hp
  | tail _ hf =>
    obtain ⟨b, hdvd, hholds, hle⟩ := hcore.files f hf
    exact hfull f b hdvd hholds hle

/-- Files of two blocks, and a buffer of the same size. -/
def tiny : Config := ⟨64, 64, 0, false, []⟩

/-- A file is captured from the first record on. -/
def firstCapture : List Step :=
  [.op (.poll [frameOf 8, frameOf 8]), .capture, .capture, .capture, .capture, .capture,
    .op (.poll []), .op (.poll [frameOf 12]), .capture, .capture, .capture, .capture]

theorem complete_files_line_up_first :
    ∃ s base starts f, run (guard (step tiny 32 1) Received) (opened tiny (Poll.init tiny blank) 1)
        firstCapture = some s ∧
      LaidTo tiny base s.queue.rx.dstBuf s.queue.rx.trace s.queue.rx.trace.reserved starts ∧
      f ∈ s.files ∧ size f = 64 ∧ IsFile tiny starts f := by
  have hrun : (run (guard (step tiny 32 1) Received) (opened tiny (Poll.init tiny blank) 1)
      firstCapture).map (fun s => (decide (Sound tiny s.queue.rx.trace), s.files.head?.map size)) =
        some (true, some 64) := by
    decide +kernel
  obtain ⟨s, hs, he⟩ := Option.map_eq_some_iff.mp hrun
  simp only [Prod.mk.injEq, decide_eq_true_eq] at he
  obtain ⟨hsound, he⟩ := he
  obtain ⟨f, hf, hsize⟩ := Option.map_eq_some_iff.mp he
  obtain ⟨base, starts, hl, hfiles⟩ := complete_files_line_up tiny (by decide) (by decide)
    (by decide) 32 (by decide) blank (Poll.init tiny blank) (.start rfl) 1 (by decide) rfl rfl
    (by decide) s (.run_guard (.start rfl) hs) hsound
  have hmem := List.mem_of_mem_head? hf
  exact ⟨s, base, starts, f, hs, hl, hmem, hsize, hfiles f (List.mem_cons_of_mem _ hmem)⟩

/-- Another listener has acknowledged a record of 20 bytes. -/
def beforeCapture : List Poll.Op := [.add 1, .poll [frameOf 8], .ack 1 20, .poll []]

/-- Two files are captured, from stream positions 20 and 84. -/
def lateCapture : List Step :=
  [.capture, .op (.poll [frameOf 8]), .op (.ack 1 20), .op (.poll []), .op (.poll [frameOf 12]),
    .op (.ack 1 24), .capture, .capture, .capture, .capture, .op (.poll []),
    .op (.poll [frameOf 20]), .op (.ack 1 32), .op (.poll []), .capture, .capture, .capture,
    .capture, .capture, .capture, .capture, .op (.poll []), .op (.poll []), .op (.poll [frameOf 8]),
    .op (.ack 1 20), .op (.poll []), .op (.poll [frameOf 12]), .op (.ack 1 24), .capture, .capture,
    .capture, .capture, .capture, .op (.poll []), .op (.poll [frameOf 12]), .op (.ack 1 64),
    .capture, .capture, .capture, .capture, .capture]

theorem later_file_inside_record :
    ∃ q s f, Reach (Poll.step tiny) Opening.Received (fun t => t = Poll.init tiny blank) q ∧
      Reach (step tiny 32 2) Received (fun t => t = opened tiny q 2) s ∧
      Sound tiny s.queue.rx.trace ∧ f ∈ s.files ∧ size f = 64 ∧
      ∀ starts, Tiles (recordStop (stream s.queue.rx.trace.writes)) 0 s.queue.rx.trace.reserved
        starts → ¬ ∃ pos ∈ starts, Holds 64 pos f := by
  have hrun : ((run (guard (Poll.step tiny) Opening.Received) (Poll.init tiny blank)
      beforeCapture).bind fun q => (run (guard (step tiny 32 2) Received) (opened tiny q 2)
        lateCapture).map fun s =>
          (decide (Sound tiny s.queue.rx.trace), s.files[1]?, s.queue.rx.trace.reserved,
            [0, 20, 40, 64].map (recordStop (stream s.queue.rx.trace.writes)))) =
      some (true, some [⟨20, 32, 116⟩, ⟨52, 32, 164⟩], 164, [20, 40, 64, 96]) := by
    decide +kernel
  obtain ⟨q, hq, hrun⟩ := Option.bind_eq_some_iff.mp hrun
  obtain ⟨s, hs, he⟩ := Option.map_eq_some_iff.mp hrun
  simp only [List.map_cons, List.map_nil, Prod.mk.injEq, decide_eq_true_eq, List.cons.injEq,
    and_true] at he
  obtain ⟨hsound, hf, hres, h₀, h₂₀, h₄₀, h₆₄⟩ := he
  refine ⟨q, s, _, .run_guard (.start rfl) hq, .run_guard (.start rfl) hs, hsound,
    List.mem_of_getElem? hf, rfl, fun starts ht => ?_⟩
  rintro ⟨pos, hmem, ⟨hoff, hle, hfits⟩, -⟩
  have hpos : pos = 84 := by
    dsimp only at hoff hle hfits
    omega
  subst hpos
  rw [hres] at ht
  obtain ⟨-, -, ps, ht₁, rfl⟩ := ht.step (by decide)
  rw [h₀] at ht₁
  obtain ⟨-, -, ps, ht₂, rfl⟩ := ht₁.step (by decide)
  rw [h₂₀] at ht₂
  obtain ⟨-, -, ps, ht₃, rfl⟩ := ht₂.step (by decide)
  rw [h₄₀] at ht₃
  obtain ⟨-, -, ps, ht₄, rfl⟩ := ht₃.step (by decide)
  rw [h₆₄] at ht₄
  have hrest : 84 ∈ ps → 96 ≤ 84 := fun h => (ht₄.mem h).1
  simp only [List.mem_cons] at hmem
  obtain h | h | h | h | h := hmem
  · cases h
  · cases h
  · cases h
  · cases h
  · exact absurd (hrest h) (by decide)

end Hpcap.Capture
