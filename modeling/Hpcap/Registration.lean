import Hpcap.Listeners

namespace Hpcap.Registration

open Hpcap.Listeners
open Hpcap.Reservation (pageSize hpcapBufSize)

abbrev hpcapBufDsize : Nat := 4 * 1024 * 1024

abbrev hpcapMaxRxq : Nat := 16

abbrev hpcapDefaultMode : Nat := 1

abbrev hpcapDefaultPagesPerAdapter : Nat := 1000

/-- `OPTION_UNSET`, read as an `unsigned int`. -/
abbrev optionUnset : Nat := 2 ^ 32 - 1

/-- An option of type `range_option`. -/
structure HpcapOption where
  default : Nat
  min : Nat
  max : Nat

def hpcapValidateOption (value : Nat) (opt : HpcapOption) : Nat :=
  if value = optionUnset then opt.default
  else if opt.min ≤ value ∧ value ≤ opt.max ∨ value = opt.default then value
  else opt.default

/-- The module parameters of one adapter, those that were given. -/
structure Params where
  rxq : Option Nat
  mode : Option Nat
  pages : Option Nat

structure Adapter where
  bdNumber : Nat
  workMode : Nat
  bufpages : Nat
  numRxQueues : Nat

def rxqOption : HpcapOption := ⟨1, 0, hpcapMaxRxq⟩

def modeOption : HpcapOption := ⟨hpcapDefaultMode, 1, 2⟩

def pagesOption : HpcapOption := ⟨hpcapDefaultPagesPerAdapter, 1, hpcapBufSize / pageSize⟩

def hpcapParseOpts (numOnlineCpus bd : Nat) (p : Params) : Adapter where
  bdNumber := bd
  numRxQueues :=
    match p.rxq.getD rxqOption.default with
    | 0 => min hpcapMaxRxq numOnlineCpus
    | rxq => hpcapValidateOption rxq rxqOption
  workMode :=
    match p.mode with
    | none => modeOption.default
    | some mode => hpcapValidateOption mode modeOption
  bufpages :=
    match p.pages with
    | none => pagesOption.default
    | some pages => hpcapValidateOption pages pagesOption

def isHpcapAdapter (a : Adapter) : Prop := a.workMode = 2

instance (a : Adapter) : Decidable (isHpcapAdapter a) := inferInstanceAs (Decidable (_ = _))

/-- What a pointer to a buffer points to: into `auxBufs`, to memory of `kmalloc_node`, or to
pages that `vm_map_ram` made contiguous. -/
inductive Memory
  | auxBufs (start : Nat)
  | kmalloc (addr bytes : Nat)
  | remapped (addr npages : Nat)
  deriving DecidableEq

/-- `struct hpcap_buf`, as far as the memory of the buffer goes. -/
structure HpcapBuf where
  adapter : Nat
  queue : Nat
  bufferCopia : Option Memory
  bufSize : Nat
  oldBuffer : Option Memory
  oldBufSize : Nat
  hugePages : Option Nat
  hugePagesNum : Nat
  hugePagesFile : List Char
  lstnr : Table

/-- The offset in its page of an address. -/
def getBufOffset (phys : Nat) : Nat := phys - phys / pageSize * pageSize

/-- The structure is zeroed before. Without memory it is left half done. -/
def hpcapBufInit (auxBufs adapter queue size bufoffset : Nat) (kmalloc : Option Nat) :
    Int × HpcapBuf :=
  let offset := pageSize - getBufOffset auxBufs
  let bufferCopia := if size = 0 then kmalloc.map fun addr => Memory.kmalloc addr hpcapBufDsize
    else some (.auxBufs (offset + bufoffset))
  let bufSize := if size = 0 then hpcapBufDsize else size
  let bufp : HpcapBuf := ⟨adapter, queue, bufferCopia, bufSize, none, 0, none, 0, [], hpcapInitListeners 0⟩
  if bufferCopia = none then (-1, bufp)
  else (0, { bufp with lstnr := hpcapInitListeners bufSize })

/-- What the kernel answers while one queue is set up, and whether its ring exists. -/
structure Reply where
  kzalloc : Bool
  registerChrdevRegion : Int
  kmalloc : Option Nat
  cdevAdd : Int
  ring : Bool

/-- One pass of the loop of `hpcap_register_chardev`: the result so far, and the buffers
that were initialised. -/
def registerQueue (auxBufs : Nat) (a : Adapter) (size offset : Nat) (replies : Nat → Reply)
    (acc : Int × List HpcapBuf) (i : Nat) : Int × List HpcapBuf :=
  let reply := replies i
  if !reply.kzalloc then (-1, acc.2)
  else if reply.registerChrdevRegion ≠ 0 then (-1, acc.2)
  else
    let bufs := acc.2 ++ [(hpcapBufInit auxBufs a.bdNumber i size offset reply.kmalloc).2]
    if reply.cdevAdd < 0 then (-1, bufs)
    else if !reply.ring then (-1, bufs)
    else (reply.cdevAdd, bufs)

def hpcapRegisterChardev (auxBufs : Nat) (a : Adapter) (size offset : Nat) (replies : Nat → Reply) :
    Int × List HpcapBuf :=
  (List.range a.numRxQueues).foldl (registerQueue auxBufs a size offset replies) (0, [])

/-- `hpcap_register_adapters` from a given offset on: the buffers, if it returns 0. -/
def hpcapRegisterAdapters (auxBufs : Nat) :
    Nat → List (Adapter × (Nat → Reply)) → Option (List HpcapBuf)
  | _, [] => some []
  | offset, (a, replies) :: rest =>
    if isHpcapAdapter a then
      let adapterBufsize := a.bufpages * pageSize
      let adapterBufsizePerRxq := adapterBufsize / a.numRxQueues
      if adapterBufsize + offset > hpcapBufSize then none
      else
        let made := hpcapRegisterChardev auxBufs a adapterBufsizePerRxq offset replies
        if made.1 ≠ 0 then none
        else (hpcapRegisterAdapters auxBufs (offset + adapterBufsize) rest).map (made.2 ++ ·)
    else hpcapRegisterAdapters auxBufs offset rest

/-- The queues of the adapter that get as far as a buffer. -/
def queuesSetUp (a : Adapter) (replies : Nat → Reply) : Nat :=
  (List.range a.numRxQueues).countP fun i =>
    (replies i).kzalloc && decide ((replies i).registerChrdevRegion = 0)

/-- The buffer has the byte `x` of `auxBufs`. -/
def Covers (b : HpcapBuf) (x : Nat) : Prop :=
  ∃ start, b.bufferCopia = some (.auxBufs start) ∧ start ≤ x ∧ x < start + b.bufSize

def Apart (b b' : HpcapBuf) : Prop := ∀ x, ¬ (Covers b x ∧ Covers b' x)

/-- The buffer lies in the given part of `auxBufs`. -/
def Within (lo hi : Nat) (b : HpcapBuf) : Prop :=
  ∃ start, b.bufferCopia = some (.auxBufs start) ∧ lo ≤ start ∧ start + b.bufSize ≤ hi

abbrev auxBufsSize : Nat := pageSize + hpcapBufSize

variable {auxBufs : Nat} {a : Adapter} {replies : Nat → Reply} {size offset lo hi : Nat}
  {b b' : HpcapBuf}

theorem Within.mono {lo' hi' : Nat} (h : Within lo hi b) (hlo : lo' ≤ lo) (hhi : hi ≤ hi') :
    Within lo' hi' b := by
  obtain ⟨start, hstart, hge, hle⟩ := h
  exact ⟨start, hstart, hlo.trans hge, hle.trans hhi⟩

theorem Within.apart {lo' hi' : Nat} (h : Within lo hi b) (h' : Within lo' hi' b') (hle : hi ≤ lo') :
    Apart b b' := by
  obtain ⟨start, hstart, -, hend⟩ := h
  obtain ⟨start', hstart', hbegin, -⟩ := h'
  rintro x ⟨⟨t, ht, -, hlt⟩, ⟨t', ht', hge, -⟩⟩
  obtain rfl := Memory.auxBufs.inj (Option.some.inj (hstart.symm.trans ht))
  obtain rfl := Memory.auxBufs.inj (Option.some.inj (hstart'.symm.trans ht'))
  omega

theorem pairwise_iff_length_le_one {α : Type*} {R : α → α → Prop} {l : List α}
    (h : ∀ x ∈ l, ∀ y ∈ l, ¬ R x y) : l.Pairwise R ↔ l.length ≤ 1 := by
  match l with
  | [] => simp
  | [x] => simp
  | x :: y :: rest =>
    refine ⟨fun hp => ?_, fun hl => absurd hl (by simp)⟩
    exact absurd (List.rel_of_pairwise_cons hp (by simp)) (h x (by simp) y (by simp))

/-- The start of an adapter's part of `auxBufs`. -/
def base (auxBufs offset : Nat) : Nat := pageSize - getBufOffset auxBufs + offset

theorem hpcapBufInit_static (auxBufs adapter queue offset : Nat) (kmalloc : Option Nat)
    (hsize : 0 < size) :
    (hpcapBufInit auxBufs adapter queue size offset kmalloc).2.bufferCopia =
      some (.auxBufs (base auxBufs offset)) ∧
    (hpcapBufInit auxBufs adapter queue size offset kmalloc).2.bufSize = size := by
  simp [hpcapBufInit, hsize.ne', base]

/-- A buffer as `hpcap_buf_init` leaves it for some queue of the adapter. -/
def InitOf (auxBufs : Nat) (a : Adapter) (size offset : Nat) (b : HpcapBuf) : Prop :=
  ∃ i kmalloc, b = (hpcapBufInit auxBufs a.bdNumber i size offset kmalloc).2

theorem InitOf.covers (h : InitOf auxBufs a size offset b) (hsize : 0 < size) :
    Covers b (base auxBufs offset) := by
  obtain ⟨i, kmalloc, rfl⟩ := h
  obtain ⟨hstart, hsz⟩ := hpcapBufInit_static auxBufs a.bdNumber i offset kmalloc hsize
  exact ⟨_, hstart, le_rfl, by omega⟩

theorem InitOf.within (h : InitOf auxBufs a size offset b) (hsize : 0 < size) :
    Within (base auxBufs offset) (base auxBufs offset + size) b := by
  obtain ⟨i, kmalloc, rfl⟩ := h
  obtain ⟨hstart, hsz⟩ := hpcapBufInit_static auxBufs a.bdNumber i offset kmalloc hsize
  exact ⟨_, hstart, le_rfl, by rw [hsz]⟩

variable (auxBufs a replies size offset) in
/-- A queue whose memory and device numbers are there gets a buffer, whatever fails later. -/
theorem registerQueue_bufs (acc : Int × List HpcapBuf) (i : Nat) :
    (registerQueue auxBufs a size offset replies acc i).2 =
      if (replies i).kzalloc && decide ((replies i).registerChrdevRegion = 0) then
        acc.2 ++ [(hpcapBufInit auxBufs a.bdNumber i size offset (replies i).kmalloc).2]
      else acc.2 := by
  simp only [registerQueue]
  by_cases hkzalloc : (replies i).kzalloc = true
  · by_cases hregion : (replies i).registerChrdevRegion = 0
    · simp only [hkzalloc, hregion, Bool.not_true, Bool.false_eq_true, if_false, ne_eq, not_true,
        decide_true, Bool.and_self, if_true]
      split
      · rfl
      · split
        · rfl
        · rfl
    · simp [hkzalloc, hregion]
  · simp [hkzalloc]

/-- One buffer for each queue set up, all from the same offset. -/
theorem registerQueue_foldl (is : List Nat) (acc : Int × List HpcapBuf)
    (h : ∀ b ∈ acc.2, InitOf auxBufs a size offset b) :
    (∀ b ∈ (is.foldl (registerQueue auxBufs a size offset replies) acc).2,
      InitOf auxBufs a size offset b) ∧
    (is.foldl (registerQueue auxBufs a size offset replies) acc).2.length = acc.2.length +
      is.countP fun i => (replies i).kzalloc && decide ((replies i).registerChrdevRegion = 0) := by
  induction is generalizing acc with
  | nil => exact ⟨h, rfl⟩
  | cons i is ih =>
    have hcases := registerQueue_bufs auxBufs a replies size offset acc i
    have hnext : ∀ b ∈ (registerQueue auxBufs a size offset replies acc i).2,
        InitOf auxBufs a size offset b := by
      rw [hcases]
      split
      · intro b hb
        obtain hb | hb := List.mem_append.mp hb
        · exact h b hb
        · exact ⟨i, _, List.mem_singleton.mp hb⟩
      · exact h
    obtain ⟨hall, hlen⟩ := ih _ hnext
    refine ⟨hall, ?_⟩
    rw [List.foldl_cons, hlen, hcases, List.countP_cons]
    split
    · rw [List.length_append, List.length_singleton]
      omega
    · omega

theorem hpcapRegisterChardev_initOf :
    ∀ b ∈ (hpcapRegisterChardev auxBufs a size offset replies).2, InitOf auxBufs a size offset b :=
  (registerQueue_foldl _ (0, []) (List.forall_mem_nil _)).1

/-- The buffers of one adapter are apart only if there is but one. -/
theorem hpcapRegisterChardev_apart (hsize : 0 < size) :
    (hpcapRegisterChardev auxBufs a size offset replies).2.Pairwise Apart ↔
      queuesSetUp a replies ≤ 1 := by
  have hsame : ∀ b ∈ (hpcapRegisterChardev auxBufs a size offset replies).2,
      Covers b (base auxBufs offset) :=
    fun b hb => (hpcapRegisterChardev_initOf b hb).covers hsize
  have hlen : (hpcapRegisterChardev auxBufs a size offset replies).2.length =
      0 + queuesSetUp a replies := (registerQueue_foldl _ (0, []) (List.forall_mem_nil _)).2
  rw [pairwise_iff_length_le_one fun x hx y hy hxy => hxy _ ⟨hsame x hx, hsame y hy⟩, hlen,
    Nat.zero_add]

theorem hpcapValidateOption_cases (value : Nat) (opt : HpcapOption) :
    hpcapValidateOption value opt = opt.default ∨
      hpcapValidateOption value opt = value ∧ opt.min ≤ value ∧ value ≤ opt.max := by
  rw [hpcapValidateOption]
  split_ifs with _ hrange
  · exact .inl rfl
  · obtain hrange | hdefault := hrange
    · exact .inr ⟨rfl, hrange⟩
    · exact .inl hdefault
  · exact .inl rfl

/-- What the parameters of an adapter are after `hpcap_parse_opts`. -/
structure Parsed (a : Adapter) : Prop where
  queues_pos : 0 < a.numRxQueues
  queues_le : a.numRxQueues ≤ hpcapMaxRxq
  pages_pos : 0 < a.bufpages

theorem hpcapParseOpts_parsed {cpus bd : Nat} {p : Params} (hcpus : 0 < cpus) :
    Parsed (hpcapParseOpts cpus bd p) := by
  have hrxq : ∀ rxq, 0 < hpcapValidateOption (rxq + 1) rxqOption ∧
      hpcapValidateOption (rxq + 1) rxqOption ≤ hpcapMaxRxq := by
    intro rxq
    obtain he | ⟨he, -, hmax⟩ := hpcapValidateOption_cases (rxq + 1) rxqOption
    · rw [he]
      decide
    · rw [he]
      exact ⟨Nat.succ_pos _, hmax⟩
  have hpages : ∀ pages, 0 < hpcapValidateOption pages pagesOption := by
    intro pages
    obtain he | ⟨he, hmin, -⟩ := hpcapValidateOption_cases pages pagesOption
    · rw [he]
      decide
    · rw [he]
      exact hmin
  obtain ⟨rxq, mode, pages⟩ := p
  have hqueues : 0 < (hpcapParseOpts cpus bd ⟨rxq, mode, pages⟩).numRxQueues ∧
      (hpcapParseOpts cpus bd ⟨rxq, mode, pages⟩).numRxQueues ≤ hpcapMaxRxq := by
    cases hgiven : rxq.getD rxqOption.default with
    | zero =>
      simp only [hpcapParseOpts, hgiven]
      exact ⟨lt_min (by decide) hcpus, min_le_left _ _⟩
    | succ rxq =>
      simp only [hpcapParseOpts, hgiven]
      exact hrxq rxq
  refine ⟨hqueues.1, hqueues.2, ?_⟩
  cases pages with
  | none => exact (by decide : 0 < pagesOption.default)
  | some pages => exact hpages pages

theorem Parsed.size_pos (h : Parsed a) : 0 < a.bufpages * pageSize / a.numRxQueues := by
  apply Nat.div_pos _ h.queues_pos
  calc a.numRxQueues ≤ hpcapMaxRxq := h.queues_le
    _ ≤ pageSize := by decide
    _ ≤ a.bufpages * pageSize := Nat.le_mul_of_pos_left pageSize h.pages_pos

/-- An adapter that takes part gets its share, if there is room, and the others what is behind. -/
theorem hpcapRegisterAdapters_cons {rest : List (Adapter × (Nat → Reply))} {bufs : List HpcapBuf}
    (h : hpcapRegisterAdapters auxBufs offset ((a, replies) :: rest) = some bufs) :
    isHpcapAdapter a ∧ a.bufpages * pageSize + offset ≤ hpcapBufSize ∧
        (∃ made, hpcapRegisterAdapters auxBufs (offset + a.bufpages * pageSize) rest = some made ∧
          bufs = (hpcapRegisterChardev auxBufs a (a.bufpages * pageSize / a.numRxQueues) offset
            replies).2 ++ made) ∨
      ¬ isHpcapAdapter a ∧ hpcapRegisterAdapters auxBufs offset rest = some bufs := by
  rw [hpcapRegisterAdapters] at h
  by_cases hmode : isHpcapAdapter a
  · rw [if_pos hmode] at h
    obtain ⟨hroom, h⟩ := Option.ite_none_left_eq_some.mp h
    obtain ⟨-, h⟩ := Option.ite_none_left_eq_some.mp h
    obtain ⟨made, hmade, rfl⟩ := Option.map_eq_some_iff.mp h
    exact .inl ⟨hmode, Nat.not_lt.mp hroom, made, hmade, rfl⟩
  · rw [if_neg hmode] at h
    exact .inr ⟨hmode, h⟩

/-- Adapters are placed one behind the other; within an adapter nothing is. -/
theorem hpcapRegisterAdapters_placed {adapters : List (Adapter × (Nat → Reply))}
    {bufs : List HpcapBuf} (hparsed : ∀ a ∈ adapters, Parsed a.1)
    (h : hpcapRegisterAdapters auxBufs offset adapters = some bufs) :
    (∀ b ∈ bufs, Within (base auxBufs offset) (base auxBufs hpcapBufSize) b) ∧
      (bufs.Pairwise Apart ↔ ∀ a ∈ adapters, isHpcapAdapter a.1 → queuesSetUp a.1 a.2 ≤ 1) := by
  induction adapters generalizing offset bufs with
  | nil =>
    obtain rfl := Option.some.inj h
    simp
  | cons a rest ih =>
    obtain ⟨a, replies⟩ := a
    have hrest : ∀ a ∈ rest, Parsed a.1 := fun a ha => hparsed a (List.mem_cons_of_mem _ ha)
    obtain ⟨hmode, hroom, made, hmade, rfl⟩ | ⟨hmode, h⟩ := hpcapRegisterAdapters_cons h
    · obtain ⟨hwithin, hapart⟩ := ih hrest hmade
      have hsize := (hparsed _ List.mem_cons_self).size_pos
      have hshare : a.bufpages * pageSize / a.numRxQueues ≤ a.bufpages * pageSize :=
        Nat.div_le_self _ _
      have hmine : ∀ b ∈ (hpcapRegisterChardev auxBufs a (a.bufpages * pageSize / a.numRxQueues)
          offset replies).2, Within (base auxBufs offset)
            (base auxBufs offset + a.bufpages * pageSize / a.numRxQueues) b :=
        fun b hb => (hpcapRegisterChardev_initOf b hb).within hsize
      refine ⟨fun b hb => ?_, ?_⟩
      · obtain hb | hb := List.mem_append.mp hb
        · refine (hmine b hb).mono le_rfl ?_
          rw [base, base]
          omega
        · refine (hwithin b hb).mono ?_ le_rfl
          rw [base, base]
          omega
      · have hbehind : ∀ b ∈ (hpcapRegisterChardev auxBufs a
            (a.bufpages * pageSize / a.numRxQueues) offset replies).2, ∀ b' ∈ made, Apart b b' := by
          intro b hb b' hb'
          refine (hmine b hb).apart (hwithin b' hb') ?_
          rw [base, base]
          omega
        rw [List.pairwise_append, hpcapRegisterChardev_apart hsize, hapart, List.forall_mem_cons]
        exact ⟨fun hh => ⟨fun _ => hh.1, hh.2.1⟩, fun hh => ⟨hh.1 hmode, hh.2, hbehind⟩⟩
    · obtain ⟨hwithin, hapart⟩ := ih hrest h
      refine ⟨hwithin, ?_⟩
      rw [hapart, List.forall_mem_cons]
      exact ⟨fun hh => ⟨fun hyes => absurd hyes hmode, hh⟩, And.right⟩

/-- Every buffer is one of an adapter's, and that adapter's part of `auxBufs` has room for it. -/
theorem hpcapRegisterAdapters_initOf {adapters : List (Adapter × (Nat → Reply))}
    {bufs : List HpcapBuf} (hparsed : ∀ a ∈ adapters, Parsed a.1)
    (h : hpcapRegisterAdapters auxBufs offset adapters = some bufs) :
    ∀ b ∈ bufs, ∃ a size offset, InitOf auxBufs a size offset b ∧ 0 < size ∧
      offset + size ≤ hpcapBufSize := by
  induction adapters generalizing offset bufs with
  | nil =>
    obtain rfl := Option.some.inj h
    exact List.forall_mem_nil _
  | cons a rest ih =>
    obtain ⟨a, replies⟩ := a
    have hrest : ∀ a ∈ rest, Parsed a.1 := fun a ha => hparsed a (List.mem_cons_of_mem _ ha)
    obtain ⟨-, hroom, made, hmade, rfl⟩ | ⟨-, h⟩ := hpcapRegisterAdapters_cons h
    · have hshare : a.bufpages * pageSize / a.numRxQueues ≤ a.bufpages * pageSize :=
        Nat.div_le_self _ _
      intro b hb
      obtain hb | hb := List.mem_append.mp hb
      · refine ⟨a, _, offset, hpcapRegisterChardev_initOf b hb,
          (hparsed _ List.mem_cons_self).size_pos, ?_⟩
        omega
      · exact ih hrest hmade b hb
    · exact ih hrest h

/-- The buffers are inside `auxBufs`, and apart if no adapter sets up more than one queue. -/
theorem buffers_apart_iff (auxBufs cpus : Nat) (hcpus : 0 < cpus)
    (adapters : List (Adapter × (Nat → Reply)))
    (hopts : ∀ a ∈ adapters, ∃ bd p, a.1 = hpcapParseOpts cpus bd p) (bufs : List HpcapBuf)
    (h : hpcapRegisterAdapters auxBufs 0 adapters = some bufs) :
    (bufs.Pairwise Apart ∧ ∀ b ∈ bufs, Within 0 auxBufsSize b) ↔
      ∀ a ∈ adapters, isHpcapAdapter a.1 → queuesSetUp a.1 a.2 ≤ 1 := by
  have hparsed : ∀ a ∈ adapters, Parsed a.1 := by
    intro a ha
    obtain ⟨bd, p, he⟩ := hopts a ha
    rw [he]
    exact hpcapParseOpts_parsed hcpus
  obtain ⟨hwithin, hapart⟩ := hpcapRegisterAdapters_placed hparsed h
  rw [hapart]
  refine ⟨And.left, fun hh => ⟨hh, fun b hb => ?_⟩⟩
  refine (hwithin b hb).mono (Nat.zero_le _) ?_
  rw [base, auxBufsSize]
  omega

/-- The kernel grants everything. -/
def granted : Nat → Reply := fun _ => ⟨true, 0, none, 0, true⟩

/-- Two adapters with a page each and one queue. -/
def onePageEach : List (Adapter × (Nat → Reply)) :=
  [(hpcapParseOpts 8 0 ⟨none, some 2, some 1⟩, granted),
    (hpcapParseOpts 8 1 ⟨some 1, some 2, some 1⟩, granted)]

def twoQueues : List (Adapter × (Nat → Reply)) :=
  [(hpcapParseOpts 8 0 ⟨some 2, some 2, some 2⟩, granted)]

theorem buffers_apart_two_adapters : ∃ bufs, hpcapRegisterAdapters 0 0 onePageEach = some bufs ∧
    bufs.length = 2 ∧ bufs.Pairwise Apart ∧ ∀ b ∈ bufs, Within 0 auxBufsSize b := by
  have hrun : (hpcapRegisterAdapters 0 0 onePageEach).map List.length = some 2 := by decide +kernel
  obtain ⟨bufs, hbufs, hlen⟩ := Option.map_eq_some_iff.mp hrun
  refine ⟨bufs, hbufs, hlen, (buffers_apart_iff 0 8 (by decide) onePageEach ?_ bufs hbufs).mpr ?_⟩
  · intro a ha
    obtain rfl | rfl : a = _ ∨ a = _ := by simpa [onePageEach] using ha
    · exact ⟨0, ⟨none, some 2, some 1⟩, rfl⟩
    · exact ⟨1, ⟨some 1, some 2, some 1⟩, rfl⟩
  · intro a ha _
    obtain rfl | rfl : a = _ ∨ a = _ := by simpa [onePageEach] using ha
    · decide +kernel
    · decide +kernel

/-- Both queues of one adapter get the same page. -/
theorem two_queues_share : ∃ bufs, hpcapRegisterAdapters 0 0 twoQueues = some bufs ∧
    ¬ (bufs.Pairwise Apart ∧ ∀ b ∈ bufs, Within 0 auxBufsSize b) := by
  have hrun : (hpcapRegisterAdapters 0 0 twoQueues).map List.length = some 2 := by decide +kernel
  obtain ⟨bufs, hbufs, -⟩ := Option.map_eq_some_iff.mp hrun
  have hparsed : ∀ a ∈ twoQueues, Parsed a.1 := by
    intro a ha
    obtain rfl := List.mem_singleton.mp ha
    exact (hpcapParseOpts_parsed (by decide) : Parsed (hpcapParseOpts 8 0 ⟨some 2, some 2, some 2⟩))
  refine ⟨bufs, hbufs, fun hh => ?_⟩
  have hone := (hpcapRegisterAdapters_placed hparsed hbufs).2.mp hh.1 _ List.mem_cons_self (by decide)
  exact absurd hone (by decide +kernel)

end Hpcap.Registration
