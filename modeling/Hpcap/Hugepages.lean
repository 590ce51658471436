import Hpcap.Registration
import Hpcap.Transition

namespace Hpcap.Hugepages

open Hpcap.Reservation Hpcap.Listeners Hpcap.Registration Hpcap.Transition

abbrev efault : Int := 14
abbrev eidrm : Int := 43
abbrev ebadf : Int := 9
abbrev einval : Int := 22

abbrev maxHugetlbFileLen : Nat := 256

/-- The bytes behind a pointer; the code does not keep them. -/
def bytes : Memory → Nat
  | .auxBufs start => auxBufsSize - start
  | .kmalloc _ n => n
  | .remapped _ npages => npages * pageSize

def hpcapUpdateListenerBufsizes (t : Table) (bufsize : Nat) : Table :=
  { t with
    listeners := t.listeners.map fun l => { l with bufsz := bufsize }
    global := { t.global with bufsz := bufsize } }

def hasHugepages (bufp : HpcapBuf) : Bool := bufp.hugePages.isSome

/-- What is asked for with `HPCAP_IOC_HUGE_MAP`, and what the kernel answers on the way. -/
structure MapRequest where
  size : Nat
  fileName : List Char
  vmalloc : Option Nat
  getUserPages : Int
  vmMapRam : Option Nat

/-- The pages to ask for. `size` is a `size_t`. -/
def MapRequest.npages (q : MapRequest) : Nat := 1 + sub64 q.size 1 / pageSize

/-- The answer of `get_user_pages`, assigned to an `int`. -/
def MapRequest.retval (q : MapRequest) : Int := q.getUserPages.bmod (2 ^ 32)

def hpcapHugeUse (bufp : HpcapBuf) (q : MapRequest) : HpcapBuf × Int :=
  match q.vmalloc with
  | none => (bufp, -efault)
  | some pages =>
    if q.retval < 0 then (bufp, q.retval)
    else
      let npages := if q.retval ≠ q.npages then q.retval.toNat else q.npages
      let bufp := { bufp with oldBuffer := bufp.bufferCopia, oldBufSize := bufp.bufSize }
      match q.vmMapRam with
      | none => (bufp, 0)
      | some addr =>
        ({ bufp with
          bufferCopia := some (.remapped addr npages)
          bufSize := q.size
          hugePages := some pages
          hugePagesNum := npages
          hugePagesFile := q.fileName.take maxHugetlbFileLen
          lstnr := hpcapUpdateListenerBufsizes bufp.lstnr q.size }, 0)

def hpcapHugeRelease (bufp : HpcapBuf) : HpcapBuf × Int :=
  if !hasHugepages bufp then (bufp, -eidrm)
  else ({ bufp with
    bufferCopia := bufp.oldBuffer
    hugePagesNum := 0
    hugePages := none
    hugePagesFile := [] }, 0)

/-- Why a request is turned away before the switch of `hpcap_ioctl`. -/
inductive Rejection
  | forceKilled
  | noListener

def Rejection.ret : Rejection → Int
  | .forceKilled => -ebadf
  | .noListener => -einval

inductive Request
  | hugeMap (rejected : Option Rejection) (copyFromUser : Bool) (q : MapRequest) (copyToUser : Bool)
  | hugeUnmap (rejected : Option Rejection)

def hpcapIoctl (bufp : HpcapBuf) : Request → HpcapBuf × Int
  | .hugeMap (some r) _ _ _ | .hugeUnmap (some r) => (bufp, r.ret)
  | .hugeMap none copyFromUser q copyToUser =>
    if !copyFromUser then (bufp, -efault)
    else if !copyToUser then ((hpcapHugeUse bufp q).1, -efault)
    else hpcapHugeUse bufp q
  | .hugeUnmap none => hpcapHugeRelease bufp

def step (bufp : HpcapBuf) (a : Request) : Option HpcapBuf := some (hpcapIoctl bufp a).1

/-- What is to hold of a buffer that was set up as `original`. -/
structure Consistent (original bufp : HpcapBuf) : Prop where
  memory : ∃ m, bufp.bufferCopia = some m ∧ bufp.bufSize ≤ bytes m
  listeners : ∀ l ∈ bufp.lstnr.listeners, l.bufsz = bufp.bufSize
  global : bufp.lstnr.global.bufsz = bufp.bufSize
  original : bufp.hugePages = none →
    bufp.bufferCopia = original.bufferCopia ∧ bufp.bufSize = original.bufSize

/-- The request is one to map that gets as far as the new buffer. -/
def Installs : Request → Prop
  | .hugeMap none true q _ => q.vmalloc.isSome ∧ 0 ≤ q.retval ∧ q.vmMapRam.isSome
  | _ => False

structure Untouched (bufp t : HpcapBuf) : Prop where
  bufferCopia : t.bufferCopia = bufp.bufferCopia
  bufSize : t.bufSize = bufp.bufSize
  hugePages : t.hugePages = bufp.hugePages
  lstnr : t.lstnr = bufp.lstnr

/-- A request to map that does not install the buffer returns an error and leaves everything. -/
def FailsClean (bufp : HpcapBuf) : Request → Prop
  | .hugeMap rejected copyFromUser q copyToUser =>
    let a := .hugeMap rejected copyFromUser q copyToUser
    ¬ Installs a → (hpcapIoctl bufp a).2 < 0 ∧ Untouched bufp (hpcapIoctl bufp a).1
  | .hugeUnmap _ => True

/-- The pages cover the size asked for and can be made contiguous; and before the pages are
given back, the buffer saved is the original one and of the size in use. -/
def Sound (original bufp : HpcapBuf) : Request → Prop
  | .hugeMap none true q copyToUser => q.vmalloc.isSome → 0 ≤ q.retval →
    match q.vmMapRam with
    | some _ => q.size ≤ q.retval.toNat * pageSize
    | none => copyToUser = false
  | .hugeUnmap none => bufp.hugePages.isSome →
    bufp.oldBuffer = original.bufferCopia ∧ bufp.bufSize = original.bufSize
  | _ => True

/-- As `hpcap_buf_init` leaves a buffer, when it returns 0. -/
def Initialised (bufp : HpcapBuf) : Prop :=
  ∃ auxBufs adapter queue size bufoffset kmalloc, bufoffset + size ≤ hpcapBufSize ∧
    hpcapBufInit auxBufs adapter queue size bufoffset kmalloc = (0, bufp)

variable {original bufp : HpcapBuf} {q : MapRequest}

theorem efault_neg : -efault < 0 := by decide

theorem Rejection.ret_neg (r : Rejection) : r.ret < 0 := by
  cases r <;> decide

theorem Untouched.refl (bufp : HpcapBuf) : Untouched bufp bufp := ⟨rfl, rfl, rfl, rfl⟩

/-- Success means that there is memory for the whole buffer. -/
theorem hpcapBufInit_memory {auxBufs adapter queue size bufoffset : Nat} {kmalloc : Option Nat}
    (hroom : bufoffset + size ≤ hpcapBufSize)
    (h : hpcapBufInit auxBufs adapter queue size bufoffset kmalloc = (0, bufp)) :
    (∃ m, bufp.bufferCopia = some m ∧ bufp.bufSize ≤ bytes m) ∧
      bufp.lstnr = hpcapInitListeners bufp.bufSize := by
  by_cases hsize : size = 0
  · cases kmalloc with
    | none => simp [hpcapBufInit, hsize] at h
    | some addr =>
      simp only [hpcapBufInit, if_pos hsize, Option.map_some, reduceCtorEq, if_false,
        Prod.mk.injEq, true_and] at h
      subst h
      exact ⟨⟨_, rfl, le_rfl⟩, rfl⟩
  · simp only [hpcapBufInit, if_neg hsize, reduceCtorEq, if_false, Prod.mk.injEq, true_and] at h
    subst h
    refine ⟨⟨_, rfl, ?_⟩, rfl⟩
    change size ≤ bytes (.auxBufs _)
    rw [bytes, auxBufsSize]
    omega

theorem Initialised.consistent (h : Initialised bufp) : Consistent bufp bufp := by
  obtain ⟨auxBufs, adapter, queue, size, bufoffset, kmalloc, hroom, h⟩ := h
  obtain ⟨hmemory, hlstnr⟩ := hpcapBufInit_memory hroom h
  refine ⟨hmemory, fun l hl => ?_, ?_, fun _ => ⟨rfl, rfl⟩⟩
  · rw [hlstnr, hpcapInitListeners, List.mem_replicate] at hl
    rw [hl.2]
    rfl
  · rw [hlstnr]
    rfl

theorem Consistent.congr {t : HpcapBuf} (h : Consistent original bufp) (ht : Untouched bufp t) :
    Consistent original t := by
  obtain ⟨hbuffer, hsize, hpages, hlstnr⟩ := ht
  constructor
  · rw [hbuffer, hsize]
    exact h.memory
  · rw [hlstnr, hsize]
    exact h.listeners
  · rw [hlstnr, hsize]
    exact h.global
  · rw [hpages, hbuffer, hsize]
    exact h.original

theorem npages_eq (h : 0 ≤ q.retval) :
    (if q.retval ≠ q.npages then q.retval.toNat else q.npages) = q.retval.toNat := by
  split
  · rfl
  · omega

/-- Everything that `hpcap_huge_use` can do. -/
theorem hpcapHugeUse_cases (bufp : HpcapBuf) (q : MapRequest) :
    (¬ (q.vmalloc.isSome ∧ 0 ≤ q.retval) ∧ (hpcapHugeUse bufp q).1 = bufp ∧
      (hpcapHugeUse bufp q).2 < 0) ∨
    (q.vmalloc.isSome ∧ 0 ≤ q.retval ∧ q.vmMapRam = none ∧ hpcapHugeUse bufp q =
      ({ bufp with oldBuffer := bufp.bufferCopia, oldBufSize := bufp.bufSize }, 0)) ∨
    ∃ pages addr, q.vmalloc = some pages ∧ 0 ≤ q.retval ∧ q.vmMapRam = some addr ∧
      hpcapHugeUse bufp q =
        ({ bufp with
          oldBuffer := bufp.bufferCopia
          oldBufSize := bufp.bufSize
          bufferCopia := some (.remapped addr q.retval.toNat)
          bufSize := q.size
          hugePages := some pages
          hugePagesNum := q.retval.toNat
          hugePagesFile := q.fileName.take maxHugetlbFileLen
          lstnr := hpcapUpdateListenerBufsizes bufp.lstnr q.size }, 0) := by
  rw [hpcapHugeUse]
  cases hv : q.vmalloc with
  | none => exact .inl ⟨fun hh => absurd hh.1 (by simp), rfl, efault_neg⟩
  | some pages =>
    by_cases hret : q.retval < 0
    · simp only [if_pos hret]
      exact .inl ⟨fun hh => absurd hh.2 (not_le.mpr hret), trivial, hret⟩
    · have hpos := not_lt.mp hret
      simp only [if_neg hret, npages_eq hpos]
      cases hm : q.vmMapRam with
      | none => exact .inr (.inl ⟨rfl, hpos, rfl, rfl⟩)
      | some addr => exact .inr (.inr ⟨pages, addr, rfl, hpos, rfl, rfl⟩)

/-- A request to map, past the checks and the copy of its argument. -/
theorem hugeMap_iff (h : Consistent original bufp) (copyToUser : Bool) :
    (Consistent original (hpcapIoctl bufp (.hugeMap none true q copyToUser)).1 ∧
      FailsClean bufp (.hugeMap none true q copyToUser)) ↔
    Sound original bufp (.hugeMap none true q copyToUser) := by
  have hstate : (hpcapIoctl bufp (.hugeMap none true q copyToUser)).1 = (hpcapHugeUse bufp q).1 := by
    cases copyToUser <;> rfl
  have hret : (hpcapIoctl bufp (.hugeMap none true q copyToUser)).2 =
      if copyToUser then (hpcapHugeUse bufp q).2 else -efault := by
    cases copyToUser <;> rfl
  rw [FailsClean, hstate, hret, Sound, Installs]
  obtain ⟨hno, hsame, hneg⟩ | ⟨hv, hpos, hm, huse⟩ | ⟨pages, addr, hv, hpos, hm, huse⟩ :=
    hpcapHugeUse_cases bufp q
  · rw [hsame]
    refine ⟨fun _ hv hpos => absurd ⟨hv, hpos⟩ hno, fun _ => ⟨h, fun _ => ⟨?_, .refl bufp⟩⟩⟩
    split
    · exact hneg
    · exact efault_neg
  · have hkeep : Untouched bufp (hpcapHugeUse bufp q).1 := by
      rw [huse]
      exact ⟨rfl, rfl, rfl, rfl⟩
    rw [hm]
    refine ⟨fun hh _ _ => ?_, fun hh => ⟨h.congr hkeep, fun _ => ⟨?_, hkeep⟩⟩⟩
    · have hfail := (hh.2 fun hi => by simpa using hi.2.2).1
      rw [huse] at hfail
      cases copyToUser with
      | true => exact absurd hfail (lt_irrefl _)
      | false => rfl
    · rw [hh hv hpos]
      exact efault_neg
  · rw [huse, hm]
    refine ⟨fun hh _ _ => ?_, fun hh => ⟨⟨⟨_, rfl, ?_⟩, ?_, rfl, nofun⟩, fun hi => ?_⟩⟩
    · obtain ⟨m, hbuffer, hsize⟩ := hh.1.memory
      obtain rfl := Option.some.inj hbuffer
      exact hsize
    · exact hh (by rw [hv]; rfl) hpos
    · intro l hl
      obtain ⟨l', -, rfl⟩ := List.mem_map.mp hl
      rfl
    · exact absurd ⟨by rw [hv]; rfl, hpos, rfl⟩ hi

/-- A request to unmap, past the checks. -/
theorem hugeUnmap_iff (hsized : ∃ m, original.bufferCopia = some m ∧ original.bufSize ≤ bytes m)
    (h : Consistent original bufp) :
    Consistent original (hpcapHugeRelease bufp).1 ↔ Sound original bufp (.hugeUnmap none) := by
  rw [hpcapHugeRelease, hasHugepages, Sound]
  cases hp : bufp.hugePages with
  | none => exact ⟨fun _ => nofun, fun _ => h⟩
  | some pages =>
    refine ⟨fun hh _ => hh.original rfl, fun hh => ?_⟩
    obtain ⟨hold, hsize⟩ := hh rfl
    refine ⟨?_, h.listeners, h.global, fun _ => ⟨hold, hsize⟩⟩
    obtain ⟨m, hbuffer, hfits⟩ := hsized
    exact ⟨m, hold.trans hbuffer, by rw [← hsize] at hfits; exact hfits⟩

/-- A request keeps a buffer in order just when it is sound. -/
theorem keeps_iff (hsized : ∃ m, original.bufferCopia = some m ∧ original.bufSize ≤ bytes m)
    (h : Consistent original bufp) (a : Request) :
    (Consistent original (hpcapIoctl bufp a).1 ∧ FailsClean bufp a) ↔ Sound original bufp a := by
  cases a with
  | hugeMap rejected copyFromUser q copyToUser =>
    cases rejected with
    | some r => exact ⟨fun _ => trivial, fun _ => ⟨h, fun _ => ⟨r.ret_neg, .refl bufp⟩⟩⟩
    | none =>
      cases copyFromUser with
      | false => exact ⟨fun _ => trivial, fun _ => ⟨h, fun _ => ⟨efault_neg, .refl bufp⟩⟩⟩
      | true => exact hugeMap_iff h copyToUser
  | hugeUnmap rejected =>
    cases rejected with
    | some r => exact ⟨fun _ => trivial, fun _ => ⟨h, trivial⟩⟩
    | none => exact ⟨fun hh => (hugeUnmap_iff hsized h).mp hh.1,
        fun hh => ⟨(hugeUnmap_iff hsized h).mpr hh, trivial⟩⟩

/-- As long as every request is sound, the buffer and its sizes stay in order, and a request to
map that fails leaves them. -/
theorem huge_buffers_consistent (original : HpcapBuf) (hinit : Initialised original) (bufp : HpcapBuf)
    (h : Reach step (Sound original) (fun b => b = original) bufp) :
    Consistent original bufp ∧ ∀ a, Sound original bufp a → FailsClean bufp a := by
  have hsized := hinit.consistent.memory
  have hcons : Consistent original bufp := by
    refine h.invariant (Consistent original) ?_ ?_
    · rintro b rfl
      exact hinit.consistent
    · rintro b a t hb hok ht
      obtain rfl := Option.some.inj ht
      exact ((keeps_iff hsized hb a).mpr hok).1
  exact ⟨hcons, fun a hok => ((keeps_iff hsized hcons a).mpr hok).2⟩

/-- The buffers that the registration of the adapters sets up are such buffers. -/
theorem registered_initialised {auxBufs : Nat} {adapters : List (Adapter × (Nat → Reply))}
    {bufs : List HpcapBuf} (hparsed : ∀ a ∈ adapters, Parsed a.1)
    (h : hpcapRegisterAdapters auxBufs 0 adapters = some bufs) : ∀ b ∈ bufs, Initialised b := by
  intro b hb
  obtain ⟨a, size, offset, ⟨i, kmalloc, rfl⟩, hsize, hroom⟩ :=
    hpcapRegisterAdapters_initOf hparsed h b hb
  refine ⟨auxBufs, a.bdNumber, i, size, offset, kmalloc, hroom, ?_⟩
  simp [hpcapBufInit, hsize.ne']

/-- A static buffer of some pages at the start of `auxBufs`. -/
def pagesAtStart (pages : Nat) : HpcapBuf := (hpcapBufInit 0 0 0 (pages * pageSize) 0 none).2

theorem pagesAtStart_initialised {pages : Nat} (hpos : 0 < pages) (hle : pages ≤ 256) :
    Initialised (pagesAtStart pages) := by
  have hsize : pages * pageSize ≠ 0 := (Nat.mul_pos hpos (by decide)).ne'
  have hroom : pages * pageSize ≤ hpcapBufSize :=
    (Nat.mul_le_mul_right pageSize hle).trans (by decide)
  refine ⟨0, 0, 0, pages * pageSize, 0, none, by rwa [Nat.zero_add], ?_⟩
  simp [pagesAtStart, hpcapBufInit, hsize]

/-- Two pages of user memory, all of them found. -/
def twoHugePages : MapRequest := ⟨2 * pageSize, [], some 1, 2, some 2⟩

def mapTwo : Request := .hugeMap none true twoHugePages true

theorem huge_buffers_consistent_two_pages : ∃ bufp, bufp.hugePages = none ∧
    bufp.oldBuffer = (pagesAtStart 2).bufferCopia ∧ Consistent (pagesAtStart 2) bufp ∧
      FailsClean bufp (.hugeMap none true ⟨pageSize, [], none, 0, none⟩ true) := by
  have hmap : Sound (pagesAtStart 2) (pagesAtStart 2) mapTwo := by
    intro _ _
    change 2 * pageSize ≤ _
    decide +kernel
  have hunmap : Sound (pagesAtStart 2) (hpcapIoctl (pagesAtStart 2) mapTwo).1 (.hugeUnmap none) := by
    intro _
    decide +kernel
  have h := huge_buffers_consistent (pagesAtStart 2) (pagesAtStart_initialised (by decide) (by decide))
    _ (.next (.next (.start rfl) hmap rfl) hunmap rfl)
  exact ⟨_, by decide +kernel, by decide +kernel, h.1, h.2 _ nofun⟩

/-- After the pages are given back, a buffer of one page still has the size of two; and a
mapping that fails is reported as a success. -/
theorem unmap_keeps_huge_size :
    (¬ ∀ bufp, Reach step Free (fun b => b = pagesAtStart 1) bufp → Consistent (pagesAtStart 1) bufp) ∧
      ¬ ∀ a, FailsClean (pagesAtStart 1) a := by
  refine ⟨fun h => ?_, fun h => ?_⟩
  · have hcons := h (hpcapIoctl (hpcapIoctl (pagesAtStart 1) mapTwo).1 (.hugeUnmap none)).1
      (.next (.next (.start rfl) trivial rfl) trivial rfl)
    have hsize := (hcons.original (by decide +kernel)).2
    exact absurd hsize (by decide +kernel)
  · have hfail := h (.hugeMap none true ⟨pageSize, [], some 1, 1, none⟩ true)
    have hret := (hfail fun hi => by simpa using hi.2.2).1
    exact absurd hret (by decide +kernel)

end Hpcap.Hugepages
