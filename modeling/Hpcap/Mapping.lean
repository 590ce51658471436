import Hpcap.Read
import Hpcap.Registration

namespace Hpcap.Mapping

open Function
open Hpcap.Read (int32 sizeT int32_small)
open Hpcap.Registration (getBufOffset)
open Hpcap.Reservation (pageSize)

/-- The page of memory that each page of a process leads to. -/
abbrev Pages := Nat → Option Nat

/-- Where an address of the process leads: the page, and the offset in it. -/
def lookup (t : Pages) (addr : Nat) : Option (Nat × Nat) :=
  (t (addr / pageSize)).map fun page => (page, addr % pageSize)

/-- The page of memory that each page of the kernel leads to, and `__pa`. -/
structure Kernel where
  page : Nat → Nat
  pa : Nat → Nat
  pa_mod : ∀ buf, pa buf % pageSize = buf % pageSize

/-- Where an address of the kernel leads. -/
def Kernel.lookup (k : Kernel) (addr : Nat) : Nat × Nat :=
  (k.page (addr / pageSize), addr % pageSize)

/-- How many pages `len` bytes take. -/
def pagesOf (len : Nat) : Nat := (len + (pageSize - 1)) / pageSize

/-- What a mapping depends on of a buffer. With huge pages it starts with one of them. -/
structure HpcapBuf where
  bufferCopia : Nat
  bufSize : Nat
  hasHugepages : Bool
  aligned : hasHugepages = true → bufferCopia % pageSize = 0

/-- What the calls of a process meet: the file of the huge pages, which is created if it does not
exist, opens or not, and has some pages; `mmap` picks a page for so many bytes, and
`vm_insert_page` fails at some addresses. -/
structure System where
  ioctlFails : Bool
  openFails : Bool
  filePage : Nat → Nat
  vacant : Nat → Option Nat
  insertFails : Nat → Bool

/-- There is nothing yet where `mmap` puts something, which is not nothing, nor too much. -/
def System.Vacant (sys : System) (t : Pages) : Prop :=
  ∀ len a, sys.vacant len = some a → 0 < len ∧ len < 2 ^ 47 ∧ ∀ n < pagesOf len, t (a + n) = none

/-- The loop of `hpcap_mmap` over so many pages. -/
def insertPages (k : Kernel) (sys : System) (mapaddr kaddr : Nat) : Nat → Pages → Pages
  | 0, t => t
  | n + 1, t =>
    if sys.insertFails mapaddr then t
    else insertPages k sys (mapaddr + pageSize) (kaddr + pageSize) n
      (update t (mapaddr / pageSize) (some (k.page (kaddr / pageSize))))

/-- `hpcap_mmap` without huge pages, on a region of whole pages. It returns 0 whether or not all
of them are inserted. -/
def hpcapMmap (k : Kernel) (bufp : HpcapBuf) (sys : System) (vmStart len : Nat) (t : Pages) :
    Pages :=
  insertPages k sys vmStart (bufp.bufferCopia / pageSize * pageSize) (len / pageSize) t

/-- What `mmap` makes of the pages of a file. -/
def mapFile (pages : Nat → Nat) (start n : Nat) (t : Pages) : Pages := fun p =>
  if start ≤ p ∧ p < start + n then some (pages (p - start)) else t p

/-- `munmap`, which refuses to unmap nothing. -/
def munmap (addr len : Nat) (t : Pages) : Int × Pages :=
  if addr % pageSize ≠ 0 ∨ len = 0 then (-1, t)
  else (0, fun p =>
    if addr / pageSize ≤ p ∧ p < addr / pageSize + pagesOf len then none else t p)

/-- The part of a handle that has to do with the mapping. -/
structure Handle where
  bufoff : Nat
  bufSize : Nat
  size : Nat
  page : Nat
  buf : Nat

abbrev hpcapOk : Int := 0
abbrev hpcapErr : Int := -1
abbrev mapFailed : Nat := 2 ^ 64 - 1

/-- As `hpcap_open` leaves it. -/
def hpcapOpen : Handle := ⟨0, 0, 0, 0, 0⟩

/-- The size of the mapping, an `int` rounded up to whole pages. -/
def mapSize (bufSize bufoff : Nat) : Int :=
  let size := int32 (bufSize + bufoff)
  if size.tmod pageSize ≠ 0 then int32 ((size.tdiv pageSize + 1) * pageSize) else size

def hpcapMap (k : Kernel) (bufp : HpcapBuf) (sys : System) (h : Handle) (t : Pages) :
    Int × Handle × Pages :=
  if sys.ioctlFails then (hpcapErr, h, t)
  else
    let h := { h with bufoff := getBufOffset (k.pa bufp.bufferCopia), bufSize := bufp.bufSize }
    if !bufp.hasHugepages then
      let h := { h with size := sizeT (mapSize h.bufSize h.bufoff) }
      match sys.vacant h.size with
      | none => (hpcapErr, { h with page := mapFailed }, t)
      | some a =>
        let page := a * pageSize
        (hpcapOk, { h with page := page, buf := page + h.bufoff },
          hpcapMmap k bufp sys page (pagesOf h.size * pageSize) t)
    else
      if sys.openFails then (hpcapErr, h, t)
      else match sys.vacant bufp.bufSize with
        | none => (hpcapErr, h, t)
        | some a =>
          let page := a * pageSize
          (hpcapOk, { h with page := page, buf := page + h.bufoff },
            mapFile sys.filePage a (pagesOf bufp.bufSize) t)

def hpcapUnmap (h : Handle) (t : Pages) : Int × Handle × Pages :=
  let r := munmap h.page h.size t
  (if r.1 ≠ 0 then hpcapErr else hpcapOk, { h with buf := 0, page := 0, bufoff := 0 }, r.2)

section Pages

variable {k : Kernel} {sys : System} {a kp n p : Nat} {t : Pages}

theorem page_div (a : Nat) : a * pageSize / pageSize = a := Nat.mul_div_cancel _ (by decide)

theorem page_succ (a : Nat) : a * pageSize + pageSize = (a + 1) * pageSize :=
  (Nat.succ_mul _ _).symm

/-- Nothing else is changed. -/
theorem insertPages_out (hp : p < a ∨ a + n ≤ p) :
    insertPages k sys (a * pageSize) (kp * pageSize) n t p = t p := by
  induction n generalizing a kp t with
  | zero => rfl
  | succ n ih =>
    rw [insertPages]
    split
    · rfl
    · rw [page_succ, page_succ, ih (by omega), page_div, update_of_ne (by omega)]

/-- The pages that are inserted are those up to the first one that fails. -/
theorem insertPages_in (hp : a ≤ p) (hpn : p < a + n) (hfree : ∀ m < n, t (a + m) = none) :
    insertPages k sys (a * pageSize) (kp * pageSize) n t p =
      if ∀ m ≤ p - a, sys.insertFails ((a + m) * pageSize) = false then some (k.page (kp + (p - a)))
      else none := by
  induction n generalizing a kp t with
  | zero => omega
  | succ n ih =>
    rw [insertPages]
    by_cases hfail : sys.insertFails (a * pageSize) = true
    · have hnone := hfree (p - a) (by omega)
      rw [Nat.add_sub_cancel' hp] at hnone
      rw [if_pos hfail, hnone, if_neg]
      intro hall
      have hfirst := hall 0 (Nat.zero_le _)
      rw [Nat.add_zero, hfail] at hfirst
      cases hfirst
    · have hgo : sys.insertFails (a * pageSize) = false := Bool.eq_false_iff.mpr hfail
      rw [if_neg hfail, page_succ, page_succ, page_div, page_div]
      obtain rfl | hlt := Nat.eq_or_lt_of_le hp
      · rw [insertPages_out (.inl (Nat.lt_succ_self a)), update_self, Nat.sub_self, if_pos]
        · rfl
        · intro m hm
          rw [Nat.le_zero.mp hm]
          exact hgo
      · rw [ih hlt (by omega) fun m hm => ?_]
        · have hshift : kp + 1 + (p - (a + 1)) = kp + (p - a) := by omega
          rw [hshift]
          refine if_congr ⟨fun h m hm => ?_, fun h m hm => ?_⟩ rfl rfl
          · cases m with
            | zero => exact hgo
            | succ m =>
              rw [← Nat.add_assoc, Nat.add_right_comm]
              exact h m (by omega)
          · rw [Nat.succ_add_eq_add_succ]
            exact h (m + 1) (by omega)
        · rw [update_of_ne (by omega), Nat.succ_add_eq_add_succ]
          exact hfree (m + 1) (by omega)

theorem pagesOf_mul (n : Nat) : pagesOf (n * pageSize) = n := by
  unfold pagesOf pageSize
  omega

theorem le_pagesOf (len : Nat) : len ≤ pagesOf len * pageSize := by
  unfold pagesOf pageSize
  omega

theorem pagesOf_pos {len : Nat} (h : 0 < len) : 0 < pagesOf len := by
  unfold pagesOf pageSize
  omega

theorem getBufOffset_pa (k : Kernel) (buf : Nat) : getBufOffset (k.pa buf) = buf % pageSize := by
  rw [getBufOffset, ← k.pa_mod]
  unfold pageSize
  omega

theorem int32_bounds (x : Int) : -2 ^ 31 ≤ int32 x ∧ int32 x < 2 ^ 31 := by
  have hlo := Int.le_bmod (x := x) (m := 2 ^ 32) (by decide)
  have hhi := Int.bmod_lt (x := x) (m := 2 ^ 32) (by decide)
  rw [int32]
  omega

theorem int32_pages (x : Int) : ∃ m, int32 (x * pageSize) = m * pageSize := by
  obtain ⟨c, hc⟩ := Int.dvd_bmod_sub_self (x := x * pageSize) (m := 2 ^ 32)
  refine ⟨x + 2 ^ 20 * c, ?_⟩
  rw [int32]
  unfold pageSize at *
  omega

/-- Whatever the size of the buffer, the mapping is made of whole pages, and its size is an
`int`. -/
theorem mapSize_whole (bufSize bufoff : Nat) :
    ∃ m : Int, mapSize bufSize bufoff = m * pageSize ∧ -2 ^ 31 ≤ m * pageSize ∧
      m * pageSize < 2 ^ 31 := by
  rw [mapSize]
  split
  · obtain ⟨m, hm⟩ := int32_pages ((int32 (bufSize + bufoff)).tdiv pageSize + 1)
    have hb := int32_bounds (((int32 (bufSize + bufoff)).tdiv pageSize + 1) * pageSize)
    rw [hm] at hb
    exact ⟨m, hm, hb⟩
  · rename_i hzero
    obtain ⟨m, hm⟩ := Int.dvd_of_tmod_eq_zero (not_not.mp hzero)
    have hb := int32_bounds (bufSize + bufoff)
    rw [hm, Int.mul_comm] at hb
    exact ⟨m, hm.trans (Int.mul_comm _ _), hb⟩

/-- Below the size at which an `int` overflows every byte is within the mapping. -/
theorem lt_mapSize {bufSize bufoff i : Nat} (h : bufSize + bufoff + pageSize < 2 ^ 31)
    (hi : i < bufSize) : ((bufoff + i : Nat) : Int) < mapSize bufSize bufoff := by
  unfold pageSize at h
  have hsum : int32 ((bufSize : Int) + bufoff) = ((bufSize + bufoff : Nat) : Int) :=
    int32_small (by omega) (by omega)
  have hmod : ((bufSize + bufoff : Nat) : Int).tmod (4096 : Nat) =
      ((bufSize + bufoff) % 4096 : Nat) := rfl
  have hdiv : ((bufSize + bufoff : Nat) : Int).tdiv (4096 : Nat) =
      ((bufSize + bufoff) / 4096 : Nat) := rfl
  have hup : int32 ((((bufSize + bufoff) / 4096 : Nat) + 1 : Int) * (4096 : Nat)) =
      (((bufSize + bufoff) / 4096 + 1) * 4096 : Nat) :=
    int32_small (by omega) (by omega)
  unfold mapSize pageSize
  dsimp only
  rw [hsum, hmod, hdiv, hup]
  split <;> omega

end Pages

section Map

variable {k : Kernel} {bufp : HpcapBuf} {sys : System} {h h' : Handle} {t t' : Pages}

/-- Where the mapping of a buffer is. -/
structure MappedAt (bufp : HpcapBuf) (h' : Handle) (t : Pages) (a n : Nat) : Prop where
  bufoff : h'.bufoff = bufp.bufferCopia % pageSize
  page : h'.page = a * pageSize
  buf : h'.buf = a * pageSize + bufp.bufferCopia % pageSize
  pos : 0 < n
  vacant : ∀ m < n, t (a + m) = none

/-- What a call that succeeds does. -/
theorem hpcapMap_ok (hsys : sys.Vacant t) (hok : hpcapMap k bufp sys h t = (hpcapOk, h', t')) :
    ∃ a n, MappedAt bufp h' t a n ∧
      ((bufp.hasHugepages = false ∧ h'.size = n * pageSize ∧
          mapSize bufp.bufSize (bufp.bufferCopia % pageSize) = (n * pageSize : Nat) ∧
          t' = insertPages k sys (a * pageSize) (bufp.bufferCopia / pageSize * pageSize) n t) ∨
        (bufp.hasHugepages = true ∧ n = pagesOf bufp.bufSize ∧ h'.size = h.size ∧
          t' = mapFile sys.filePage a n t)) := by
  rw [hpcapMap] at hok
  split at hok
  · cases hok
  · dsimp only at hok
    rw [getBufOffset_pa] at hok
    split at hok
    · rename_i hno
      split at hok
      · cases hok
      · rename_i a ha
        obtain ⟨-, rfl, rfl⟩ := Prod.mk.inj hok |>.imp_right Prod.mk.inj
        obtain ⟨hpos, hmax, hfree⟩ := hsys _ _ ha
        obtain ⟨m, hm, hlo, hhi⟩ := mapSize_whole bufp.bufSize (bufp.bufferCopia % pageSize)
        -- a negative size would be too much
        obtain ⟨n, hn⟩ : ∃ n : Nat, mapSize bufp.bufSize (bufp.bufferCopia % pageSize) =
            (n * pageSize : Nat) := by
          rw [hm]
          rw [hm, sizeT] at hpos hmax
          unfold pageSize at *
          exact ⟨m.toNat, by omega⟩
        have hsize : sizeT (mapSize bufp.bufSize (bufp.bufferCopia % pageSize)) = n * pageSize := by
          rw [← hm, hn] at hhi
          rw [hn, sizeT]
          omega
        rw [hsize] at hpos hfree
        rw [pagesOf_mul] at hfree
        have hn0 : 0 < n := Nat.pos_of_ne_zero fun hzero => by simp [hzero] at hpos
        refine ⟨a, n, ⟨rfl, rfl, rfl, hn0, hfree⟩, .inl ⟨by simpa using hno, ?_, hn, ?_⟩⟩
        · dsimp only
          exact hsize
        · rw [hpcapMmap, hsize, pagesOf_mul, page_div]
    · rename_i hyes
      split at hok
      · cases hok
      · split at hok
        · cases hok
        · rename_i a ha
          obtain ⟨-, rfl, rfl⟩ := Prod.mk.inj hok |>.imp_right Prod.mk.inj
          obtain ⟨hpos, -, hfree⟩ := hsys _ _ ha
          exact ⟨a, _, ⟨rfl, rfl, rfl, pagesOf_pos hpos, hfree⟩,
            .inr ⟨by simpa using hyes, rfl, rfl, rfl⟩⟩

theorem lookup_behind (t : Pages) (a x : Nat) :
    lookup t (a * pageSize + x) = (t (a + x / pageSize)).map fun page => (page, x % pageSize) := by
  rw [lookup, Nat.add_comm, Nat.add_mul_div_right _ _ (by decide), Nat.add_mul_mod_self_right,
    Nat.add_comm]

theorem kernel_lookup (k : Kernel) (buf i : Nat) : k.lookup (buf + i) =
    (k.page (buf / pageSize + (buf % pageSize + i) / pageSize),
      (buf % pageSize + i) % pageSize) := by
  have hbuf : buf + i = buf % pageSize + i + buf / pageSize * pageSize := by
    have hsplit := Nat.mod_add_div' buf pageSize
    omega
  rw [Kernel.lookup, hbuf, Nat.add_mul_div_right _ _ (by decide), Nat.add_mul_mod_self_right,
    Nat.add_comm (buf / pageSize)]

end Map

/-- What it takes for a byte to be seen. The file has the driver's page there; or else the byte is
within the mapping, and every page up to its own could be inserted. -/
def Shown (k : Kernel) (bufp : HpcapBuf) (sys : System) (page i : Nat) : Prop :=
  if bufp.hasHugepages then
    sys.filePage (i / pageSize) = k.page (bufp.bufferCopia / pageSize + i / pageSize)
  else
    ((bufp.bufferCopia % pageSize + i : Nat) : Int) <
        mapSize bufp.bufSize (bufp.bufferCopia % pageSize) ∧
      ∀ n ≤ (bufp.bufferCopia % pageSize + i) / pageSize,
        sys.insertFails (page + n * pageSize) = false

/-- After `hpcap_map` a byte of the client's buffer is that of the driver's just when it is shown,
or was there before. As long as the size does not overflow an `int`, every byte is within the
mapping. -/
theorem map_shows_iff (k : Kernel) (bufp : HpcapBuf) (sys : System) (h h' : Handle) (t t' : Pages)
    (hsys : sys.Vacant t) (hok : hpcapMap k bufp sys h t = (hpcapOk, h', t')) (i : Nat)
    (hi : i < bufp.bufSize) :
    (lookup t' (h'.buf + i) = some (k.lookup (bufp.bufferCopia + i)) ↔
      Shown k bufp sys h'.page i ∨
        lookup t (h'.buf + i) = some (k.lookup (bufp.bufferCopia + i))) ∧
    (bufp.bufSize + bufp.bufferCopia % pageSize + pageSize < 2 ^ 31 →
      ((bufp.bufferCopia % pageSize + i : Nat) : Int) <
        mapSize bufp.bufSize (bufp.bufferCopia % pageSize)) := by
  refine ⟨?_, fun hsmall => lt_mapSize hsmall hi⟩
  obtain ⟨a, n, hm, hcase⟩ := hpcapMap_ok hsys hok
  have hpage : ∀ m, h'.page + m * pageSize = (a + m) * pageSize := fun m => by
    rw [hm.page, Nat.add_mul]
  have hvacant : (bufp.bufferCopia % pageSize + i) / pageSize < n →
      (t (a + (bufp.bufferCopia % pageSize + i) / pageSize)).map
        (fun page => (page, (bufp.bufferCopia % pageSize + i) % pageSize)) ≠
          some (k.lookup (bufp.bufferCopia + i)) := by
    intro hlt he
    rw [hm.vacant _ hlt] at he
    cases he
  rw [hm.buf, Nat.add_assoc, lookup_behind, lookup_behind, Shown]
  simp only [hpage]
  obtain ⟨hno, -, hsize, rfl⟩ | ⟨hyes, rfl, -, rfl⟩ := hcase
  · have hin : ((bufp.bufferCopia % pageSize + i : Nat) : Int) <
        mapSize bufp.bufSize (bufp.bufferCopia % pageSize) ↔
          (bufp.bufferCopia % pageSize + i) / pageSize < n := by
      rw [hsize, Int.ofNat_lt, Nat.div_lt_iff_lt_mul (by decide)]
    rw [hno, if_neg Bool.false_ne_true, hin]
    by_cases hlt : (bufp.bufferCopia % pageSize + i) / pageSize < n
    · rw [or_iff_left (hvacant hlt), and_iff_right hlt, kernel_lookup,
        insertPages_in (Nat.le_add_right _ _) (by omega) hm.vacant, Nat.add_sub_cancel_left]
      split
      · rename_i hall
        exact ⟨fun _ => hall, fun _ => rfl⟩
      · rename_i hfail
        exact iff_of_false (Option.some_ne_none _).symm hfail
    · rw [insertPages_out (.inr (by omega)), or_iff_right fun hand => hlt hand.1]
  · have hin : i / pageSize < pagesOf bufp.bufSize :=
      Nat.div_lt_of_lt_mul (by rw [Nat.mul_comm]; exact hi.trans_le (le_pagesOf _))
    rw [bufp.aligned hyes, Nat.zero_add] at hvacant ⊢
    rw [or_iff_left (hvacant hin), kernel_lookup, hyes, if_pos rfl, bufp.aligned hyes,
      Nat.zero_add, mapFile, if_pos ⟨Nat.le_add_right _ _, by omega⟩, Nat.add_sub_cancel_left,
      Option.map_some, Option.some.injEq, Prod.mk.injEq, and_iff_left rfl]

/-- Memory that the kernel sees as it is, and two pages of a buffer that starts inside of one. -/
def plainKernel : Kernel := ⟨id, id, fun _ => rfl⟩

def twoPages : HpcapBuf :=
  ⟨3 * pageSize + 512, 2 * pageSize, false, fun h => absurd h Bool.false_ne_true⟩

/-- The size of huge pages is kept when they are given back. -/
def keptSize : HpcapBuf :=
  ⟨3 * pageSize, 2 ^ 32 + 2 * pageSize, false, fun h => absurd h Bool.false_ne_true⟩

def emptyProcess : Pages := fun _ => none

/-- The third page that is to be inserted fails. -/
def thirdFails : System where
  ioctlFails := false
  openFails := false
  filePage := fun n => 512 + n
  vacant := fun len => if 0 < len ∧ len < 2 ^ 47 then some 100 else none
  insertFails := fun addr => addr == 102 * pageSize

theorem thirdFails_vacant : thirdFails.Vacant emptyProcess := by
  intro len a ha
  obtain ⟨hlen, -⟩ := Option.ite_none_right_eq_some.mp ha
  exact ⟨hlen.1, hlen.2, fun _ _ => rfl⟩

/-- What is in the third page cannot be seen; and of the size that is kept, only what an `int`
leaves of it. -/
theorem map_shows_iff_third_fails :
    (∃ h' t', hpcapMap plainKernel twoPages thirdFails hpcapOpen emptyProcess = (hpcapOk, h', t') ∧
      lookup t' (h'.buf + 7679) = some (plainKernel.lookup (twoPages.bufferCopia + 7679)) ∧
      lookup t' (h'.buf + 7680) ≠ some (plainKernel.lookup (twoPages.bufferCopia + 7680))) ∧
    ∃ h' t', hpcapMap plainKernel keptSize thirdFails hpcapOpen emptyProcess = (hpcapOk, h', t') ∧
      lookup t' (h'.buf + 8192) ≠ some (plainKernel.lookup (keptSize.bufferCopia + 8192)) := by
  have hempty : ∀ addr x, lookup emptyProcess addr ≠ some x :=
    fun _ _ => (Option.some_ne_none _).symm
  obtain ⟨h', t', hcall, hpage⟩ : ∃ h' t',
      hpcapMap plainKernel twoPages thirdFails hpcapOpen emptyProcess = (hpcapOk, h', t') ∧
        h'.page = 100 * pageSize :=
    ⟨_, _, Prod.ext (by decide +kernel) rfl, by decide +kernel⟩
  have hiff := map_shows_iff plainKernel twoPages thirdFails hpcapOpen h' _ t' thirdFails_vacant
    hcall
  rw [hpage] at hiff
  obtain ⟨u', p', hcall', hpage'⟩ : ∃ h' t',
      hpcapMap plainKernel keptSize thirdFails hpcapOpen emptyProcess = (hpcapOk, h', t') ∧
        h'.page = 100 * pageSize :=
    ⟨_, _, Prod.ext (by decide +kernel) rfl, by decide +kernel⟩
  have hiff' := map_shows_iff plainKernel keptSize thirdFails hpcapOpen u' _ p' thirdFails_vacant
    hcall'
  rw [hpage'] at hiff'
  refine ⟨⟨h', t', hcall, (hiff 7679 (by decide)).1.mpr (.inl ?_), fun hseen => ?_⟩,
    u', p', hcall', fun hseen => ?_⟩
  · rw [Shown]
    decide +kernel
  · have hshown := ((hiff 7680 (by decide)).1.mp hseen).resolve_right (hempty _ _)
    rw [Shown] at hshown
    exact absurd hshown (by decide +kernel)
  · have hshown := ((hiff' 8192 (by decide)).1.mp hseen).resolve_right (hempty _ _)
    rw [Shown] at hshown
    exact absurd hshown (by decide +kernel)

/-- `hpcap_unmap` undoes `hpcap_map` just when the buffer is not backed by huge pages; else it
fails, and the mapping stays. -/
theorem unmap_undoes_iff (k : Kernel) (bufp : HpcapBuf) (sys : System) (h' : Handle)
    (t t' : Pages) (hsys : sys.Vacant t)
    (hok : hpcapMap k bufp sys hpcapOpen t = (hpcapOk, h', t')) :
    ((hpcapUnmap h' t').1 = hpcapOk ∧ (hpcapUnmap h' t').2.2 = t ↔ bufp.hasHugepages = false) ∧
      (bufp.hasHugepages = true → (hpcapUnmap h' t').1 = hpcapErr ∧ (hpcapUnmap h' t').2.2 = t') := by
  obtain ⟨a, n, hm, hcase⟩ := hpcapMap_ok hsys hok
  obtain ⟨hno, hsize, -, rfl⟩ | ⟨hyes, -, hsize, -⟩ := hcase
  · have hunmap : munmap h'.page h'.size (insertPages k sys (a * pageSize)
        (bufp.bufferCopia / pageSize * pageSize) n t) = (0, t) := by
      have hpos := hm.pos
      have hlen : n * pageSize ≠ 0 := Nat.mul_ne_zero hpos.ne' (by decide)
      rw [munmap, hm.page, hsize, if_neg (not_or.mpr ⟨not_not.mpr (Nat.mul_mod_left _ _), hlen⟩),
        page_div, pagesOf_mul]
      refine congrArg (Prod.mk 0) (funext fun p => ?_)
      split
      · rename_i hin
        have hfree := hm.vacant (p - a) (by omega)
        rw [Nat.add_sub_cancel' hin.1] at hfree
        exact hfree.symm
      · exact insertPages_out (by omega)
    rw [hpcapUnmap, hunmap]
    refine ⟨⟨fun _ => hno, fun _ => ⟨rfl, rfl⟩⟩, fun hyes => ?_⟩
    rw [hno] at hyes
    cases hyes
  · have hunmap : munmap h'.page h'.size t' = (-1, t') := if_pos (.inr hsize)
    rw [hpcapUnmap, hunmap]
    refine ⟨⟨fun hundone => ?_, fun hno => ?_⟩, fun _ => ⟨rfl, rfl⟩⟩
    · cases hundone.1
    · rw [hno] at hyes
      cases hyes

/-- A huge page of the file is mapped. -/
def hugePage : HpcapBuf where
  bufferCopia := 512 * pageSize
  bufSize := 512 * pageSize
  hasHugepages := true
  aligned := fun _ => Nat.mul_mod_left _ _

theorem unmap_undoes_iff_huge_page : ∃ h' t',
    hpcapMap plainKernel hugePage thirdFails hpcapOpen emptyProcess = (hpcapOk, h', t') ∧
      (hpcapUnmap h' t').1 = hpcapErr ∧ (hpcapUnmap h' t').2.2 = t' := by
  have hret : (hpcapMap plainKernel hugePage thirdFails hpcapOpen emptyProcess).1 = hpcapOk := by
    decide +kernel
  have hcall : hpcapMap plainKernel hugePage thirdFails hpcapOpen emptyProcess =
      (hpcapOk, _, _) := Prod.ext hret rfl
  exact ⟨_, _, hcall, (unmap_undoes_iff plainKernel hugePage thirdFails _ _ _ thirdFails_vacant
    hcall).2 rfl⟩

end Hpcap.Mapping
