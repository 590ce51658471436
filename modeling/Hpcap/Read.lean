import Hpcap.Advance

namespace Hpcap.Read

open Hpcap.Listeners Hpcap.Advance

/-- The value as an `int`. -/
def int32 (x : Int) : Int := x.bmod (2 ^ 32)

/-- The value as a `size_t`. -/
def sizeT (x : Int) : Nat := (x % 2 ^ 64).toNat

/-- The value of a `size_t` as an `ssize_t`. -/
def ssizeT (x : Nat) : Int := if x < 2 ^ 63 then x else x - 2 ^ 64

def minimo (a b : Nat) : Nat := if a < b then a else b

abbrev efault : Int := 14

/-- Bytes by their distance from a pointer. -/
abbrev Memory := Int → UInt8

/-- What `hpcap_wait_listener` finds when it looks at the listener. -/
structure Look where
  wr : Nat
  kill : Bool

/-- `used_bytes` once the listener is written up to `wr`. -/
def usedAt (l : Listener) (wr : Nat) : Nat := usedBytes { l with bufferWrOffset := wr }

/-- Nothing to return as long as it looks and waits on. The mark is read again after the
loop, where it may be another than the one that ended it. -/
def hpcapWaitListener (l : Listener) (desired : Int) (killed : Bool) : List Look → Option Int
  | [] => none
  | x :: looks =>
    if ¬ x.kill ∧ int32 (usedAt l x.wr) < desired then
      hpcapWaitListener l desired killed looks
    else some (if killed then -1 else int32 (usedAt l x.wr))

/-- `copy_to_user`, which leaves the last `left` bytes out. -/
def copyToUser (src dst : Memory) (dstOff srcOff : Int) (len left : Nat) : Memory := fun i =>
  if dstOff ≤ i ∧ i < dstOff + (len - left : Nat) then src (srcOff + (i - dstOff)) else dst i

/-- What a read finds of `struct hpcap_buf`. -/
structure Buf where
  bufSize : Nat
  lstnr : Table

/-- What a call does not determine: the looks of the wait, the mark after them, the write
offset when the bytes are popped, and what the two copies leave out. -/
structure Env where
  looks : List Look
  killed : Bool
  wr : Nat
  left : Nat
  left' : Nat

/-- The result, the listener and the memory of the user after the call. -/
structure Done where
  ret : Int
  list : Option Listener
  dstBuf : Memory

/-- What follows the copies. -/
def finish (l : Listener) (toCopy : Nat) (failed : Bool) (dstBuf : Memory) : Done :=
  if failed then ⟨-efault, some l, dstBuf⟩
  else ⟨ssizeT toCopy, some (hpcapPopListener l toCopy).1, dstBuf⟩

/-- From the end of the wait on. -/
def readAvail (bufSize : Nat) (bufferCopia dstBuf : Memory) (l : Listener) (count : Nat)
    (e : Env) (avail : Int) : Done :=
  let toCopy := minimo count (sizeT avail)
  let offset := int32 l.bufferRdOffset
  let l := { l with bufferWrOffset := e.wr }
  if bufSize < sizeT (offset + toCopy) then
    let aux := int32 (bufSize - offset)
    let dstBuf := copyToUser bufferCopia dstBuf 0 offset (sizeT aux) e.left
    if 0 < e.left then finish l toCopy true dstBuf
    else
      finish l toCopy (0 < e.left')
        (copyToUser bufferCopia dstBuf aux 0 (sizeT (toCopy - aux)) e.left')
  else
    finish l toCopy (0 < e.left) (copyToUser bufferCopia dstBuf 0 offset toCopy e.left)

def hpcapRead (bufp : Option Buf) (pid : Int) (bufferCopia dstBuf : Memory) (count : Nat)
    (e : Env) : Option Done :=
  match bufp with
  | none => some ⟨-1, none, dstBuf⟩
  | some b =>
    match hpcapGetListener b.lstnr pid with
    | none => some ⟨-1, none, dstBuf⟩
    | some (_, l) =>
      (hpcapWaitListener l (int32 count) e.killed e.looks).map
        (readAvail b.bufSize bufferCopia dstBuf l count e)

def listOf (bufp : Option Buf) (pid : Int) : Option Listener :=
  bufp.bind fun b => (hpcapGetListener b.lstnr pid).map Prod.snd

/-- The `k` bytes from the offset on, around the end of the buffer, and no others. -/
def Copied (n rd k : Nat) (bufferCopia dstBuf after : Memory) : Prop :=
  ∀ i : Int, after i =
    if 0 ≤ i ∧ i < k then bufferCopia ((rd + i) % n) else dstBuf i

/-- An error without effect on the read offset, or as many bytes as are returned. -/
def Right (list : Option Listener) (count wr : Nat) (bufferCopia dstBuf : Memory) (d : Done) :
    Prop :=
  d.ret < 0 ∧ d.list.map Listener.bufferRdOffset = list.map Listener.bufferRdOffset ∨
    ∃ l, list = some l ∧ ∃ k : Nat, d.ret = k ∧ k ≤ count ∧ k ≤ usedAt l wr ∧
      Copied l.bufsz l.bufferRdOffset k bufferCopia dstBuf d.dstBuf ∧
      d.list.map Listener.bufferRdOffset = some ((l.bufferRdOffset + k) % l.bufsz)

def ReadsRight (bufp : Option Buf) (pid : Int) (count : Nat) (e : Env) : Prop :=
  ∀ bufferCopia dstBuf, ∃ d, hpcapRead bufp pid bufferCopia dstBuf count e = some d ∧
    Right (listOf bufp pid) count e.wr bufferCopia dstBuf d

/-- The first look after which the wait is over. -/
def lastLook (l : Listener) (count : Nat) (e : Env) : Option Look :=
  e.looks.find? fun x => x.kill ∨ int32 count ≤ int32 (usedAt l x.wr)

/-- How much is asked for, and is in use as far as an `int` can tell. The mark counts as all
there can be. -/
def wanted (l : Listener) (count : Nat) (killed : Bool) (wr : Nat) : Nat :=
  minimo count (sizeT (if killed then -1 else int32 (usedAt l wr)))

/-- One of the copies that are made for `k` bytes leaves something out. -/
def Faults (l : Listener) (k : Nat) (e : Env) : Prop :=
  0 < e.left ∨ l.bufsz < sizeT (int32 l.bufferRdOffset + k) ∧ 0 < e.left'

/-- When `k` bytes are copied from the right place: below 2 GiB, and up to the end of the
buffer or with less than 2 GiB to it. No bytes are no matter of place, unless the negative
offset passes for one beyond the end. -/
def Reachable (n rd k : Nat) : Prop :=
  rd < 2 ^ 31 ∧ (rd + k ≤ n ∨ n - rd < 2 ^ 31) ∨
    k = 0 ∧ 2 ^ 31 ≤ rd ∧ (0 ≤ int32 rd ∨ 2 ^ 32 ∣ n - rd)

/-- When a read that waits until the write offset is `wr` goes well. -/
def Readable (l : Listener) (count : Nat) (e : Env) (wr : Nat) : Prop :=
  let k := wanted l count e.killed wr
  Faults l k e ∨ 2 ^ 63 ≤ k ∧ usedAt l e.wr = 0 ∨
    k < 2 ^ 63 ∧ k ≤ usedAt l e.wr ∧ Reachable l.bufsz l.bufferRdOffset k

/-- The listener is one of the buffer, whose size is that of an object in memory, and the wait
for it ends. -/
structure Served (b : Buf) (l : Listener) (count : Nat) (e : Env) : Prop where
  bufsz : l.bufsz = b.bufSize
  size : b.bufSize ≤ 2 ^ 63
  rd : l.bufferRdOffset < b.bufSize
  wr : e.wr < b.bufSize
  ends : (lastLook l count e).isSome

section Integers

theorem int32_cases (x : Int) : -2 ^ 31 ≤ int32 x ∧ int32 x < 2 ^ 31 ∧
    (2 ^ 32 : Int) ∣ x - int32 x := by
  rw [int32, Int.bmod_def]
  split <;> omega

theorem int32_small {x : Int} (h : 0 ≤ x) (hx : x < 2 ^ 31) : int32 x = x := by
  have := int32_cases x
  omega

theorem sizeT_cases {x : Int} (h : -2 ^ 64 ≤ x) (hx : x < 2 ^ 64) :
    0 ≤ x ∧ (sizeT x : Int) = x ∨ x < 0 ∧ (sizeT x : Int) = x + 2 ^ 64 := by
  rw [sizeT]
  omega

theorem sizeT_lt (x : Int) : sizeT x < 2 ^ 64 := by
  rw [sizeT]
  omega

theorem ssizeT_small {x : Nat} (h : x < 2 ^ 63) : ssizeT x = x := if_pos h

theorem ssizeT_large {x : Nat} (h : 2 ^ 63 ≤ x) (hx : x < 2 ^ 64) : ssizeT x < 0 := by
  rw [ssizeT, if_neg (by omega)]
  omega

end Integers

section Copies

variable {n rd k : Nat}

/-- What the copies make of the memory of the user when they leave nothing out. -/
def copies (n : Nat) (offset : Int) (k : Nat) (bufferCopia dstBuf : Memory) : Memory :=
  if n < sizeT (offset + k) then
    let aux := int32 (n - offset)
    copyToUser bufferCopia (copyToUser bufferCopia dstBuf 0 offset (sizeT aux) 0) aux 0
      (sizeT (k - aux)) 0
  else copyToUser bufferCopia dstBuf 0 offset k 0

/-- Whatever is in the buffer and in the memory of the user. -/
def Faithful (n rd k : Nat) : Prop :=
  ∀ bufferCopia dstBuf, Copied n rd k bufferCopia dstBuf (copies n (int32 rd) k bufferCopia dstBuf)

/-- A byte that comes from elsewhere in the buffer. -/
theorem not_faithful {i a : Int} (hi : 0 ≤ i ∧ i < k)
    (h : ∀ bufferCopia dstBuf, copies n (int32 rd) k bufferCopia dstBuf i = bufferCopia a)
    (ha : a ≠ (rd + i) % n) : ¬ Faithful n rd k := by
  intro hf
  have hcopied := hf (fun x => if x = a then 1 else 0) (fun _ => 0) i
  rw [h, if_pos hi] at hcopied
  simp only [if_true, if_neg ha.symm] at hcopied
  exact absurd hcopied (by decide)

/-- A byte that is none of those to be written. -/
theorem not_faithful_beyond {i a : Int} (hi : ¬ (0 ≤ i ∧ i < k))
    (h : ∀ bufferCopia dstBuf, copies n (int32 rd) k bufferCopia dstBuf i = bufferCopia a) :
    ¬ Faithful n rd k := by
  intro hf
  have hcopied := hf (fun _ => 1) (fun _ => 0) i
  rw [h, if_neg hi] at hcopied
  dsimp only at hcopied
  exact absurd hcopied (by decide)

theorem copies_straight {offset : Int} (h : ¬ n < sizeT (offset + k)) (bufferCopia dstBuf : Memory)
    (i : Int) : copies n offset k bufferCopia dstBuf i =
      if 0 ≤ i ∧ i < k then bufferCopia (offset + i) else dstBuf i := by
  simp [copies, copyToUser, h]

theorem copies_wrapped {offset : Int} (h : n < sizeT (offset + k)) (bufferCopia dstBuf : Memory)
    (i : Int) : copies n offset k bufferCopia dstBuf i =
      let aux := int32 (n - offset)
      if aux ≤ i ∧ i < aux + sizeT (k - aux) then bufferCopia (i - aux)
      else if 0 ≤ i ∧ i < sizeT aux then bufferCopia (offset + i)
      else dstBuf i := by
  simp [copies, copyToUser, h]

/-- Without wrapping, or with an `int` that holds what is left up to the end. -/
theorem faithful_near (hrd : rd < 2 ^ 31) (hn : n ≤ 2 ^ 63) (hk : k < n)
    (h : rd + k ≤ n ∨ n - rd < 2 ^ 31) (hlt : rd < n) : Faithful n rd k := by
  intro bufferCopia dstBuf i
  have hoff : int32 rd = rd := int32_small (by omega) (by omega)
  have hsum := sizeT_cases (x := int32 rd + k) (by omega) (by omega)
  by_cases hwrap : n < sizeT (int32 rd + k)
  · have haux : int32 (n - int32 rd) = n - rd := by
      rw [hoff]
      exact int32_small (by omega) (by omega)
    have hfirst := sizeT_cases (x := (n : Int) - rd) (by omega) (by omega)
    have hsecond := sizeT_cases (x := (k : Int) - (n - rd)) (by omega) (by omega)
    rw [copies_wrapped hwrap]
    simp only [haux]
    by_cases hin : 0 ≤ i ∧ i < k
    · rw [if_pos hin]
      by_cases hend : i < n - rd
      · have hmod : (rd + i) % (n : Int) = rd + i := Int.emod_eq_of_lt (by omega) (by omega)
        rw [if_neg (by omega), if_pos (by omega), hoff, hmod]
      · have hmod : (rd + i) % (n : Int) = i - (n - rd) := by
          rw [← Int.sub_emod_right, Int.emod_eq_of_lt (by omega) (by omega)]
          omega
        rw [if_pos (by omega), hmod]
    · rw [if_neg hin, if_neg (by omega), if_neg (by omega)]
  · rw [copies_straight hwrap]
    by_cases hin : 0 ≤ i ∧ i < k
    · have hmod : (rd + i) % (n : Int) = rd + i := Int.emod_eq_of_lt (by omega) (by omega)
      rw [if_pos hin, if_pos hin, hoff, hmod]
    · rw [if_neg hin, if_neg hin]

/-- The second copy starts with the first byte of the buffer. -/
theorem copies_second {offset aux : Int} (h : n < sizeT (offset + k))
    (haux : int32 (n - offset) = aux) (hpos : 0 < sizeT (k - aux)) (bufferCopia dstBuf : Memory) :
    copies n offset k bufferCopia dstBuf aux = bufferCopia 0 := by
  rw [copies_wrapped h]
  simp only [haux]
  rw [if_pos (by omega), sub_self]

/-- Where the second copy does not come, the first one starts with the byte at the offset. -/
theorem copies_first {offset aux : Int} (h : n < sizeT (offset + k))
    (haux : int32 (n - offset) = aux) (hskip : ¬ (aux ≤ 0 ∧ 0 < aux + sizeT (k - aux)))
    (hpos : 0 < sizeT aux) (bufferCopia dstBuf : Memory) :
    copies n offset k bufferCopia dstBuf 0 = bufferCopia offset := by
  rw [copies_wrapped h]
  simp only [haux]
  rw [if_neg hskip, if_pos (by omega), add_zero]

/-- An `int` does not hold what is left up to the end. -/
theorem not_faithful_far (hrd : rd < 2 ^ 31) (hn : n ≤ 2 ^ 63) (hk : k < n) (hwrap : n < rd + k)
    (h : 2 ^ 31 ≤ n - rd) : ¬ Faithful n rd k := by
  have hoff : int32 rd = rd := int32_small (by omega) (by omega)
  have hsum := sizeT_cases (x := int32 rd + k) (by omega) (by omega)
  have hwrap : n < sizeT (int32 rd + k) := by omega
  obtain ⟨aux, haux⟩ : ∃ aux, int32 (n - int32 rd) = aux := ⟨_, rfl⟩
  have hbound := int32_cases (n - int32 rd)
  have hsecond := sizeT_cases (x := (k : Int) - aux) (by omega) (by omega)
  have hstart := copies_second hwrap haux (by omega)
  by_cases hneg : aux < 0
  · exact not_faithful_beyond (by omega) hstart
  · have hmod : (rd + aux) % (n : Int) = rd + aux := Int.emod_eq_of_lt (by omega) (by omega)
    exact not_faithful (by omega) hstart (by omega)

/-- The offset does not pass through an `int`. -/
theorem not_faithful_large (hrd : 2 ^ 31 ≤ rd) (hn : n ≤ 2 ^ 63) (hlt : rd < n) (hk : k < n)
    (hpos : 0 < k) : ¬ Faithful n rd k := by
  have hoff := int32_cases rd
  have hmod : (rd + 0) % (n : Int) = rd := by
    rw [add_zero]
    exact Int.emod_eq_of_lt (by omega) (by omega)
  by_cases hwrap : n < sizeT (int32 rd + k)
  · obtain ⟨aux, haux⟩ : ∃ aux, int32 (n - int32 rd) = aux := ⟨_, rfl⟩
    have hbound := int32_cases (n - int32 rd)
    have hsecond := sizeT_cases (x := (k : Int) - aux) (by omega) (by omega)
    obtain hneg | hzero | hafter := lt_trichotomy aux 0
    · exact not_faithful_beyond (by omega) (copies_second hwrap haux (by omega))
    · have hstart := copies_second hwrap haux (by omega)
      rw [hzero] at hstart
      exact not_faithful (by omega) hstart (by omega)
    · have hfirst := sizeT_cases (x := aux) (by omega) (by omega)
      have hstart := copies_first hwrap haux (by omega) (by omega)
      exact not_faithful (by omega) hstart (by omega)
  · have hstart : ∀ bufferCopia dstBuf,
        copies n (int32 rd) k bufferCopia dstBuf 0 = bufferCopia (int32 rd) := by
      intro bufferCopia dstBuf
      rw [copies_straight hwrap, if_pos (by omega), add_zero]
    exact not_faithful (by omega) hstart (by omega)

/-- Nothing is copied, unless in two parts that have only their sum in common with nothing. -/
theorem faithful_nothing (hrd : 2 ^ 31 ≤ rd) (hn : n ≤ 2 ^ 63) (hlt : rd < n) :
    Faithful n rd 0 ↔ 0 ≤ int32 rd ∨ 2 ^ 32 ∣ n - rd := by
  have hoff := int32_cases rd
  have hsum := sizeT_cases (x := int32 rd + (0 : Nat)) (by omega) (by omega)
  by_cases hneg : 0 ≤ int32 rd
  · refine iff_of_true (fun bufferCopia dstBuf i => ?_) (.inl hneg)
    rw [copies_straight (by omega), if_neg (by omega), if_neg (by omega)]
  · have hwrap : n < sizeT (int32 rd + (0 : Nat)) := by omega
    obtain ⟨aux, haux⟩ : ∃ aux, int32 (n - int32 rd) = aux := ⟨_, rfl⟩
    have hbound := int32_cases (n - int32 rd)
    have hfirst := sizeT_cases (x := aux) (by omega) (by omega)
    have hsecond := sizeT_cases (x := ((0 : Nat) : Int) - aux) (by omega) (by omega)
    by_cases hzero : aux = 0
    · refine iff_of_true (fun bufferCopia dstBuf i => ?_) (.inr (by omega))
      rw [copies_wrapped hwrap]
      simp only [haux]
      rw [if_neg (by omega), if_neg (by omega), if_neg (by omega)]
    · refine iff_of_false ?_ (by omega)
      exact not_faithful_beyond (by omega) (copies_first hwrap haux (by omega) (by omega))

theorem faithful_iff (hn : n ≤ 2 ^ 63) (hlt : rd < n) (hk : k < n) :
    Faithful n rd k ↔ Reachable n rd k := by
  by_cases hrd : rd < 2 ^ 31
  · by_cases hnear : rd + k ≤ n ∨ n - rd < 2 ^ 31
    · exact iff_of_true (faithful_near hrd hn hk hnear hlt) (.inl ⟨hrd, hnear⟩)
    · refine iff_of_false (not_faithful_far hrd hn hk (by omega) (by omega)) ?_
      rw [Reachable]
      omega
  · by_cases hpos : 0 < k
    · refine iff_of_false (not_faithful_large (by omega) hn hlt hk hpos) ?_
      rw [Reachable]
      omega
    · obtain rfl : k = 0 := by omega
      rw [faithful_nothing (by omega) hn hlt, Reachable]
      omega

end Copies

section Run

variable {bufp : Option Buf} {b : Buf} {pid : Int} {bufferCopia dstBuf : Memory} {l : Listener}
  {count k : Nat} {e : Env}

theorem hpcapWaitListener_eq (l : Listener) (desired : Int) (killed : Bool) (looks : List Look) :
    hpcapWaitListener l desired killed looks =
      (looks.find? fun x => x.kill ∨ desired ≤ int32 (usedAt l x.wr)).map
        fun x => if killed then -1 else int32 (usedAt l x.wr) := by
  induction looks with
  | nil => rfl
  | cons x looks ih =>
    rw [hpcapWaitListener, List.find?_cons]
    by_cases hgo : ¬ x.kill ∧ int32 (usedAt l x.wr) < desired
    · have hmore : ¬ (x.kill = true ∨ desired ≤ int32 (usedAt l x.wr)) := by
        rintro (hkill | hused)
        · exact hgo.1 hkill
        · omega
      rw [if_pos hgo, ih, decide_eq_false hmore]
    · have hover : x.kill = true ∨ desired ≤ int32 (usedAt l x.wr) := by
        by_cases hkill : x.kill = true
        · exact .inl hkill
        · exact .inr (Int.not_lt.mp fun hused => hgo ⟨hkill, hused⟩)
      rw [if_neg hgo, decide_eq_true hover]
      rfl

theorem hpcapRead_unlisted (h : listOf bufp pid = none) :
    hpcapRead bufp pid bufferCopia dstBuf count e = some ⟨-1, none, dstBuf⟩ := by
  cases bufp with
  | none => rfl
  | some b =>
    have hnone : hpcapGetListener b.lstnr pid = none := Option.map_eq_none_iff.mp h
    simp only [hpcapRead, hnone]

/-- A read of a registered listener returns what it does with what the last look found. -/
theorem hpcapRead_listed (bufferCopia dstBuf : Memory) {x : Look} (h : listOf (some b) pid = some l)
    (hx : lastLook l count e = some x) :
    hpcapRead (some b) pid bufferCopia dstBuf count e =
      some (readAvail b.bufSize bufferCopia dstBuf l count e
        (if e.killed then -1 else int32 (usedAt l x.wr))) := by
  obtain ⟨⟨i, l'⟩, hget, hl⟩ := Option.map_eq_some_iff.mp h
  obtain rfl : l' = l := hl
  rw [lastLook] at hx
  simp only [hpcapRead, hget]
  rw [hpcapWaitListener_eq, hx]
  rfl

theorem readAvail_fault (bufferCopia dstBuf : Memory) {avail : Int} (hf : Faults l (minimo count (sizeT avail)) e) :
    (readAvail l.bufsz bufferCopia dstBuf l count e avail).ret = -efault ∧
      (readAvail l.bufsz bufferCopia dstBuf l count e avail).list =
        some { l with bufferWrOffset := e.wr } := by
  simp only [readAvail]
  obtain hleft | ⟨hwrap, hleft⟩ := hf
  · split <;> simp [hleft, finish]
  · rw [if_pos hwrap]
    split <;> simp [hleft, finish]

theorem readAvail_copied (bufferCopia dstBuf : Memory) {avail : Int}
    (hk : minimo count (sizeT avail) = k)
    (hf : ¬ Faults l k e) :
    readAvail l.bufsz bufferCopia dstBuf l count e avail =
      ⟨ssizeT k, some (hpcapPopListener { l with bufferWrOffset := e.wr } k).1,
        copies l.bufsz (int32 l.bufferRdOffset) k bufferCopia dstBuf⟩ := by
  have hleft : e.left = 0 := Nat.eq_zero_of_not_pos fun hleft => hf (.inl hleft)
  simp only [readAvail, copies, hk]
  by_cases hwrap : l.bufsz < sizeT (int32 l.bufferRdOffset + k)
  · have hleft' : e.left' = 0 := Nat.eq_zero_of_not_pos fun hleft' => hf (.inr ⟨hwrap, hleft'⟩)
    simp [hwrap, hleft, hleft', finish]
  · simp [hwrap, hleft, finish]

theorem pop_rd (l : Listener) (k : Nat) : (hpcapPopListener l k).1.bufferRdOffset =
    (l.bufferRdOffset + min k (usedBytes l)) % l.bufsz := by
  simp only [hpcapPopListener]
  congr 2
  split <;> omega

theorem Served.used_lt (h : Served b l count e) : usedAt l e.wr < l.bufsz := by
  have hrd := h.rd
  have hwr := h.wr
  have hbufsz := h.bufsz
  have hcases := distance_cases l.bufferRdOffset e.wr l.bufsz
  change distance l.bufferRdOffset e.wr l.bufsz < l.bufsz
  omega

theorem minimo_lt {a b : Nat} (hb : b < 2 ^ 64) : minimo a b < 2 ^ 64 ∧ minimo a b ≤ a := by
  rw [minimo]
  split <;> omega

theorem right_fault {avail : Int} (hf : Faults l (minimo count (sizeT avail)) e) :
    Right (some l) count e.wr bufferCopia dstBuf
      (readAvail l.bufsz bufferCopia dstBuf l count e avail) := by
  obtain ⟨hret, hlist⟩ := readAvail_fault bufferCopia dstBuf hf
  refine .inl ⟨?_, ?_⟩
  · rw [hret]
    decide
  · rw [hlist]
    rfl

/-- What the copies that leave nothing out are followed by. -/
def copiedOut (l : Listener) (k : Nat) (wr : Nat) (bufferCopia dstBuf : Memory) : Done :=
  ⟨ssizeT k, some (hpcapPopListener { l with bufferWrOffset := wr } k).1,
    copies l.bufsz (int32 l.bufferRdOffset) k bufferCopia dstBuf⟩

theorem copiedOut_dstBuf (l : Listener) (k wr : Nat) (bufferCopia dstBuf : Memory) :
    (copiedOut l k wr bufferCopia dstBuf).dstBuf =
      copies l.bufsz (int32 l.bufferRdOffset) k bufferCopia dstBuf := by
  rw [copiedOut]

theorem copiedOut_rd (l : Listener) (k wr : Nat) (bufferCopia dstBuf : Memory) :
    (copiedOut l k wr bufferCopia dstBuf).list.map Listener.bufferRdOffset =
      some ((l.bufferRdOffset + min k (usedAt l wr)) % l.bufsz) :=
  congrArg some (pop_rd { l with bufferWrOffset := wr } k)

/-- More than an `ssize_t` holds is returned as an error, and what is in use is popped. -/
theorem right_huge (count : Nat) (bufferCopia dstBuf : Memory) {wr : Nat}
    (hrd : l.bufferRdOffset < l.bufsz) (hused : usedAt l wr < l.bufsz)
    (hk : 2 ^ 63 ≤ k) (hlt : k < 2 ^ 64) :
    Right (some l) count wr bufferCopia dstBuf (copiedOut l k wr bufferCopia dstBuf) ↔
      min k (usedAt l wr) = 0 := by
  have hret : (copiedOut l k wr bufferCopia dstBuf).ret < 0 := ssizeT_large hk hlt
  have hmod := mod_of_lt_two_mul
    (show l.bufferRdOffset + min k (usedAt l wr) < 2 * l.bufsz by omega)
  have hsame : (copiedOut l k wr bufferCopia dstBuf).list.map Listener.bufferRdOffset =
      (some l).map Listener.bufferRdOffset ↔ min k (usedAt l wr) = 0 := by
    rw [copiedOut_rd, Option.map_some, Option.some_inj]
    omega
  rw [← hsame]
  refine ⟨fun hright => ?_, fun hlist => .inl ⟨hret, hlist⟩⟩
  obtain ⟨-, hlist⟩ | ⟨l', -, k', hk', -⟩ := hright
  · exact hlist
  · omega

theorem right_copied (bufferCopia dstBuf : Memory) (l : Listener) (wr : Nat)
    (hk : k < 2 ^ 63) (hcount : k ≤ count) :
    Right (some l) count wr bufferCopia dstBuf (copiedOut l k wr bufferCopia dstBuf) ↔
      k ≤ usedAt l wr ∧ Copied l.bufsz l.bufferRdOffset k bufferCopia dstBuf
        (copies l.bufsz (int32 l.bufferRdOffset) k bufferCopia dstBuf) := by
  have hret : (copiedOut l k wr bufferCopia dstBuf).ret = k := ssizeT_small hk
  rw [← copiedOut_dstBuf l k wr]
  constructor
  · rintro (⟨hneg, -⟩ | ⟨l', hl', k', hk', -, hused, hcopied, -⟩)
    · omega
    · obtain rfl : l = l' := Option.some_inj.mp hl'
      obtain rfl : k = k' := by omega
      exact ⟨hused, hcopied⟩
  · rintro ⟨hused, hcopied⟩
    refine .inr ⟨l, rfl, k, hret, hcount, hused, hcopied, ?_⟩
    rw [copiedOut_rd, min_eq_left hused]

/-- The read of a registered listener after its last look. -/
theorem readAvail_right {x : Look} (h : Served b l count e) :
    (∀ bufferCopia dstBuf, Right (some l) count e.wr bufferCopia dstBuf
      (readAvail l.bufsz bufferCopia dstBuf l count e
        (if e.killed then -1 else int32 (usedAt l x.wr)))) ↔ Readable l count e x.wr := by
  have hused := h.used_lt
  have hrd := h.rd
  have hsize := h.size
  have hbufsz := h.bufsz
  obtain ⟨k, hk⟩ : ∃ k, wanted l count e.killed x.wr = k := ⟨_, rfl⟩
  obtain ⟨hlt, hcount⟩ := minimo_lt (a := count)
    (sizeT_lt (if e.killed then -1 else int32 (usedAt l x.wr)))
  change wanted l count e.killed x.wr < 2 ^ 64 at hlt
  change wanted l count e.killed x.wr ≤ count at hcount
  rw [hk] at hlt hcount
  simp only [Readable, hk]
  by_cases hf : Faults l k e
  · rw [← hk] at hf
    exact iff_of_true (fun _ _ => right_fault hf) (.inl (hk ▸ hf))
  · have hread := fun bufferCopia dstBuf =>
      readAvail_copied bufferCopia dstBuf hk hf
    simp only [hread, hf, false_or]
    change (∀ bufferCopia dstBuf, Right (some l) count e.wr bufferCopia dstBuf
      (copiedOut l k e.wr bufferCopia dstBuf)) ↔ _
    by_cases hhuge : 2 ^ 63 ≤ k
    · have hright := fun bufferCopia dstBuf => right_huge count bufferCopia dstBuf (by omega) hused hhuge hlt
      simp only [hright, forall_const]
      omega
    · have hright := fun bufferCopia dstBuf => right_copied bufferCopia dstBuf l
        e.wr (Nat.lt_of_not_le hhuge) hcount
      simp only [hright, forall_and, forall_const]
      change k ≤ usedAt l e.wr ∧ Faithful l.bufsz l.bufferRdOffset k ↔ _
      constructor
      · rintro ⟨hle, hcopied⟩
        exact .inr ⟨by omega, hle, (faithful_iff (by omega) (by omega) (by omega)).mp hcopied⟩
      · rintro (⟨hk', -⟩ | ⟨-, hle, hreach⟩)
        · omega
        · exact ⟨hle, (faithful_iff (by omega) (by omega) (by omega)).mpr hreach⟩

end Run

/-- A read goes well exactly if its handle has no listener, or what it goes for after the wait is
in use and in reach, or fails. -/
theorem hpcapRead_reads (bufp : Option Buf) (pid : Int) (count : Nat) (e : Env)
    (h : ∀ b, bufp = some b → ∀ l, listOf bufp pid = some l → Served b l count e) :
    ReadsRight bufp pid count e ↔
      ∀ l, listOf bufp pid = some l → ∀ x, lastLook l count e = some x →
        Readable l count e x.wr := by
  cases hl : listOf bufp pid with
  | none =>
    refine iff_of_true (fun bufferCopia dstBuf => ⟨_, hpcapRead_unlisted hl, .inl ⟨?_, ?_⟩⟩) ?_
    · simp
    · rw [hl]
    · simp
  | some l =>
    cases bufp with
    | none => cases hl
    | some b =>
      have hs := h b rfl l hl
      obtain ⟨x, hx⟩ := Option.isSome_iff_exists.mp hs.ends
      have hread := fun bufferCopia dstBuf => hpcapRead_listed bufferCopia dstBuf hl hx
      have hright := readAvail_right (x := x) hs
      rw [hs.bufsz] at hright
      have hone : ReadsRight (some b) pid count e ↔ Readable l count e x.wr := by
        rw [← hright]
        simp only [ReadsRight, hread, hl, Option.some_inj, exists_eq_left']
      rw [hone]
      refine ⟨fun hgood l' hl' x' hx' => ?_, fun hall => hall l rfl x hx⟩
      obtain rfl := Option.some_inj.mp hl'
      obtain rfl := Option.some_inj.mp (hx.symm.trans hx')
      exact hgood

/-- A buffer of 4096 bytes with a client at the offset. -/
def clientBuf (wr rd : Nat) : Buf where
  bufSize := 4096
  lstnr :=
    { listeners := [⟨1, false, wr, rd, 4096⟩]
      global := ⟨0, false, wr, rd, 4096⟩
      listenersCount := 1
      alreadyPopped := true
      log := [] }

/-- The bytes up to the end of the buffer, and those from its start on. -/
theorem hpcapRead_wraps :
    ReadsRight (some (clientBuf 100 4000)) 1 150
      ⟨[⟨4050, false⟩, ⟨100, false⟩], false, 100, 0, 0⟩ := by
  refine (hpcapRead_reads _ _ _ _ fun b hb l hl => ?_).mpr fun l hl x hx => ?_
  · obtain rfl := Option.some_inj.mp hb
    obtain rfl := Option.some_inj.mp hl
    exact ⟨rfl, by decide, by decide, by decide, rfl⟩
  · obtain rfl := Option.some_inj.mp hl
    obtain rfl := Option.some_inj.mp hx
    exact .inr (.inr ⟨by decide, by decide, .inl ⟨by decide, .inr (by decide)⟩⟩)

/-- Nothing is written, and the mark is set. -/
def killedWait : Env := ⟨[⟨0, false⟩, ⟨0, true⟩], true, 0, 0, 0⟩

/-- A read that waits for 100 bytes and is killed instead returns 100 bytes of an empty
buffer. -/
theorem killed_read_returns :
    (listOf (some (clientBuf 0 0)) 1).map (usedAt · killedWait.wr) = some 0 ∧
      (∀ bufferCopia dstBuf, (hpcapRead (some (clientBuf 0 0)) 1 bufferCopia dstBuf 100
        killedWait).map Done.ret = some 100) ∧
      ¬ ReadsRight (some (clientBuf 0 0)) 1 100 killedWait := by
  have hret : ∀ bufferCopia dstBuf, (hpcapRead (some (clientBuf 0 0)) 1 bufferCopia dstBuf 100
      killedWait).map Done.ret = some 100 :=
    fun _ _ => by rfl
  refine ⟨rfl, hret, fun hright => ?_⟩
  obtain ⟨d, hd, hright⟩ := hright (fun _ => 0) (fun _ => 0)
  have hhundred := hret (fun _ => 0) (fun _ => 0)
  rw [hd, Option.map_some, Option.some_inj] at hhundred
  obtain ⟨hneg, -⟩ | ⟨l, hl, k, hk, -, hused, -⟩ := hright
  · omega
  · obtain rfl := Option.some_inj.mp hl
    have hnone : k ≤ 0 := hused
    omega

end Hpcap.Read
