import Hpcap.Listeners

namespace Hpcap.Advance

open Hpcap.Reservation Hpcap.Listeners

theorem distance_cases (a b n : Nat) :
    a ≤ b ∧ distance a b n = b - a ∨ b < a ∧ distance a b n = n - a + b := by
  by_cases h : a ≤ b
  · exact .inl ⟨h, if_pos h⟩
  · exact .inr ⟨Nat.lt_of_not_le h, if_neg h⟩

/-- A sum that is less than twice the size wraps once at most. -/
theorem mod_of_lt_two_mul {x n : Nat} (h : x < 2 * n) :
    x < n ∧ x % n = x ∨ n ≤ x ∧ x % n = x - n := by
  by_cases hx : x < n
  · exact .inl ⟨hx, Nat.mod_eq_of_lt hx⟩
  · have hle : n ≤ x := by omega
    exact .inr ⟨hle, by rw [Nat.mod_eq_sub_mod hle, Nat.mod_eq_of_lt (by omega)]⟩

/-- Fewer bytes than there is room for are added to those in use. -/
theorem distance_add {rd wr n k : Nat} (hrd : rd < n) (hwr : wr < n)
    (hk : distance rd wr n + k < n) : distance rd ((wr + k) % n) n = distance rd wr n + k := by
  have hbefore := distance_cases rd wr n
  have hafter := distance_cases rd ((wr + k) % n) n
  have hmod := mod_of_lt_two_mul (show wr + k < 2 * n by omega)
  omega

section Push

variable {isGlobal : Bool} {l : Listener} {count : Nat}

/-- What a push has to do with the bytes that are in use. -/
def Pushed (isGlobal : Bool) (l : Listener) (count : Nat) : Prop :=
  let used := usedBytes (hpcapPushListener isGlobal l count).1
  usedBytes l ≤ used ∧ used ≤ l.bufsz - 1 ∧
    (count ≤ availBytes l → used = usedBytes l + count)

/-- When the offset is moved as it should. There is room, and the sum of the offset and what
is pushed stays below `2 ^ 64`, or what is lost of it does not show. Without any room the
count is cut to all ones. -/
def Pushable (l : Listener) (count : Nat) : Prop :=
  count = 0 ∨
  0 < availBytes l ∧ count ≤ availBytes l ∧ l.bufferWrOffset + count < 2 ^ 64 ∨
  0 < availBytes l ∧ availBytes l < count ∧
    (l.bufferWrOffset + availBytes l ≤ 2 ^ 64 ∨ usedBytes l + 2 + 2 ^ 64 ≤ 2 * l.bufsz) ∨
  availBytes l = 0 ∧ l.bufferWrOffset = 0 ∧ l.bufsz ∣ 2 ^ 64 - 1

/-- The offsets lie in the buffer, whose size is a `size_t`. -/
structure Placed (l : Listener) : Prop where
  rd : l.bufferRdOffset < l.bufsz
  wr : l.bufferWrOffset < l.bufsz
  size : l.bufsz < 2 ^ 64

theorem Placed.usedBytes_lt (h : Placed l) : usedBytes l < l.bufsz := by
  have hrd := h.rd
  have hwr := h.wr
  have hcases := distance_cases l.bufferRdOffset l.bufferWrOffset l.bufsz
  rw [usedBytes]
  omega

theorem Placed.availBytes_eq (h : Placed l) : availBytes l = l.bufsz - 1 - usedBytes l := by
  have hused := h.usedBytes_lt
  have hsize := h.size
  have hroom : sub64 l.bufsz (usedBytes l) = l.bufsz - usedBytes l := sub64_of_le (by omega) hsize
  rw [availBytes, hroom, sub64_of_le (by omega) (by omega)]
  omega

/-- What is added to the write offset. -/
def pushed (l : Listener) (count : Nat) : Nat :=
  if availBytes l < count then sub64 (availBytes l) 1 else count

theorem push_eq (hsize : l.bufsz ≠ 0) (hin : isGlobal = true ∨ l.id ≠ listenerEmpty) :
    (hpcapPushListener isGlobal l count).1 =
      { l with bufferWrOffset := add64 l.bufferWrOffset (pushed l count) % l.bufsz } := by
  rw [hpcapPushListener, if_neg hsize]
  simp only [if_pos hin]
  rfl

theorem push_empty (hin : ¬ (isGlobal = true ∨ l.id ≠ listenerEmpty)) :
    (hpcapPushListener isGlobal l count).1 = l := by
  by_cases hsize : l.bufsz = 0
  · rw [hpcapPushListener, if_pos hsize]
  · rw [hpcapPushListener, if_neg hsize]
    simp only [if_neg hin]

namespace Placed

theorem pushed_fits (hc : count ≤ availBytes l) : pushed l count = count := if_neg (by omega)

theorem pushed_cut (h : Placed l) (hc : availBytes l < count) (hpos : 0 < availBytes l) :
    pushed l count = availBytes l - 1 := by
  have havail := h.availBytes_eq
  have hsize := h.size
  rw [pushed, if_pos hc]
  exact sub64_of_le hpos (by omega)

theorem pushed_full (hc : availBytes l < count) (hfull : availBytes l = 0) :
    pushed l count = 2 ^ 64 - 1 := by
  rw [pushed, if_pos hc, hfull]
  rfl

theorem used_push (hin : isGlobal = true ∨ l.id ≠ listenerEmpty) (h : Placed l) :
    usedBytes (hpcapPushListener isGlobal l count).1 =
      distance l.bufferRdOffset (add64 l.bufferWrOffset (pushed l count) % l.bufsz) l.bufsz := by
  have hrd := h.rd
  rw [push_eq (by omega) hin]
  rfl

/-- Without overflow, what is added is what the bytes in use grow by. -/
theorem used_small (count : Nat) (hin : isGlobal = true ∨ l.id ≠ listenerEmpty) (h : Placed l)
    (hk : usedBytes l + pushed l count < l.bufsz)
    (hsum : l.bufferWrOffset + pushed l count < 2 ^ 64) :
    usedBytes (hpcapPushListener isGlobal l count).1 = usedBytes l + pushed l count := by
  rw [h.used_push hin, add64_small hsum]
  exact distance_add h.rd h.wr hk

/-- The sum loses `2 ^ 64`. -/
theorem used_overflow (count : Nat) (hin : isGlobal = true ∨ l.id ≠ listenerEmpty) (h : Placed l)
    (hk : pushed l count < l.bufsz) (hsum : 2 ^ 64 ≤ l.bufferWrOffset + pushed l count) :
    usedBytes (hpcapPushListener isGlobal l count).1 =
      distance l.bufferRdOffset (l.bufferWrOffset + pushed l count - 2 ^ 64) l.bufsz := by
  have hwr := h.wr
  have hsize := h.size
  have hadd : add64 l.bufferWrOffset (pushed l count) =
      l.bufferWrOffset + pushed l count - 2 ^ 64 := by
    rw [add64]
    omega
  rw [h.used_push hin, hadd, Nat.mod_eq_of_lt (by omega)]

theorem after_lt (hin : isGlobal = true ∨ l.id ≠ listenerEmpty) (h : Placed l) :
    usedBytes (hpcapPushListener isGlobal l count).1 ≤ l.bufsz - 1 := by
  have hrd := h.rd
  have hafter : Placed (hpcapPushListener isGlobal l count).1 := by
    rw [push_eq (by omega) hin]
    exact ⟨h.rd, Nat.mod_lt _ (by omega), h.size⟩
  have hlt := hafter.usedBytes_lt
  rw [push_eq (by omega) hin] at hlt ⊢
  exact Nat.le_sub_one_of_lt hlt

theorem fits_iff (hin : isGlobal = true ∨ l.id ≠ listenerEmpty) (h : Placed l)
    (hc : count ≤ availBytes l) :
    Pushed isGlobal l count ↔ l.bufferWrOffset + count < 2 ^ 64 := by
  have havail := h.availBytes_eq
  have hused := h.usedBytes_lt
  have hsame := pushed_fits hc
  by_cases hsum : l.bufferWrOffset + count < 2 ^ 64
  · have hgrow := h.used_small count hin (by omega) (by omega)
    refine iff_of_true ⟨?_, h.after_lt hin, fun _ => ?_⟩ hsum
    · omega
    · rw [hgrow, hsame]
  · have hlost := h.used_overflow count hin (by omega) (by omega)
    refine iff_of_false (fun hp => ?_) hsum
    have hgrow := hp.2.2 hc
    have hrd := h.rd
    have hwr := h.wr
    have hsize := h.size
    have hbefore := distance_cases l.bufferRdOffset l.bufferWrOffset l.bufsz
    have hafter := distance_cases l.bufferRdOffset (l.bufferWrOffset + count - 2 ^ 64) l.bufsz
    rw [hlost, hsame] at hgrow
    rw [usedBytes] at hgrow havail
    omega

theorem cut_iff (hin : isGlobal = true ∨ l.id ≠ listenerEmpty) (h : Placed l)
    (hc : availBytes l < count) (hpos : 0 < availBytes l) :
    Pushed isGlobal l count ↔
      l.bufferWrOffset + availBytes l ≤ 2 ^ 64 ∨ usedBytes l + 2 + 2 ^ 64 ≤ 2 * l.bufsz := by
  have havail := h.availBytes_eq
  have hused := h.usedBytes_lt
  have hcut := h.pushed_cut hc hpos
  have hiff : Pushed isGlobal l count ↔
      usedBytes l ≤ usedBytes (hpcapPushListener isGlobal l count).1 :=
    ⟨fun hp => hp.1, fun hle => ⟨hle, h.after_lt hin, fun hroom => by omega⟩⟩
  rw [hiff]
  by_cases hsum : l.bufferWrOffset + availBytes l ≤ 2 ^ 64
  · have hgrow := h.used_small count hin (by omega) (by omega)
    exact iff_of_true (by omega) (.inl hsum)
  · have hlost := h.used_overflow count hin (by omega) (by omega)
    have hrd := h.rd
    have hwr := h.wr
    have hsize := h.size
    have hbefore := distance_cases l.bufferRdOffset l.bufferWrOffset l.bufsz
    have hafter := distance_cases l.bufferRdOffset
      (l.bufferWrOffset + (availBytes l - 1) - 2 ^ 64) l.bufsz
    rw [hlost, hcut, or_iff_right hsum]
    rw [usedBytes] at hused havail ⊢
    omega

/-- The offset goes one back, or to where all ones lead from offset 0. -/
theorem full_iff (hin : isGlobal = true ∨ l.id ≠ listenerEmpty) (h : Placed l)
    (hc : availBytes l < count) (hfull : availBytes l = 0) :
    Pushed isGlobal l count ↔ l.bufferWrOffset = 0 ∧ l.bufsz ∣ 2 ^ 64 - 1 := by
  have havail := h.availBytes_eq
  have hused := h.usedBytes_lt
  have hrd := h.rd
  have hwr := h.wr
  have hsize := h.size
  have hiff : Pushed isGlobal l count ↔
      usedBytes l ≤ usedBytes (hpcapPushListener isGlobal l count).1 :=
    ⟨fun hp => hp.1, fun hle => ⟨hle, h.after_lt hin, fun hroom => by omega⟩⟩
  have hbefore := distance_cases l.bufferRdOffset l.bufferWrOffset l.bufsz
  rw [hiff, h.used_push hin, pushed_full hc hfull]
  by_cases hzero : l.bufferWrOffset = 0
  · have hsum : add64 l.bufferWrOffset (2 ^ 64 - 1) = 2 ^ 64 - 1 := by
      rw [hzero]
      rfl
    have hx := Nat.mod_lt (2 ^ 64 - 1) (show 0 < l.bufsz by omega)
    rw [hsum, and_iff_right hzero, Nat.dvd_iff_mod_eq_zero]
    generalize (2 ^ 64 - 1) % l.bufsz = x at hx ⊢
    have hafter := distance_cases l.bufferRdOffset x l.bufsz
    rw [usedBytes] at hused havail ⊢
    omega
  · have hsum : add64 l.bufferWrOffset (2 ^ 64 - 1) = l.bufferWrOffset - 1 := by
      rw [add64]
      omega
    rw [hsum, Nat.mod_eq_of_lt (show l.bufferWrOffset - 1 < l.bufsz by omega)]
    refine iff_of_false (fun hle => ?_) fun hp => hzero hp.1
    have hafter := distance_cases l.bufferRdOffset (l.bufferWrOffset - 1) l.bufsz
    rw [usedBytes] at hused havail hle
    omega

end Placed

/-- A slot with the empty id holds no listener and is left alone. The offset of any other is
moved as it should exactly if the push is one that the arithmetic bears. -/
theorem push_grows (isGlobal : Bool) (l : Listener) (count : Nat) (h : Placed l) :
    (isGlobal = true ∨ l.id ≠ listenerEmpty → (Pushed isGlobal l count ↔ Pushable l count)) ∧
      (¬ (isGlobal = true ∨ l.id ≠ listenerEmpty) →
        (hpcapPushListener isGlobal l count).1 = l) := by
  refine ⟨fun hin => ?_, push_empty⟩
  have hwr := h.wr
  have hsize := h.size
  by_cases hc : count ≤ availBytes l
  · rw [h.fits_iff hin hc, Pushable]
    omega
  · by_cases hpos : 0 < availBytes l
    · rw [h.cut_iff hin (by omega) hpos, Pushable]
      omega
    · have hfull : availBytes l = 0 := by omega
      rw [h.full_iff hin (by omega) hfull, Pushable]
      omega

theorem push_grows_cut :
    Pushed false ⟨1, false, 100, 0, 4096⟩ 5000 :=
  ((push_grows false ⟨1, false, 100, 0, 4096⟩ 5000 ⟨by decide, by decide, by decide⟩).1
    (by decide)).mpr (.inr (.inr (.inl ⟨by decide, by decide, .inl (by decide)⟩)))

/-- One more byte for a listener without room: its write offset moves back. -/
theorem push_into_full :
    Placed ⟨1, false, 4095, 0, 4096⟩ ∧ usedBytes ⟨1, false, 4095, 0, 4096⟩ = 4095 ∧
      usedBytes (hpcapPushListener false ⟨1, false, 4095, 0, 4096⟩ 1).1 = 4094 ∧
      ¬ Pushed false ⟨1, false, 4095, 0, 4096⟩ 1 :=
  ⟨⟨by decide, by decide, by decide⟩, by decide, by decide, fun h => absurd h.1 (by decide)⟩

end Push

section PopGlobal

variable {t : Table}

/-- How far the listener has read beyond the global read offset. -/
def ahead (t : Table) (l : Listener) : Nat :=
  distance t.global.bufferRdOffset l.bufferRdOffset t.global.bufsz

/-- The global read offset is moved to a slowest listener, whose distance is returned. -/
def PopsToSlowest (t : Table) : Prop :=
  ∃ l ∈ t.listeners, l.id ≠ listenerEmpty ∧
    (∀ m ∈ t.listeners, m.id ≠ listenerEmpty → ahead t l ≤ ahead t m) ∧
    (hpcapPopGlobalListener t).1.global.bufferRdOffset = l.bufferRdOffset ∧
    (hpcapPopGlobalListener t).2 = ahead t l

/-- Some listener is less than 2 GiB ahead, and none is less ahead than it as far as 32 bits
can tell. -/
def Tellable (t : Table) : Prop :=
  ∃ l ∈ t.listeners, l.id ≠ listenerEmpty ∧ ahead t l < 2 ^ 31 ∧
    ∀ m ∈ t.listeners, m.id ≠ listenerEmpty → ahead t l ≤ ahead t m % 2 ^ 32

/-- What the loop is left with is a lower bound, and one that is attained. -/
theorem nearest (t : Table) (ls : List Listener) (start : Nat) :
    let least := ls.foldl (nearer t.global) start
    (least = start ∨ ∃ l ∈ ls, l.id ≠ listenerEmpty ∧ least = signExtend (ahead t l % 2 ^ 32)) ∧
      least ≤ start ∧
      ∀ l ∈ ls, l.id ≠ listenerEmpty → least ≤ signExtend (ahead t l % 2 ^ 32) := by
  induction ls generalizing start with
  | nil => exact ⟨.inl rfl, le_rfl, by simp⟩
  | cons x xs ih =>
    obtain ⟨hone, hle, hall⟩ := ih (nearer t.global start x)
    have hx : x.id ≠ listenerEmpty ∧ nearer t.global start x = signExtend (ahead t x % 2 ^ 32) ∨
        nearer t.global start x = start ∧
          (x.id ≠ listenerEmpty → start ≤ signExtend (ahead t x % 2 ^ 32)) := by
      by_cases hid : x.id ≠ listenerEmpty
      · by_cases hlt : signExtend (ahead t x % 2 ^ 32) < start
        · exact .inl ⟨hid, by rw [nearer, if_pos hid]; exact if_pos hlt⟩
        · exact .inr ⟨by rw [nearer, if_pos hid]; exact if_neg hlt, fun _ => Nat.le_of_not_lt hlt⟩
      · exact .inr ⟨if_neg hid, fun h => absurd h hid⟩
    have hstart : nearer t.global start x ≤ start := by
      simp only [nearer]
      split
      · split <;> omega
      · exact le_rfl
    refine ⟨?_, hle.trans hstart, fun l hl hid => ?_⟩
    · obtain hone | ⟨l, hl, hid, hone⟩ := hone
      · obtain ⟨hid, hx⟩ | ⟨hx, -⟩ := hx
        · exact .inr ⟨x, List.mem_cons_self, hid, hone.trans hx⟩
        · exact .inl (hone.trans hx)
      · exact .inr ⟨l, List.mem_cons_of_mem x hl, hid, hone⟩
    · obtain rfl | hl := List.mem_cons.mp hl
      · obtain ⟨-, hx⟩ | ⟨hx, hbound⟩ := hx
        · exact hle.trans hx.le
        · exact (hle.trans hx.le).trans (hbound hid)
      · exact hall l hl hid

theorem le_signExtend (c : Nat) : c ≤ signExtend c := by
  rw [signExtend]
  split <;> omega

theorem signExtend_le {c : Nat} (h : signExtend c ≤ 2 ^ 63) : c < 2 ^ 31 ∧ signExtend c = c := by
  rw [signExtend] at h ⊢
  split at h
  · rename_i hc
    exact ⟨hc, if_pos hc⟩
  · omega

def leastAhead (t : Table) : Nat := t.listeners.foldl (nearer t.global) (t.global.bufsz + 1)

theorem leastAhead_spec (t : Table) :
    (leastAhead t = t.global.bufsz + 1 ∨
        ∃ l ∈ t.listeners, l.id ≠ listenerEmpty ∧ leastAhead t = signExtend (ahead t l % 2 ^ 32)) ∧
      ∀ l ∈ t.listeners, l.id ≠ listenerEmpty → leastAhead t ≤ signExtend (ahead t l % 2 ^ 32) := by
  obtain ⟨hone, -, hall⟩ := nearest t t.listeners (t.global.bufsz + 1)
  exact ⟨hone, hall⟩

theorem popGlobal_moves (h : leastAhead t ≤ t.global.bufsz) (hpos : 0 < leastAhead t) :
    (hpcapPopGlobalListener t).1.global.bufferRdOffset =
        (t.global.bufferRdOffset + leastAhead t) % t.global.bufsz ∧
      (hpcapPopGlobalListener t).2 = leastAhead t := by
  simp only [hpcapPopGlobalListener]
  rw [if_pos ⟨h, hpos⟩]
  exact ⟨rfl, rfl⟩

theorem popGlobal_stays (h : ¬ (leastAhead t ≤ t.global.bufsz ∧ 0 < leastAhead t)) :
    hpcapPopGlobalListener t = (t, 0) := by
  simp only [hpcapPopGlobalListener]
  exact if_neg h

/-- The global listener goes to the slowest one exactly if 32 bits tell which that is. -/
theorem popGlobal_slowest (t : Table) (hsize : t.global.bufsz ≤ 2 ^ 63)
    (hglobal : t.global.bufferRdOffset < t.global.bufsz)
    (hrd : ∀ l ∈ t.listeners, l.id ≠ listenerEmpty → l.bufferRdOffset < t.global.bufsz) :
    PopsToSlowest t ↔ Tellable t := by
  obtain ⟨hone, hall⟩ := leastAhead_spec t
  constructor
  · rintro ⟨l, hl, hid, hslow, -, hret⟩
    by_cases hmove : leastAhead t ≤ t.global.bufsz ∧ 0 < leastAhead t
    · rw [(popGlobal_moves hmove.1 hmove.2).2] at hret
      obtain hone | ⟨k, -, -, hone⟩ := hone
      · omega
      obtain ⟨hsmall, hsame⟩ := signExtend_le (c := ahead t k % 2 ^ 32) (by omega)
      refine ⟨l, hl, hid, by omega, fun m hm hmid => ?_⟩
      have hbound := hall m hm hmid
      rw [signExtend] at hbound
      split at hbound <;> omega
    · rw [popGlobal_stays hmove] at hret
      exact ⟨l, hl, hid, by omega, fun m _ _ => by omega⟩
  · rintro ⟨l, hl, hid, hsmall, hslow⟩
    have hlrd := hrd l hl hid
    have hcases := distance_cases t.global.bufferRdOffset l.bufferRdOffset t.global.bufsz
    change _ ∧ ahead t l = _ ∨ _ ∧ ahead t l = _ at hcases
    have hleast : leastAhead t = ahead t l := by
      have hle := hall l hl hid
      rw [signExtend_small hsmall] at hle
      obtain hone | ⟨k, hk, hkid, hone⟩ := hone
      · omega
      · have hge := hslow k hk hkid
        have hext := le_signExtend (ahead t k % 2 ^ 32)
        omega
    have hslowest : ∀ m ∈ t.listeners, m.id ≠ listenerEmpty → ahead t l ≤ ahead t m :=
      fun m hm hmid => (hslow m hm hmid).trans (Nat.mod_le _ _)
    refine ⟨l, hl, hid, hslowest, ?_⟩
    by_cases hpos : 0 < leastAhead t
    · obtain ⟨hmoved, hret⟩ := popGlobal_moves (by omega) hpos
      refine ⟨?_, hret.trans hleast⟩
      rw [hmoved, hleast]
      have hmod := mod_of_lt_two_mul
        (show t.global.bufferRdOffset + ahead t l < 2 * t.global.bufsz by omega)
      omega
    · rw [popGlobal_stays fun h => hpos h.2]
      dsimp only
      omega

/-- An 8 GiB buffer that holds 6 GiB, of which a client has read 2 GiB. -/
def largeTable : Table where
  listeners := [⟨1, false, 6442450944, 2147483648, 8589934592⟩]
  global := ⟨0, false, 6442450944, 0, 8589934592⟩
  listenersCount := 1
  alreadyPopped := true
  log := []

/-- The 2 GiB are a negative `int`, and nothing is freed. -/
theorem popGlobal_large :
    (∀ l ∈ largeTable.listeners, l.id ≠ listenerEmpty ∧ l.bufferRdOffset < 8589934592 ∧
        ahead largeTable l ≤ usedBytes largeTable.global) ∧
      (hpcapPopGlobalListener largeTable).1.global.bufferRdOffset = 0 ∧
      (hpcapPopGlobalListener largeTable).2 = 0 ∧ ¬ PopsToSlowest largeTable := by
  refine ⟨by decide, by decide, by decide, ?_⟩
  rintro ⟨l, hl, -, -, hrd, -⟩
  obtain rfl := List.mem_singleton.mp hl
  exact absurd hrd (by decide)

/-- The same buffer with two clients, the first of which has read less. -/
theorem popGlobal_slowest_two :
    PopsToSlowest { largeTable with listeners :=
      [⟨1, false, 6442450944, 4096, 8589934592⟩, ⟨2, false, 6442450944, 8192, 8589934592⟩] } :=
  (popGlobal_slowest _ (by decide) (by decide) (by decide)).mpr
    ⟨_, List.mem_cons_self, by decide, by decide, by decide⟩

end PopGlobal

end Hpcap.Advance
