import Hpcap.RawHeader
import Mathlib.Data.Nat.ModEq
import Mathlib.Tactic.NormNum

namespace Hpcap.Reservation

/-- `size_t` subtraction. -/
def sub64 (a b : Nat) : Nat := (a + 2 ^ 64 - b) % 2 ^ 64

/-- `size_t` addition. -/
def add64 (a b : Nat) : Nat := (a + b) % 2 ^ 64

theorem add64_small {a b : Nat} (h : a + b < 2 ^ 64) : add64 a b = a + b := Nat.mod_eq_of_lt h

theorem add64_assoc (a b c : Nat) : add64 (add64 a b) c = add64 a (b + c) := by
  rw [add64, add64, add64, Nat.mod_add_mod, Nat.add_assoc]

theorem sub64_of_le {a b : Nat} (hle : b ≤ a) (ha : a < 2 ^ 64) : sub64 a b = a - b := by
  rw [sub64]
  omega

/-- An `int`, given by its 32 bits, assigned to a `size_t`. -/
def signExtend (c : Nat) : Nat := if c < 2 ^ 31 then c else c + (2 ^ 64 - 2 ^ 32)

/-- `atomic_add_return` on the 32 bits of an `atomic_t`. -/
def atomicAddReturn (v writeOff : Nat) : Nat := (writeOff + v) % 2 ^ 32

/-- `offset_dst` of `hpcap_rx`: the counter before the add, recovered from its
value `writeOff` after it. -/
def offsetDst (toWrite writeOff : Nat) : Nat := sub64 (signExtend writeOff) toWrite

/-- `new_offset` of `hpcap_poll`. -/
def newOffset (bufsize writeOff : Nat) : Nat := signExtend writeOff % bufsize

/-- The counter speaks for the stream position `t` modulo `n`: the sign
extension or the wrap to zero would have to change the residue. -/
def Exact (n t : Nat) : Prop :=
  n ∣ 2 ^ 32 ∨ t < 2 ^ 31 ∨ (n ∣ 2 ^ 64 - 2 ^ 32 ∧ t < 2 ^ 32)

instance (n t : Nat) : Decidable (Exact n t) :=
  inferInstanceAs (Decidable (n ∣ 2 ^ 32 ∨ t < 2 ^ 31 ∨ (n ∣ 2 ^ 64 - 2 ^ 32 ∧ t < 2 ^ 32)))

theorem Exact.mono {n t u : Nat} (h : Exact n u) (htu : t ≤ u) : Exact n t := by
  rcases h with h | h | ⟨h, h'⟩
  · exact .inl h
  · exact .inr (.inl (by omega))
  · exact .inr (.inr ⟨h, by omega⟩)

theorem Exact.of_dvd {n k t : Nat} (h : Exact n t) (hk : k ∣ n) : Exact k t :=
  h.imp hk.trans (Or.imp_right (And.imp_left hk.trans))

theorem modEq_of_dvd_diff {n a b d k : Nat} (hd : n ∣ d) (h : a = b + d * k) : a ≡ b [MOD n] := by
  have hk : d * k ≡ 0 [MOD n] := (Nat.modEq_zero_iff_dvd).mpr (hd.mul_right k)
  have hb := Nat.ModEq.add_left b hk
  rw [h]
  simpa using hb

theorem signExtend_small {t : Nat} (h : t < 2 ^ 31) : signExtend (t % 2 ^ 32) = t := by
  rw [Nat.mod_eq_of_lt (by omega), signExtend, if_pos h]

theorem signExtend_large {t : Nat} (h : 2 ^ 31 ≤ t) (h' : t < 2 ^ 32) :
    signExtend (t % 2 ^ 32) = t + (2 ^ 64 - 2 ^ 32) := by
  rw [Nat.mod_eq_of_lt h', signExtend, if_neg (by omega)]

theorem signExtend_modEq {n t : Nat} (h : Exact n t) : signExtend (t % 2 ^ 32) ≡ t [MOD n] := by
  rcases h with h | h | ⟨h, h'⟩
  · have ht : t % 2 ^ 32 ≡ t [MOD n] := (Nat.mod_modEq t (2 ^ 32)).of_dvd h
    simp only [signExtend]
    split
    · exact ht
    · exact (modEq_of_dvd_diff (k := 2 ^ 32 - 1) h (by norm_num)).trans ht
  · rw [signExtend_small h]
  · by_cases hs : t < 2 ^ 31
    · rw [signExtend_small hs]
    · rw [signExtend_large (by omega) h']
      exact modEq_of_dvd_diff (k := 1) h (by omega)

theorem offsetDst_modEq {n p w : Nat} (hw : w < 2 ^ 31) (h : Exact n (p + w)) :
    offsetDst w ((p + w) % 2 ^ 32) ≡ p [MOD n] := by
  have hs := signExtend_modEq h
  have hlt := Nat.mod_lt (p + w) (show 0 < 2 ^ 32 by norm_num)
  by_cases hge : w ≤ signExtend ((p + w) % 2 ^ 32)
  · have he : offsetDst w ((p + w) % 2 ^ 32) + w = signExtend ((p + w) % 2 ^ 32) := by
      have hb : signExtend ((p + w) % 2 ^ 32) < 2 ^ 64 := by unfold signExtend; split <;> omega
      unfold offsetDst sub64
      omega
    rw [← he] at hs
    exact Nat.ModEq.add_right_cancel' w hs
  · -- the counter wrapped to zero during this very reservation
    have hn : n ∣ 2 ^ 32 := by
      rcases h with h | h | ⟨_, h⟩
      · exact h
      · rw [signExtend_small h] at hge
        omega
      · simp only [signExtend] at hge
        rw [Nat.mod_eq_of_lt h] at hge
        split at hge <;> omega
    have he : offsetDst w ((p + w) % 2 ^ 32) + w =
        signExtend ((p + w) % 2 ^ 32) + 2 ^ 32 * 2 ^ 32 := by
      unfold offsetDst sub64
      omega
    have hm := (modEq_of_dvd_diff hn he).trans hs
    exact Nat.ModEq.add_right_cancel' w hm

/-- Adding to the recovered counter, as the padding of the next file does. -/
theorem offsetDst_add_modEq {n p w d : Nat} (hw : w < 2 ^ 31) (h : Exact n (p + w))
    (hd : Exact n (p + d)) : add64 (offsetDst w ((p + w) % 2 ^ 32)) d ≡ p + d [MOD n] := by
  have ho := Nat.ModEq.add_right d (offsetDst_modEq hw h)
  by_cases hn : n ∣ 2 ^ 32
  · have h64 : n ∣ 2 ^ 64 := hn.trans (pow_dvd_pow 2 (by decide))
    exact ((Nat.mod_modEq _ _).of_dvd h64).trans ho
  · -- the counter did not wrap to zero, so neither does the sum
    have hb : offsetDst w ((p + w) % 2 ^ 32) + d < 2 ^ 64 := by
      have hp : p + d < 2 ^ 32 := by
        obtain h | h | ⟨-, h⟩ := hd
        · exact absurd h hn
        · omega
        · exact h
      obtain h | h | ⟨-, h⟩ := h
      · exact absurd h hn
      · unfold offsetDst sub64
        rw [signExtend_small h]
        omega
      · have hs : signExtend ((p + w) % 2 ^ 32) ≤ p + w + (2 ^ 64 - 2 ^ 32) := by
          rw [Nat.mod_eq_of_lt h]
          simp only [signExtend]
          split <;> omega
        have hs' : w ≤ signExtend ((p + w) % 2 ^ 32) := by
          rw [Nat.mod_eq_of_lt h]
          simp only [signExtend]
          split <;> omega
        unfold offsetDst sub64
        omega
    rw [add64, Nat.mod_eq_of_lt hb]
    exact ho

/-- The offsets of consecutive reservations, each compared with the end of the
one before: where it starts in the buffer and in the file, and what
`hpcap_poll` then reads as the end of the data. -/
def Follow (bufsize filesize : Nat) : Nat → Nat → Nat → List Nat → Prop
  | _, _, _, [] => True
  | writeOff, bufEnd, fileEnd, toWrite :: rest =>
    let writeOff' := atomicAddReturn toWrite writeOff
    let bufStart := offsetDst toWrite writeOff' % bufsize
    let fileStart := offsetDst toWrite writeOff' % filesize
    bufStart = bufEnd ∧ fileStart = fileEnd ∧
      newOffset bufsize writeOff' = (bufStart + toWrite) % bufsize ∧
      Follow bufsize filesize writeOff' ((bufStart + toWrite) % bufsize)
        ((fileStart + toWrite) % filesize) rest

/-- One reservation from position `p` follows on exactly while the counter
still speaks for the position it ends at. -/
theorem follow_step_iff {b f p w : Nat} (hf : f ∣ 2 ^ 32) (hw : w < 2 ^ 31) (hp : Exact b p) :
    (offsetDst w ((p + w) % 2 ^ 32) % b = p % b ∧ offsetDst w ((p + w) % 2 ^ 32) % f = p % f ∧
      newOffset b ((p + w) % 2 ^ 32) = (offsetDst w ((p + w) % 2 ^ 32) % b + w) % b) ↔
      Exact b (p + w) := by
  constructor
  · rintro ⟨hb, -, hn⟩
    by_contra hne
    have hnd : ¬ b ∣ 2 ^ 32 := fun h => hne (.inl h)
    rw [hb, newOffset, Nat.mod_add_mod] at hn
    rcases hp with h | h | ⟨h, h'⟩
    · exact hnd h
    · -- the reservation that makes the counter negative
      have hge : 2 ^ 31 ≤ p + w := by
        by_contra hlt
        exact hne (.inr (.inl (by omega)))
      have ho : offsetDst w ((p + w) % 2 ^ 32) = p + (2 ^ 64 - 2 ^ 32) := by
        unfold offsetDst sub64
        rw [signExtend_large hge (by omega)]
        omega
      rw [ho] at hb
      have hd : b ∣ 2 ^ 64 - 2 ^ 32 := by
        have := (Nat.modEq_iff_dvd' (Nat.le_add_right p _)).mp (Eq.symm hb)
        rwa [Nat.add_sub_cancel_left] at this
      exact hne (.inr (.inr ⟨hd, by omega⟩))
    · -- the reservation that wraps the counter to zero
      have hge : 2 ^ 32 ≤ p + w := by
        by_contra hlt
        exact hne (.inr (.inr ⟨h, by omega⟩))
      have hm : (p + w) % 2 ^ 32 = p + w - 2 ^ 32 := by omega
      have hsm : p + w - 2 ^ 32 < 2 ^ 31 := by omega
      rw [hm, signExtend, if_pos hsm] at hn
      have := (Nat.modEq_iff_dvd' (Nat.sub_le (p + w) (2 ^ 32))).mp hn
      rw [Nat.sub_sub_self hge] at this
      exact hnd this
  · intro h
    have hb := offsetDst_modEq hw h
    refine ⟨hb, offsetDst_modEq hw (.inl hf), ?_⟩
    rw [Nat.mod_add_mod]
    exact (signExtend_modEq h).trans (Nat.ModEq.add_right w hb).symm

theorem follow_iff {b f p : Nat} {ws : List Nat} (hf : f ∣ 2 ^ 32) (hws : ∀ w ∈ ws, w < 2 ^ 31)
    (hp : Exact b p) :
    Follow b f (p % 2 ^ 32) (p % b) (p % f) ws ↔ Exact b (p + ws.sum) := by
  induction ws generalizing p with
  | nil => simpa [Follow] using hp
  | cons w ws ih =>
    have hw := hws w (by simp)
    have hc : atomicAddReturn w (p % 2 ^ 32) = (p + w) % 2 ^ 32 := by
      rw [atomicAddReturn, Nat.mod_add_mod]
    have hs := follow_step_iff hf hw hp
    simp only [Follow, hc]
    rw [List.sum_cons, ← Nat.add_assoc]
    constructor
    · rintro ⟨hb, hfile, hn, hrest⟩
      have he := hs.mp ⟨hb, hfile, hn⟩
      rw [hb, hfile, Nat.mod_add_mod, Nat.mod_add_mod] at hrest
      exact (ih (fun w' h => hws w' (by simp [h])) he).mp hrest
    · intro h
      have he : Exact b (p + w) := h.mono (Nat.le_add_right _ _)
      obtain ⟨hb, hfile, hn⟩ := hs.mpr he
      refine ⟨hb, hfile, hn, ?_⟩
      rw [hb, hfile, Nat.mod_add_mod, Nat.mod_add_mod]
      exact (ih (fun w' h => hws w' (by simp [h])) he).mpr h

/-- `PAGE_SIZE` and `HPCAP_BUF_SIZE`. -/
abbrev pageSize : Nat := 4096
abbrev hpcapBufSize : Nat := 1024 * 1024

/-- The buffer sizes the driver takes: a queue's share of the adapter's pages
(`hpcap_register_adapters`), or whatever `HPCAP_IOC_HUGE_MAP` passes. -/
inductive AcceptedBufsize : Nat → Prop
  | pages (bufpages numRxQueues : Nat) : 1 ≤ bufpages → bufpages * pageSize ≤ hpcapBufSize →
      1 ≤ numRxQueues → numRxQueues ≤ 16 → AcceptedBufsize (bufpages * pageSize / numRxQueues)
  | hugeMap (size : Nat) : 0 < size → AcceptedBufsize size

/-- Reservations follow on from one another, from the reset counter on, exactly
while the buffer size and the total reserved leave the counter meaningful. -/
theorem reservations_follow_iff (bufsize : Nat) (ws : List Nat) (hws : ∀ w ∈ ws, w < 2 ^ 31) :
    Follow bufsize hpcapFilesize 0 0 0 ws ↔
      bufsize ∣ 2 ^ 32 ∨ ws.sum < 2 ^ 31 ∨ (bufsize ∣ 2 ^ 64 - 2 ^ 32 ∧ ws.sum < 2 ^ 32) := by
  have h := follow_iff (b := bufsize) (f := hpcapFilesize) (p := 0) (by decide) hws
    (.inr (.inl (by norm_num)))
  simpa [Exact] using h

theorem reservations_follow_two_frames :
    (∀ w ∈ [72, 1526], w < 2 ^ 31) ∧ Follow 8192 hpcapFilesize 0 0 0 [72, 1526] :=
  ⟨by decide, (reservations_follow_iff 8192 [72, 1526] (by decide)).mpr (.inl (by decide))⟩

/-- Seven pages, and 2 GiB of frames of 2036 bytes: the counter turns negative
and the last reservation does not start where the one before it ended. -/
theorem seven_pages_do_not_follow :
    AcceptedBufsize (7 * pageSize / 1) ∧
      ¬ Follow (7 * pageSize / 1) hpcapFilesize 0 0 0 (List.replicate (2 ^ 20) (2036 + rawHlen)) := by
  refine ⟨.pages 7 1 (by decide) (by decide) (by decide) (by decide), fun h => ?_⟩
  have hw : ∀ w ∈ List.replicate (2 ^ 20) (2036 + rawHlen), w < 2 ^ 31 := by
    intro w hw
    rw [List.eq_of_mem_replicate hw]
    norm_num
  have h' := follow_iff (b := 7 * pageSize / 1) (f := hpcapFilesize) (p := 0) (by decide) hw
    (.inr (.inl (by norm_num)))
  rw [Nat.zero_mod, Nat.zero_mod, Nat.zero_mod] at h'
  rcases h'.mp h with h | h | ⟨h, -⟩
  · exact absurd h (by decide)
  · have hs : ∀ n, (0 + (List.replicate n (2036 + rawHlen)).sum) = n * (2036 + rawHlen) :=
      fun n => by rw [Nat.zero_add, List.sum_replicate_nat]
    rw [hs] at h
    norm_num at h
  · exact absurd h (by decide)

end Hpcap.Reservation
