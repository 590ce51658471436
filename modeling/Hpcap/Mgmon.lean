import Hpcap.Loops
import Hpcap.ReadPacket
import Mathlib.Logic.Relation

namespace Hpcap.Mgmon

open Hpcap.Patch Hpcap.CircularBuffer Hpcap.Reservation Hpcap.Client Hpcap.ReadPacket Hpcap.Loops
  Relation

/-- A pass of the inner loop of `mgmon_packet_online_loop` that does not abort, from one
handle to the next. The driver goes on writing to the buffer, which each call finds anew. -/
def Pass (h h' : Handle) : Prop :=
  h.acks < h.avail ∧ ∃ buf auxbuf stack o,
    hpcapReadPacket buf h auxbuf true stack = some o ∧ o.handle = h'

/-- Each call that the inner loop gets to from `h` makes progress or ends the loop, and the
loop ends. -/
structure Terminates (h : Handle) : Prop where
  progress : ∀ h₁ h₂, ReflTransGen Pass h h₁ → Pass h₁ h₂ → h₁.acks < h₂.acks ∨ h₂.avail ≤ h₂.acks
  ends : Acc (fun h' h => Pass h h') h

/-- From so many bytes on, the captured length of a header can carry their sum over `2 ^ 64`. -/
abbrev wrapFrom : Nat := 2 ^ 64 - (rawHlen + 65535)

/-- There is nothing to read, or at least a header, and no captured length is taken for one
that fits. -/
def Steady (h : Handle) : Prop :=
  h.avail ≤ h.acks ∨ rawHlen ≤ h.avail ∧
    (h.avail ≤ wrapFrom ∨ h.acks < wrapFrom ∧ h.avail ≤ h.acks + rawHlen)

instance (h : Handle) : Decidable (Steady h) :=
  inferInstanceAs (Decidable (_ ∨ _ ∧ (_ ∨ _ ∧ _)))

/-- A handle of a mapped buffer. -/
structure Mapped (h : Handle) : Prop where
  acks_lt : h.acks < 2 ^ 64
  avail_lt : h.avail < 2 ^ 64
  rdoff_lt : h.rdoff < h.bufSize
  size_ge : pageSize ≤ h.bufSize

theorem wrapFrom_add : wrapFrom + 65547 = 2 ^ 64 := rfl

section Reading

variable {buf : Nat → UInt8} {s s' : Loop} {h h' : Handle}

/-- What a pass does to the counters, as long as no captured length carries them over. -/
theorem pass_counts (hroom : s.handle.acks + s.acks < wrapFrom) (hp : ReadPacket.pass buf s = some s') :
    s'.handle.acks = s.handle.acks ∧
      s.handle.acks + s.acks + rawHlen + (headerOf s'.rawh).caplen.toNat ≤ s.handle.avail ∧
      s'.acks = s.acks + rawHlen + if s'.hasPadding then (headerOf s'.rawh).caplen.toNat else 0 := by
  have hraw : rawHlen = 12 := rfl
  have hfrom := wrapFrom_add
  have hcaplen := (headerOf (copyFromCircBuffer buf s.offs s.handle.bufSize s.rawh
    rawHlen).1).caplen.toNat_lt
  have hhead : add64 s.acks rawHlen = s.acks + rawHlen := add64_small (by omega)
  have hsum : add64 s.handle.acks (s.acks + rawHlen) = s.handle.acks + (s.acks + rawHlen) :=
    add64_small (by omega)
  simp only [ReadPacket.pass, hhead, hsum] at hp
  obtain ⟨hfit, hp⟩ := Option.ite_none_left_eq_some.mp hp
  rw [add64_small (by omega)] at hfit
  split at hp
  · cases hp
    refine ⟨advanceRdoffTo_acks _ _, ?_, ?_⟩
    · dsimp only
      omega
    · rw [if_pos rfl]
      exact add64_small (by omega)
  · cases hp
    refine ⟨rfl, ?_, rfl⟩
    dsimp only
    omega

/-- The loop that skips the paddings stops where it reads no more headers, or at a packet
that fits. -/
theorem paddingLoop_counts {n : Nat} (hroom : s.handle.acks + s.acks < wrapFrom)
    (hsteady : s.handle.avail ≤ wrapFrom ∨ s.handle.avail ≤ s.handle.acks + s.acks + rawHlen)
    (hp : paddingLoop buf n s = some s') :
    s'.hasPadding = true ∧ ¬ HasNext s' ∨
      s'.handle.acks = s.handle.acks ∧ s'.handle.avail = s.handle.avail ∧
        s.acks + rawHlen ≤ s'.acks ∧
        s.handle.acks + s'.acks + (headerOf s'.rawh).caplen.toNat ≤ s.handle.avail := by
  have hraw : rawHlen = 12 := rfl
  have hfrom := wrapFrom_add
  induction n generalizing s with
  | zero => cases hp
  | succ n ih =>
    obtain ⟨t, ht, hp⟩ := Option.bind_eq_some_iff.mp hp
    obtain ⟨hacks, hfit, hcount⟩ := pass_counts hroom ht
    have havail := pass_avail ht
    split at hp
    · rename_i hgo
      have hnext := hgo.2
      rw [hgo.1, if_pos rfl] at hcount
      have hsum : add64 t.handle.acks t.acks = t.handle.acks + t.acks := add64_small (by omega)
      rw [HasNext, hsum, add64_small (by omega)] at hnext
      obtain hend | ⟨hacks', havail', hle, hfit'⟩ := ih (by omega) (by omega) hp
      · exact .inl hend
      · exact .inr ⟨hacks'.trans hacks, havail'.trans havail, by omega, by omega⟩
    · rename_i hno
      cases hp
      by_cases hpad : s'.hasPadding
      · exact .inl ⟨hpad, fun hnext => hno ⟨hpad, hnext⟩⟩
      · rw [if_neg hpad] at hcount
        exact .inr ⟨hacks, havail, by omega, by omega⟩

theorem Steady.pass (hs : Steady h) (hp : Pass h h') :
    h.acks + rawHlen ≤ h'.acks ∧ h'.acks ≤ h.avail ∧ h'.avail = h.avail := by
  obtain ⟨hlt, buf, auxbuf, stack, o, ho, rfl⟩ := hp
  obtain hle | ⟨hhead, hwrap⟩ := hs
  · exact absurd hlt (Nat.not_lt.mpr hle)
  · have hraw : rawHlen = 12 := rfl
    have hfrom := wrapFrom_add
    rw [hpcapReadPacket, if_neg (by omega), if_neg (by omega)] at ho
    obtain ⟨t, ht, ho⟩ := Option.bind_eq_some_iff.mp ho
    obtain ⟨hgo, ho⟩ := Option.ite_none_left_eq_some.mp ho
    cases ho
    obtain hend | ⟨hacks, havail, hle, hfit⟩ := paddingLoop_counts
      (s := ⟨h, h.rdoff, 0, stack, 0, false⟩) (by dsimp only; omega) (by dsimp only; omega) ht
    · exact absurd hend hgo
    · dsimp only at hacks havail hle hfit
      have hcall := @packetData_handle buf true auxbuf t
      have hsum : add64 t.acks (headerOf t.rawh).caplen.toNat =
          t.acks + (headerOf t.rawh).caplen.toNat := add64_small (by omega)
      rw [hsum] at hcall
      have hacks' : (packetData buf true auxbuf t).handle.acks =
          h.acks + (t.acks + (headerOf t.rawh).caplen.toNat) := by
        rw [hcall, hacks]
        exact add64_small (by omega)
      have havail' : (packetData buf true auxbuf t).handle.avail = h.avail := by
        rw [hcall]
        exact havail
      exact ⟨by omega, by omega, havail'⟩

theorem Steady.next (hs : Steady h) (hp : Pass h h') : Steady h' := by
  obtain ⟨hle, hfit, havail⟩ := hs.pass hp
  obtain hdone | ⟨hhead, hsmall | ⟨-, hlast⟩⟩ := hs
  · exact .inl (by omega)
  · exact .inr ⟨by omega, .inl (by omega)⟩
  · exact .inl (by omega)

theorem Steady.reaches (hs : Steady h) (hr : ReflTransGen Pass h h') : Steady h' := by
  induction hr with
  | refl => exact hs
  | tail _ hp ih => exact ih.next hp

theorem Steady.terminates (hs : Steady h) : Terminates h where
  progress h₁ h₂ hr hp := by
    obtain ⟨hle, -, -⟩ := (hs.reaches hr).pass hp
    exact .inl (Nat.lt_of_lt_of_le (Nat.lt_add_of_pos_right (by decide)) hle)
  ends := by
    refine acc_of_measure Steady (fun h => h.avail - h.acks) (fun h₁ h₂ hs hp => ?_) hs
    obtain ⟨hle, hfit, havail⟩ := hs.pass hp
    have hraw : rawHlen = 12 := rfl
    exact ⟨hs.next hp, by omega⟩

/-- The bytes of `m` from `off` on, and those before it again at the start. -/
def twice (m : Nat → UInt8) (off : Nat) : Nat → UInt8 :=
  fun j => if off ≤ j then m (j - off) else m j

/-- The twelve bytes of a header, whether or not it runs over the end. -/
theorem copied_twice {size off i : Nat} (hsize : 2 * rawHlen ≤ size) (m : Nat → UInt8)
    (hi : i < rawHlen) : (copyFromCircBuffer (twice m off) off size m rawHlen).1 i = m i := by
  rcases Nat.lt_or_ge size (off + rawHlen) with hw | hw
  · rw [copyFromCircBuffer_wraps _ _ hw]
    split
    · rw [twice, if_neg (by omega)]
    · split
      · rw [twice, if_pos (by omega), Nat.add_sub_cancel_left]
      · rfl
  · rw [copyFromCircBuffer, if_neg (by omega)]
    have hl : i < (slice (twice m off) off rawHlen).length := by rwa [slice_length]
    have hread := patch_at (m := m) (a := 0) hl
    rw [slice_getElem, twice, if_pos (by omega), Nat.add_sub_cancel_left, Nat.zero_add] at hread
    exact hread

theorem headerOf_twice {size : Nat} (hsize : 2 * rawHlen ≤ size) (off : Nat) (m : Nat → UInt8) :
    headerOf (copyFromCircBuffer (twice m off) off size m rawHlen).1 = headerOf m := by
  refine congrArg RawHeader.ofBytes (slice_congr fun i _ hi => ?_)
  exact copied_twice hsize m (by omega)

theorem pass_packet {hd : RawHeader} (hsec : hd.sec ≠ 0)
    (hread : headerOf (copyFromCircBuffer buf s.offs s.handle.bufSize s.rawh rawHlen).1 = hd)
    (hfit : add64 (add64 s.handle.acks (add64 s.acks rawHlen)) hd.caplen.toNat ≤ s.handle.avail) :
    ∃ s', ReadPacket.pass buf s = some s' ∧ s'.hasPadding = false ∧ s'.handle = s.handle ∧
      s'.acks = add64 s.acks rawHlen ∧ headerOf s'.rawh = hd := by
  simp only [ReadPacket.pass, hread]
  rw [if_neg (Nat.not_lt.mpr hfit), if_neg fun hzero => hsec hzero.1]
  exact ⟨_, rfl, rfl, rfl, rfl, hread⟩

/-- A call that reads the header of a packet that seems to fit delivers it. -/
theorem Mapped.pass_packet (hd : RawHeader) {stack : Nat → UInt8} (hm : Mapped h)
    (hlt : h.acks < h.avail) (hhead : rawHlen ≤ h.avail) (hsec : hd.sec ≠ 0)
    (hread : headerOf (copyFromCircBuffer buf h.rdoff h.bufSize stack rawHlen).1 = hd)
    (hfit : add64 h.acks (rawHlen + hd.caplen.toNat) ≤ h.avail) :
    ∃ h', Pass h h' ∧ Mapped h' ∧ h'.avail = h.avail ∧
      h'.acks = add64 h.acks (rawHlen + hd.caplen.toNat) := by
  have hraw : rawHlen = 12 := rfl
  have hcaplen := hd.caplen.toNat_lt
  have hpos : 0 < h.bufSize := Nat.zero_lt_of_lt hm.rdoff_lt
  have hlen : add64 0 rawHlen = rawHlen := rfl
  obtain ⟨s, hs, hpad, hhandle, hacks, hhd⟩ := Mgmon.pass_packet
    (s := ⟨h, h.rdoff, 0, stack, 0, false⟩) hsec hread (by rwa [hlen, add64_assoc])
  rw [hlen] at hacks
  have hloop : paddingLoop buf 4 ⟨h, h.rdoff, 0, stack, 0, false⟩ = some s := by
    rw [paddingLoop, hs, Option.bind_some, if_neg (by simp [hpad])]
  have hcall : hpcapReadPacket buf h stack true stack = some (packetData buf true stack s) := by
    rw [hpcapReadPacket, if_neg (by omega), if_neg (by omega), hloop, Option.bind_some,
      if_neg (by simp [hpad])]
  have hsum : add64 rawHlen hd.caplen.toNat = rawHlen + hd.caplen.toNat := add64_small (by omega)
  have hdata := @packetData_handle buf true stack s
  rw [hhandle, hacks, hhd, hsum] at hdata
  refine ⟨_, ⟨hlt, buf, stack, stack, _, hcall, hdata⟩, ⟨?_, hm.avail_lt, ?_, hm.size_ge⟩, rfl, rfl⟩
  · exact Nat.mod_lt _ (by decide)
  · exact Nat.mod_lt _ hpos

/-- A call can come upon a packet of any captured length. -/
theorem Mapped.exists_pass (hm : Mapped h) (hlt : h.acks < h.avail) (hhead : rawHlen ≤ h.avail)
    (caplen : UInt16) (hfit : add64 h.acks (rawHlen + caplen.toNat) ≤ h.avail) :
    ∃ h', Pass h h' ∧ Mapped h' ∧ h'.avail = h.avail ∧
      h'.acks = add64 h.acks (rawHlen + caplen.toNat) := by
  have hstack : headerOf (patch (fun _ => 0) 0 (RawHeader.toBytes ⟨1, 0, caplen, caplen⟩)) =
      ⟨1, 0, caplen, caplen⟩ := by
    have hs := slice_patch (fun _ => (0 : UInt8)) 0 (RawHeader.toBytes ⟨1, 0, caplen, caplen⟩)
    rw [RawHeader.toBytes_length] at hs
    rw [headerOf, hs, RawHeader.ofBytes_toBytes]
  have hread := headerOf_twice (Nat.le_trans (by decide) hm.size_ge) h.rdoff
    (patch (fun _ => 0) 0 (RawHeader.toBytes ⟨1, 0, caplen, caplen⟩))
  exact hm.pass_packet ⟨1, 0, caplen, caplen⟩ hlt hhead (by simp) (hread.trans hstack) hfit

/-- Where a captured length can carry the sum over `2 ^ 64`, a call can set `acks` back. -/
theorem Mapped.exists_setback (hm : Mapped h) (hle : wrapFrom ≤ h.acks) (hlt : h.acks < h.avail) :
    ∃ h', Pass h h' ∧ ¬ (h.acks < h'.acks ∨ h'.avail ≤ h'.acks) := by
  have hfrom := wrapFrom_add
  have hacks := hm.acks_lt
  have hraw : rawHlen = 12 := rfl
  have hsum : add64 h.acks (rawHlen + (65535 : UInt16).toNat) = h.acks - wrapFrom := by
    have hmax : (65535 : UInt16).toNat = 65535 := rfl
    rw [add64, Nat.mod_eq_sub_mod (by omega), Nat.mod_eq_of_lt (by omega)]
    omega
  obtain ⟨h', hp, -, havail, hback⟩ := hm.exists_pass hlt (by omega) 65535 (by omega)
  exact ⟨h', hp, by omega⟩

/-- Packets lead there, unless nothing but a header goes in front of it. -/
theorem Mapped.climbs (hm : Mapped h) (hlt : h.acks < h.avail) (hbig : wrapFrom < h.avail)
    (hroom : h.acks < wrapFrom → h.acks + rawHlen < h.avail) :
    ∃ h', ReflTransGen Pass h h' ∧ Mapped h' ∧ wrapFrom ≤ h'.acks ∧ h'.acks < h'.avail := by
  have hraw : rawHlen = 12 := rfl
  induction hdist : wrapFrom - h.acks using Nat.strongRecOn generalizing h with
  | _ k ih =>
    by_cases hthere : wrapFrom ≤ h.acks
    · exact ⟨h, .refl, hm, hthere, hlt⟩
    · -- a header alone, unless a packet gets there
      have hnext : ∃ caplen : UInt16, h.acks + rawHlen + caplen.toNat < h.avail ∧
          (h.acks + rawHlen + caplen.toNat < wrapFrom →
            h.acks + rawHlen + caplen.toNat + rawHlen < h.avail) := by
        by_cases hnear : wrapFrom < h.acks + rawHlen + 2 ^ 16
        · have hlen : (UInt16.ofNat (wrapFrom - (h.acks + rawHlen))).toNat =
              wrapFrom - (h.acks + rawHlen) := by
            rw [UInt16.toNat_ofNat']
            exact Nat.mod_eq_of_lt (by omega)
          exact ⟨.ofNat (wrapFrom - (h.acks + rawHlen)), by omega, by omega⟩
        · have hzero : (0 : UInt16).toNat = 0 := rfl
          exact ⟨0, by omega, by omega⟩
      obtain ⟨caplen, hfit, hroom'⟩ := hnext
      have havail := hm.avail_lt
      have hsum : add64 h.acks (rawHlen + caplen.toNat) = h.acks + (rawHlen + caplen.toNat) :=
        add64_small (by omega)
      obtain ⟨t, hp, ht, htavail, htacks⟩ := hm.exists_pass hlt (by omega) caplen (by omega)
      obtain ⟨h', hr, hm', hle, hlt'⟩ := ih (wrapFrom - t.acks) (by omega) ht (by omega) (by omega)
        (by omega) rfl
      exact ⟨h', .head hp hr, hm', hle, hlt'⟩

/-- A call with less than a header to read leaves the handle as it is. -/
theorem pass_short (hlt : h.acks < h.avail) (hshort : h.avail < rawHlen) : Pass h h := by
  refine ⟨hlt, fun _ => 0, fun _ => 0, fun _ => 0, ⟨0, .null, none, fun _ => 0, h⟩, ?_, rfl⟩
  rw [hpcapReadPacket, if_neg (Nat.not_le.mpr hlt), if_pos hshort]

theorem Terminates.steady (hm : Mapped h) (ht : Terminates h) : Steady h := by
  by_contra hno
  simp only [Steady, not_or, not_and_or, not_le, not_lt] at hno
  obtain ⟨hlt, hshort | ⟨hbig, hroom⟩⟩ := hno
  · have hp := ht.progress h h .refl (pass_short hlt hshort)
    omega
  · obtain ⟨h₁, hr, hm₁, hle, hlt₁⟩ := hm.climbs hlt hbig fun hbelow => by omega
    obtain ⟨h₂, hp, hback⟩ := hm₁.exists_setback hle hlt₁
    exact hback (ht.progress h₁ h₂ hr hp)

end Reading

variable (h : Handle)

theorem inner_loop_terminates_iff (hm : Mapped h) : Terminates h ↔ Steady h :=
  ⟨fun ht => ht.steady hm, Steady.terminates⟩

theorem inner_loop_terminates_iff_packet : Mapped ⟨0, 0, 76, 0, 8192⟩ ∧
    Steady ⟨0, 0, 76, 0, 8192⟩ ∧ Terminates ⟨0, 0, 76, 0, 8192⟩ := by
  have hm : Mapped ⟨0, 0, 76, 0, 8192⟩ := ⟨by decide, by decide, by decide, by decide⟩
  have hs : Steady ⟨0, 0, 76, 0, 8192⟩ := by decide
  exact ⟨hm, hs, (inner_loop_terminates_iff _ hm).mpr hs⟩

/-- The `timeout` of the online loop. -/
abbrev timeout : Nat := 5000000000

/-- Five bytes are pushed when the client waits. -/
def pushed : State where
  driver := ⟨⟨1, false, 5, 0, 8192⟩, false⟩
  handle := ⟨0, 0, 0, 0, 8192⟩
  consumed := 0

theorem short_wait_spins : ¬ ∀ s e s', hpcapAckWaitTimeout s 1 timeout e = some s' →
    Mapped s'.handle → Terminates s'.handle := by
  intro h
  have hwait : hpcapAckWaitTimeout pushed 1 timeout quiet =
      some { pushed with handle := ⟨0, 0, 5, 0, 8192⟩ } := by
    rfl
  have hm : Mapped ⟨0, 0, 5, 0, 8192⟩ := ⟨by decide, by decide, by decide, by decide⟩
  have ht := h pushed quiet _ hwait hm
  have hp := ht.progress _ _ .refl (pass_short (by decide) (by decide))
  exact absurd hp (by decide)

end Hpcap.Mgmon
