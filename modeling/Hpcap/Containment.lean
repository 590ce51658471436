import Hpcap.Stream

namespace Hpcap.Containment

open Hpcap.Patch Hpcap.CircularBuffer Hpcap.Reservation Hpcap.Rx Hpcap.Stream

/-- The first position a call may write to when the counter stands at `p`: less than a header
behind the start of a file it also writes the padding missing there. -/
def firstWritten (cfg : Config) (p : Nat) : Nat :=
  if p % cfg.fileSize < rawHlen then p - p % cfg.fileSize else p

/-- The file boundary behind `p`. -/
def nextFile (cfg : Config) (p : Nat) : Nat := p + (cfg.fileSize - p % cfg.fileSize)

/-- A reservation that ends less than a header before the end of its file. -/
def EndsShort (cfg : Config) (r : Reserved) : Prop :=
  cfg.fileSize < (r.start + r.toWrite) % cfg.fileSize + rawHlen

/-- The buffer's bytes that a call from `p` on may have changed: of the stream up to the
counter, and the padding a short reservation puts at the start of the file behind it. -/
def Touchable (cfg : Config) (p : Nat) (t : Trace) (i : Nat) : Prop :=
  (∃ q, firstWritten cfg p ≤ q ∧ q < t.reserved ∧ i = q % cfg.bufSize) ∨
    ∃ r ∈ t.reservations, p ≤ r.start ∧ EndsShort cfg r ∧
      ∃ q, nextFile cfg (r.start + r.toWrite) ≤ q ∧
        q < nextFile cfg (r.start + r.toWrite) + rawHlen ∧ i = q % cfg.bufSize

theorem Touchable.mono {cfg : Config} {p i : Nat} {t t' : Trace} (h : Touchable cfg p t i)
    (hle : t.reserved ≤ t'.reserved) (hsub : t.reservations ⊆ t'.reservations) :
    Touchable cfg p t' i := by
  obtain ⟨q, hlo, hhi, he⟩ | ⟨r, hr, hrest⟩ := h
  · exact .inl ⟨q, hlo, hhi.trans_le hle, he⟩
  · exact .inr ⟨r, hsub hr, hrest⟩

/-- What the padding of a reservation changes, the reservation being in the trace. -/
def PadsTouch (cfg : Config) (p : Nat) (t : Trace) (pads : List Pad) : Prop :=
  ∀ pad ∈ pads, pad.offset = pad.pos % cfg.bufSize ∧
    (rawHlen ≤ pad.padlen → ∀ q, pad.pos ≤ q → q < pad.pos + rawHlen →
      Touchable cfg p t (q % cfg.bufSize))

section Reserve

variable {cfg : Config} {p w : Nat}

theorem firstWritten_le (cfg : Config) (p : Nat) : firstWritten cfg p ≤ p := by
  simp only [firstWritten]
  split <;> omega

/-- Less than a header behind the start of a file the padding goes to that start. -/
theorem reserve_late (hb : cfg.bufSize ∣ cfg.fileSize) (hw : w < 2 ^ 31)
    (he : Exact cfg.fileSize (p + w)) (hfit : p % cfg.fileSize + w + rawHlen ≤ cfg.fileSize)
    (hlate : 0 < p % cfg.fileSize ∧ p % cfg.fileSize < rawHlen) :
    ∃ padlen, reserve cfg p (p % 2 ^ 32) w = ⟨(p + w) % 2 ^ 32, p % cfg.bufSize, padlen,
      [⟨(p - p % cfg.fileSize) % cfg.bufSize, p - p % cfg.fileSize, padlen⟩]⟩ := by
  have hc : atomicAddReturn w (p % 2 ^ 32) = (p + w) % 2 ^ 32 := by
    rw [atomicAddReturn, Nat.mod_add_mod]
  have hmod := offsetDst_modEq hw he
  have hdst : asFileOffset cfg (offsetDst w ((p + w) % 2 ^ 32)) = p % cfg.fileSize := hmod
  have hbuf : asBufferOffset cfg (offsetDst w ((p + w) % 2 ^ 32)) = p % cfg.bufSize :=
    hmod.of_dvd hb
  -- both are at the start of a file, and of a lap of the buffer
  have hstart : ∀ x, x % cfg.fileSize = p % cfg.fileSize →
      (x - p % cfg.fileSize) % cfg.bufSize = 0 := by
    intro x hx
    rw [← hx]
    exact Nat.mod_eq_zero_of_dvd (hb.trans (Nat.dvd_sub_mod x))
  have hpad : asBufferOffset cfg (offsetDst w ((p + w) % 2 ^ 32) - p % cfg.fileSize) =
      (p - p % cfg.fileSize) % cfg.bufSize := by
    rw [hstart p rfl]
    exact hstart _ hdst
  simp only [reserve, hc, hdst, hbuf]
  rw [if_neg (by omega), if_pos hlate, hpad]
  exact ⟨_, rfl⟩

theorem reserve_touches (hb : cfg.bufSize ∣ cfg.fileSize) (hF : cfg.fileSize ∣ 2 ^ 31)
    (hmin : rawHlen ≤ w) (hmax : w < cfg.bufSize) (q room : Nat) (hpq : q = p ∨ p + rawHlen ≤ q)
    (t : Trace) (ht : t.reserved = q + w) (hr : ⟨q, w, room⟩ ∈ t.reservations) :
    (reserve cfg q (q % 2 ^ 32) w).bufferDstOffset = q % cfg.bufSize ∧
      PadsTouch cfg p t (reserve cfg q (q % 2 ^ 32) w).pads := by
  have hpos : 0 < cfg.fileSize := Nat.pos_of_dvd_of_pos hF (by decide)
  have hle : cfg.bufSize ≤ cfg.fileSize := Nat.le_of_dvd hpos hb
  have hw : w < 2 ^ 31 := (hmax.trans_le hle).trans_le (Nat.le_of_dvd (by decide) hF)
  have hexact : ∀ x, Exact cfg.fileSize x := fun x => .inl (hF.trans (by decide))
  have hfirst := firstWritten_le cfg p
  have hlt := Nat.mod_lt q hpos
  have hR : rawHlen = 12 := rfl
  -- a header that starts behind the first position and ends before the counter
  have hin : ∀ pos, firstWritten cfg p ≤ pos → pos + rawHlen ≤ q + w → ∀ x, pos ≤ x →
      x < pos + rawHlen → Touchable cfg p t (x % cfg.bufSize) :=
    fun pos hlo hhi x hx hx' => .inl ⟨x, hlo.trans hx, by omega, rfl⟩
  by_cases hfull : cfg.fileSize < q % cfg.fileSize + w + rawHlen
  · rw [reserve_pads ((hexact _).of_dvd hb) ((hexact _).of_dvd hb) hw (hexact _) hfull]
    refine ⟨rfl, fun pad hpad => ?_⟩
    rw [spill, List.mem_cons] at hpad
    obtain rfl | hpad := hpad
    · exact ⟨rfl, fun _ => hin _ (by dsimp only; omega) (by dsimp only; omega)⟩
    · split at hpad
      · rename_i hlast
        obtain rfl := List.mem_singleton.mp hpad
        refine ⟨rfl, fun _ => ?_⟩
        dsimp only
        by_cases hend : q % cfg.fileSize + w < cfg.fileSize
        · -- the reservation ends in its own file: this padding is beyond it
          rw [asFileOffset_add hend] at hlast
          intro x hx hx'
          have hnext : nextFile cfg (q + w) = q + (cfg.fileSize - q % cfg.fileSize) := by
            rw [nextFile, asFileOffset_add hend]
            omega
          refine .inr ⟨_, hr, by dsimp only; omega, ?_, x, ?_, ?_, rfl⟩
          · rw [EndsShort, asFileOffset_add hend]
            omega
          · rw [hnext]
            exact hx
          · rw [hnext]
            exact hx'
        · rw [asFileOffset_add_next (by omega) (by omega)] at hlast
          exact hin _ (by omega) (by omega)
      · cases hpad
  · by_cases hlate : 0 < q % cfg.fileSize ∧ q % cfg.fileSize < rawHlen
    · obtain ⟨padlen, he⟩ := reserve_late (w := w) hb hw (hexact _) (by omega) hlate
      rw [he]
      refine ⟨rfl, fun pad hpad => ?_⟩
      obtain rfl := List.mem_singleton.mp hpad
      refine ⟨rfl, fun _ => hin _ ?_ (by dsimp only; omega)⟩
      dsimp only
      obtain rfl | hpq := hpq
      · rw [firstWritten, if_pos hlate.2]
      · omega
    · rw [reserve_fits ((hexact _).of_dvd hb) hw (hexact _) (by omega) (by omega)]
      exact ⟨rfl, fun pad hpad => absurd hpad List.not_mem_nil⟩

end Reserve

section Touches

variable {cfg : Config} {p : Nat} {buf : Nat → UInt8}

/-- So far only such bytes were changed. -/
def Touches (cfg : Config) (p : Nat) (buf : Nat → UInt8) (s : State) : Prop :=
  Confined (Touchable cfg p s.trace) buf s.dstBuf

theorem Touches.store {s : State} (h : Touches cfg p buf s) (hn : 0 < cfg.bufSize) {pos : Nat}
    {bytes : List UInt8} (hlen : bytes.length ≤ cfg.bufSize)
    (hpos : ∀ q, pos ≤ q → q < pos + bytes.length → Touchable cfg p s.trace (q % cfg.bufSize)) :
    Touches cfg p buf (s.store cfg (pos % cfg.bufSize) pos bytes) :=
  h.trans (copyToCircularBuffer_confined s.dstBuf hn hlen hpos)

theorem Touches.setPadding {s : State} (h : Touches cfg p buf s) (hn : rawHlen ≤ cfg.bufSize)
    {pad : Pad} (hoff : pad.offset = pad.pos % cfg.bufSize)
    (hpad : rawHlen ≤ pad.padlen → ∀ q, pad.pos ≤ q → q < pad.pos + rawHlen →
      Touchable cfg p s.trace (q % cfg.bufSize)) : Touches cfg p buf (setPadding cfg s pad) := by
  by_cases hmin : pad.padlen < rawHlen
  · rw [setPadding_short hmin]
    exact h
  · rw [Rx.setPadding, if_neg hmin, hoff]
    refine h.store (lt_of_lt_of_le (by decide) hn) ?_ ?_
    · rw [RawHeader.toBytes_length]
      exact hn
    · rw [RawHeader.toBytes_length]
      exact hpad (Nat.not_lt.mp hmin)

theorem Touchable.setPadding {s : State} {pad : Pad} {i : Nat} :
    Touchable cfg p (setPadding cfg s pad).trace i ↔ Touchable cfg p s.trace i := by
  rw [Touchable, Touchable, setPadding_reserved, setPadding_reservations]

theorem Touches.foldl_setPadding {pads : List Pad} {s : State} (h : Touches cfg p buf s)
    (hn : rawHlen ≤ cfg.bufSize) (hpads : PadsTouch cfg p s.trace pads) :
    Touches cfg p buf (pads.foldl (Rx.setPadding cfg) s) := by
  induction pads generalizing s with
  | nil => exact h
  | cons pad pads ih =>
    obtain ⟨hoff, hpad⟩ := hpads pad List.mem_cons_self
    refine ih (h.setPadding hn hoff hpad) fun pad' h' => ?_
    obtain ⟨hoff', hpad'⟩ := hpads pad' (List.mem_cons_of_mem _ h')
    exact ⟨hoff', fun hmin q hlo hhi => Touchable.setPadding.mpr (hpad' hmin q hlo hhi)⟩

theorem Touches.claim {s : State} (h : Touches cfg p buf s) (hb : cfg.bufSize ∣ cfg.fileSize)
    (hF : cfg.fileSize ∣ 2 ^ 31) (hc : s.Counted) {w : Nat} (room : Nat) (hmin : rawHlen ≤ w)
    (hmax : w + rawHlen ≤ cfg.bufSize)
    (hpq : s.trace.reserved = p ∨ p + rawHlen ≤ s.trace.reserved) :
    (Rx.reserve cfg s.trace.reserved s.consumerWriteOff w).bufferDstOffset =
        s.trace.reserved % cfg.bufSize ∧
      Touches cfg p buf (s.claim cfg w room
        (Rx.reserve cfg s.trace.reserved s.consumerWriteOff w)) := by
  obtain ⟨hoff, hpads⟩ := reserve_touches hb hF hmin
    (show w < cfg.bufSize from lt_of_lt_of_le (Nat.lt_add_of_pos_right (by decide)) hmax)
    s.trace.reserved room hpq
    { s.trace with
      reserved := s.trace.reserved + w
      reservations := ⟨s.trace.reserved, w, room⟩ :: s.trace.reservations } rfl List.mem_cons_self
  rw [← hc] at hoff hpads
  refine ⟨hoff, Touches.foldl_setPadding ?_ ((Nat.le_add_left _ _).trans hmax) hpads⟩
  exact h.mono fun i hi => hi.mono (Nat.le_add_right _ _) (List.subset_cons_self _ _)

theorem reserveLoop_touches (hb : cfg.bufSize ∣ cfg.fileSize) (hF : cfg.fileSize ∣ 2 ^ 31) {w : Nat}
    (hmin : rawHlen ≤ w) {limit : Nat} (hlim : limit < cfg.bufSize) (fuel cnt : Nat) {s : State}
    (hc : s.Counted) (h : Touches cfg p buf s)
    (hpq : s.trace.reserved = p ∨ p + rawHlen ≤ s.trace.reserved) :
    Touches cfg p buf (reserveLoop cfg limit w fuel cnt s).2.2 ∧
      ((reserveLoop cfg limit w fuel cnt s).2.2.trace.reserved = p ∨
        p + rawHlen ≤ (reserveLoop cfg limit w fuel cnt s).2.2.trace.reserved) ∧
      ∀ offset pos, (reserveLoop cfg limit w fuel cnt s).2.1 = some (offset, pos) →
        offset = pos % cfg.bufSize ∧ p ≤ pos ∧ w + rawHlen ≤ cfg.bufSize ∧
          (reserveLoop cfg limit w fuel cnt s).2.2.trace.reserved = pos + w := by
  induction fuel generalizing cnt s with
  | zero =>
    rw [reserveLoop_zero]
    exact ⟨h, hpq, nofun⟩
  | succ fuel ih =>
    by_cases hf : limit - cnt < w + rawHlen
    · rw [reserveLoop_full cfg s hf]
      exact ⟨h, hpq, nofun⟩
    · have hmax : w + rawHlen ≤ cfg.bufSize := by omega
      obtain ⟨hoff, ht⟩ := h.claim hb hF hc (limit - cnt) hmin hmax hpq
      have hpq' : s.trace.reserved + w = p ∨ p + rawHlen ≤ s.trace.reserved + w := by omega
      by_cases hp : 0 < (Rx.reserve cfg s.trace.reserved s.consumerWriteOff w).padlen
      · rw [reserveLoop_again cfg hf hp]
        refine ih (cnt + w) (claim_counted cfg hc w (limit - cnt)) ht ?_
        rw [claim_reserved]
        exact hpq'
      · rw [reserveLoop_done cfg hf hp]
        refine ⟨ht, ?_, ?_⟩
        · rw [claim_reserved]
          exact hpq'
        · intro offset pos he
          cases he
          exact ⟨hoff, by omega, hmax, claim_reserved cfg s w (limit - cnt) _⟩

/-- The header and the payload of a frame are within its reservation. -/
theorem Touches.storeFrame {s : State} (h : Touches cfg p buf s) {pos : Nat} {f : Frame}
    (hmax : calcCaplen cfg.caplen f.size + rawHlen + rawHlen ≤ cfg.bufSize) (hpos : p ≤ pos)
    (hres : s.trace.reserved = pos + (calcCaplen cfg.caplen f.size + rawHlen)) :
    Touches cfg p buf (storeFrame cfg s (pos % cfg.bufSize) pos f) := by
  have hfirst := firstWritten_le cfg p
  have hn : 0 < cfg.bufSize := lt_of_lt_of_le (by decide) ((Nat.le_add_left _ _).trans hmax)
  have hpay : (payload cfg f).length ≤ calcCaplen cfg.caplen f.size := by
    rw [payload, List.length_take]
    exact (min_le_left _ _).trans (min_le_left _ _)
  have hin : ∀ q, pos ≤ q → q < s.trace.reserved → Touchable cfg p s.trace (q % cfg.bufSize) :=
    fun q hlo hhi => .inl ⟨q, hfirst.trans (hpos.trans hlo), hhi, rfl⟩
  have h₁ : Touches cfg p buf
      (s.store cfg (pos % cfg.bufSize) pos (frameHeader cfg f).toBytes) := by
    refine h.store hn ?_ fun q hlo hhi => hin q hlo ?_
    · rw [RawHeader.toBytes_length]
      omega
    · rw [RawHeader.toBytes_length] at hhi
      omega
  have h₂ : Touches cfg p buf ((s.store cfg (pos % cfg.bufSize) pos
      (frameHeader cfg f).toBytes).store cfg ((pos + rawHlen) % cfg.bufSize) (pos + rawHlen)
        (payload cfg f)) :=
    h₁.store hn (by omega) fun q hlo hhi => hin q (by omega) (by omega)
  have hoff : (copyToCircularBuffer s.dstBuf cfg.bufSize (pos % cfg.bufSize)
      (frameHeader cfg f).toBytes).2 = (pos + rawHlen) % cfg.bufSize := by
    rw [copyToCircularBuffer_offset, RawHeader.toBytes_length, Nat.mod_add_mod]
  rw [← hoff] at h₂
  exact h₂

theorem rxFrame_touches (hb : cfg.bufSize ∣ cfg.fileSize) (hF : cfg.fileSize ∣ 2 ^ 31) {limit : Nat}
    (hlim : limit < cfg.bufSize) (pktBuf : Bool) (f : Frame) (cnt : Nat) {s : State}
    (hc : s.Counted) (h : Touches cfg p buf s)
    (hpq : s.trace.reserved = p ∨ p + rawHlen ≤ s.trace.reserved) :
    Touches cfg p buf (rxFrame cfg limit pktBuf f cnt s).2.2 ∧
      ((rxFrame cfg limit pktBuf f cnt s).2.2.trace.reserved = p ∨
        p + rawHlen ≤ (rxFrame cfg limit pktBuf f cnt s).2.2.trace.reserved) := by
  have hl := reserveLoop_touches hb hF (Nat.le_add_left rawHlen (calcCaplen cfg.caplen f.size))
    hlim limit cnt hc h hpq
  obtain he | he | ⟨cnt', t, ht, -, he⟩ | ⟨cnt', offset, pos, t, ht, -, he⟩ :=
    rxFrame_cases cfg limit pktBuf f cnt s
  · rw [he]
    exact ⟨h, hpq⟩
  · rw [he]
    exact ⟨h, hpq⟩
  · rw [he]
    rw [ht] at hl
    exact ⟨hl.1, hl.2.1⟩
  · rw [he]
    rw [ht] at hl
    obtain ⟨rfl, hpos, hmax, hres⟩ := hl.2.2 offset pos rfl
    exact ⟨hl.1.storeFrame hmax hpos hres, hl.2.1⟩

theorem hpcapRx_touches (hb : cfg.bufSize ∣ cfg.fileSize) (hF : cfg.fileSize ∣ 2 ^ 31) {limit : Nat}
    (hlim : limit < cfg.bufSize) (pktBuf : Bool) (fs : List Frame) {s : State} (hc : s.Counted) :
    Touches cfg s.trace.reserved s.dstBuf (hpcapRx cfg limit pktBuf fs s).2.2 := by
  refine (rxLoop_invariant cfg limit pktBuf
    (fun _ t => t.Counted ∧ Touches cfg s.trace.reserved s.dstBuf t ∧
      (t.trace.reserved = s.trace.reserved ∨ s.trace.reserved + rawHlen ≤ t.trace.reserved))
    ?_ ?_ ⟨hc, Confined.refl _ _, .inl rfl⟩).2.1
  · exact fun _ _ _ _ h => h
  · rintro f - cnt t - ⟨hct, ht, hpq⟩
    exact ⟨rxFrame_counted cfg limit pktBuf f cnt hct,
      rxFrame_touches hb hF hlim pktBuf f cnt hct ht hpq⟩

end Touches

/-- A reservation made from `p` on ends less than a header before a file boundary, and the
counter is less than a header behind that boundary, if at all. -/
def StopsShort (cfg : Config) (p : Nat) (t : Trace) : Prop :=
  ∃ r ∈ t.reservations, p ≤ r.start ∧ EndsShort cfg r ∧
    t.reserved < nextFile cfg (r.start + r.toWrite) + rawHlen

instance (cfg : Config) (p : Nat) (t : Trace) : Decidable (StopsShort cfg p t) := by
  unfold StopsShort EndsShort
  infer_instance

/-- A call changes nothing but the stream between the counter's values before and after it,
and the padding that was missing right before. -/
theorem call_changes_its_range (cfg : Config) (hb : cfg.bufSize ∣ cfg.fileSize)
    (hF : cfg.fileSize ∣ 2 ^ 31) (limit : Nat) (hlim : limit < cfg.bufSize) (pktBuf : Bool)
    (fs : List Frame) (s : State) (hc : s.Counted) :
    (hpcapRx cfg limit pktBuf fs s).2.2.Counted ∧
      s.trace.reserved ≤ (hpcapRx cfg limit pktBuf fs s).2.2.trace.reserved ∧
      (hpcapRx cfg limit pktBuf fs s).2.2.trace.reserved ≤ s.trace.reserved + limit ∧
      (¬ StopsShort cfg s.trace.reserved (hpcapRx cfg limit pktBuf fs s).2.2.trace →
        ∀ i, (hpcapRx cfg limit pktBuf fs s).2.2.dstBuf i ≠ s.dstBuf i →
          ∃ q, firstWritten cfg s.trace.reserved ≤ q ∧
            q < (hpcapRx cfg limit pktBuf fs s).2.2.trace.reserved ∧ i = q % cfg.bufSize) := by
  obtain ⟨hc', hle, hmax⟩ := hpcapRx_counted cfg limit pktBuf fs hc
  refine ⟨hc', hle, hmax, fun hshort i hi => ?_⟩
  obtain h | ⟨r, hr, hp, hends, q, hlo, hhi, he⟩ := hpcapRx_touches hb hF hlim pktBuf fs hc i hi
  · exact h
  · have hfirst := firstWritten_le cfg s.trace.reserved
    have hnext : r.start ≤ nextFile cfg (r.start + r.toWrite) := by
      simp only [nextFile]
      omega
    have hend : nextFile cfg (r.start + r.toWrite) + rawHlen ≤
        (hpcapRx cfg limit pktBuf fs s).2.2.trace.reserved :=
      Nat.not_lt.mp fun hlt => hshort ⟨r, hr, hp, hends, hlt⟩
    exact ⟨q, by omega, by omega, he⟩

/-- Real files, and a buffer of one page. -/
def onePage : Config := ⟨hpcapFilesize, 4096, 0, false, []⟩

/-- The counter stands at `p`, and the buffer holds ones. -/
def standing (p : Nat) : State := ⟨fun _ => 255, p % 2 ^ 32, 0, 0, ⟨p, [], [], []⟩⟩

/-- A frame of eight bytes. -/
def small : Frame := ⟨List.replicate 8 0, 1, 0⟩

/-- A call for one frame, four bytes into the second file. -/
def late : State := (hpcapRx onePage 4095 true [small] (standing (hpcapFilesize + 4))).2.2

theorem late_reserved : late.trace.reserved = hpcapFilesize + 44 := by decide +kernel

theorem call_changes_its_range_late : ¬ StopsShort onePage (hpcapFilesize + 4) late.trace ∧
    ∀ i, late.dstBuf i ≠ 255 →
      ∃ q, firstWritten onePage (hpcapFilesize + 4) ≤ q ∧ q < late.trace.reserved ∧
        i = q % onePage.bufSize := by
  have hshort : ¬ StopsShort onePage (hpcapFilesize + 4) late.trace := by decide +kernel
  exact ⟨hshort, (call_changes_its_range onePage (by decide) (by decide) 4095 (by decide) true
    [small] (standing (hpcapFilesize + 4)) rfl).2.2.2 hshort⟩

/-- That call writes padding to the four bytes reserved before it. -/
theorem late_call_changes_earlier_bytes :
    ¬ ∀ (cfg : Config) (limit : Nat) (pktBuf : Bool) (fs : List Frame) (s : State),
      cfg.fileSize = hpcapFilesize → cfg.bufSize ∣ cfg.fileSize → limit < cfg.bufSize →
      s.Counted → ∀ i, (hpcapRx cfg limit pktBuf fs s).2.2.dstBuf i ≠ s.dstBuf i →
        ∃ q, s.trace.reserved ≤ q ∧ q < (hpcapRx cfg limit pktBuf fs s).2.2.trace.reserved ∧
          i = q % cfg.bufSize := by
  intro h
  have hchanged : late.dstBuf 0 ≠ 255 := by decide +kernel
  obtain ⟨q, hlo, hhi, he⟩ := h onePage 4095 true [small] (standing (hpcapFilesize + 4)) rfl
    (by decide) (by decide) rfl 0 hchanged
  change hpcapFilesize + 4 ≤ q at hlo
  change q < late.trace.reserved at hhi
  change 0 = q % 4096 at he
  rw [late_reserved] at hhi
  simp only [hpcapFilesize] at hlo hhi
  omega

end Hpcap.Containment
