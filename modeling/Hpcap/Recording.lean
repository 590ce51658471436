import Hpcap.Inked
import Hpcap.Stream

namespace Hpcap.Recording

open Hpcap.Patch Hpcap.CircularBuffer Hpcap.Reservation Hpcap.Rx Hpcap.Stream Hpcap.Inked

/-- What the driver puts into the stream: a padding with room for so many bytes behind its
header, or a frame. -/
inductive Entry
  | padding (room : Nat)
  | frame (f : Frame)

namespace Entry

variable (cfg : Config)

def header : Entry → RawHeader
  | padding room => paddingHeader (rawHlen + room)
  | frame f => frameHeader cfg f

/-- What is written behind the header. -/
def body : Entry → List UInt8
  | padding _ => []
  | frame f => payload cfg f

/-- The bytes behind the header that the entry takes. -/
def caplen : Entry → Nat
  | padding room => room
  | frame f => calcCaplen cfg.caplen f.size

def size (e : Entry) : Nat := rawHlen + e.caplen cfg

def frame? : Entry → Option Frame
  | padding _ => none
  | frame f => some f

theorem body_length_le (e : Entry) : (e.body cfg).length ≤ e.caplen cfg := by
  cases e with
  | padding room => exact Nat.zero_le _
  | frame f =>
    rw [body, payload, List.length_take]
    exact (min_le_left _ _).trans (min_le_left _ _)

end Entry

/-- The stream as a log of entries. -/
def layout (cfg : Config) : Layout Entry UInt8 where
  size := Entry.size cfg
  bytes e := (e.header cfg).toBytes ++ e.body cfg
  bytes_le e := by
    rw [List.length_append, RawHeader.toBytes_length]
    exact Nat.add_le_add_left (e.body_length_le cfg) _

/-- A padding starts or ends a file. A frame leaves room for another header in its file, and
its time stamp tells it from a padding. -/
def Placed (cfg : Config) (p : Nat) : Entry → Prop
  | .padding room => rawHlen + room < 2 ^ 16 ∧ p % cfg.fileSize + (rawHlen + room) ≤ cfg.fileSize ∧
      (p % cfg.fileSize = 0 ∨ p % cfg.fileSize + (rawHlen + room) = cfg.fileSize)
  | .frame f => f.size ≤ maxDescrSize ∧ Stamped f ∧
      p % cfg.fileSize + (calcCaplen cfg.caplen f.size + rawHlen) + rawHlen ≤ cfg.fileSize

/-- The entries follow one another from `p` on, each where it may stand. -/
def Tidy (cfg : Config) : Nat → List Entry → Prop
  | _, [] => True
  | p, e :: es => Placed cfg p e ∧ Tidy cfg (p + e.size cfg) es

def frames (es : List Entry) : List Frame := es.filterMap Entry.frame?

/-- The buffer has the log's entries: the ones from `lo` on are still there. -/
structure Recorded (cfg : Config) (lo : Nat) (s : State) (es : List Entry) : Prop where
  tidy : Tidy cfg 0 es
  accepted : frames es = s.trace.accepted.reverse
  le : lo ≤ total (layout cfg) es
  shown : Shows (layout cfg) (onRing cfg.bufSize s.dstBuf) lo es

@[simp] theorem total_singleton (cfg : Config) (e : Entry) :
    total (layout cfg) [e] = e.size cfg := rfl

theorem Tidy.append {cfg : Config} {p : Nat} {es fs : List Entry} (h : Tidy cfg p es)
    (h' : Tidy cfg (p + total (layout cfg) es) fs) : Tidy cfg p (es ++ fs) := by
  induction es generalizing p with
  | nil => exact h'
  | cons e es ih =>
    refine ⟨h.1, ih h.2 ?_⟩
    rw [total_cons, ← Nat.add_assoc] at h'
    exact h'

theorem Tidy.of_append {cfg : Config} {p : Nat} {es fs : List Entry} (h : Tidy cfg p (es ++ fs)) :
    Tidy cfg p es ∧ Tidy cfg (p + total (layout cfg) es) fs := by
  induction es generalizing p with
  | nil => exact ⟨trivial, h⟩
  | cons e es ih =>
    obtain ⟨hes, hfs⟩ := ih h.2
    refine ⟨⟨h.1, hes⟩, ?_⟩
    rw [total_cons, ← Nat.add_assoc]
    exact hfs

theorem frames_append (es fs : List Entry) : frames (es ++ fs) = frames es ++ frames fs :=
  List.filterMap_append

namespace Recorded

variable {cfg : Config} {lo : Nat} {s : State} {es : List Entry}

/-- Bookkeeping leaves the buffer as it is. -/
theorem reserve (h : Recorded cfg lo s es) (writeOff reserved : Nat)
    (reservations : List Reserved) :
    Recorded cfg lo { s with
      consumerWriteOff := writeOff
      trace := { s.trace with reserved := reserved, reservations := reservations } } es :=
  ⟨h.tidy, h.accepted, h.le, h.shown⟩

/-- What is stored behind the log leaves it as it is. -/
theorem store (h : Recorded cfg lo s es) {offset pos : Nat} (bytes : List UInt8)
    (hn : 0 < cfg.bufSize) (hoff : offset = pos % cfg.bufSize)
    (hpos : total (layout cfg) es ≤ pos) (hend : pos + bytes.length ≤ lo + cfg.bufSize) :
    Recorded cfg lo (s.store cfg offset pos bytes) es := by
  have hle := h.le
  refine ⟨h.tidy, h.accepted, h.le, h.shown.ring_confined ?_ hpos hend⟩
  subst hoff
  exact copyToCircularBuffer_confined s.dstBuf hn (by omega) fun q hq hq' => ⟨q, hq, hq', rfl⟩

/-- What is stored at the end of the log is found there. -/
theorem stored (h : Recorded cfg lo s es) {offset pos : Nat} (bytes : List UInt8)
    (hn : 0 < cfg.bufSize) (hoff : offset = pos % cfg.bufSize)
    (hpos : total (layout cfg) es ≤ pos) (hend : pos + bytes.length ≤ lo + cfg.bufSize) :
    ring (s.store cfg offset pos bytes).dstBuf cfg.bufSize pos bytes.length = bytes := by
  have hle := h.le
  subst hoff
  rw [← ring_mod]
  exact ring_copyToCircularBuffer s.dstBuf (Nat.mod_lt pos hn) (by omega)

/-- The padding written at the end of the log is its next entry. -/
theorem padding (h : Recorded cfg lo s es) (hn : 0 < cfg.bufSize) (pad : Pad)
    (hoff : pad.offset = pad.pos % cfg.bufSize) (hpos : pad.pos = total (layout cfg) es)
    (hmin : rawHlen ≤ pad.padlen) (hend : pad.pos + rawHlen ≤ lo + cfg.bufSize)
    (hp : Placed cfg pad.pos (.padding (pad.padlen - rawHlen))) :
    Recorded cfg lo (setPadding cfg s pad) (es ++ [.padding (pad.padlen - rawHlen)]) := by
  have hlen := RawHeader.toBytes_length (paddingHeader pad.padlen)
  have hset : setPadding cfg s pad =
      s.store cfg pad.offset pad.pos (paddingHeader pad.padlen).toBytes :=
    if_neg (Nat.not_lt.mpr hmin)
  have hs := h.store (paddingHeader pad.padlen).toBytes hn hoff hpos.ge
    (by rw [hlen]; exact hend)
  have hr := h.stored (paddingHeader pad.padlen).toBytes hn hoff hpos.ge
    (by rw [hlen]; exact hend)
  have hbytes : (layout cfg).bytes (.padding (pad.padlen - rawHlen)) =
      (paddingHeader pad.padlen).toBytes := by
    simp only [layout, Entry.header, Entry.body, List.append_nil, Nat.add_sub_cancel' hmin]
  rw [hset]
  refine ⟨h.tidy.append ⟨?_, trivial⟩, ?_, ?_, hs.shown.snoc ?_⟩
  · rw [Nat.zero_add, ← hpos]
    exact hp
  · rw [frames_append, hs.accepted]
    exact List.append_nil _
  · rw [total_append]
    exact Nat.le_add_right_of_le h.le
  · rw [slice_onRing, hbytes, ← hpos]
    exact hr

/-- Padding written behind the log leaves it as it is. -/
theorem scratch (h : Recorded cfg lo s es) (hn : 0 < cfg.bufSize) {pad : Pad}
    (hoff : pad.offset = pad.pos % cfg.bufSize) (hpos : total (layout cfg) es ≤ pad.pos)
    (hend : pad.pos + rawHlen ≤ lo + cfg.bufSize) : Recorded cfg lo (setPadding cfg s pad) es := by
  by_cases hmin : pad.padlen < rawHlen
  · rw [setPadding_short hmin]
    exact h
  · rw [setPadding, if_neg hmin]
    refine h.store _ hn hoff hpos ?_
    rw [RawHeader.toBytes_length]
    exact hend

/-- A frame written at the end of the log is its next entry. -/
theorem frame (h : Recorded cfg lo s es) (hn : 0 < cfg.bufSize) {pos : Nat} {f : Frame}
    (hpos : pos = total (layout cfg) es)
    (hend : pos + (calcCaplen cfg.caplen f.size + rawHlen) ≤ lo + cfg.bufSize)
    (hp : Placed cfg pos (.frame f)) :
    Recorded cfg lo (storeFrame cfg s (pos % cfg.bufSize) pos f) (es ++ [.frame f]) := by
  have hlen := RawHeader.toBytes_length (frameHeader cfg f)
  have hbody : (payload cfg f).length ≤ calcCaplen cfg.caplen f.size :=
    Entry.body_length_le cfg (.frame f)
  have hle := h.le
  have hoff : (copyToCircularBuffer s.dstBuf cfg.bufSize (pos % cfg.bufSize)
      (frameHeader cfg f).toBytes).2 = (pos + rawHlen) % cfg.bufSize := by
    rw [copyToCircularBuffer_offset, hlen, Nat.mod_add_mod]
  have h₁ := h.store (frameHeader cfg f).toBytes hn rfl hpos.ge (by omega)
  have hr₁ := h.stored (frameHeader cfg f).toBytes hn rfl hpos.ge (by omega)
  have h₂ := h₁.store (payload cfg f) hn hoff (by omega) (by omega)
  have hr₂ := h₁.stored (payload cfg f) hn hoff (by omega) (by omega)
  refine ⟨h.tidy.append ⟨?_, trivial⟩, ?_, ?_, h₂.shown.snoc ?_⟩
  · rw [Nat.zero_add, ← hpos]
    exact hp
  · rw [frames_append, h.accepted]
    exact (List.reverse_cons ..).symm
  · rw [total_append]
    exact Nat.le_add_right_of_le h.le
  · have hfit : (payload cfg f).length ≤ cfg.bufSize := by omega
    have hkeep := ring_confined (x := pos) (k := rawHlen) (copyToCircularBuffer_confined
      (s.store cfg (pos % cfg.bufSize) pos (frameHeader cfg f).toBytes).dstBuf hn hfit
      fun q hq hq' => ⟨q, hq, hq', rfl⟩) le_rfl (by omega)
    rw [← hoff] at hkeep
    rw [hlen] at hr₁
    rw [slice_onRing, ← hpos]
    change Patch.ring _ _ _ ((frameHeader cfg f).toBytes ++ payload cfg f).length = _
    rw [List.length_append, hlen, ring_add]
    exact congrArg₂ _ (hkeep.trans hr₁) hr₂

end Recorded

section Loop

variable {cfg : Config} {lo w : Nat}

/-- The padding of a reservation that fits the padding logic becomes entries. -/
theorem spill_recorded {t : State} {es : List Entry} {p room : Nat}
    (h : Recorded cfg lo t es) (hn : 0 < cfg.bufSize) (hmin : rawHlen ≤ w)
    (hmax : w ≤ maxDescrSize + rawHlen) (hroom : w + rawHlen ≤ room)
    (hend : p + room ≤ lo + cfg.bufSize) (hfit : Fits cfg ⟨p, w, room⟩)
    (hfull : cfg.fileSize < p % cfg.fileSize + w + rawHlen)
    (hq : Settled cfg p (total (layout cfg) es) ∨ Late cfg p (total (layout cfg) es)) :
    ∃ more, Recorded cfg lo ((spill cfg p w).foldl (setPadding cfg) t) (es ++ more) ∧
      (Settled cfg (p + w) (total (layout cfg) (es ++ more)) ∨
        Late cfg (p + w) (total (layout cfg) (es ++ more)) ∧ w + (w + rawHlen) ≤ room) := by
  obtain ⟨-, hcase⟩ := hfit
  dsimp only at hcase
  have hpos : 0 < cfg.fileSize := by omega
  have hlt := Nat.mod_lt p hpos
  have hnext : (p + (cfg.fileSize - p % cfg.fileSize)) % cfg.fileSize = 0 := by
    rw [← Nat.mod_add_mod, Nat.add_sub_cancel' hlt.le, Nat.mod_self]
  have hR : rawHlen = 12 := rfl
  have hD : maxDescrSize = 2048 := rfl
  generalize hqe : total (layout cfg) es = q at hq
  obtain ⟨rfl, hsettled⟩ | ⟨hpq, hqp, hlate⟩ := hq
  · -- the rest of the file becomes one entry
    have h₁ := h.padding hn ⟨q % cfg.bufSize, q, cfg.fileSize - q % cfg.fileSize⟩ rfl
      hqe.symm (by dsimp only; omega) (by dsimp only; omega)
      ⟨by dsimp only; omega, by dsimp only; omega, by dsimp only; omega⟩
    have ht₁ : total (layout cfg) (es ++ [.padding (cfg.fileSize - q % cfg.fileSize - rawHlen)]) =
        q + (cfg.fileSize - q % cfg.fileSize) := by
      rw [total_append, hqe, total_singleton, Entry.size, Entry.caplen]
      omega
    obtain hcase | hcase | ⟨hlo, hhi⟩ | ⟨-, hlast, -, hagain⟩ := hcase
    · omega
    · have hz : (q + w) % cfg.fileSize = 0 := by
        rw [← Nat.mod_add_mod, hcase, Nat.mod_self]
      rw [spill, hz, if_neg (by decide)]
      refine ⟨_, h₁, .inl ⟨?_, .inl hz⟩⟩
      rw [ht₁]
      omega
    · have hz : (q + w) % cfg.fileSize = q % cfg.fileSize + w - cfg.fileSize :=
        asFileOffset_add_next (by omega) (by omega)
      rw [spill, hz, if_pos (by omega)]
      have h₂ := h₁.padding hn
        ⟨(q + (cfg.fileSize - q % cfg.fileSize)) % cfg.bufSize,
          q + (cfg.fileSize - q % cfg.fileSize), q % cfg.fileSize + w - cfg.fileSize⟩ rfl
        ht₁.symm (by dsimp only; omega) (by dsimp only; omega)
        ⟨by dsimp only; omega, by dsimp only; omega, .inl hnext⟩
      rw [List.append_assoc] at h₂
      refine ⟨_, h₂, .inl ⟨?_, .inr ?_⟩⟩
      · rw [← List.append_assoc, total_append, ht₁, total_singleton, Entry.size, Entry.caplen]
        dsimp only
        omega
      · rw [hz]
        omega
    · have hz : (q + w) % cfg.fileSize = q % cfg.fileSize + w := asFileOffset_add hlast
      refine ⟨[.padding (cfg.fileSize - q % cfg.fileSize - rawHlen)], ?_, .inr ⟨?_, hagain⟩⟩
      · rw [spill, hz, if_pos (by omega)]
        refine h₁.scratch hn rfl ht₁.le ?_
        dsimp only
        omega
      · rw [ht₁]
        refine ⟨by omega, by omega, ?_⟩
        rw [hz]
        omega
  · -- the next file starts with an entry as long as was reserved in it
    have hpad : cfg.fileSize - p % cfg.fileSize = q - p := by omega
    have hz : (p + w) % cfg.fileSize = p % cfg.fileSize + w - cfg.fileSize :=
      asFileOffset_add_next (by omega) (by omega)
    have hpq' : p + (q - p) = q := by omega
    rw [hpad, hpq'] at hnext
    rw [spill, hz, hpad, hpq', if_pos (by omega)]
    have hs : setPadding cfg t ⟨p % cfg.bufSize, p, q - p⟩ = t :=
      setPadding_short (by dsimp only; omega)
    have h₂ := h.padding hn
      ⟨q % cfg.bufSize, q, p % cfg.fileSize + w - cfg.fileSize⟩ rfl hqe.symm
      (by dsimp only; omega) (by dsimp only; omega)
      ⟨by dsimp only; omega, by dsimp only; omega, .inl hnext⟩
    rw [List.foldl_cons, hs]
    refine ⟨_, h₂, .inl ⟨?_, .inr ?_⟩⟩
    · rw [total_append, hqe, total_singleton, Entry.size, Entry.caplen]
      dsimp only
      omega
    · rw [hz]
      omega

theorem reserveLoop_recorded (hb : cfg.bufSize ∣ cfg.fileSize) (hn : 0 < cfg.bufSize)
    (hmin : rawHlen ≤ w) (hmax : w ≤ maxDescrSize + rawHlen) (limit cnt : Nat) {fuel : Nat}
    {s : State} {es : List Entry} (hc : s.Counted) (h : Recorded cfg lo s es)
    (hend : s.trace.reserved + (limit - cnt) ≤ lo + cfg.bufSize)
    (hq : Settled cfg s.trace.reserved (total (layout cfg) es) ∨
      Late cfg s.trace.reserved (total (layout cfg) es) ∧ w + rawHlen ≤ limit - cnt)
    (hfuel : limit - cnt ≤ fuel)
    (hfit : ∀ r ∈ (reserveLoop cfg limit w fuel cnt s).2.2.trace.reservations, Fits cfg r) :
    ∃ more, Recorded cfg lo (reserveLoop cfg limit w fuel cnt s).2.2 (es ++ more) ∧
      Granted cfg w (reserveLoop cfg limit w fuel cnt s).2.2.trace.reserved
        (total (layout cfg) (es ++ more)) (reserveLoop cfg limit w fuel cnt s).2.1 := by
  have hR : rawHlen = 12 := rfl
  induction fuel generalizing cnt s es with
  | zero =>
    rw [reserveLoop_zero]
    refine ⟨[], ?_, ?_⟩
    · rw [List.append_nil]
      exact ⟨h.tidy, h.accepted, h.le, h.shown⟩
    · rw [List.append_nil]
      exact hq.resolve_right fun hl => by omega
  | succ fuel ih =>
    by_cases hf : limit - cnt < w + rawHlen
    · rw [reserveLoop_full cfg s hf]
      refine ⟨[], ?_, ?_⟩
      · rw [List.append_nil]
        exact ⟨h.tidy, h.accepted, h.le, h.shown⟩
      · rw [List.append_nil]
        exact hq.resolve_right fun hl => by omega
    · have hw : w < 2 ^ 31 := lt_of_le_of_lt hmax (by decide)
      by_cases hp : 0 < (Rx.reserve cfg s.trace.reserved s.consumerWriteOff w).padlen
      · rw [reserveLoop_again cfg hf hp] at hfit ⊢
        have hr : Fits cfg ⟨s.trace.reserved, w, limit - cnt⟩ := by
          refine hfit _ ((reserveLoop_grows cfg limit w fuel _ _).1 ?_)
          rw [claim_reservations]
          exact List.mem_cons_self
        have hfull : cfg.fileSize < s.trace.reserved % cfg.fileSize + w + rawHlen :=
          (hr.pads_iff hb hw hmin (hq.imp_right And.left)).mp (hc ▸ hp)
        have he : Rx.reserve cfg s.trace.reserved s.consumerWriteOff w = _ :=
          hc ▸ reserve_pads (hr.1.of_dvd hb) ((hr.exact_padded hfull).of_dvd hb) hw hr.1 hfull
        obtain ⟨more, hm, hq'⟩ := spill_recorded
          (h.reserve ((s.trace.reserved + w) % 2 ^ 32) (s.trace.reserved + w)
            (⟨s.trace.reserved, w, limit - cnt⟩ :: s.trace.reservations))
          hn hmin hmax (Nat.not_lt.mp hf) hend hr hfull (hq.imp_right And.left)
        have hclaim : Recorded cfg lo (s.claim cfg w (limit - cnt)
            (Rx.reserve cfg s.trace.reserved s.consumerWriteOff w)) (es ++ more) := by
          rw [he]
          exact hm
        obtain ⟨more', hm', hg⟩ := ih (cnt + w) (claim_counted cfg hc w (limit - cnt)) hclaim
          (by rw [claim_reserved]; omega)
          (by rw [claim_reserved]; exact hq'.imp_right fun ⟨hl, hroom⟩ => ⟨hl, by omega⟩)
          (by omega) hfit
        rw [List.append_assoc] at hm' hg
        exact ⟨_, hm', hg⟩
      · rw [reserveLoop_done cfg hf hp] at hfit ⊢
        have hr : Fits cfg ⟨s.trace.reserved, w, limit - cnt⟩ := by
          refine hfit _ ?_
          rw [claim_reservations]
          exact List.mem_cons_self
        have hfits : s.trace.reserved % cfg.fileSize + w + rawHlen ≤ cfg.fileSize :=
          Nat.not_lt.mp fun hfull => hp
            (hc ▸ (hr.pads_iff hb hw hmin (hq.imp_right And.left)).mpr hfull)
        obtain ⟨htotal, hs⟩ | ⟨⟨hlo, hhi, hl⟩, -⟩ := hq
        · have he := reserve_fits (p := s.trace.reserved) (hr.1.of_dvd hb) hw hr.1 hfits (by omega)
          rw [← hc] at he
          refine ⟨[], ?_, ?_⟩
          · rw [List.append_nil, he]
            exact h.reserve _ _ _
          · rw [List.append_nil, htotal, he]
            exact ⟨rfl, rfl, rfl, hfits⟩
        · omega

end Loop

/-- The log goes up to the counter, and the next frame may follow. -/
structure Kept (cfg : Config) (lo : Nat) (s : State) (es : List Entry) : Prop
    extends Recorded cfg lo s es where
  total_eq : total (layout cfg) es = s.trace.reserved
  settled : Settled cfg s.trace.reserved s.trace.reserved

theorem Kept.mono {cfg : Config} {lo lo' : Nat} {s : State} {es : List Entry}
    (h : Kept cfg lo s es) (hle : lo ≤ lo') (hmax : lo' ≤ s.trace.reserved) : Kept cfg lo' s es where
  tidy := h.tidy
  accepted := h.accepted
  le := h.total_eq ▸ hmax
  shown := h.shown.mono hle
  total_eq := h.total_eq
  settled := h.settled

section Frames

variable {cfg : Config} {lo : Nat}

/-- One frame becomes an entry, if it is accepted, and so does the padding before it. -/
theorem rxFrame_kept (hb : cfg.bufSize ∣ cfg.fileSize) (hn : 0 < cfg.bufSize) {limit : Nat}
    {pktBuf : Bool} {f : Frame} {cnt : Nat} {s : State} {es : List Entry}
    (hlen : f.size ≤ maxDescrSize) (hc : s.Counted) (h : Kept cfg lo s es)
    (hend : s.trace.reserved + (limit - cnt) ≤ lo + cfg.bufSize)
    (hsound : Sound cfg (rxFrame cfg limit pktBuf f cnt s).2.2.trace) :
    ∃ more, Kept cfg lo (rxFrame cfg limit pktBuf f cnt s).2.2 (es ++ more) := by
  have hmin : rawHlen ≤ calcCaplen cfg.caplen f.size + rawHlen := Nat.le_add_left _ _
  have hmax : calcCaplen cfg.caplen f.size + rawHlen ≤ maxDescrSize + rawHlen := by
    refine Nat.add_le_add_right (le_trans ?_ hlen) _
    simp only [calcCaplen]
    split
    · exact le_rfl
    · exact min_le_right _ _
  have hset : Settled cfg s.trace.reserved (total (layout cfg) es) := h.total_eq ▸ h.settled
  have hloop := reserveLoop_recorded hb hn hmin hmax limit cnt hc h.toRecorded hend (.inl hset)
    (Nat.sub_le limit cnt)
  have hcnt := reserveLoop_cnt cfg limit (calcCaplen cfg.caplen f.size + rawHlen) limit cnt s
  obtain he | he | ⟨cnt', t, ht, -, he⟩ | ⟨cnt', offset, pos, t, ht, -, he⟩ :=
    rxFrame_cases cfg limit pktBuf f cnt s
  · rw [he]
    exact ⟨[], by rwa [List.append_nil]⟩
  · rw [he]
    refine ⟨[], ?_⟩
    rw [List.append_nil]
    exact ⟨⟨h.tidy, h.accepted, h.le, h.shown⟩, h.total_eq, h.settled⟩
  · rw [he] at hsound ⊢
    rw [ht] at hloop
    obtain ⟨more, hm, hg⟩ := hloop hsound.1
    exact ⟨more, hm, hg.1, hg.settled hmin⟩
  · rw [he] at hsound ⊢
    rw [ht] at hloop hcnt
    obtain ⟨more, hm, hg⟩ := hloop hsound.1
    have hs := hg.settled hmin
    obtain ⟨htotal, rfl, hres, hfile⟩ := hg
    dsimp only at hcnt hres hm
    have hst : Stamped f := hsound.2 f (by simp)
    have hframe := hm.frame hn htotal.symm (by omega) ⟨hlen, hst, hfile⟩
    rw [List.append_assoc] at hframe
    refine ⟨_, hframe, ?_, hs⟩
    rw [← List.append_assoc, total_append, htotal, total_singleton, storeFrame_reserved, hres,
      Entry.size, Entry.caplen, Nat.add_comm rawHlen]

theorem hpcapRx_sound {limit : Nat} {pktBuf : Bool} {fs : List Frame} {s : State}
    (h : Sound cfg (hpcapRx cfg limit pktBuf fs s).2.2.trace) : Sound cfg s.trace :=
  rxLoop_invariant cfg limit pktBuf (fun _ t => Sound cfg t.trace → Sound cfg s.trace)
    (fun _ _ _ _ h => h) (fun _ _ _ _ _ ih h => ih (rxFrame_grows _ _ _ _ _ _ h)) id h

/-- A call adds entries to the log, and overwrites none that starts less than a lap before
all it may reserve. -/
theorem hpcapRx_kept (hb : cfg.bufSize ∣ cfg.fileSize) (hn : 0 < cfg.bufSize) {limit : Nat}
    (pktBuf : Bool) {fs : List Frame} {s : State} {es : List Entry}
    (hlen : ∀ f ∈ fs, f.size ≤ maxDescrSize) (hc : s.Counted) (h : Kept cfg lo s es)
    (hend : s.trace.reserved + limit ≤ lo + cfg.bufSize)
    (hsound : Sound cfg (hpcapRx cfg limit pktBuf fs s).2.2.trace) :
    ∃ more, Kept cfg lo (hpcapRx cfg limit pktBuf fs s).2.2 (es ++ more) := by
  let inv := fun cnt (t : State) => t.Counted ∧
    t.trace.reserved + (limit - cnt) ≤ lo + cfg.bufSize ∧
      (Sound cfg t.trace → ∃ more, Kept cfg lo t (es ++ more))
  have hinv : inv (hpcapRx cfg limit pktBuf fs s).1 (hpcapRx cfg limit pktBuf fs s).2.2 := by
    refine rxLoop_invariant cfg limit pktBuf inv ?_ ?_ ⟨hc, hend, fun _ => ⟨[], ?_⟩⟩
    · rintro f - cnt t ⟨hct, hroom, ht⟩
      exact ⟨hct, by omega, ht⟩
    · rintro f hf cnt t - ⟨hct, hroom, ht⟩
      obtain ⟨hle, hmax, hr⟩ := rxFrame_cnt cfg limit pktBuf f cnt t
      refine ⟨rxFrame_counted cfg limit pktBuf f cnt hct, by omega, fun hs => ?_⟩
      obtain ⟨more, hm⟩ := ht (rxFrame_grows _ _ _ _ _ _ hs)
      obtain ⟨more', hm'⟩ := rxFrame_kept hb hn (hlen f hf) hct hm hroom hs
      rw [List.append_assoc] at hm'
      exact ⟨_, hm'⟩
    · rwa [List.append_nil]
  exact hinv.2.2 hsound

theorem init_kept (cfg : Config) (s : State) : Kept cfg 0 s.reset [] where
  tidy := trivial
  accepted := rfl
  le := le_rfl
  shown := .nil
  total_eq := rfl
  settled := ⟨rfl, .inl (Nat.zero_mod _)⟩

end Frames

end Hpcap.Recording
