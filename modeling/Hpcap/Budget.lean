import Hpcap.Rx

namespace Hpcap.Budget

open Hpcap.Reservation Hpcap.Rx

/-- One pass of the receive loop: the frame, `cnt` before it and the states around it. -/
structure Read where
  frame : Frame
  cnt : Nat
  before : State
  after : State

/-- The passes of `rxLoop`, with the same tests. -/
def reads (cfg : Config) (limit : Nat) (pktBuf : Bool) : List Frame → Nat → State → List Read
  | [], _, _ => []
  | f :: fs, cnt, s =>
    if cnt < limit then
      if pktBuf ∧ f.size = 0 then []
      else
        match rxFrame cfg limit pktBuf f cnt s with
        | (_, true, t) => [⟨f, cnt, s, t⟩]
        | (cnt', false, t) => ⟨f, cnt, s, t⟩ :: reads cfg limit pktBuf fs (cnt' + f.size) t
    else []

/-- Each pass starts where the one before it ended. -/
def Chained : State → List Read → State → Prop
  | s, [], t => s = t
  | s, r :: rs, t => r.before = s ∧ Chained r.after rs t

def toWrite (cfg : Config) (f : Frame) : Nat := calcCaplen cfg.caplen f.size + rawHlen

def bytesRead (rs : List Read) : Nat := (rs.map fun r => r.frame.size).sum

def Lost (r : Read) : Prop := r.after.hpcapClientLoss = r.before.hpcapClientLoss + 1

def Rejected (cfg : Config) (r : Read) : Prop :=
  passesFilter cfg r.frame = false ∧ r.after = r.before

/-- Header and payload go to the bytes that were reserved last, and the frame is added to
what was accepted. -/
def StoredOnce (cfg : Config) (r : Read) : Prop :=
  ∃ t offset pos, r.after = storeFrame cfg t offset pos r.frame ∧
    t.hpcapClientLoss = r.before.hpcapClientLoss ∧
    t.trace.accepted = r.before.trace.accepted ∧
    r.before.trace.reserved ≤ pos ∧ t.trace.reserved = pos + toWrite cfg r.frame

/-- The call returns what it added to the counter, loses a frame only for want of space, and
stores every other one that the filter lets through. -/
structure Accounted (cfg : Config) (limit : Nat) (pktBuf : Bool) (frames : List Frame)
    (s : State) : Prop where
  returns : s.trace.reserved + (hpcapRx cfg limit pktBuf frames s).1 =
    (hpcapRx cfg limit pktBuf frames s).2.2.trace.reserved
  loses : ∀ r ∈ reads cfg limit pktBuf frames 0 s, Lost r →
    limit < r.after.trace.reserved - s.trace.reserved + toWrite cfg r.frame + rawHlen
  keeps : pktBuf = true → ∀ r ∈ reads cfg limit pktBuf frames 0 s,
    Lost r ∨ Rejected cfg r ∨ StoredOnce cfg r

/-- No byte is read: there is no space at all, or only descriptors without bytes are seen. -/
def Idle (limit : Nat) (pktBuf : Bool) (frames : List Frame) : Prop :=
  limit = 0 ∨ pktBuf = true ∧ (∀ f ∈ frames.head?, f.size = 0) ∨
    pktBuf = false ∧ ∀ f ∈ frames, f.size = 0

theorem foldl_setPadding_loss (cfg : Config) (pads : List Pad) (s : State) :
    (pads.foldl (setPadding cfg) s).hpcapClientLoss = s.hpcapClientLoss := by
  induction pads generalizing s with
  | nil => rfl
  | cons p ps ih =>
    rw [List.foldl_cons, ih]
    simp only [setPadding]
    split <;> rfl

section Reserve

variable {cfg : Config} {limit toWrite fuel cnt : Nat} {s : State}

theorem claim_loss (cfg : Config) (s : State) (toWrite room : Nat) (slot : Slot) :
    (s.claim cfg toWrite room slot).hpcapClientLoss = s.hpcapClientLoss :=
  foldl_setPadding_loss cfg slot.pads _

/-- A frame that finds no place is lost for want of `limit - cnt`. -/
theorem reserveLoop_none {cnt' : Nat} {t : State} (hpos : 0 < toWrite)
    (hfuel : limit - cnt ≤ fuel)
    (h : reserveLoop cfg limit toWrite fuel cnt s = (cnt', none, t)) :
    limit - cnt' < toWrite + rawHlen ∧ t.hpcapClientLoss = s.hpcapClientLoss + 1 := by
  induction fuel generalizing cnt s with
  | zero =>
    cases h
    exact ⟨by omega, rfl⟩
  | succ fuel ih =>
    by_cases hf : limit - cnt < toWrite + rawHlen
    · rw [reserveLoop_full cfg s hf] at h
      cases h
      exact ⟨hf, rfl⟩
    · by_cases hp : 0 < (reserve cfg s.trace.reserved s.consumerWriteOff toWrite).padlen
      · rw [reserveLoop_again cfg hf hp] at h
        obtain ⟨hfull, hloss⟩ := ih (by omega) h
        exact ⟨hfull, by rw [hloss, claim_loss]⟩
      · rw [reserveLoop_done cfg hf hp] at h
        cases h

/-- A frame that finds a place gets the last of the bytes reserved for it. -/
theorem reserveLoop_some {cnt' offset pos : Nat} {t : State}
    (h : reserveLoop cfg limit toWrite fuel cnt s = (cnt', some (offset, pos), t)) :
    t.hpcapClientLoss = s.hpcapClientLoss ∧ t.trace.accepted = s.trace.accepted ∧
      s.trace.reserved ≤ pos ∧ t.trace.reserved = pos + toWrite := by
  induction fuel generalizing cnt s with
  | zero => cases h
  | succ fuel ih =>
    by_cases hf : limit - cnt < toWrite + rawHlen
    · rw [reserveLoop_full cfg s hf] at h
      cases h
    · by_cases hp : 0 < (reserve cfg s.trace.reserved s.consumerWriteOff toWrite).padlen
      · rw [reserveLoop_again cfg hf hp] at h
        obtain ⟨hloss, hacc, hpos, hres⟩ := ih h
        rw [claim_loss] at hloss
        rw [claim_accepted] at hacc
        rw [claim_reserved] at hpos
        exact ⟨hloss, hacc, by omega, hres⟩
      · rw [reserveLoop_done cfg hf hp] at h
        cases h
        exact ⟨claim_loss .., claim_accepted .., le_rfl, claim_reserved ..⟩

end Reserve

section Passes

variable {cfg : Config} {limit : Nat} {pktBuf : Bool}

def pass (cfg : Config) (limit : Nat) (pktBuf : Bool) (f : Frame) (cnt : Nat) (s : State) : Read :=
  ⟨f, cnt, s, (rxFrame cfg limit pktBuf f cnt s).2.2⟩

/-- What happens to a frame that has a buffer to go to. -/
theorem pass_cases (cfg : Config) (limit : Nat) (f : Frame) (cnt : Nat) (s : State) :
    Rejected cfg (pass cfg limit true f cnt s) ∨
      StoredOnce cfg (pass cfg limit true f cnt s) ∨
      Lost (pass cfg limit true f cnt s) ∧
        limit - (rxFrame cfg limit true f cnt s).1 < toWrite cfg f + rawHlen := by
  by_cases hp : passesFilter cfg f = false
  · refine .inl ⟨hp, ?_⟩
    rw [pass, rxFrame, if_pos hp]
  · have hwrite : 0 < toWrite cfg f := Nat.add_pos_right _ (by decide)
    rw [pass, rxFrame, if_neg hp, if_neg (by decide)]
    change Rejected cfg ⟨f, cnt, s, _⟩ ∨ StoredOnce cfg ⟨f, cnt, s, _⟩ ∨ _
    cases hr : reserveLoop cfg limit (toWrite cfg f) limit cnt s with
    | mk cnt' rest =>
      obtain ⟨o, t⟩ := rest
      rw [toWrite] at hr
      rw [hr]
      cases o with
      | none =>
        obtain ⟨hfull, hloss⟩ := reserveLoop_none hwrite (by omega) hr
        exact .inr (.inr ⟨hloss, hfull⟩)
      | some slot =>
        obtain ⟨offset, pos⟩ := slot
        obtain ⟨hloss, hacc, hpos, hres⟩ := reserveLoop_some hr
        exact .inr (.inl ⟨t, offset, pos, rfl, hloss, hacc, hpos, hres⟩)

/-- Without a buffer a frame is only advanced over. -/
theorem rxFrame_discard (cfg : Config) (limit : Nat) (f : Frame) (cnt : Nat) (s : State) :
    (rxFrame cfg limit false f cnt s).1 = cnt ∧ (rxFrame cfg limit false f cnt s).2.1 = false ∧
      (rxFrame cfg limit false f cnt s).2.2.hpcapClientLoss = s.hpcapClientLoss := by
  by_cases hp : passesFilter cfg f = false
  · rw [rxFrame, if_pos hp]
    exact ⟨rfl, rfl, rfl⟩
  · rw [rxFrame, if_neg hp]
    exact ⟨rfl, rfl, rfl⟩

theorem reads_skip (cfg : Config) {f : Frame} (fs : List Frame) {cnt : Nat} (s : State)
    (h : ¬ cnt < limit ∨ pktBuf = true ∧ f.size = 0) :
    reads cfg limit pktBuf (f :: fs) cnt s = [] ∧
      rxLoop cfg limit pktBuf (f :: fs) cnt s = (cnt, f :: fs, s) := by
  by_cases hc : cnt < limit
  · have he := h.resolve_left (not_not.mpr hc)
    exact ⟨by rw [reads, if_pos hc, if_pos he], by rw [rxLoop, if_pos hc, if_pos he]⟩
  · exact ⟨by rw [reads, if_neg hc], by rw [rxLoop, if_neg hc]⟩

/-- The frame is read, and the loop ends with it or goes on. -/
theorem reads_cons (cfg : Config) (f : Frame) (fs : List Frame) {cnt : Nat} (s : State)
    (hc : cnt < limit) (he : ¬ (pktBuf = true ∧ f.size = 0)) :
    let r := rxFrame cfg limit pktBuf f cnt s
    r.2.1 = true ∧ reads cfg limit pktBuf (f :: fs) cnt s = [pass cfg limit pktBuf f cnt s] ∧
        rxLoop cfg limit pktBuf (f :: fs) cnt s = (r.1 + f.size, fs, r.2.2) ∨
      r.2.1 = false ∧ reads cfg limit pktBuf (f :: fs) cnt s =
          pass cfg limit pktBuf f cnt s :: reads cfg limit pktBuf fs (r.1 + f.size) r.2.2 ∧
        rxLoop cfg limit pktBuf (f :: fs) cnt s =
          rxLoop cfg limit pktBuf fs (r.1 + f.size) r.2.2 := by
  rw [reads, rxLoop, if_pos hc, if_pos hc, if_neg he, if_neg he, pass]
  generalize rxFrame cfg limit pktBuf f cnt s = r
  obtain ⟨cnt', out, t⟩ := r
  cases out with
  | true => exact .inl ⟨rfl, rfl, rfl⟩
  | false => exact .inr ⟨rfl, rfl, rfl⟩

/-- The passes lead from the state before the loop to the one after it, over the frames that
are taken from the ring, and `cnt` grows by what they reserve and by the frames' own bytes. -/
theorem reads_account (cfg : Config) (limit : Nat) (pktBuf : Bool) (fs : List Frame) (cnt : Nat)
    (s : State) :
    let rs := reads cfg limit pktBuf fs cnt s
    let out := rxLoop cfg limit pktBuf fs cnt s
    fs = rs.map Read.frame ++ out.2.1 ∧ Chained s rs out.2.2 ∧
      s.trace.reserved + out.1 = cnt + out.2.2.trace.reserved + bytesRead rs := by
  induction fs generalizing cnt s with
  | nil => exact ⟨rfl, rfl, by simp [reads, rxLoop, bytesRead, Nat.add_comm]⟩
  | cons f fs ih =>
    by_cases hskip : ¬ cnt < limit ∨ pktBuf = true ∧ f.size = 0
    · obtain ⟨hreads, hloop⟩ := reads_skip cfg fs s hskip
      simp only [hreads, hloop]
      exact ⟨rfl, rfl, by simp [bytesRead, Nat.add_comm]⟩
    · obtain ⟨hc, he⟩ := not_or.mp hskip
      have hres := (rxFrame_cnt cfg limit pktBuf f cnt s).2.2
      obtain ⟨-, hreads, hloop⟩ | ⟨-, hreads, hloop⟩ :=
        reads_cons cfg f fs s (not_not.mp hc) he
      · simp only [hreads, hloop]
        refine ⟨rfl, ⟨rfl, rfl⟩, ?_⟩
        simp only [bytesRead, pass, List.map_cons, List.map_nil, List.sum_cons, List.sum_nil]
        omega
      · obtain ⟨hframes, hchain, hsum⟩ := ih ((rxFrame cfg limit pktBuf f cnt s).1 + f.size)
          (rxFrame cfg limit pktBuf f cnt s).2.2
        simp only [hreads, hloop]
        refine ⟨congrArg (f :: ·) hframes, ⟨rfl, hchain⟩, ?_⟩
        simp only [bytesRead, pass, List.map_cons, List.sum_cons] at hsum ⊢
        omega

theorem reads_pass {fs : List Frame} {cnt : Nat} {s : State} {r : Read}
    (h : r ∈ reads cfg limit pktBuf fs cnt s) :
    r.cnt < limit ∧ ¬ (pktBuf = true ∧ r.frame.size = 0) ∧
      r = pass cfg limit pktBuf r.frame r.cnt r.before := by
  induction fs generalizing cnt s with
  | nil => cases h
  | cons f fs ih =>
    by_cases hskip : ¬ cnt < limit ∨ pktBuf = true ∧ f.size = 0
    · rw [(reads_skip cfg fs s hskip).1] at h
      cases h
    · obtain ⟨hc, he⟩ := not_or.mp hskip
      obtain ⟨-, hreads, -⟩ | ⟨-, hreads, -⟩ :=
        reads_cons cfg f fs s (not_not.mp hc) he
      · rw [hreads] at h
        obtain rfl := List.mem_singleton.mp h
        exact ⟨not_not.mp hc, he, rfl⟩
      · rw [hreads] at h
        obtain rfl | h := List.mem_cons.mp h
        · exact ⟨not_not.mp hc, he, rfl⟩
        · exact ih h

/-- Every frame that is read with a buffer present is rejected, stored once or lost, and it is
lost only if `limit - cnt` is too little for it. -/
theorem reads_cases {fs : List Frame} {cnt : Nat} {s : State} {r : Read}
    (h : r ∈ reads cfg limit true fs cnt s) :
    Rejected cfg r ∨ StoredOnce cfg r ∨ Lost r ∧ limit <
      r.cnt + (r.after.trace.reserved - r.before.trace.reserved) + toWrite cfg r.frame + rawHlen := by
  obtain ⟨hc, -, he⟩ := reads_pass h
  have hres := (rxFrame_cnt cfg limit true r.frame r.cnt r.before).2.2
  have hcases := pass_cases cfg limit r.frame r.cnt r.before
  rw [← he] at hcases
  obtain hrej | hstored | ⟨hlost, hfull⟩ := hcases
  · exact .inl hrej
  · exact .inr (.inl hstored)
  · have hafter : r.after = (rxFrame cfg limit true r.frame r.cnt r.before).2.2 :=
      congrArg Read.after he
    refine .inr (.inr ⟨hlost, ?_⟩)
    rw [hafter]
    omega

theorem reads_false_not_lost {fs : List Frame} {cnt : Nat} {s : State} {r : Read}
    (h : r ∈ reads cfg limit false fs cnt s) : ¬ Lost r := by
  obtain ⟨-, -, he⟩ := reads_pass h
  have hafter : r.after = (rxFrame cfg limit false r.frame r.cnt r.before).2.2 :=
    congrArg Read.after he
  have hsame := (rxFrame_discard cfg limit r.frame r.cnt r.before).2.2
  rw [Lost, hafter, hsame]
  omega

/-- With a buffer, the first frame that is read has bytes. -/
theorem bytesRead_true (cfg : Config) (limit : Nat) (frames : List Frame) (s : State) :
    bytesRead (reads cfg limit true frames 0 s) = 0 ↔
      limit = 0 ∨ ∀ f ∈ frames.head?, f.size = 0 := by
  cases frames with
  | nil => simp [reads, bytesRead]
  | cons f fs =>
    by_cases hskip : ¬ 0 < limit ∨ true = true ∧ f.size = 0
    · rw [(reads_skip cfg fs s hskip).1]
      refine iff_of_true rfl (hskip.imp (fun hc => by omega) fun he g hg => ?_)
      cases hg
      exact he.2
    · obtain ⟨hc, he⟩ := not_or.mp hskip
      have hsize : 0 < f.size := Nat.pos_of_ne_zero fun h => he ⟨rfl, h⟩
      refine iff_of_false ?_ ?_
      · obtain ⟨-, hreads, -⟩ | ⟨-, hreads, -⟩ :=
          reads_cons cfg f fs s (not_not.mp hc) he <;> rw [hreads] <;>
          simp only [bytesRead, pass, List.map_cons, List.sum_cons] <;> omega
      · rintro (hzero | hall)
        · omega
        · exact hsize.ne' (hall f rfl)

/-- Without one, every frame is read until the first that has bytes. -/
theorem bytesRead_false (cfg : Config) {limit : Nat} (hlimit : 0 < limit) (frames : List Frame)
    (s : State) :
    bytesRead (reads cfg limit false frames 0 s) = 0 ↔ ∀ f ∈ frames, f.size = 0 := by
  induction frames generalizing s with
  | nil => simp [reads, bytesRead]
  | cons f fs ih =>
    obtain ⟨hcnt, hout, -⟩ := rxFrame_discard cfg limit f 0 s
    obtain ⟨hstop, -⟩ | ⟨-, hreads, -⟩ :=
      reads_cons cfg f fs s hlimit (show ¬ (false = true ∧ f.size = 0) by simp)
    · rw [hout] at hstop
      cases hstop
    · rw [hreads, hcnt, Nat.zero_add]
      by_cases hsize : f.size = 0
      · have hsum : ∀ rs, bytesRead (pass cfg limit false f 0 s :: rs) = bytesRead rs := by
          intro rs
          simp only [bytesRead, pass, List.map_cons, List.sum_cons, hsize, Nat.zero_add]
        rw [hsum, hsize, List.forall_mem_cons, and_iff_right hsize]
        exact ih _
      · refine iff_of_false ?_ fun hall => hsize (hall f List.mem_cons_self)
        simp only [bytesRead, pass, List.map_cons, List.sum_cons]
        omega

theorem bytesRead_idle (cfg : Config) (limit : Nat) (pktBuf : Bool) (frames : List Frame)
    (s : State) :
    bytesRead (reads cfg limit pktBuf frames 0 s) = 0 ↔ Idle limit pktBuf frames := by
  cases pktBuf with
  | true =>
    rw [bytesRead_true]
    simp [Idle]
  | false =>
    by_cases hlimit : 0 < limit
    · rw [bytesRead_false cfg hlimit]
      have hne : limit ≠ 0 := hlimit.ne'
      simp [Idle, hne]
    · have hzero : limit = 0 := by omega
      refine iff_of_true ?_ (.inl hzero)
      cases frames with
      | nil => rfl
      | cons f fs =>
        rw [(reads_skip cfg fs s (.inl hlimit)).1]
        rfl

/-- The result is what was reserved, and the bytes of the frames that were read besides. -/
theorem hpcapRx_returns (cfg : Config) (limit : Nat) (pktBuf : Bool) (frames : List Frame)
    (s : State) :
    s.trace.reserved + (hpcapRx cfg limit pktBuf frames s).1 =
      (hpcapRx cfg limit pktBuf frames s).2.2.trace.reserved +
        bytesRead (reads cfg limit pktBuf frames 0 s) := by
  obtain ⟨-, -, hsum⟩ := reads_account cfg limit pktBuf frames 0 s
  rw [hpcapRx]
  omega

theorem reads_kept (cfg : Config) (limit : Nat) (frames : List Frame) (s : State) :
    ∀ r ∈ reads cfg limit true frames 0 s, Lost r ∨ Rejected cfg r ∨ StoredOnce cfg r := by
  intro r hr
  obtain hrej | hstored | ⟨hlost, -⟩ := reads_cases hr
  · exact .inr (.inl hrej)
  · exact .inr (.inr hstored)
  · exact .inl hlost

/-- The accounts of a call are right exactly if it reads no byte: `cnt` also grows by the size
of each frame. Stored once is every frame that is neither rejected nor lost. -/
theorem hpcapRx_accounted (cfg : Config) (limit : Nat) (pktBuf : Bool) (frames : List Frame)
    (s : State) :
    (Accounted cfg limit pktBuf frames s ↔ Idle limit pktBuf frames) ∧
      ∀ r ∈ reads cfg limit true frames 0 s, Lost r ∨ Rejected cfg r ∨ StoredOnce cfg r := by
  have hret := hpcapRx_returns cfg limit pktBuf frames s
  have hidle := bytesRead_idle cfg limit pktBuf frames s
  refine ⟨⟨fun h => hidle.mp ?_, fun h => ⟨?_, fun r hr hlost => ?_, ?_⟩⟩,
    reads_kept cfg limit frames s⟩
  · have hreturns := h.returns
    omega
  · have hzero := hidle.mpr h
    omega
  · cases pktBuf with
    | false => exact absurd hlost (reads_false_not_lost hr)
    | true =>
      obtain ⟨-, hbytes, -⟩ := reads_pass hr
      have hsize := List.sum_eq_zero_iff_forall_eq_nat.mp (hidle.mpr h) r.frame.size (List.mem_map_of_mem hr)
      exact absurd ⟨rfl, hsize⟩ hbytes
  · rintro rfl
    exact reads_kept cfg limit frames s

/-- Two frames of 60 bytes and space for 200: the call has used 72 bytes of the buffer, returns
192 and gives up the second frame, for which there was room. -/
theorem hpcapRx_counts_twice :
    let cfg : Config := ⟨1000, 1000, 0, false, []⟩
    let frame : Frame := ⟨List.replicate 60 0, 0, 0⟩
    let out := hpcapRx cfg 200 true [frame, frame] (.init fun _ => 0)
    out.1 = 192 ∧ out.2.2.trace.reserved = 72 ∧ out.2.2.hpcapClientLoss = 1 ∧
      72 + toWrite cfg frame + rawHlen ≤ 200 ∧
      ¬ Accounted cfg 200 true [frame, frame] (.init fun _ => 0) := by
  refine ⟨by decide +kernel, by decide +kernel, by decide +kernel, by decide, fun h => ?_⟩
  exact absurd h.returns (by decide +kernel)

end Passes

end Hpcap.Budget
