import Hpcap.Feed
import Hpcap.Read

namespace Hpcap.Readout

open Hpcap.Patch Hpcap.Reservation Hpcap.Rx Hpcap.Stream Hpcap.Inked Hpcap.Recording
open Hpcap.Listeners Hpcap.Registry Hpcap.Transition Hpcap.Opening Hpcap.Intact Hpcap.Decoding
open Hpcap.Feed
open Hpcap.Capture (Core Reader Elsewhere joinPos)
open Hpcap.Read (Memory Done int32 sizeT ssizeT minimo usedAt)

/-- Where a client is that reads the device: between two calls of `hpcap_read`, or in one whose
wait is over, with the write offset that the last look found. -/
inductive Pc
  | idle
  | copying (count wr : Nat)

/-- The queue, and such a client with all that its calls have returned. -/
structure State where
  queue : Poll.State
  pc : Pc
  received : List UInt8

def memory (buf : Nat → UInt8) : Memory := fun i => buf i.toNat

/-- What the caller has of the call: nothing, if it returns an error. -/
def returned (d : Done) : List UInt8 :=
  (List.range d.ret.toNat).map fun (i : Nat) => d.dstBuf (i : Int)

/-- The listener of slot `j` once the call is done with it. -/
def put (q : Poll.State) (j : Nat) (list : Option Listener) : Poll.State :=
  match list with
  | none => q
  | some l => { q with lstnr := { q.lstnr with listeners := q.lstnr.listeners.set j l } }

/-- The end of `hpcap_wait_listener`. -/
def look (id : Int) (count : Nat) (s : State) : Option State :=
  match s.pc with
  | .copying _ _ => none
  | .idle => (hpcapGetListener s.queue.lstnr id).bind fun slot =>
    if int32 count ≤ int32 (usedBytes slot.2) then
      some { s with pc := .copying count slot.2.bufferWrOffset }
    else none

/-- The rest of the call. -/
def copy (cfg : Config) (id : Int) (left left' : Nat) (s : State) : Option State :=
  match s.pc with
  | .idle => none
  | .copying count wr => (hpcapGetListener s.queue.lstnr id).bind fun slot =>
    (Read.hpcapRead (some ⟨cfg.bufSize, s.queue.lstnr⟩) id (memory s.queue.rx.dstBuf) (fun _ => 0)
      count ⟨[⟨wr, false⟩], false, slot.2.bufferWrOffset, left, left'⟩).map fun d =>
        ⟨put s.queue slot.1 d.list, .idle, s.received ++ returned d⟩

/-- A wait that ends, a copy with what `copy_to_user` leaves out, or something done elsewhere. -/
inductive Step
  | look (count : Nat)
  | copy (left left' : Nat)
  | op (a : Poll.Op)

def step (cfg : Config) (id : Int) (s : State) : Step → Option State
  | .look count => look id count s
  | .copy left left' => copy cfg id left left' s
  | .op a =>
    if Elsewhere id a then (Poll.step cfg s.queue a).map fun q => { s with queue := q } else none

/-- Once the device is opened. -/
def start (q : Poll.State) (id : Int) : State :=
  ⟨{ q with lstnr := (hpcapAddListener q.lstnr id).1 }, .idle, []⟩

/-- Frames fit a descriptor. -/
def Received (s : State) : Step → Prop
  | .op a => Opening.Received s.queue a
  | _ => True

instance (s : State) : DecidablePred (Received s) := fun a => by
  unfold Received
  split <;> infer_instance

/-- The client's listener has acknowledged the stream up to `p`. -/
structure Attached (cfg : Config) (id : Int) (q : Poll.State) (p : Nat) : Prop where
  queue : Opening.Inv cfg q
  listener : ∃ j l, hpcapGetListener q.lstnr id = some (j, l) ∧
    Reader cfg.bufSize p q.rx.trace.reserved l

/-- What the client has is the stream from `j` on. -/
structure Logged (cfg : Config) (q₀ : Poll.State) (j : Nat) (received : List UInt8)
    (q : Poll.State) (es₀ es : List Entry) : Prop extends Since cfg q₀ q es₀ es where
  copied : Files.Copied cfg j es received

/-- In a call, the last look found the stream written up to some position. -/
def Looked (cfg : Config) (p reserved : Nat) : Pc → Prop
  | .idle => True
  | .copying _ wr => ∃ r, p ≤ r ∧ r ≤ reserved ∧ wr = r % cfg.bufSize

structure Inv (cfg : Config) (id : Int) (q₀ : Poll.State) (j : Nat) (s : State) : Prop where
  attached : Attached cfg id s.queue (j + s.received.length)
  looked : Looked cfg (j + s.received.length) s.queue.rx.trace.reserved s.pc
  log : Sound cfg s.queue.rx.trace → ∃ es₀ es, Logged cfg q₀ j s.received s.queue es₀ es

section Call

variable {cfg : Config} {id : Int} {q : Poll.State} {p j : Nat} {l : Listener}

/-- As a client with a handle that has seen nothing. -/
theorem Attached.core (h : Attached cfg id q p) :
    Core cfg id (client q ⟨0, 0, 0, 0, cfg.bufSize⟩) p := by
  obtain ⟨j, l, hl, hr⟩ := h.listener
  have hpos : 0 < cfg.bufSize := by
    have hle := hr.le
    have hfits := hr.fits
    omega
  exact ⟨h.queue, ⟨j, l, hl, hr⟩, ⟨rfl, hpos, le_rfl, hr.le, fun h => absurd h (lt_irrefl 0)⟩,
    nofun⟩

/-- A read releases what it has returned. -/
theorem Attached.pop (h : Attached cfg id q p) (hb : cfg.bufSize ∣ cfg.fileSize)
    (hd : cfg.bufSize ∣ 2 ^ 32) (hid : id ≠ listenerEmpty) {k : Nat}
    (hk : p + k ≤ q.rx.trace.reserved) :
    Poll.step cfg q (.pop id k) = some { q with lstnr := popHandle q.lstnr id k } ∧
      Attached cfg id { q with lstnr := popHandle q.lstnr id k } (p + k) := by
  obtain ⟨j, l, hl, hr⟩ := h.listener
  have hstep : Poll.step cfg q (.pop id k) = some { q with lstnr := popHandle q.lstnr id k } :=
    if_pos ⟨hid, by rw [hl]; rfl⟩
  have hat : At cfg.bufSize (p + min k (q.rx.trace.reserved - p)) q.rx.trace.reserved
      (hpcapPopListener l k).1 := hr.toAt.pop hr.le hr.fits
  rw [Nat.min_eq_left (by omega)] at hat
  have hreader : Reader cfg.bufSize (p + k) q.rx.trace.reserved (hpcapPopListener l k).1 := by
    have hfits := hr.fits
    exact ⟨hat, hk, by omega⟩
  have hok : Opening.Received q (.pop id k) := trivial
  exact ⟨hstep, h.queue.step hb hd hok hstep, j, _, getListener_popSelf hl k, hreader⟩

theorem put_pop (hl : hpcapGetListener q.lstnr id = some (j, l)) {k : Nat}
    (hk : k ≤ usedBytes l) :
    put q j (some (hpcapPopListener l k).1) = { q with lstnr := popHandle q.lstnr id k } := by
  have hnone : (hpcapPopListener l k).2 = [] := by
    rw [hpcapPopListener]
    dsimp only
    rw [if_neg (Nat.not_lt.mpr hk)]
  rw [put, popHandle, hl]
  dsimp only
  rw [hnone, List.append_nil]

theorem put_self (hl : hpcapGetListener q.lstnr id = some (j, l)) : put q j (some l) = q := by
  obtain ⟨hget, -⟩ := findSlot_some hl
  obtain ⟨hlt, rfl⟩ := List.getElem?_eq_some_iff.mp hget
  rw [put]
  dsimp only
  rw [List.set_getElem_self]

/-- What the rest of a call comes to: an error without effect, or the next `k` bytes. -/
theorem hpcapRead_cases (hr : Reader cfg.bufSize p q.rx.trace.reserved l)
    (hl : hpcapGetListener q.lstnr id = some (j, l)) (hmax : cfg.bufSize ≤ 2 ^ 31)
    {count wr r left left' : Nat} (hpr : p ≤ r) (hrq : r ≤ q.rx.trace.reserved)
    (hwr : wr = r % cfg.bufSize) {d : Done}
    (hd : Read.hpcapRead (some ⟨cfg.bufSize, q.lstnr⟩) id (memory q.rx.dstBuf) (fun _ => 0) count
      ⟨[⟨wr, false⟩], false, l.bufferWrOffset, left, left'⟩ = some d) :
    returned d = [] ∧ d.list = some l ∨ ∃ k ≤ q.rx.trace.reserved - p, k ≤ count ∧
      returned d = ring q.rx.dstBuf cfg.bufSize p k ∧ d.list = some (hpcapPopListener l k).1 := by
  have hfits := hr.fits
  have hpos : 0 < cfg.bufSize := by omega
  have hlist : Read.listOf (some ⟨cfg.bufSize, q.lstnr⟩) id = some l := by
    rw [Read.listOf, Option.bind_some, hl]
    rfl
  have hat : At cfg.bufSize p r { l with bufferWrOffset := wr } := ⟨hr.bufsz, hr.rd, hwr⟩
  have hused : usedAt l wr = r - p := hat.usedBytes hpr (by omega)
  have hint : int32 (usedAt l wr) = (r - p : Nat) := by
    rw [hused]
    exact Read.int32_small (by omega) (by omega)
  -- the look that ended the wait is the last one
  have hlook : Read.lastLook l count ⟨[⟨wr, false⟩], false, l.bufferWrOffset, left, left'⟩ =
      some ⟨wr, false⟩ := by
    by_cases hover : int32 count ≤ int32 (usedAt l wr)
    · simp [Read.lastLook, hover]
    · have hnone : Read.hpcapRead (some ⟨cfg.bufSize, q.lstnr⟩) id (memory q.rx.dstBuf) (fun _ => 0)
          count ⟨[⟨wr, false⟩], false, l.bufferWrOffset, left, left'⟩ = none := by
        simp [Read.hpcapRead, hl, Read.hpcapWaitListener, Int.not_le.mp hover]
      rw [hnone] at hd
      cases hd
  have hread := Read.hpcapRead_listed (memory q.rx.dstBuf) (fun _ => 0) hlist hlook
  obtain rfl := Option.some.inj (hread.symm.trans hd)
  have hk : minimo count (sizeT (int32 (usedAt l wr))) = min count (r - p) := by
    have hsize := Read.sizeT_cases (x := ((r - p : Nat) : Int)) (by omega) (by omega)
    rw [hint, minimo]
    split <;> omega
  rw [← hr.bufsz]
  simp only [Bool.false_eq_true, if_false]
  by_cases hf : Read.Faults l (min count (r - p))
      ⟨[⟨wr, false⟩], false, l.bufferWrOffset, left, left'⟩
  · obtain ⟨hret, hlist'⟩ := Read.readAvail_fault (memory q.rx.dstBuf) (fun _ => 0) (hk ▸ hf)
    refine .inl ⟨?_, hlist'⟩
    rw [returned, hret]
    rfl
  · have hkn : min count (r - p) < cfg.bufSize := by omega
    have hrd : l.bufferRdOffset < cfg.bufSize := by
      rw [hr.rd]
      exact Nat.mod_lt _ hpos
    rw [Read.readAvail_copied (memory q.rx.dstBuf) (fun _ => 0) hk hf]
    refine .inr ⟨min count (r - p), by omega, by omega, ?_, rfl⟩
    have hfaith : Read.Faithful l.bufsz l.bufferRdOffset (min count (r - p)) := by
      rw [hr.bufsz]
      exact Read.faithful_near (by omega) (by omega) (by omega) (by omega) (by omega)
    rw [returned, Read.ssizeT_small (by omega), Int.toNat_natCast]
    apply List.ext_getElem (by simp)
    intro i hi hi'
    rw [List.length_map, List.length_range] at hi
    rw [ring_getElem, List.getElem_map, List.getElem_range]
    dsimp only
    have hin : (0 : Int) ≤ i ∧ (i : Int) < (min count (r - p) : Nat) := ⟨by omega, by omega⟩
    have hcast : ((p % cfg.bufSize : Nat) + (i : Int)) % (cfg.bufSize : Nat) =
        ((p + i) % cfg.bufSize : Nat) := by
      rw [← Nat.cast_add, ← Int.natCast_emod, Nat.mod_add_mod]
    rw [hfaith _ _ i, if_pos hin, memory, hr.bufsz, hr.rd, hcast, Int.toNat_natCast]

end Call

section Run

variable {cfg : Config} {id : Int} {q₀ : Poll.State} {j : Nat} {s t : State}

/-- What is done to the queue leaves what the client has. -/
theorem Logged.step {q r : Poll.State} {p : Nat} {received : List UInt8} {a : Poll.Op}
    (h : Sound cfg q.rx.trace → ∃ es₀ es, Logged cfg q₀ j received q es₀ es)
    (hat : Attached cfg id q p) (hle : j + received.length ≤ q.rx.trace.reserved)
    (hb : cfg.bufSize ∣ cfg.fileSize) (hd : cfg.bufSize ∣ 2 ^ 32) (hid : id ≠ listenerEmpty)
    (ha : Opening.Received q a) (hs : Poll.step cfg q a = some r) (hsound : Sound cfg r.rx.trace) :
    ∃ es₀ es, Logged cfg q₀ j received r es₀ es := by
  have hgo := not_restarts hat.core hid a
  obtain ⟨es₀, es, hes⟩ := h (step_sound hgo hs hsound)
  obtain ⟨more, hsince⟩ := hes.toSince.step hb hd hat.queue hgo ha hs hsound
  refine ⟨es₀, es ++ more, hsince, hes.copied.mono ?_ (List.prefix_append _ _)⟩
  rw [hes.kept.total_eq]
  exact hle

theorem Looked.mono {p r r' : Nat} {pc : Pc} (h : Looked cfg p r pc) (hle : r ≤ r') :
    Looked cfg p r' pc := by
  cases pc with
  | idle => trivial
  | copying count wr =>
    obtain ⟨x, hx, hxr, hwr⟩ := h
    exact ⟨x, hx, hxr.trans hle, hwr⟩

/-- The wait ends. -/
theorem Inv.look {count : Nat} (h : Inv cfg id q₀ j s) (hs : look id count s = some t) :
    Inv cfg id q₀ j t := by
  obtain ⟨q, pc, received⟩ := s
  cases pc with
  | copying count' wr => cases hs
  | idle =>
    obtain ⟨slot, hslot, hs⟩ := Option.bind_eq_some_iff.mp hs
    obtain ⟨-, hs⟩ := Option.ite_none_right_eq_some.mp hs
    obtain rfl := Option.some.inj hs
    obtain ⟨i, l, hl, hr⟩ := h.attached.listener
    obtain rfl := Option.some.inj (hl.symm.trans hslot)
    exact ⟨h.attached, ⟨_, hr.le, le_rfl, hr.wr⟩, h.log⟩

/-- The call returns. -/
theorem Inv.copy {left left' : Nat} (h : Inv cfg id q₀ j s) (hb : cfg.bufSize ∣ cfg.fileSize)
    (hd : cfg.bufSize ∣ 2 ^ 32) (hmax : cfg.bufSize ≤ 2 ^ 31) (hid : id ≠ listenerEmpty)
    (hs : copy cfg id left left' s = some t) : Inv cfg id q₀ j t := by
  obtain ⟨q, pc, received⟩ := s
  cases pc with
  | idle => cases hs
  | copying count wr =>
    obtain ⟨slot, hslot, hs⟩ := Option.bind_eq_some_iff.mp hs
    obtain ⟨d, hdone, rfl⟩ := Option.map_eq_some_iff.mp hs
    have hat : Attached cfg id q (j + received.length) := h.attached
    obtain ⟨i, l, hl, hr⟩ := hat.listener
    obtain rfl := Option.some.inj (hl.symm.trans hslot)
    obtain ⟨r, hpr, hrq, hwr⟩ := h.looked
    obtain ⟨hnone, hlist⟩ | ⟨k, hk, -, hbytes, hlist⟩ :=
      hpcapRead_cases hr hl hmax hpr hrq hwr hdone
    · rw [hlist, put_self hl, hnone, List.append_nil]
      exact ⟨hat, trivial, h.log⟩
    · have hle : j + received.length + k ≤ q.rx.trace.reserved := by
        have hle := hr.le
        omega
      obtain ⟨hstep, hpopped⟩ := hat.pop hb hd hid hle
      rw [hlist, put_pop hl (by rw [hr.used]; exact hk), hbytes]
      have hlen : j + (received ++ ring q.rx.dstBuf cfg.bufSize (j + received.length) k).length =
          j + received.length + k := by
        rw [List.length_append, ring_length, Nat.add_assoc]
      refine ⟨hlen ▸ hpopped, trivial, fun hsound => ?_⟩
      refine Logged.step (fun hsound => ?_) hat (hlen ▸ hle) hb hd hid
        (show Opening.Received q (.pop id k) from trivial) hstep hsound
      -- the bytes are those of the log before the call releases them
      obtain ⟨es₀, es, hes⟩ := h.log hsound
      exact ⟨es₀, es, hes.toSince, hes.copied.append
        (Files.Copied.ring hes.kept.toRecorded (Files.registered hat.core hid).2)⟩

theorem Inv.step {a : Step} (h : Inv cfg id q₀ j s) (hb : cfg.bufSize ∣ cfg.fileSize)
    (hd : cfg.bufSize ∣ 2 ^ 32) (hmax : cfg.bufSize ≤ 2 ^ 31) (hid : id ≠ listenerEmpty)
    (ha : Received s a) (hs : Readout.step cfg id s a = some t) : Inv cfg id q₀ j t := by
  cases a with
  | look count => exact h.look hs
  | copy left left' => exact h.copy hb hd hmax hid hs
  | op a =>
    obtain ⟨helse, hs⟩ := Option.ite_none_right_eq_some.mp hs
    obtain ⟨r, hr, rfl⟩ := Option.map_eq_some_iff.mp hs
    obtain ⟨i, l, hl, hrd⟩ := h.attached.listener
    obtain ⟨m, hm, hrm, hle⟩ := hrd.step hd h.attached.queue.queue hid hl helse hr
    have ha : Opening.Received s.queue a := ha
    exact ⟨⟨h.attached.queue.step hb hd ha hr, i, m, hm, hrm⟩, h.looked.mono hle,
      Logged.step h.log h.attached hrd.le hb hd hid ha hr⟩

theorem start_inv (hb : cfg.bufSize ∣ cfg.fileSize) (hd : cfg.bufSize ∣ 2 ^ 32)
    (h : Opens cfg id q₀) : Inv cfg id q₀ (joinPos q₀) (start q₀ id) := by
  have hcore := h.core hb hd
  obtain ⟨buf, hq⟩ := h.opened
  refine ⟨⟨hcore.queue, hcore.listener⟩, trivial, fun hsound => ?_⟩
  obtain ⟨es₀, es, hes⟩ := Since.opened hb hd (Intact.reach_inv hb hd hq) h.id_ne h.new hsound
  exact ⟨es₀, es, hes, fun i b _ hi => absurd hi (Nat.not_lt_zero i)⟩

end Run

section Records

variable {cfg : Config} {p j : Nat} {es : List Entry} {bytes : List UInt8}

/-- The entries that `k` bytes take up whole. -/
theorem exists_whole {k : Nat} (hk : k ≤ total (layout cfg) es) :
    ∃ ps qs, es = ps ++ qs ∧ total (layout cfg) ps ≤ k ∧
      ∀ e ∈ qs.head?, k < total (layout cfg) ps + e.size cfg := by
  induction es generalizing k with
  | nil => exact ⟨[], [], rfl, Nat.zero_le k, nofun⟩
  | cons e es ih =>
    have htotal : total (layout cfg) (e :: es) = e.size cfg + total (layout cfg) es := rfl
    by_cases hlt : k < e.size cfg
    · refine ⟨[], e :: es, rfl, Nat.zero_le k, fun e' he' => ?_⟩
      obtain rfl := Option.some.inj he'
      rw [total_nil, Nat.zero_add]
      exact hlt
    · obtain ⟨ps, qs, rfl, hps, hqs⟩ := ih (k := k - e.size cfg) (by omega)
      have hcons : total (layout cfg) (e :: ps) = e.size cfg + total (layout cfg) ps := rfl
      refine ⟨e :: ps, qs, rfl, by omega, fun e' he' => ?_⟩
      have hnext := hqs e' he'
      omega

/-- The log can go on where the bytes end. -/
theorem exists_more (h : Files.Copied cfg j es bytes) (n : Nat) :
    ∃ more, more.length = n ∧ Files.Copied cfg j es (bytes ++ more) := by
  refine ⟨(List.range n).map fun i => (ink (layout cfg) es (j + bytes.length + i)).getD 0,
    by rw [List.length_map, List.length_range], h.append fun i b hb hi => ?_⟩
  rw [List.getElem_map, List.getElem_range, hb]
  rfl

/-- What is there of the next entry is the start of a record, and not all of it. -/
def Begun (cfg : Config) (next : Option Entry) (rest : List UInt8) : Prop :=
  match next with
  | none => rest = []
  | some e => ∃ r, IsRecord cfg e r ∧ rest <+: r.toBytes ∧ rest ≠ r.toBytes

theorem exists_begun (h : Tidy cfg p es) (hc : Files.Copied cfg 0 es bytes)
    (hlt : ∀ e ∈ es.head?, bytes.length < e.size cfg) (hle : bytes.length ≤ total (layout cfg) es) :
    Begun cfg es.head? bytes := by
  cases es with
  | nil => exact List.length_eq_zero_iff.mp (Nat.le_zero.mp hle)
  | cons e es =>
    have hlt : bytes.length < e.size cfg := hlt e rfl
    obtain ⟨more, hmore, hcopied⟩ := exists_more hc (e.size cfg - bytes.length)
    have hlen : (bytes ++ more).length = e.size cfg := by
      rw [List.length_append]
      omega
    obtain ⟨r, hr, hrec⟩ := exists_record h.1 hcopied hlen.ge
    rw [← hlen, List.drop_length, List.append_nil] at hr
    refine ⟨r, hrec, hr ▸ List.prefix_append _ _, ?_⟩
    rintro rfl
    have hsame := congrArg List.length hr
    omega

/-- Bytes of a log are its records, and the start of the next one. -/
theorem exists_reading (h : Tidy cfg p es) (hc : Files.Copied cfg 0 es bytes)
    (hle : bytes.length ≤ total (layout cfg) es) :
    ∃ ps qs rs rest, es = ps ++ qs ∧ bytes = rs.flatMap RawRecord.toBytes ++ rest ∧
      List.Forall₂ (IsRecord cfg) ps rs ∧ Begun cfg qs.head? rest := by
  obtain ⟨ps, qs, rfl, hps, hqs⟩ := exists_whole hle
  obtain ⟨hfront, hback⟩ := h.of_append
  have hlen : (bytes.take (total (layout cfg) ps)).length = total (layout cfg) ps := by
    rw [List.length_take, min_eq_left hps]
  have hdrop : (bytes.drop (total (layout cfg) ps)).length = bytes.length - total (layout cfg) ps :=
    List.length_drop
  rw [← List.take_append_drop (total (layout cfg) ps) bytes] at hc
  obtain ⟨rs, hrs, hall⟩ := exists_records hfront (copied_front hc) hlen
  rw [total_append] at hle
  refine ⟨ps, qs, rs, bytes.drop (total (layout cfg) ps), rfl, ?_, hall, ?_⟩
  · rw [← hrs, List.take_append_drop]
  · refine exists_begun hback (copied_drop hc hlen.symm) (fun e he => ?_) (by omega)
    have hnext := hqs e he
    omega

end Records

/-- A client has opened the device at an entry of the stream, in the state `q`, and has come
to `s`. -/
structure Reads (cfg : Config) (id : Int) (q : Poll.State) (s : State) : Prop extends
    Opens cfg id q where
  run : Reach (step cfg id) Received (fun t => t = start q id) s

/-- Whatever sizes a client asks for, and whether or not its calls fail in between, what they
return is one after the other the records of the stream, none missing and none twice, from the
entry on at which the device was opened, and then the start of one more. -/
theorem reads_return_stream (cfg : Config) (hb : cfg.bufSize ∣ cfg.fileSize)
    (hd : cfg.bufSize ∣ 2 ^ 32) (hmax : cfg.bufSize ≤ 2 ^ 31) (id : Int) (q : Poll.State)
    (s : State) (h : Reads cfg id q s) (hsound : Sound cfg s.queue.rx.trace) :
    ∃ (before : List Frame) (es after : List Entry) (rs : List RawRecord) (rest : List UInt8),
      s.queue.rx.trace.accepted.reverse = before ++ (frames es ++ frames after) ∧
      before <+: q.rx.trace.accepted.reverse ∧
      Tidy cfg (joinPos q) (es ++ after) ∧
      s.received = rs.flatMap RawRecord.toBytes ++ rest ∧
      List.Forall₂ (IsRecord cfg) es rs ∧ Begun cfg after.head? rest := by
  have hinv : Inv cfg id q (joinPos q) s := by
    refine h.run.invariant (Inv cfg id q (joinPos q)) ?_ fun _ _ _ hu ha hs =>
      hu.step hb hd hmax h.id_ne ha hs
    rintro t rfl
    exact start_inv hb hd h.toOpens
  obtain ⟨es₀, es, hes⟩ := hinv.log hsound
  obtain ⟨-, l, -, hr⟩ := hinv.attached.listener
  obtain ⟨pre, hpre₀, hpre⟩ := h.onEntry es₀ hes.start
  obtain ⟨post, rfl⟩ := hpre₀.trans hes.grown
  obtain ⟨-, htidy⟩ := hes.kept.tidy.of_append
  rw [Nat.zero_add, hpre] at htidy
  have hle := hr.le
  have htotal := hes.kept.total_eq
  rw [total_append, hpre] at htotal
  obtain ⟨ps, qs, rs, rest, rfl, hbytes, hall, hbegun⟩ :=
    exists_reading htidy (copied_behind hes.copied hpre) (by omega)
  refine ⟨frames pre, ps, qs, rs, rest, ?_, h.toOpens.before hb hd hes.toSince hpre, htidy, hbytes,
    hall, hbegun⟩
  rw [← hes.kept.accepted, frames_append, frames_append]

/-- Two frames arrive, and a client reads one and a part of the other. -/
def onePart : List Step :=
  [.op (.poll [⟨[1, 2, 3], 1, 0⟩, ⟨[4, 5], 1, 0⟩]), .look 18, .copy 1 0, .look 18, .copy 0 0]

theorem reads_return_stream_part : ∃ (s : State) (es after : List Entry) (rs : List RawRecord)
    (rest : List UInt8), Reads onePage 1 (Poll.init onePage blank) s ∧ s.received.length = 18 ∧
      (frames es ++ frames after).length = 2 ∧
      s.received = rs.flatMap RawRecord.toBytes ++ rest ∧
      List.Forall₂ (IsRecord onePage) es rs ∧ Begun onePage after.head? rest := by
  have hrun : (run (guard (step onePage 1) Received) (start (Poll.init onePage blank) 1)
      onePart).map (fun s => (decide (Sound onePage s.queue.rx.trace), s.received.length,
        s.queue.rx.trace.accepted.length)) = some (true, 18, 2) := by
    decide +kernel
  obtain ⟨s, hs, he⟩ := Option.map_eq_some_iff.mp hrun
  simp only [Prod.mk.injEq, decide_eq_true_eq] at he
  obtain ⟨hsound, hlen, htwo⟩ := he
  have hreads : Reads onePage 1 (Poll.init onePage blank) s :=
    ⟨⟨⟨blank, .start rfl⟩, by decide, rfl, rfl, onEntry_boundary le_rfl (by decide)⟩,
      .run_guard (.start rfl) hs⟩
  obtain ⟨before, es, after, rs, rest, hframes, hbefore, -, hbytes, hall, hbegun⟩ :=
    reads_return_stream onePage (by decide) (by decide) (by decide) 1 (Poll.init onePage blank) s
      hreads hsound
  obtain rfl := List.prefix_nil.mp hbefore
  have hcount := congrArg List.length hframes
  rw [List.length_reverse, htwo] at hcount
  exact ⟨s, es, after, rs, rest, hreads, hlen, hcount.symm, hbytes, hall, hbegun⟩

end Hpcap.Readout
