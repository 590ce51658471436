import Hpcap.Listeners
import Hpcap.Rx
import Hpcap.Transition

namespace Hpcap.Concurrent

open Hpcap.CircularBuffer Hpcap.Reservation Hpcap.SharedLog Hpcap.Listeners Hpcap.Rx
open Hpcap.Transition

/-- A reservation whose bytes are being copied: its place in the stream, whether it
turned out to be padding, and the copies still to be made. -/
structure Claim where
  start : Nat
  toWrite : Nat
  padded : Bool
  pending : List (Nat × List UInt8)

/-- Where a poll thread is, with its local variables. -/
inductive Pc
  | idle
  | loop (limit cnt : Nat) (pktBuf : Bool)
  | reserving (limit cnt : Nat) (f : Frame)
  | copying (limit cnt : Nat) (f : Frame) (c : Claim)
  | popping
  | publishing

/-- What the threads of a queue share. The three counts are not kept by the code: bytes
reserved, bytes `hpcap_pop_global_listener` has released, bytes pushed to the listeners. -/
structure State where
  dstBuf : Nat → UInt8
  consumerWriteOff : Nat
  lstnr : Table
  threads : List Pc
  reserved : Nat
  released : Nat
  published : Nat

/-- Steps of a thread, each with one access to what is shared. -/
inductive Act
  | poll
  | frame (f : Frame)
  | reserve
  | copy
  | leave
  | popGlobal
  | publish

/-- Only the first thread updates the pointers at the end of its iteration. -/
def finished (i : Nat) : Pc := if i = 0 then .popping else .idle

/-- The copies that follow a reservation. -/
def copies (cfg : Config) (f : Frame) (slot : Slot) : List (Nat × List UInt8) :=
  if slot.padlen > 0 then
    slot.pads.filterMap fun p =>
      if p.padlen < rawHlen then none else some (p.offset, (paddingHeader p.padlen).toBytes)
  else
    [(slot.bufferDstOffset, (frameHeader cfg f).toBytes),
      (asBufferOffset cfg (slot.bufferDstOffset + rawHlen), payload cfg f)]

/-- After the last copy the same frame reserves again, or the next one is read. -/
def settle (limit cnt : Nat) (f : Frame) (c : Claim) : Pc :=
  match c.pending with
  | [] => if c.padded then .reserving limit cnt f else .loop limit (cnt + f.size) true
  | _ :: _ => .copying limit cnt f c

def rewind (s : State) : State :=
  if s.lstnr.listenersCount = 0 then
    { s with
      consumerWriteOff := 0
      lstnr := hpcapGlobalListenerResetOffset s.lstnr
      reserved := 0
      released := 0
      published := 0 }
  else s

def State.goto (s : State) (i : Nat) (pc : Pc) : State := { s with threads := s.threads.set i pc }

/-- The bytes between what the listeners know of and `consumer_write_off`. -/
def newBytes (cfg : Config) (s : State) : Nat :=
  distance s.lstnr.global.bufferWrOffset (newOffset cfg.bufSize s.consumerWriteOff) cfg.bufSize

def stepThread (cfg : Config) (s : State) (i : Nat) : Act → Pc → Option State
  | .poll, .idle =>
    let t := rewind s
    some (t.goto i (.loop (availBytes t.lstnr.global / s.threads.length) 0
      (s.lstnr.listenersCount ≠ 0)))
  | .frame f, .loop limit cnt pktBuf =>
    if limit ≤ cnt ∨ (pktBuf ∧ f.size = 0) then none
    else if passesFilter cfg f ∧ pktBuf then some (s.goto i (.reserving limit cnt f))
    else some (s.goto i (.loop limit (cnt + f.size) pktBuf))
  | .reserve, .reserving limit cnt f =>
    let toWrite := calcCaplen cfg.caplen f.size + rawHlen
    if limit - cnt < toWrite + rawHlen then some (s.goto i (finished i))
    else
      let slot := Rx.reserve cfg s.reserved s.consumerWriteOff toWrite
      some { s.goto i (settle limit (cnt + toWrite) f
          ⟨s.reserved, toWrite, slot.padlen > 0, copies cfg f slot⟩) with
        consumerWriteOff := slot.writeOff
        reserved := s.reserved + toWrite }
  | .copy, .copying limit cnt f c =>
    match c.pending with
    | [] => none
    | w :: ws =>
      some { s.goto i (settle limit cnt f { c with pending := ws }) with
        dstBuf := (copyToCircularBuffer s.dstBuf cfg.bufSize w.1 w.2).1 }
  | .leave, .loop _ _ _ => some (s.goto i (finished i))
  | .popGlobal, .popping =>
    let r := hpcapPopGlobalListener s.lstnr
    some { s.goto i .publishing with lstnr := r.1, released := s.released + r.2 }
  | .publish, .publishing =>
    let n := newBytes cfg s
    some { s.goto i .idle with
      lstnr := if n > 0 then hpcapPushAllListeners s.lstnr n else s.lstnr
      published := s.published + n }
  | _, _ => none

/-- A step of thread `i`, or the acknowledgement of a client. -/
inductive Step
  | thread (i : Nat) (a : Act)
  | ack (id : Int) (count : Nat)

def step (cfg : Config) (s : State) : Step → Option State
  | .thread i a => s.threads[i]?.bind fun pc => stepThread cfg s i a pc
  | .ack id count =>
    if id ≠ listenerEmpty ∧ 0 < count then
      some { s with lstnr := popHandle { s.lstnr with alreadyPopped := true } id count }
    else none

/-- The threads are launched and the handles `ids` are open. -/
def start (cfg : Config) (consumers : Nat) (ids : List Int) (buf : Nat → UInt8) : State where
  dstBuf := buf
  consumerWriteOff := 0
  lstnr := ids.foldl (fun t id => (hpcapAddListener t id).1) (hpcapInitListeners cfg.bufSize)
  threads := List.replicate consumers .idle
  reserved := 0
  released := 0
  published := 0

/-- What a thread may still reserve in its iteration. -/
def budget : Pc → Nat
  | .loop limit cnt true => limit - cnt
  | .reserving limit cnt _ => limit - cnt
  | .copying limit cnt _ _ => limit - cnt
  | _ => 0

def budgets (s : State) : Nat := (s.threads.map budget).sum

theorem budgets_goto {s : State} {i : Nat} {pc : Pc} (h : s.threads[i]? = some pc) (pc' : Pc) :
    budgets (s.goto i pc') + budget pc = budgets s + budget pc' := by
  have hsum : ∀ (ts : List Pc) (i : Nat), ts[i]? = some pc →
      ((ts.set i pc').map budget).sum + budget pc = (ts.map budget).sum + budget pc' := by
    intro ts
    induction ts with
    | nil =>
      intro i hi
      cases hi
    | cons t ts ih =>
      intro i hi
      cases i with
      | zero =>
        cases hi
        simp only [List.set_cons_zero, List.map_cons, List.sum_cons]
        omega
      | succ i =>
        have := ih i hi
        simp only [List.set_cons_succ, List.map_cons, List.sum_cons]
        omega
  exact hsum s.threads i h

theorem budget_settle (limit cnt : Nat) (f : Frame) (c : Claim) :
    budget (settle limit cnt f c) ≤ limit - cnt := by
  simp only [settle]
  split
  · split
    · exact le_rfl
    · change limit - (cnt + f.size) ≤ limit - cnt
      omega
  · exact le_rfl

theorem budget_finished (i : Nat) : budget (finished i) = 0 := by
  simp only [finished]
  split <;> rfl

/-- The moves of a thread, one by one. -/
inductive Moves (cfg : Config) (s : State) (i : Nat) : Act → Pc → State → Prop
  | poll : Moves cfg s i .poll .idle ((rewind s).goto i
      (.loop (availBytes (rewind s).lstnr.global / s.threads.length) 0
        (s.lstnr.listenersCount ≠ 0)))
  | accept (limit cnt : Nat) (f : Frame) :
      Moves cfg s i (.frame f) (.loop limit cnt true) (s.goto i (.reserving limit cnt f))
  | skip (limit cnt : Nat) (pktBuf : Bool) (f : Frame) :
      Moves cfg s i (.frame f) (.loop limit cnt pktBuf)
        (s.goto i (.loop limit (cnt + f.size) pktBuf))
  | lose (limit cnt : Nat) (f : Frame) :
      Moves cfg s i .reserve (.reserving limit cnt f) (s.goto i (finished i))
  | reserve (limit cnt : Nat) (f : Frame)
      (hroom : calcCaplen cfg.caplen f.size + rawHlen + rawHlen ≤ limit - cnt) :
      Moves cfg s i .reserve (.reserving limit cnt f)
        { s.goto i (settle limit (cnt + (calcCaplen cfg.caplen f.size + rawHlen)) f
            ⟨s.reserved, calcCaplen cfg.caplen f.size + rawHlen,
              (Rx.reserve cfg s.reserved s.consumerWriteOff
                (calcCaplen cfg.caplen f.size + rawHlen)).padlen > 0,
              copies cfg f (Rx.reserve cfg s.reserved s.consumerWriteOff
                (calcCaplen cfg.caplen f.size + rawHlen))⟩) with
          consumerWriteOff := (Rx.reserve cfg s.reserved s.consumerWriteOff
            (calcCaplen cfg.caplen f.size + rawHlen)).writeOff
          reserved := s.reserved + (calcCaplen cfg.caplen f.size + rawHlen) }
  | copy (limit cnt : Nat) (f : Frame) (start toWrite : Nat) (padded : Bool)
      (w : Nat × List UInt8) (ws : List (Nat × List UInt8)) :
      Moves cfg s i .copy (.copying limit cnt f ⟨start, toWrite, padded, w :: ws⟩)
        { s.goto i (settle limit cnt f ⟨start, toWrite, padded, ws⟩) with
          dstBuf := (copyToCircularBuffer s.dstBuf cfg.bufSize w.1 w.2).1 }
  | leave (limit cnt : Nat) (pktBuf : Bool) :
      Moves cfg s i .leave (.loop limit cnt pktBuf) (s.goto i (finished i))
  | popGlobal : Moves cfg s i .popGlobal .popping
      { s.goto i .publishing with
        lstnr := (hpcapPopGlobalListener s.lstnr).1
        released := s.released + (hpcapPopGlobalListener s.lstnr).2 }
  | publish : Moves cfg s i .publish .publishing
      { s.goto i .idle with
        lstnr := if newBytes cfg s > 0 then hpcapPushAllListeners s.lstnr (newBytes cfg s)
          else s.lstnr
        published := s.published + newBytes cfg s }

theorem stepThread_moves {cfg : Config} {s t : State} {i : Nat} {a : Act} {pc : Pc}
    (h : stepThread cfg s i a pc = some t) : Moves cfg s i a pc t := by
  cases a with
  | poll =>
    cases pc with
    | idle =>
      cases h
      exact .poll
    | _ => cases h
  | frame f =>
    cases pc with
    | loop limit cnt pktBuf =>
      by_cases hstop : limit ≤ cnt ∨ (pktBuf = true ∧ f.size = 0)
      · simp only [stepThread, if_pos hstop] at h
        cases h
      simp only [stepThread, if_neg hstop] at h
      by_cases hp : passesFilter cfg f = true ∧ pktBuf = true
      · simp only [if_pos hp] at h
        obtain ⟨-, rfl⟩ := hp
        cases h
        exact .accept limit cnt f
      · simp only [if_neg hp] at h
        cases h
        exact .skip limit cnt pktBuf f
    | _ => cases h
  | reserve =>
    cases pc with
    | reserving limit cnt f =>
      by_cases hf : limit - cnt < calcCaplen cfg.caplen f.size + rawHlen + rawHlen
      · simp only [stepThread, if_pos hf] at h
        cases h
        exact .lose limit cnt f
      · simp only [stepThread, if_neg hf] at h
        cases h
        exact .reserve limit cnt f (Nat.not_lt.mp hf)
    | _ => cases h
  | copy =>
    cases pc with
    | copying limit cnt f c =>
      obtain ⟨start, toWrite, padded, pending⟩ := c
      cases pending with
      | nil => cases h
      | cons w ws =>
        cases h
        exact .copy limit cnt f start toWrite padded w ws
    | _ => cases h
  | leave =>
    cases pc with
    | loop limit cnt pktBuf =>
      cases h
      exact .leave limit cnt pktBuf
    | _ => cases h
  | popGlobal =>
    cases pc with
    | popping =>
      cases h
      exact .popGlobal
    | _ => cases h
  | publish =>
    cases pc with
    | publishing =>
      cases h
      exact .publish
    | _ => cases h

/-- The counts are those of one stream, and the budgets handed out fit the room left. -/
structure Inv (cfg : Config) (s : State) (L : Log cfg.bufSize) : Prop where
  counter : s.consumerWriteOff = s.reserved % 2 ^ 32
  table : Refines s.lstnr L
  floor : L.floor = s.released
  write : L.write = s.published
  published_le : s.published ≤ s.reserved
  fits : s.reserved + budgets s < s.released + cfg.bufSize
  empty : s.lstnr.listenersCount = 0 → s.reserved = 0 ∧ budgets s = 0

/-- A thread starts an iteration only while the room for its limit is there: what is
reserved and not pushed yet, and what the other threads may still reserve, leave it. -/
def Affordable (cfg : Config) (s : State) : Step → Prop
  | .thread _ .poll => s.lstnr.listenersCount ≠ 0 →
    newBytes cfg s + budgets s + availBytes s.lstnr.global / s.threads.length ≤
      availBytes s.lstnr.global
  | _ => True

instance (cfg : Config) (s : State) : DecidablePred (Affordable cfg s) := fun a => by
  unfold Affordable
  split <;> infer_instance

namespace Inv

variable {cfg : Config} {s t : State} {L : Log cfg.bufSize} {i : Nat} {pc : Pc}

theorem newBytes_eq (h : Inv cfg s L) (hd : cfg.bufSize ∣ 2 ^ 32) :
    newBytes cfg s = s.reserved - s.published := by
  have hlo := h.published_le
  have hfit := h.fits
  have hfl := L.floor_le_write
  rw [h.floor, h.write] at hfl
  rw [newBytes, h.counter, h.table.newBytes hd (by rw [h.write]; exact hlo)
    (by rw [h.write]; omega), h.write]

/-- A step that only moves the thread, to where it may reserve no more than before. -/
theorem goto (h : Inv cfg s L) (hi : s.threads[i]? = some pc) {pc' : Pc}
    (hb : budget pc' ≤ budget pc) : Inv cfg (s.goto i pc') L := by
  have hsum := budgets_goto hi pc'
  refine ⟨h.counter, h.table, h.floor, h.write, h.published_le, ?_, fun hc => ?_⟩
  · have hf := h.fits
    change s.reserved + budgets (s.goto i pc') < s.released + cfg.bufSize
    omega
  · obtain ⟨hr, hz⟩ := h.empty hc
    exact ⟨hr, by omega⟩

theorem reset (h : Inv cfg s L) : ∃ L', Inv cfg (rewind s) L' := by
  simp only [rewind]
  split
  · rename_i hc
    have hpos := L.size_pos
    obtain ⟨-, hb⟩ := h.empty hc
    refine ⟨L.restart (h.table.no_reader hc), (Nat.zero_mod _).symm, h.table.restart hc, rfl, rfl,
      le_rfl, ?_, fun _ => ⟨rfl, hb⟩⟩
    change 0 + budgets s < 0 + cfg.bufSize
    omega
  · exact ⟨L, h⟩

theorem poll (h : Inv cfg s L) (hd : cfg.bufSize ∣ 2 ^ 32) (hi : s.threads[i]? = some .idle)
    (hok : Affordable cfg s (.thread i .poll)) :
    ∃ L', Inv cfg ((rewind s).goto i (.loop (availBytes (rewind s).lstnr.global / s.threads.length)
      0 (s.lstnr.listenersCount ≠ 0))) L' := by
  by_cases hc : s.lstnr.listenersCount = 0
  · obtain ⟨L', h'⟩ := h.reset
    have hi' : (rewind s).threads[i]? = some .idle := by
      rw [rewind, if_pos hc]
      exact hi
    refine ⟨L', h'.goto hi' ?_⟩
    simp [hc, budget]
  · have hroom := h.newBytes_eq hd ▸ hok hc
    rw [h.table.availBytes_global, Log.room, h.floor, h.write] at hroom
    have hsum := budgets_goto hi (.loop (availBytes s.lstnr.global / s.threads.length) 0 true)
    have hbud : budget (.loop (availBytes s.lstnr.global / s.threads.length) 0 true) =
        (s.released + cfg.bufSize - 1 - s.published) / s.threads.length := by
      rw [h.table.availBytes_global, Log.room, h.floor, h.write]
      rfl
    have hpos := L.size_pos
    have hfit := h.fits
    have hle := h.published_le
    refine ⟨L, ?_⟩
    rw [rewind, if_neg hc, decide_eq_true hc]
    refine ⟨h.counter, h.table, h.floor, h.write, h.published_le, ?_, fun h₀ => absurd h₀ hc⟩
    have hidle : budget .idle = 0 := rfl
    change s.reserved + budgets (s.goto i _) < s.released + cfg.bufSize
    omega

/-- A reservation takes from the thread's budget what it adds to the stream. -/
theorem reserve (h : Inv cfg s L) {limit cnt w : Nat} {f : Frame} {pc' : Pc}
    (hi : s.threads[i]? = some (.reserving limit cnt f)) (hw : w ≤ limit - cnt) (hpos : 0 < w)
    (hb : budget pc' ≤ limit - (cnt + w)) {writeOff : Nat}
    (hoff : writeOff = (s.reserved + w) % 2 ^ 32) :
    Inv cfg { s.goto i pc' with consumerWriteOff := writeOff, reserved := s.reserved + w } L := by
  have hsum := budgets_goto hi pc'
  have hbud : budget (.reserving limit cnt f) = limit - cnt := rfl
  have hle := h.published_le
  refine ⟨hoff, h.table, h.floor, h.write, ?_, ?_, fun hc => ?_⟩
  · change s.published ≤ s.reserved + w
    omega
  · have hf := h.fits
    change s.reserved + w + budgets (s.goto i pc') < s.released + cfg.bufSize
    omega
  · obtain ⟨hr, hz⟩ := h.empty hc
    omega

theorem popGlobal (h : Inv cfg s L) {pc' : Pc} (hi : s.threads[i]? = some pc)
    (hb : budget pc' ≤ budget pc) :
    ∃ L', Inv cfg { s.goto i pc' with
      lstnr := (hpcapPopGlobalListener s.lstnr).1
      released := s.released + (hpcapPopGlobalListener s.lstnr).2 } L' := by
  have hg := h.goto hi hb
  obtain ⟨L', h', hw, hf⟩ := h.table.popGlobal
  refine ⟨L', hg.counter, h', ?_, hw.trans h.write, hg.published_le, ?_, fun hc => ?_⟩
  · rw [hf, h.floor]
  · have hfit := hg.fits
    change s.reserved + budgets (s.goto i pc') <
      s.released + (hpcapPopGlobalListener s.lstnr).2 + cfg.bufSize
    change s.reserved + budgets (s.goto i pc') < s.released + cfg.bufSize at hfit
    omega
  · rw [popGlobal_count] at hc
    exact hg.empty hc

theorem publish (h : Inv cfg s L) (hd : cfg.bufSize ∣ 2 ^ 32) {pc' : Pc}
    (hi : s.threads[i]? = some pc) (hb : budget pc' ≤ budget pc) :
    ∃ L', Inv cfg { s.goto i pc' with
      lstnr := if newBytes cfg s > 0 then hpcapPushAllListeners s.lstnr (newBytes cfg s)
        else s.lstnr
      published := s.published + newBytes cfg s } L' := by
  have hg := h.goto hi hb
  have hn := h.newBytes_eq hd
  have hle := h.published_le
  have hfit := h.fits
  have hpub : s.published + newBytes cfg s = s.reserved := by omega
  have hroom : newBytes cfg s ≤ L.room := by
    have hfl := L.floor_le_write
    rw [Log.room, h.floor, h.write]
    omega
  by_cases hpos : newBytes cfg s > 0
  · rw [if_pos hpos]
    refine ⟨L.publish _ hroom, h.counter, h.table.push hroom hpos, h.floor, ?_, ?_, hg.fits,
      hg.empty⟩
    · change L.write + newBytes cfg s = s.published + newBytes cfg s
      rw [h.write]
    · exact hpub.le
  · rw [if_neg hpos]
    refine ⟨L, h.counter, h.table, h.floor, ?_, hpub.le, hg.fits, hg.empty⟩
    change L.write = s.published + newBytes cfg s
    rw [h.write]
    omega

theorem ack (h : Inv cfg s L) {id : Int} (hid : id ≠ listenerEmpty) (count : Nat) :
    ∃ L', Inv cfg
      { s with lstnr := popHandle { s.lstnr with alreadyPopped := true } id count } L' := by
  have hp : Refines { s.lstnr with alreadyPopped := true } L :=
    ⟨h.table.size_le, h.table.global, h.table.slots, h.table.count, h.table.quiet⟩
  obtain ⟨L', h', hw, hf⟩ := hp.pop hid count
  refine ⟨L', h.counter, h', hf.trans h.floor, hw.trans h.write, h.published_le, h.fits,
    fun hc => ?_⟩
  rw [popHandle_count] at hc
  exact h.empty hc

end Inv

theorem step_inv {cfg : Config} (hd : cfg.bufSize ∣ 2 ^ 32) {s t : State} {a : Step}
    (h : ∃ L, Inv cfg s L) (hok : Affordable cfg s a) (hs : step cfg s a = some t) :
    ∃ L, Inv cfg t L := by
  obtain ⟨L, h⟩ := h
  cases a with
  | ack id count =>
    obtain ⟨hid, ht⟩ := Option.ite_none_right_eq_some.mp hs
    cases ht
    exact h.ack hid.1 count
  | thread i a =>
    obtain ⟨pc, hi, hs⟩ := Option.bind_eq_some_iff.mp hs
    cases stepThread_moves hs with
    | poll => exact h.poll hd hi hok
    | accept limit cnt f => exact ⟨L, h.goto hi le_rfl⟩
    | skip limit cnt pktBuf f =>
      refine ⟨L, h.goto hi ?_⟩
      cases pktBuf with
      | false => exact le_rfl
      | true => exact Nat.sub_le_sub_left (Nat.le_add_right _ _) _
    | lose limit cnt f => exact ⟨L, h.goto hi (by rw [budget_finished]; exact Nat.zero_le _)⟩
    | reserve limit cnt f hroom =>
      have hR : rawHlen = 12 := rfl
      refine ⟨L, h.reserve hi (by omega) (by omega) (budget_settle _ _ _ _) ?_⟩
      rw [reserve_writeOff, atomicAddReturn, h.counter, Nat.mod_add_mod]
    | copy limit cnt f start toWrite padded w ws =>
      have hg := h.goto hi (budget_settle limit cnt f ⟨start, toWrite, padded, ws⟩)
      exact ⟨L, hg.counter, hg.table, hg.floor, hg.write, hg.published_le, hg.fits, hg.empty⟩
    | leave limit cnt pktBuf =>
      exact ⟨L, h.goto hi (by rw [budget_finished]; exact Nat.zero_le _)⟩
    | popGlobal => exact h.popGlobal hi le_rfl
    | publish => exact h.publish hd hi le_rfl

theorem handles_refine {n : Nat} {ids : List Int} (hids : ∀ id ∈ ids, id ≠ listenerEmpty)
    {t : Table} {L : Log n} (h : Refines t L) :
    ∃ L' : Log n, Refines (ids.foldl (fun t id => (hpcapAddListener t id).1) t) L' ∧
      L'.write = L.write ∧ L'.floor = L.floor := by
  induction ids generalizing t L with
  | nil => exact ⟨L, h, rfl, rfl⟩
  | cons id ids ih =>
    obtain ⟨L₁, h₁, hw₁, hf₁⟩ := h.add (hids id (by simp))
    obtain ⟨L₂, h₂, hw₂, hf₂⟩ := ih (fun id' h' => hids id' (by simp [h'])) h₁
    exact ⟨L₂, h₂, hw₂.trans hw₁, hf₂.trans hf₁⟩

theorem start_inv {cfg : Config} (hd : cfg.bufSize ∣ 2 ^ 32) (consumers : Nat) {ids : List Int}
    (hids : ∀ id ∈ ids, id ≠ listenerEmpty) (buf : Nat → UInt8) :
    ∃ L, Inv cfg (start cfg consumers ids buf) L := by
  have hpos := Nat.pos_of_dvd_of_pos hd (by decide)
  obtain ⟨L, h, hw, hf⟩ :=
    handles_refine hids (.fresh hpos (Nat.le_of_dvd (by decide) hd))
  have hb : budgets (start cfg consumers ids buf) = 0 := by
    have hz : budget .idle = 0 := rfl
    rw [budgets, start, List.map_replicate, hz, List.sum_replicate_nat, Nat.mul_zero]
  refine ⟨L, (Nat.zero_mod _).symm, h, hf, hw, le_rfl, ?_, fun _ => ⟨rfl, hb⟩⟩
  rw [hb]
  change 0 + 0 < 0 + cfg.bufSize
  omega

/-- With one thread, everything is pushed by the time an iteration starts. -/
def Alone (s : State) : Prop :=
  ∃ pc, s.threads = [pc] ∧ (pc = .idle → s.published = s.reserved)

theorem Alone.affordable {cfg : Config} (hd : cfg.bufSize ∣ 2 ^ 32) {s t : State} {a : Step}
    (h : ∃ L, Inv cfg s L) (ha : Alone s) (hs : step cfg s a = some t) : Affordable cfg s a := by
  obtain ⟨L, h⟩ := h
  obtain ⟨pc, hpc, hidle⟩ := ha
  cases a with
  | ack id count => trivial
  | thread i a =>
    obtain ⟨pc', hi, hs⟩ := Option.bind_eq_some_iff.mp hs
    cases stepThread_moves hs with
    | poll =>
      intro _
      rw [hpc] at hi
      obtain rfl := List.mem_singleton.mp (List.mem_of_getElem? hi)
      rw [h.newBytes_eq hd, hidle rfl, budgets, hpc]
      simp [budget]
    | _ => trivial

theorem Alone.next {cfg : Config} (hd : cfg.bufSize ∣ 2 ^ 32) {s t : State} {a : Step}
    (h : ∃ L, Inv cfg s L) (ha : Alone s) (hs : step cfg s a = some t) : Alone t := by
  obtain ⟨L, h⟩ := h
  obtain ⟨pc, hpc, hidle⟩ := ha
  cases a with
  | ack id count =>
    obtain ⟨hid, ht⟩ := Option.ite_none_right_eq_some.mp hs
    cases ht
    exact ⟨pc, hpc, hidle⟩
  | thread i a =>
    obtain ⟨pc', hi, hs⟩ := Option.bind_eq_some_iff.mp hs
    have hzero : i = 0 := by
      have hlt := (List.getElem?_eq_some_iff.mp hi).1
      rw [hpc, List.length_singleton] at hlt
      omega
    subst hzero
    have hset : ∀ pc', s.threads.set 0 pc' = [pc'] := fun pc' => by rw [hpc]; rfl
    have hsettle : ∀ limit cnt f c, settle limit cnt f c ≠ .idle := by
      intro limit cnt f c he
      simp only [settle] at he
      split at he
      · split at he <;> cases he
      · cases he
    cases stepThread_moves hs with
    | poll =>
      refine ⟨.loop (availBytes (rewind s).lstnr.global / s.threads.length) 0
        (s.lstnr.listenersCount ≠ 0), ?_, nofun⟩
      rw [rewind]
      split
      · exact hset _
      · exact hset _
    | accept limit cnt f => exact ⟨_, hset _, nofun⟩
    | skip limit cnt pktBuf f => exact ⟨_, hset _, nofun⟩
    | lose limit cnt f => exact ⟨_, hset _, nofun⟩
    | reserve limit cnt f hroom => exact ⟨_, hset _, fun he => absurd he (hsettle _ _ _ _)⟩
    | copy limit cnt f start toWrite padded w ws =>
      exact ⟨_, hset _, fun he => absurd he (hsettle _ _ _ _)⟩
    | leave limit cnt pktBuf => exact ⟨_, hset _, nofun⟩
    | popGlobal => exact ⟨_, hset _, nofun⟩
    | publish =>
      refine ⟨_, hset _, fun _ => ?_⟩
      have hn := h.newBytes_eq hd
      have hle := h.published_le
      change s.published + newBytes cfg s = s.reserved
      omega

/-- The bytes reserved since the global read offset leave one free in the buffer, and
so they do for the read offset of every listener. -/
structure Bounded (cfg : Config) (s : State) : Prop where
  counter : s.consumerWriteOff = s.reserved % 2 ^ 32
  global_rd : s.lstnr.global.bufferRdOffset = s.released % cfg.bufSize
  reserved_le : s.reserved ≤ s.released + (cfg.bufSize - 1)
  active : ∀ l ∈ s.lstnr.listeners, l.id ≠ listenerEmpty →
    ∃ r, s.released ≤ r ∧ r ≤ s.reserved ∧ l.bufferRdOffset = r % cfg.bufSize ∧
      s.reserved ≤ r + (cfg.bufSize - 1)

theorem Inv.bounded {cfg : Config} {s : State} {L : Log cfg.bufSize} (h : Inv cfg s L) :
    Bounded cfg s := by
  have hpos := L.size_pos
  have hfit := h.fits
  refine ⟨h.counter, ?_, by omega, fun l hl hid => ?_⟩
  · rw [h.table.global.rd, h.floor]
  · obtain ⟨i, hi⟩ := List.mem_iff_getElem?.mp hl
    obtain ⟨r, -, hr, hat⟩ := h.table.reader hi hid
    have hf := L.floor_le r hr
    have hw := L.le_write r hr
    have hle := h.published_le
    rw [h.floor] at hf
    rw [h.write] at hw
    exact ⟨r, hf, by omega, hat.rd, by omega⟩

/-- What is reserved stays within the buffer as long as every iteration starts with room
for its limit, which is always so with a single consumer. -/
theorem reserved_stays_in_buffer (cfg : Config) (hd : cfg.bufSize ∣ 2 ^ 32) (consumers : Nat)
    (ids : List Int) (hids : ∀ id ∈ ids, id ≠ listenerEmpty) (buf : Nat → UInt8) (s : State) :
    (Reach (step cfg) (Affordable cfg) (fun t => t = start cfg consumers ids buf) s →
      Bounded cfg s) ∧
    (consumers = 1 → Reach (step cfg) Free (fun t => t = start cfg consumers ids buf) s →
      Bounded cfg s) := by
  have hstart : ∀ t, t = start cfg consumers ids buf → ∃ L, Inv cfg t L := by
    rintro t rfl
    exact start_inv hd consumers hids buf
  refine ⟨fun h => ?_, fun hone h => ?_⟩
  · obtain ⟨L, hL⟩ := h.invariant (fun t => ∃ L, Inv cfg t L) hstart
      fun t a u ht hok hs => step_inv hd ht hok hs
    exact hL.bounded
  · obtain ⟨-, ⟨L, hL⟩, -⟩ := h.guarded (Affordable cfg)
      (fun t => (∃ L, Inv cfg t L) ∧ Alone t)
      (fun t ht => ⟨hstart t ht, by
        rw [ht, hone]
        exact ⟨.idle, rfl, fun _ => rfl⟩⟩)
      (fun t a u ht hok hs => ⟨step_inv hd ht.1 hok hs, ht.2.next hd ht.1 hs⟩)
      fun t a u ht hs => ht.2.affordable hd ht.1 hs
    exact hL.bounded

/-- Two pages for the buffer, and the real file size. -/
def twoPages : Config := ⟨hpcapFilesize, 8192, 0, false, []⟩

/-- One handle is open. -/
def launched (consumers : Nat) : State := start twoPages consumers [1] fun _ => 0

/-- An iteration of a thread that receives one frame, up to the end of its copies. -/
def receive (i n : Nat) : List Step :=
  [.thread i .poll, .thread i (.frame ⟨List.replicate n 0, 1, 0⟩), .thread i .reserve,
    .thread i .copy, .thread i .copy, .thread i .leave]

/-- Two threads receive a frame each, and a single one does. -/
theorem reserved_stays_in_buffer_two_frames :
    (∃ s, run (guard (step twoPages) (Affordable twoPages)) (launched 2)
        (receive 1 1500 ++ receive 0 1500) = some s ∧ Bounded twoPages s) ∧
    ∃ s, run (step twoPages) (launched 1) (receive 0 1500) = some s ∧ Bounded twoPages s := by
  have h₂ : (run (guard (step twoPages) (Affordable twoPages)) (launched 2)
      (receive 1 1500 ++ receive 0 1500)).isSome := by decide +kernel
  have h₁ : (run (step twoPages) (launched 1) (receive 0 1500)).isSome := by decide +kernel
  obtain ⟨s, hs⟩ := Option.isSome_iff_exists.mp h₂
  obtain ⟨t, ht⟩ := Option.isSome_iff_exists.mp h₁
  refine ⟨⟨s, hs, ?_⟩, ⟨t, ht, ?_⟩⟩
  · refine (reserved_stays_in_buffer twoPages (by decide) 2 [1] (by decide) (fun _ => 0) s).1 ?_
    exact Reach.run_guard (.start rfl) hs
  · refine (reserved_stays_in_buffer twoPages (by decide) 1 [1] (by decide) (fun _ => 0) t).2 rfl ?_
    exact Reach.run (.start rfl) ht

/-- The second thread reads four frames, each against the same global offsets. -/
theorem stale_limits_overrun_buffer :
    ¬ ∀ s, Reach (step twoPages) Free (fun t => t = launched 2) s →
      s.reserved ≤ s.released + (twoPages.bufSize - 1) := by
  intro h
  have hrun : ((run (step twoPages) (launched 2)
      (receive 1 2036 ++ receive 1 2036 ++ receive 1 2036 ++ receive 1 2036)).map
        fun t => (t.reserved, t.released)) = some (8192, 0) := by
    decide +kernel
  obtain ⟨t, ht, he⟩ := Option.map_eq_some_iff.mp hrun
  have hle := h t (Reach.run (.start rfl) ht)
  rw [(Prod.mk.inj he).1, (Prod.mk.inj he).2] at hle
  exact absurd hle (by decide)

end Hpcap.Concurrent
