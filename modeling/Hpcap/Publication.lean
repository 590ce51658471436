import Hpcap.Concurrent
import Hpcap.Filling
import Hpcap.Stream

namespace Hpcap.Publication

open Hpcap.CircularBuffer Hpcap.Reservation Hpcap.SharedLog Hpcap.Listeners Hpcap.Rx
open Hpcap.Transition Hpcap.Filling
open Hpcap.Concurrent hiding step start
open Hpcap.Stream (frameOf smallFiles)

/-- A reservation: its place in the stream, and the copies its consumer has made for it, each
with its offset in the buffer. -/
structure Reservation where
  start : Nat
  toWrite : Nat
  made : List (Nat × List UInt8)
  deriving DecidableEq

/-- What the threads share, and the reservations since the offsets were reset last, newest
first. The code keeps no such list. -/
structure State extends Concurrent.State where
  log : List Reservation

/-- The reservation a thread still copies into. -/
def claimed : Pc → Option Claim
  | .copying _ _ _ c => some c
  | _ => none

def claims (s : Concurrent.State) (i : Nat) : Option Claim := s.threads[i]?.bind claimed

/-- What a step from `s` to `t` does to the reservations. -/
def note (s t : Concurrent.State) (log : List Reservation) : Step → List Reservation
  | .thread _ .poll => if s.lstnr.listenersCount = 0 then [] else log
  | .thread _ .reserve =>
    if s.reserved < t.reserved then ⟨s.reserved, t.reserved - s.reserved, []⟩ :: log else log
  | .thread i .copy =>
    match claims s i with
    | none => log
    | some c => log.map fun r =>
      if r.start = c.start then { r with made := r.made ++ c.pending.take 1 } else r
  | _ => log

def step (cfg : Config) (s : State) (a : Step) : Option State :=
  (Concurrent.step cfg s.toState a).map fun t => ⟨t, note s.toState t s.log a⟩

/-- The threads are launched and the handles `ids` are open. -/
def start (cfg : Config) (consumers : Nat) (ids : List Int) (buf : Nat → UInt8) : State :=
  ⟨Concurrent.start cfg consumers ids buf, []⟩

/-- The copy has put a byte into the cell, where it still is, or a padding header that the cell
is behind. The body of a padding record is left as it was. -/
def Put (size : Nat) (dst : Nat → UInt8) (cell : Nat) (w : Nat × List UInt8) : Prop :=
  (∃ (i : Nat) (h : i < w.2.length), (w.1 + i) % size = cell ∧ dst cell = w.2[i]) ∨
    ∃ h : RawHeader, h.hpcapIsHeaderPadding ∧ w.2 = h.toBytes ∧
      ∃ i < h.caplen.toNat, (w.1 + rawHlen + i) % size = cell

/-- The consumer that reserved stream position `x` has made all its copies, and one of them
has written the position's cell. -/
def Complete (cfg : Config) (s : State) (x : Nat) : Prop :=
  ∃ r ∈ s.log, r.start ≤ x ∧ x < r.start + r.toWrite ∧
    (∀ i c, claims s.toState i = some c → c.start ≠ r.start) ∧
    ∃ w ∈ r.made, Put cfg.bufSize s.dstBuf (x % cfg.bufSize) w

/-- Every byte between a listener's offsets is written: it is that of a stream position that was
pushed, less than a lap ago, and is complete. -/
def Written (cfg : Config) (s : State) : Prop :=
  ∀ l ∈ s.lstnr.listeners, l.id ≠ listenerEmpty → ∀ k < usedBytes l,
    ∃ x < s.published, s.published ≤ x + cfg.bufSize ∧
      x % cfg.bufSize = (l.bufferRdOffset + k) % cfg.bufSize ∧ Complete cfg s x

/-- A reservation for `caplen` bytes at stream position `p` that the padding logic gets right,
and that leaves the next one a place it gets right: it leaves room for another header in its file,
ends with the file, or reaches into the next one by a header or more. -/
def Lands (cfg : Config) (p caplen : Nat) : Prop :=
  let last := p % cfg.fileSize + (caplen + rawHlen)
  caplen ≤ maxDescrSize ∧ Exact cfg.fileSize (p + (caplen + rawHlen)) ∧
    (last + rawHlen ≤ cfg.fileSize ∨ last = cfg.fileSize ∨
      (cfg.fileSize + rawHlen ≤ last ∧ last + rawHlen ≤ 2 * cfg.fileSize))

instance (cfg : Config) (p caplen : Nat) : Decidable (Lands cfg p caplen) := by
  unfold Lands
  infer_instance

/-- Every reservation that is made lands well. -/
def Placed (cfg : Config) (s : State) : Step → Prop
  | .thread i .reserve =>
    match s.threads[i]? with
    | some (.reserving limit cnt f) =>
      limit - cnt < calcCaplen cfg.caplen f.size + rawHlen + rawHlen ∨
        Lands cfg s.reserved (calcCaplen cfg.caplen f.size)
    | _ => True
  | _ => True

/-- The counter is pushed only when nobody still copies. -/
def Quiet (s : State) : Step → Prop
  | .thread _ .publish => ∀ pc ∈ s.threads, (claimed pc).isNone
  | _ => True

/-- Besides, iterations start with room for their limit. -/
structure Orderly (cfg : Config) (s : State) (a : Step) : Prop where
  affordable : Affordable cfg s.toState a
  placed : Placed cfg s a
  quiet : Quiet s a

instance (cfg : Config) (s : State) : DecidablePred (Placed cfg s) := fun a => by
  unfold Placed
  split
  · split <;> infer_instance
  · infer_instance

instance (s : State) : DecidablePred (Quiet s) := fun a => by
  unfold Quiet
  split <;> infer_instance

instance (cfg : Config) (s : State) : DecidablePred (Orderly cfg s) := fun a =>
  decidable_of_iff (Affordable cfg s.toState a ∧ Placed cfg s a ∧ Quiet s a)
    ⟨fun ⟨h₁, h₂, h₃⟩ => ⟨h₁, h₂, h₃⟩, fun h => ⟨h.affordable, h.placed, h.quiet⟩⟩

section Pieces

/-- A piece of the stream as a copy into a buffer of `n` bytes. -/
def onto (n : Nat) (w : Nat × List UInt8) : Nat × List UInt8 := (w.1 % n, w.2)

/-- The piece has the byte at `x`, or is a padding header that `x` is behind. -/
def Reaches (x : Nat) (w : Nat × List UInt8) : Prop :=
  (w.1 ≤ x ∧ x < w.1 + w.2.length) ∨
    ∃ h : RawHeader, h.hpcapIsHeaderPadding ∧ w.2 = h.toBytes ∧
      w.1 + rawHlen ≤ x ∧ x < w.1 + rawHlen + h.caplen.toNat

def Covered (r : Stretch UInt8) : Prop :=
  ∀ x, r.start ≤ x → x < r.start + r.size → ∃ w ∈ r.pieces, Reaches x w

variable {cfg : Config} {p : Nat} {f : Frame}

/-- A reservation in place starts a file, or leaves room for a header on both sides. -/
def Between (cfg : Config) (p : Nat) : Prop :=
  p % cfg.fileSize = 0 ∨
    (rawHlen ≤ p % cfg.fileSize ∧ p % cfg.fileSize + rawHlen ≤ cfg.fileSize)

theorem Lands.between {caplen : Nat} (h : Lands cfg p caplen) :
    Between cfg (p + (caplen + rawHlen)) := by
  obtain ⟨-, -, hcase⟩ := h
  have hR : rawHlen = 12 := rfl
  obtain hfit | hend | ⟨hlo, hhi⟩ := hcase
  · rw [Between, Stream.asFileOffset_add (by omega)]
    omega
  · left
    rw [← Nat.mod_add_mod, hend, Nat.mod_self]
  · rw [Between, Stream.asFileOffset_add_next (by omega) (by omega)]
    omega

theorem payload_length (h : calcCaplen cfg.caplen f.size ≤ maxDescrSize) :
    (payload cfg f).length = calcCaplen cfg.caplen f.size := by
  have hle : calcCaplen cfg.caplen f.size ≤ f.size := by
    rw [calcCaplen]
    split
    · exact le_rfl
    · exact min_le_right _ _
  rw [payload, List.length_take, min_eq_left h, min_eq_left hle]

/-- A padding record of `n` bytes reaches all its positions. -/
theorem reaches_padding {n x : Nat} (hn : rawHlen ≤ n) (hmax : n < 2 ^ 16) (hlo : p ≤ x)
    (hhi : x < p + n) : Reaches x (p, (paddingHeader n).toBytes) := by
  have hcap : (paddingHeader n).caplen.toNat = n - rawHlen :=
    Nat.mod_eq_of_lt (Nat.lt_of_le_of_lt (Nat.sub_le _ _) hmax)
  obtain hlt | hge := Nat.lt_or_ge x (p + rawHlen)
  · left
    rw [RawHeader.toBytes_length]
    exact ⟨hlo, hlt⟩
  · refine .inr ⟨paddingHeader n, rfl, rfl, hge, ?_⟩
    rw [hcap]
    omega

/-- The copies of a frame that fits its file fill the reservation. -/
theorem frame_fills (hcap : calcCaplen cfg.caplen f.size ≤ maxDescrSize) :
    let r : Stretch UInt8 := ⟨p, calcCaplen cfg.caplen f.size + rawHlen, [],
      [(p, (frameHeader cfg f).toBytes), (p + rawHlen, payload cfg f)]⟩
    r.Laid ∧ Covered r := by
  have hlen := payload_length hcap
  have hhead := RawHeader.toBytes_length (frameHeader cfg f)
  refine ⟨⟨fun w hw => ?_, ?_⟩, fun x hlo hhi => ?_⟩
  · simp only [Stretch.pieces, List.nil_append, List.mem_cons, List.not_mem_nil, or_false] at hw
    obtain rfl | rfl := hw
    · dsimp only
      omega
    · dsimp only
      omega
  · simp only [Stretch.pieces, List.nil_append, List.pairwise_cons, List.mem_singleton,
      forall_eq, List.not_mem_nil, List.Pairwise.nil]
    simp [hhead]
  · dsimp only at hlo hhi
    obtain hlt | hge := Nat.lt_or_ge x (p + rawHlen)
    · refine ⟨_, List.mem_cons_self, .inl ⟨hlo, ?_⟩⟩
      rw [hhead]
      exact hlt
    · refine ⟨_, List.mem_cons_of_mem _ List.mem_cons_self, .inl ⟨hge, ?_⟩⟩
      rw [hlen]
      omega

/-- The padding of a reservation that ends with its file is one record. -/
theorem pad_fills {w : Nat} (hn : rawHlen ≤ w) (hmax : w < 2 ^ 16) :
    let r : Stretch UInt8 := ⟨p, w, [], [(p, (paddingHeader w).toBytes)]⟩
    r.Laid ∧ Covered r := by
  refine ⟨⟨fun v hv => ?_, List.pairwise_singleton _ _⟩, fun x hlo hhi => ?_⟩
  · obtain rfl := List.mem_singleton.mp hv
    dsimp only
    rw [RawHeader.toBytes_length]
    omega
  · exact ⟨_, List.mem_singleton_self _, reaches_padding hn hmax hlo hhi⟩

/-- The padding of one that reaches into the next file is two. -/
theorem pads_fill {n k : Nat} (hn : rawHlen ≤ n) (hk : rawHlen ≤ k) (hmax : n + k < 2 ^ 16) :
    let r : Stretch UInt8 := ⟨p, n + k, [],
      [(p, (paddingHeader n).toBytes), (p + n, (paddingHeader k).toBytes)]⟩
    r.Laid ∧ Covered r := by
  have hhead : ∀ m, (paddingHeader m).toBytes.length = rawHlen :=
    fun m => RawHeader.toBytes_length _
  refine ⟨⟨fun v hv => ?_, ?_⟩, fun x hlo hhi => ?_⟩
  · simp only [Stretch.pieces, List.nil_append, List.mem_cons, List.not_mem_nil, or_false] at hv
    obtain rfl | rfl := hv
    · dsimp only
      rw [hhead]
      omega
    · dsimp only
      rw [hhead]
      omega
  · simp only [Stretch.pieces, List.nil_append, List.pairwise_cons, List.mem_singleton,
      forall_eq, List.not_mem_nil, List.Pairwise.nil, hhead]
    simpa using hn
  · dsimp only at hlo hhi
    obtain hlt | hge := Nat.lt_or_ge x (p + n)
    · exact ⟨_, List.mem_cons_self, reaches_padding hn (by omega) hlo hlt⟩
    · exact ⟨_, List.mem_cons_of_mem _ List.mem_cons_self,
        reaches_padding hk (by omega) hge (by omega)⟩

/-- The copies that follow a reservation that lands well fill it. -/
theorem copies_fill (hd : cfg.bufSize ∣ 2 ^ 32) (hp : Between cfg p)
    (h : Lands cfg p (calcCaplen cfg.caplen f.size)) :
    ∃ left, copies cfg f (Rx.reserve cfg p (p % 2 ^ 32) (calcCaplen cfg.caplen f.size + rawHlen)) =
        left.map (onto cfg.bufSize) ∧ left ≠ [] ∧
      let r : Stretch UInt8 := ⟨p, calcCaplen cfg.caplen f.size + rawHlen, [], left⟩
      r.Laid ∧ Covered r := by
  obtain ⟨hcap, he, hcase⟩ := h
  have hR : rawHlen = 12 := rfl
  have hD : maxDescrSize = 2048 := rfl
  have hb : ∀ x, Exact cfg.bufSize x := fun x => .inl hd
  by_cases hfit :
      p % cfg.fileSize + (calcCaplen cfg.caplen f.size + rawHlen) + rawHlen ≤ cfg.fileSize
  · refine ⟨_, ?_, List.cons_ne_nil _ _, frame_fills hcap⟩
    rw [Stream.reserve_fits (hb _) (by omega) he hfit (hp.imp_right And.left), copies,
      if_neg (lt_irrefl 0)]
    simp [onto, asBufferOffset]
  · have hpos : 0 < cfg.fileSize := by omega
    have hlt := Nat.mod_lt p hpos
    have hpad : rawHlen ≤ cfg.fileSize - p % cfg.fileSize := by
      obtain hz | hz := hp
      · omega
      · omega
    rw [Stream.reserve_pads (hb _) (hb _) (by omega) he (by omega), copies,
      if_pos (Nat.sub_pos_of_lt hlt), Stream.spill]
    obtain hin | hend | ⟨hlo, hhi⟩ := hcase
    · exact absurd hin hfit
    · have hz : (p + (calcCaplen cfg.caplen f.size + rawHlen)) % cfg.fileSize = 0 := by
        rw [← Nat.mod_add_mod, hend, Nat.mod_self]
      have hw : cfg.fileSize - p % cfg.fileSize = calcCaplen cfg.caplen f.size + rawHlen := by
        omega
      refine ⟨_, ?_, List.cons_ne_nil _ _, pad_fills (by omega) (by omega)⟩
      rw [hz, if_neg (by decide), hw]
      simp [onto]
    · have hz := Stream.asFileOffset_add_next (n := cfg.fileSize) (p := p)
        (w := calcCaplen cfg.caplen f.size + rawHlen) (by omega) (by omega)
      have hw : calcCaplen cfg.caplen f.size + rawHlen = cfg.fileSize - p % cfg.fileSize +
          (p % cfg.fileSize + (calcCaplen cfg.caplen f.size + rawHlen) - cfg.fileSize) := by
        omega
      have hfill := pads_fill (p := p) hpad
        (k := p % cfg.fileSize + (calcCaplen cfg.caplen f.size + rawHlen) - cfg.fileSize)
        (by omega) (by omega)
      rw [← hw] at hfill
      refine ⟨_, ?_, List.cons_ne_nil _ _, hfill⟩
      rw [hz, if_pos (by omega)]
      have hnot : ¬ p % cfg.fileSize + (calcCaplen cfg.caplen f.size + rawHlen) - cfg.fileSize <
          rawHlen := by omega
      simp only [List.filterMap_cons, List.filterMap_nil, if_neg (Nat.not_lt.mpr hpad), if_neg hnot]
      rfl

end Pieces

theorem claims_of_getElem? {s : Concurrent.State} {i : Nat} {pc : Pc}
    (h : s.threads[i]? = some pc) : claims s i = claimed pc := by
  rw [claims, h, Option.bind_some]

theorem claims_set {s t : Concurrent.State} {i : Nat} {pc pc' : Pc}
    (h : s.threads[i]? = some pc) (ht : t.threads = s.threads.set i pc') (j : Nat) :
    claims t j = if j = i then claimed pc' else claims s j := by
  have hlt := (List.getElem?_eq_some_iff.mp h).1
  rw [claims, ht]
  by_cases hji : j = i
  · subst hji
    rw [if_pos rfl, List.getElem?_set_self hlt, Option.bind_some]
  · rw [if_neg hji, List.getElem?_set_ne (Ne.symm hji), claims]

/-- A thread that copies before a move or after it would show in its claim. -/
theorem claims_move {s t : Concurrent.State} {i : Nat} {pc pc' : Pc}
    (h : s.threads[i]? = some pc) (ht : t.threads = s.threads.set i pc') (hpc : claimed pc = none)
    (hpc' : claimed pc' = none) : claims t = claims s := by
  funext j
  rw [claims_set h ht]
  split
  · rename_i hji
    rw [hji, claims_of_getElem? h, hpc, hpc']
  · rfl

theorem claimed_settle (limit cnt : Nat) (f : Frame) (c : Claim) :
    claimed (settle limit cnt f c) = if c.pending = [] then none else some c := by
  obtain ⟨start, toWrite, padded, pending⟩ := c
  cases pending with
  | nil =>
    cases padded with
    | false => rfl
    | true => rfl
  | cons w ws => rfl

theorem claimed_finished (i : Nat) : claimed (finished i) = none := by
  rw [finished]
  split <;> rfl

/-- What a thread's reservation for frame `f` does. -/
structure Reserves (cfg : Config) (s t : Concurrent.State) (i : Nat) (f : Frame) (c : Claim) :
    Prop where
  start : c.start = s.reserved
  toWrite : c.toWrite = calcCaplen cfg.caplen f.size + rawHlen
  pending : c.pending = copies cfg f (Rx.reserve cfg s.reserved s.consumerWriteOff
    (calcCaplen cfg.caplen f.size + rawHlen))
  threads : ∃ limit cnt, t.threads = s.threads.set i (settle limit cnt f c)
  dstBuf : t.dstBuf = s.dstBuf
  reserved : t.reserved = s.reserved + c.toWrite
  published : t.published = s.published

theorem reserve_cases {cfg : Config} {s t : Concurrent.State} {i : Nat} {pc : Pc}
    (h : stepThread cfg s i .reserve pc = some t) :
    (t = s.goto i (finished i) ∧ claimed pc = none) ∨
      ∃ limit cnt f c, pc = .reserving limit cnt f ∧
        calcCaplen cfg.caplen f.size + rawHlen + rawHlen ≤ limit - cnt ∧
        Reserves cfg s t i f c := by
  cases stepThread_moves h with
  | lose limit cnt f => exact .inl ⟨rfl, rfl⟩
  | reserve limit cnt f hroom =>
    exact .inr ⟨limit, cnt, f, _, rfl, hroom, ⟨rfl, rfl, rfl, ⟨_, _, rfl⟩, rfl, rfl, rfl⟩⟩

/-- What the log has of a stretch. -/
def entry (cfg : Config) (r : Stretch UInt8) : Reservation :=
  ⟨r.start, r.size, r.done.map (onto cfg.bufSize)⟩

/-- A thread that still copies has the pieces that are left of a stretch of its own, reserved
after the last push. -/
structure Owned (size published : Nat) (claim : Nat → Option Claim) (rs : List (Stretch UInt8)) :
    Prop where
  owns : ∀ i c, claim i = some c → published ≤ c.start ∧
    ∃ r ∈ rs, r.start = c.start ∧ c.pending = r.left.map (onto size)
  left : ∀ r ∈ rs, r.left ≠ [] → ∃ i c, claim i = some c ∧ c.start = r.start
  apart : ∀ i j c c', claim i = some c → claim j = some c' → c.start = c'.start → i = j

namespace Owned

variable {size published q i : Nat} {claim claim' : Nat → Option Claim}
  {rs : List (Stretch UInt8)} {r : Stretch UInt8} {c d : Claim}

/-- While nobody copies, nothing is left. -/
theorem of_none (hnone : ∀ i, claim i = none) (hleft : ∀ r ∈ rs, r.left = []) :
    Owned size published claim rs := by
  have hnot : ∀ i c, claim i ≠ some c := by
    intro i c he
    rw [hnone] at he
    cases he
  exact ⟨fun i c he => absurd he (hnot i c), fun r hr hne => absurd (hleft r hr) hne,
    fun i j c c' he => absurd he (hnot i c)⟩

theorem left_nil (h : Owned size published claim rs) (hr : r ∈ rs)
    (hnone : ∀ i c, claim i = some c → c.start ≠ r.start) : r.left = [] := by
  by_contra hne
  obtain ⟨i, c, hi, hc⟩ := h.left r hr hne
  exact hnone i c hi hc

/-- A new stretch is behind those of the other threads. -/
theorem reserve (h : Owned size published claim rs) (hs : Strung rs q) (hpub : published ≤ q)
    (hidle : claim i = none) {left : List (Nat × List UInt8)} (hstart : c.start = q)
    (hpending : c.pending = left.map (onto size))
    (hc : ∀ j, claim' j = if j = i then some c else claim j) :
    Owned size published claim' (⟨q, c.toWrite, [], left⟩ :: rs) := by
  have hother : ∀ j c', claim j = some c' → c'.start < q := by
    intro j c' he
    obtain ⟨-, r, hr, hrs, -⟩ := h.owns j c' he
    have hle := hs.le hr
    have hpos := hs.pos hr
    omega
  have hcases : ∀ j c', claim' j = some c' → (j = i ∧ c' = c) ∨ (j ≠ i ∧ claim j = some c') := by
    intro j c' he
    rw [hc] at he
    split at he
    · rename_i hji
      exact .inl ⟨hji, (Option.some.inj he).symm⟩
    · rename_i hji
      exact .inr ⟨hji, he⟩
  constructor
  · intro j c' he
    obtain ⟨-, rfl⟩ | ⟨-, he⟩ := hcases j c' he
    · exact ⟨hstart ▸ hpub, _, List.mem_cons_self, hstart.symm, hpending⟩
    · obtain ⟨hlo, r, hr, hrest⟩ := h.owns j c' he
      exact ⟨hlo, r, List.mem_cons_of_mem _ hr, hrest⟩
  · intro r hr hne
    obtain rfl | hr := List.mem_cons.mp hr
    · exact ⟨i, c, by rw [hc, if_pos rfl], hstart⟩
    · obtain ⟨j, c', he, hrs⟩ := h.left r hr hne
      refine ⟨j, c', ?_, hrs⟩
      rw [hc, if_neg ?_, he]
      rintro rfl
      rw [hidle] at he
      cases he
  · intro j k c' c'' hj hk he
    obtain ⟨rfl, rfl⟩ | ⟨-, hj⟩ := hcases j c' hj
    · obtain ⟨rfl, -⟩ | ⟨-, hk⟩ := hcases k c'' hk
      · rfl
      · have hlt := hother k c'' hk
        omega
    · obtain ⟨rfl, rfl⟩ | ⟨-, hk⟩ := hcases k c'' hk
      · have hlt := hother j c' hj
        omega
      · exact h.apart j k c' c'' hj hk he

/-- The owner of a stretch writes its next piece, and has no claim after the last one. -/
theorem copy (h : Owned size published claim rs) (hs : Strung rs q) (hi : claim i = some c)
    (hr : r ∈ rs) (hrs : r.start = c.start) {v : Nat × List UInt8} {vs : List (Nat × List UInt8)}
    (hleft : r.left = v :: vs) (hstart : d.start = c.start)
    (hpending : d.pending = vs.map (onto size))
    (hc : ∀ j, claim' j = if j = i then (if d.pending = [] then none else some d) else claim j) :
    Owned size published claim' (rs.map (Stretch.writeAt r.start)) := by
  have hlo := (h.owns i c hi).1
  -- the stretch of another start is as it was
  have hsame : ∀ u : Stretch UInt8, u.start ≠ r.start → u.writeAt r.start = u :=
    fun u hne => if_neg hne
  have hwritten : (r.writeAt r.start).left = vs := by
    rw [Stretch.writeAt, if_pos rfl, Stretch.write, hleft]
    rfl
  have hcases : ∀ j e, claim' j = some e →
      (j = i ∧ e = d) ∨ (j ≠ i ∧ claim j = some e) := by
    intro j e he
    rw [hc] at he
    split at he
    · rename_i hji
      exact .inl ⟨hji, (Option.some.inj (Option.ite_none_left_eq_some.mp he).2).symm⟩
    · rename_i hji
      exact .inr ⟨hji, he⟩
  constructor
  · intro j e he
    obtain ⟨-, rfl⟩ | ⟨hji, he⟩ := hcases j e he
    · refine ⟨hstart ▸ hlo, r.writeAt r.start, List.mem_map_of_mem hr, ?_, ?_⟩
      · rw [Stretch.writeAt_start, hrs, hstart]
      · rw [hwritten, hpending]
    · obtain ⟨helo, u, hu, hus, hue⟩ := h.owns j e he
      have hne : u.start ≠ r.start := fun heq => hji (h.apart j i e c he hi (by omega))
      refine ⟨helo, u, ?_, hus, hue⟩
      rw [← hsame u hne]
      exact List.mem_map_of_mem hu
  · intro u hu hne
    obtain ⟨u, hmem, rfl⟩ := List.mem_map.mp hu
    by_cases hus : u.start = r.start
    · obtain rfl := hs.eq_of_start hmem hr hus
      rw [hwritten] at hne
      refine ⟨i, d, ?_, ?_⟩
      · rw [hc, if_pos rfl, if_neg]
        rw [hpending]
        exact fun hnil => hne (List.map_eq_nil_iff.mp hnil)
      · rw [hstart, Stretch.writeAt_start, hrs]
    · rw [hsame u hus] at hne ⊢
      obtain ⟨j, e, he, hes⟩ := h.left u hmem hne
      refine ⟨j, e, ?_, hes⟩
      rw [hc, if_neg, he]
      rintro rfl
      rw [hi] at he
      cases he
      exact hus (hes.symm.trans hrs.symm)
  · intro j k e e' hj hk he
    obtain ⟨rfl, rfl⟩ | ⟨hji, hj⟩ := hcases j e hj
    · obtain ⟨rfl, -⟩ | ⟨-, hk⟩ := hcases k e' hk
      · rfl
      · exact h.apart j k c e' hi hk (by omega)
    · obtain ⟨rfl, rfl⟩ | ⟨-, hk⟩ := hcases k e' hk
      · exact h.apart j k e c hj hi (by omega)
      · exact h.apart j k e e' hj hk he

end Owned

/-- The log is that of stretches that the buffer holds and that are filled by their pieces. -/
structure Refines (cfg : Config) (s : State) (rs : List (Stretch UInt8)) : Prop where
  holds : Holds cfg.bufSize s.reserved s.dstBuf rs
  log : s.log = rs.map (entry cfg)
  covered : ∀ r ∈ rs, Covered r
  between : Between cfg s.reserved
  owned : Owned cfg.bufSize s.published (claims s.toState) rs

/-- A copy is noted for the reservation whose owner makes it. -/
theorem map_entry_writeAt {cfg : Config} {rs : List (Stretch UInt8)} {q : Nat} (hs : Strung rs q)
    {r : Stretch UInt8} (hr : r ∈ rs) {v : Nat × List UInt8} {vs : List (Nat × List UInt8)}
    (hleft : r.left = v :: vs) :
    ((rs.map (entry cfg)).map fun e =>
      if e.start = r.start then { e with made := e.made ++ [onto cfg.bufSize v] } else e) =
        (rs.map (Stretch.writeAt r.start)).map (entry cfg) := by
  rw [List.map_map, List.map_map]
  refine List.map_congr_left fun u hu => ?_
  by_cases hus : u.start = r.start
  · obtain rfl := hs.eq_of_start hu hr hus
    simp [entry, Stretch.writeAt, Stretch.write, hleft]
  · simp [entry, Stretch.writeAt, hus]

theorem Covered.writeAt {r : Stretch UInt8} (h : Covered r) (start : Nat) :
    Covered (r.writeAt start) := by
  intro x hlo hhi
  rw [Stretch.pieces_writeAt]
  rw [Stretch.writeAt_start] at hlo hhi
  rw [Stretch.writeAt_size] at hhi
  exact h x hlo hhi

namespace Refines

variable {cfg : Config} {s t : State} {rs : List (Stretch UInt8)} {i : Nat}

/-- A step that neither reserves nor copies nor pushes. -/
theorem move (h : Refines cfg s rs) (hc : claims t.toState = claims s.toState)
    (hlog : t.log = s.log) (hbuf : t.dstBuf = s.dstBuf) (hres : t.reserved = s.reserved)
    (hpub : t.published = s.published) : Refines cfg t rs := by
  constructor
  · rw [hres, hbuf]
    exact h.holds
  · rw [hlog]
    exact h.log
  · exact h.covered
  · rw [hres]
    exact h.between
  · rw [hc, hpub]
    exact h.owned

/-- While nobody copies, the counter may be pushed. -/
theorem publish (h : Refines cfg s rs) (hnone : ∀ i, claims s.toState i = none)
    (hc : claims t.toState = claims s.toState) (hlog : t.log = s.log) (hbuf : t.dstBuf = s.dstBuf)
    (hres : t.reserved = s.reserved) : Refines cfg t rs := by
  have hleft : ∀ r ∈ rs, r.left = [] := fun r hr => h.owned.left_nil hr fun i c he => by
    rw [hnone] at he
    cases he
  constructor
  · rw [hres, hbuf]
    exact h.holds
  · rw [hlog]
    exact h.log
  · exact h.covered
  · rw [hres]
    exact h.between
  · rw [hc]
    exact .of_none hnone hleft

/-- The offsets are reset when nothing was reserved. -/
theorem reset (h : Refines cfg s rs) (hzero : s.reserved = 0)
    (hc : claims t.toState = claims s.toState) (hlog : t.log = []) (hres : t.reserved = 0) :
    Refines cfg t [] := by
  have hnil : rs = [] := Strung.eq_nil (hzero ▸ h.holds.strung)
  have hnone : ∀ i, claims t.toState i = none := by
    intro i
    refine Option.eq_none_iff_forall_ne_some.mpr fun c he => ?_
    rw [hc] at he
    obtain ⟨-, r, hr, -⟩ := h.owned.owns i c he
    rw [hnil] at hr
    cases hr
  constructor
  · rw [hres]
    exact Holds.empty _ _
  · exact hlog
  · exact fun r hr => absurd hr List.not_mem_nil
  · rw [hres]
    exact .inl (Nat.zero_mod _)
  · exact .of_none hnone fun r hr => absurd hr List.not_mem_nil

theorem reserve (h : Refines cfg s rs) (hpub : s.published ≤ s.reserved) {c : Claim}
    {left : List (Nat × List UInt8)} (hstart : c.start = s.reserved) (hpos : 0 < c.toWrite)
    (hpending : c.pending = left.map (onto cfg.bufSize))
    (hl : Stretch.Laid ⟨s.reserved, c.toWrite, [], left⟩)
    (hcov : Covered ⟨s.reserved, c.toWrite, [], left⟩)
    (hbetween : Between cfg (s.reserved + c.toWrite))
    (hc : ∀ j, claims t.toState j = if j = i then some c else claims s.toState j)
    (hlog : t.log = ⟨s.reserved, c.toWrite, []⟩ :: s.log) (hbuf : t.dstBuf = s.dstBuf)
    (hres : t.reserved = s.reserved + c.toWrite) (hpub' : t.published = s.published)
    (hidle : claims s.toState i = none) :
    Refines cfg t (⟨s.reserved, c.toWrite, [], left⟩ :: rs) := by
  constructor
  · rw [hres, hbuf]
    exact h.holds.reserve hpos hl
  · rw [hlog, h.log]
    rfl
  · intro r hr
    obtain rfl | hr := List.mem_cons.mp hr
    · exact hcov
    · exact h.covered r hr
  · rw [hres]
    exact hbetween
  · rw [hpub']
    exact h.owned.reserve h.holds.strung hpub hidle hstart hpending hc

theorem copy (h : Refines cfg s rs) (hn : 0 < cfg.bufSize)
    (hlap : s.reserved ≤ s.published + cfg.bufSize) {c d : Claim} {w : Nat × List UInt8}
    (hi : claims s.toState i = some c) (hstart : d.start = c.start)
    (hpending : c.pending = w :: d.pending)
    (hc : ∀ j, claims t.toState j =
      if j = i then (if d.pending = [] then none else some d) else claims s.toState j)
    (hlog : t.log = s.log.map fun r =>
      if r.start = c.start then { r with made := r.made ++ c.pending.take 1 } else r)
    (hbuf : t.dstBuf = (copyToCircularBuffer s.dstBuf cfg.bufSize w.1 w.2).1)
    (hres : t.reserved = s.reserved) (hpub : t.published = s.published) :
    ∃ rs', Refines cfg t rs' := by
  obtain ⟨hlo, r, hr, hrs, hleft⟩ := h.owned.owns i c hi
  rw [hpending] at hleft
  obtain ⟨v, vs, hvs, rfl, hrest⟩ := List.map_eq_cons_iff.mp hleft.symm
  have hvin := (h.holds.laid r hr).inside v (by simp [Stretch.pieces, hvs])
  have hrq := h.holds.strung.le hr
  have hlen : v.2.length ≤ cfg.bufSize := by omega
  have hcell := Nat.mod_lt v.1 hn
  refine ⟨rs.map (Stretch.writeAt r.start), ?_, ?_, ?_, ?_, ?_⟩
  · rw [hres, hbuf]
    refine h.holds.write hr hvs (by omega) (fun k hk => ?_) fun x hx => ?_
    · rw [← Nat.mod_add_mod]
      exact copyToCircularBuffer_stored _ hcell hlen hk
    · refine copyToCircularBuffer_frame _ hcell hlen fun k hk => ?_
      rw [Nat.mod_add_mod]
      exact hx k hk
  · rw [hlog, h.log, hpending, ← hrs]
    exact map_entry_writeAt h.holds.strung hr hvs
  · intro u hu
    obtain ⟨u, hmem, rfl⟩ := List.mem_map.mp hu
    exact (h.covered u hmem).writeAt r.start
  · rw [hres]
    exact h.between
  · rw [hpub]
    exact h.owned.copy h.holds.strung hi hr hrs hvs hstart hrest.symm hc

end Refines

theorem rewind_threads (s : Concurrent.State) : (rewind s).threads = s.threads := by
  rw [rewind]
  split <;> rfl

theorem note_reserve {s t : Concurrent.State} {w : Nat} (log : List Reservation) (i : Nat)
    (ht : t.reserved = s.reserved + w) (hw : 0 < w) :
    note s t log (.thread i .reserve) = ⟨s.reserved, w, []⟩ :: log := by
  rw [note, if_pos (by omega), ht, Nat.add_sub_cancel_left]

theorem Quiet.claims {s : State} {i : Nat} (h : Quiet s (.thread i .publish)) (j : Nat) :
    claims s.toState j = none := by
  rw [Publication.claims]
  cases hj : s.threads[j]? with
  | none => rfl
  | some pc => exact Option.isNone_iff_eq_none.mp (h pc (List.mem_of_getElem? hj))

theorem Placed.lands {cfg : Config} {s : State} {i limit cnt : Nat} {f : Frame}
    (h : Placed cfg s (.thread i .reserve)) (hi : s.threads[i]? = some (.reserving limit cnt f))
    (hroom : calcCaplen cfg.caplen f.size + rawHlen + rawHlen ≤ limit - cnt) :
    Lands cfg s.reserved (calcCaplen cfg.caplen f.size) := by
  simp only [Placed, hi] at h
  exact h.resolve_left (Nat.not_lt.mpr hroom)

namespace Refines

variable {cfg : Config} {s : State} {rs : List (Stretch UInt8)} {i : Nat} {L : Log cfg.bufSize}

theorem poll (h : Refines cfg s rs) (hL : Inv cfg s.toState L) {t : State} {pc : Pc}
    (hi : s.threads[i]? = some .idle) (hpc : claimed pc = none)
    (ht : t.toState = (rewind s.toState).goto i pc)
    (hlog : t.log = if s.lstnr.listenersCount = 0 then [] else s.log) :
    ∃ rs', Refines cfg t rs' := by
  have hthreads : t.threads = s.threads.set i pc := by
    rw [ht, State.goto, rewind_threads]
  have hc := claims_move hi hthreads rfl hpc
  by_cases hzero : s.lstnr.listenersCount = 0
  · refine ⟨[], h.reset (hL.empty hzero).1 hc (hlog.trans (if_pos hzero)) ?_⟩
    rw [ht, rewind, if_pos hzero]
    rfl
  · rw [rewind, if_neg hzero] at ht
    refine ⟨rs, h.move hc (hlog.trans (if_neg hzero)) ?_ ?_ ?_⟩
    · rw [ht]
      rfl
    · rw [ht]
      rfl
    · rw [ht]
      rfl

theorem reserveFrame (h : Refines cfg s rs) (hd : cfg.bufSize ∣ 2 ^ 32)
    (hL : Inv cfg s.toState L) {f : Frame} {c : Claim} {t : State}
    (hlands : Lands cfg s.reserved (calcCaplen cfg.caplen f.size))
    {pc : Pc} (hi : s.threads[i]? = some pc) (hpc : claimed pc = none)
    (hr : Reserves cfg s.toState t.toState i f c)
    (hlog : t.log = ⟨s.reserved, c.toWrite, []⟩ :: s.log) : ∃ rs', Refines cfg t rs' := by
  obtain ⟨left, hcopies, hne, hlaid, hcov⟩ := copies_fill (f := f) hd h.between hlands
  have hcounter : s.consumerWriteOff = s.reserved % 2 ^ 32 := hL.counter
  have hbetween := hlands.between
  have hR : rawHlen = 12 := rfl
  have hwrite := hr.toWrite
  rw [← hcounter, ← hr.pending] at hcopies
  rw [← hwrite] at hlaid hcov hbetween
  have hnonempty : c.pending ≠ [] := by
    rw [hcopies]
    exact fun he => hne (List.map_eq_nil_iff.mp he)
  obtain ⟨limit, cnt, hthreads⟩ := hr.threads
  refine ⟨_, h.reserve hL.published_le hr.start (by omega) hcopies hlaid hcov hbetween
    (fun j => ?_) hlog hr.dstBuf hr.reserved hr.published ((claims_of_getElem? hi).trans hpc)⟩
  rw [claims_set hi hthreads, claimed_settle, if_neg hnonempty]

end Refines

theorem step_refines {cfg : Config} (hd : cfg.bufSize ∣ 2 ^ 32) {s t : State} {a : Step}
    (hi : ∃ L, Inv cfg s.toState L) (h : ∃ rs, Refines cfg s rs) (hok : Orderly cfg s a)
    (hs : step cfg s a = some t) : ∃ rs, Refines cfg t rs := by
  obtain ⟨L, hL⟩ := hi
  obtain ⟨rs, h⟩ := h
  obtain ⟨u, hu, rfl⟩ := Option.map_eq_some_iff.mp hs
  cases a with
  | ack id count =>
    obtain ⟨hid, hu⟩ := Option.ite_none_right_eq_some.mp hu
    cases hu
    exact ⟨rs, h.move rfl rfl rfl rfl rfl⟩
  | thread i a =>
    obtain ⟨pc, hi, hu⟩ := Option.bind_eq_some_iff.mp hu
    cases a with
    | poll =>
      cases stepThread_moves hu with
      | poll => exact h.poll hL hi rfl rfl rfl
    | frame f =>
      cases stepThread_moves hu with
      | accept limit cnt f => exact ⟨rs, h.move (claims_move hi rfl rfl rfl) rfl rfl rfl rfl⟩
      | skip limit cnt pktBuf f =>
        exact ⟨rs, h.move (claims_move hi rfl rfl rfl) rfl rfl rfl rfl⟩
    | reserve =>
      obtain ⟨rfl, hpc⟩ | ⟨limit, cnt, f, c, rfl, hroom, hr⟩ := reserve_cases hu
      · refine ⟨rs, h.move (claims_move hi rfl hpc (claimed_finished i)) ?_ rfl rfl rfl⟩
        exact if_neg (lt_irrefl s.reserved)
      · have hpos : 0 < c.toWrite := by
          rw [hr.toWrite]
          exact Nat.add_pos_right _ (by decide)
        exact h.reserveFrame hd hL (hok.placed.lands hi hroom) hi rfl hr
          (note_reserve s.log i hr.reserved hpos)
    | copy =>
      cases stepThread_moves hu with
      | copy limit cnt f start toWrite padded w ws =>
        have hclaim : claims s.toState i = some ⟨start, toWrite, padded, w :: ws⟩ :=
          claims_of_getElem? hi
        have hfit := hL.fits
        have hfl := L.floor_le_write
        rw [hL.floor, hL.write] at hfl
        refine h.copy L.size_pos (d := ⟨start, toWrite, padded, ws⟩) (by omega) hclaim rfl rfl
          (fun j => ?_) ?_ rfl rfl rfl
        · rw [claims_set hi rfl, claimed_settle]
        · simp only [note, hclaim]
    | leave =>
      cases stepThread_moves hu with
      | leave limit cnt pktBuf =>
        exact ⟨rs, h.move (claims_move hi rfl rfl (claimed_finished i)) rfl rfl rfl rfl⟩
    | popGlobal =>
      cases stepThread_moves hu with
      | popGlobal => exact ⟨rs, h.move (claims_move hi rfl rfl rfl) rfl rfl rfl rfl⟩
    | publish =>
      cases stepThread_moves hu with
      | publish =>
        exact ⟨rs, h.publish hok.quiet.claims (claims_move hi rfl rfl rfl) rfl rfl rfl⟩

theorem start_refines (cfg : Config) (consumers : Nat) (ids : List Int) (buf : Nat → UInt8) :
    Refines cfg (start cfg consumers ids buf) [] := by
  have hnone : ∀ i, claims (start cfg consumers ids buf).toState i = none := by
    intro i
    refine Option.eq_none_iff_forall_ne_some.mpr fun c he => ?_
    obtain ⟨pc, hpc, hc⟩ := Option.bind_eq_some_iff.mp he
    rw [List.eq_of_mem_replicate (List.mem_of_getElem? hpc)] at hc
    cases hc
  exact ⟨Holds.empty _ _, rfl, fun r hr => absurd hr List.not_mem_nil, .inl (Nat.zero_mod _),
    .of_none hnone fun r hr => absurd hr List.not_mem_nil⟩

/-- What was pushed to a listener was reserved before what is still being copied. -/
theorem Refines.written {cfg : Config} {s : State} {rs : List (Stretch UInt8)}
    {L : Log cfg.bufSize} (h : Refines cfg s rs) (hL : Inv cfg s.toState L) : Written cfg s := by
  intro l hl hid k hk
  obtain ⟨i, hi⟩ := List.mem_iff_getElem?.mp hl
  obtain ⟨r, -, hr, hat⟩ := hL.table.reader hi hid
  have hwr := L.le_write r hr
  have hf := L.floor_le r hr
  rw [hat.usedBytes hwr (L.reader_fits hr), hL.write] at hk
  rw [hL.floor] at hf
  have hfit := hL.fits
  have hle := hL.published_le
  refine ⟨r + k, by omega, by omega, ?_, ?_⟩
  · rw [hat.rd, Nat.mod_add_mod]
  obtain ⟨u, hu, hlo, hhi⟩ := h.holds.strung.cover (x := r + k) (by omega)
  have hbehind : ∀ j c, claims s.toState j = some c → c.start ≠ u.start := by
    intro j c hc he
    have hc := (h.owned.owns j c hc).1
    omega
  have hleft := h.owned.left_nil hu hbehind
  obtain ⟨w, hw, hreach⟩ := h.covered u hu (r + k) hlo hhi
  rw [Stretch.pieces, hleft, List.append_nil] at hw
  refine ⟨entry cfg u, ?_, hlo, hhi, hbehind, onto cfg.bufSize w, List.mem_map_of_mem hw, ?_⟩
  · rw [h.log]
    exact List.mem_map_of_mem hu
  · obtain ⟨hlow, hhigh⟩ | ⟨head, hpad, hbytes, hlow, hhigh⟩ := hreach
    · obtain ⟨m, hm⟩ := Nat.exists_eq_add_of_le hlow
      have hmlt : m < w.2.length := by omega
      refine .inl ⟨m, hmlt, ?_, ?_⟩
      · rw [onto, Nat.mod_add_mod, hm]
      · rw [hm]
        exact h.holds.shown u hu w hw m hmlt (by omega)
    · obtain ⟨m, hm⟩ := Nat.exists_eq_add_of_le hlow
      refine .inr ⟨head, hpad, hbytes, m, by omega, ?_⟩
      rw [onto, Nat.add_assoc, Nat.mod_add_mod, ← Nat.add_assoc, hm]

/-- With one thread the counter is pushed when it does not copy, and iterations have room. -/
theorem Alone.orderly {cfg : Config} (hd : cfg.bufSize ∣ 2 ^ 32) {s t : State} {a : Step}
    (h : ∃ L, Inv cfg s.toState L) (ha : Alone s.toState) (hp : Placed cfg s a)
    (hs : step cfg s a = some t) : Orderly cfg s a := by
  obtain ⟨u, hu, -⟩ := Option.map_eq_some_iff.mp hs
  refine ⟨ha.affordable hd h hu, hp, ?_⟩
  obtain ⟨pc, hpc, -⟩ := ha
  cases a with
  | ack id count => trivial
  | thread i a =>
    obtain ⟨pc', hi, hu⟩ := Option.bind_eq_some_iff.mp hu
    cases stepThread_moves hu with
    | publish =>
      intro pc'' hm
      rw [hpc] at hi hm
      obtain rfl := List.mem_singleton.mp (List.mem_of_getElem? hi)
      rw [List.mem_singleton.mp hm]
      rfl
    | _ => trivial

/-- Listeners see only bytes that their reserver has written, as long as reservations land
well, nobody still copies when the counter is pushed and iterations start with room. With a single
consumer the first is enough. -/
theorem listeners_see_written_bytes (cfg : Config) (hd : cfg.bufSize ∣ 2 ^ 32) (consumers : Nat)
    (ids : List Int) (hids : ∀ id ∈ ids, id ≠ listenerEmpty) (buf : Nat → UInt8) (s : State) :
    (Reach (step cfg) (Orderly cfg) (fun t => t = start cfg consumers ids buf) s →
      Written cfg s) ∧
    (consumers = 1 → Reach (step cfg) (Placed cfg) (fun t => t = start cfg consumers ids buf) s →
      Written cfg s) := by
  have hstart : ∀ t, t = start cfg consumers ids buf →
      (∃ L, Inv cfg t.toState L) ∧ ∃ rs, Refines cfg t rs := by
    rintro t rfl
    exact ⟨start_inv hd consumers hids buf, [], start_refines cfg consumers ids buf⟩
  have hstep : ∀ t a u, (∃ L, Inv cfg t.toState L) ∧ (∃ rs, Refines cfg t rs) → Orderly cfg t a →
      step cfg t a = some u → (∃ L, Inv cfg u.toState L) ∧ ∃ rs, Refines cfg u rs := by
    intro t a u ht hok hs
    refine ⟨?_, step_refines hd ht.1 ht.2 hok hs⟩
    obtain ⟨v, hv, rfl⟩ := Option.map_eq_some_iff.mp hs
    exact step_inv hd ht.1 hok.affordable hv
  refine ⟨fun h => ?_, fun hone h => ?_⟩
  · obtain ⟨⟨L, hL⟩, rs, hrs⟩ := h.invariant _ hstart hstep
    exact hrs.written hL
  · obtain ⟨⟨⟨L, hL⟩, rs, hrs⟩, -⟩ := h.invariant
      (fun t => ((∃ L, Inv cfg t.toState L) ∧ ∃ rs, Refines cfg t rs) ∧ Alone t.toState)
      (fun t ht => ⟨hstart t ht, by
        rw [ht, hone]
        exact ⟨.idle, rfl, fun _ => rfl⟩⟩)
      fun t a u ht hp hs => by
        have hok := Alone.orderly hd ht.1.1 ht.2 hp hs
        obtain ⟨v, hv, rfl⟩ := Option.map_eq_some_iff.mp hs
        exact ⟨hstep t a _ ht.1 hok hs, ht.2.next hd ht.1.1 hv⟩
    exact hrs.written hL

/-- The first thread's update of the pointers. -/
def push : List Step := [.thread 0 .popGlobal, .thread 0 .publish]

/-- An iteration of the first thread that finds the ring empty. -/
def emptyPoll : List Step := [.thread 0 .poll, .thread 0 .leave] ++ push

def opened (cfg : Config) (consumers : Nat) : State := start cfg consumers [1] fun _ => 0

theorem listeners_see_written_frame :
    (∃ s, run (guard (step twoPages) (Orderly twoPages)) (opened twoPages 2)
        (receive 1 1500 ++ emptyPoll) = some s ∧ Written twoPages s) ∧
    ∃ s, run (guard (step twoPages) (Placed twoPages)) (opened twoPages 1)
        (receive 0 1500 ++ push) = some s ∧ Written twoPages s := by
  have h₂ : (run (guard (step twoPages) (Orderly twoPages)) (opened twoPages 2)
      (receive 1 1500 ++ emptyPoll)).isSome := by decide +kernel
  have h₁ : (run (guard (step twoPages) (Placed twoPages)) (opened twoPages 1)
      (receive 0 1500 ++ push)).isSome := by decide +kernel
  obtain ⟨s, hs⟩ := Option.isSome_iff_exists.mp h₂
  obtain ⟨t, ht⟩ := Option.isSome_iff_exists.mp h₁
  refine ⟨⟨s, hs, ?_⟩, ⟨t, ht, ?_⟩⟩
  · refine (listeners_see_written_bytes twoPages (by decide) 2 [1] (by decide) (fun _ => 0) s).1 ?_
    exact Reach.run_guard (.start rfl) hs
  · refine (listeners_see_written_bytes twoPages (by decide) 1 [1] (by decide) (fun _ => 0) t).2
      rfl ?_
    exact Reach.run_guard (.start rfl) ht

/-- What a state tells of its log, of what is pushed, and of the first listener. -/
def glance (s : State) : List Reservation × Nat × Option (Int × Nat × Nat) :=
  (s.log, s.published,
    s.lstnr.listeners.head?.map fun l => (l.id, l.bufferRdOffset, usedBytes l))

/-- A byte that is not complete, between the offsets of the first listener. -/
theorem not_written {cfg : Config} {s : State} {log : List Reservation} {published rd used k : Nat}
    {id : Int} (hg : glance s = (log, published, some (id, rd, used))) (hid : id ≠ listenerEmpty)
    (hk : k < used) (hno : ∀ x < published, published ≤ x + cfg.bufSize →
      x % cfg.bufSize = (rd + k) % cfg.bufSize → ¬ Complete cfg s x) : ¬ Written cfg s := by
  simp only [glance, Prod.mk.injEq] at hg
  obtain ⟨-, hp, hl⟩ := hg
  obtain ⟨l, hl, he⟩ := Option.map_eq_some_iff.mp hl
  simp only [Prod.mk.injEq] at he
  obtain ⟨hlid, hrd, hused⟩ := he
  intro h
  obtain ⟨x, hx, hlap, hcell, hdone⟩ := h l (List.mem_of_mem_head? hl) (by rw [hlid]; exact hid) k
    (by rw [hused]; exact hk)
  rw [hp] at hx hlap
  rw [hrd] at hcell
  exact hno x hx hlap hcell hdone

/-- A frame of 100 bytes, of which 36 are acknowledged, and one of 8 bytes whose first
reservation ends 4 bytes behind the file, with no room for a second one. -/
def spilling : List Step :=
  receive 0 100 ++ push ++ [.ack 1 36] ++ emptyPoll ++ [.thread 0 .poll,
    .thread 0 (.frame (frameOf 8)), .thread 0 .reserve, .thread 0 .copy, .thread 0 .reserve] ++ push

/-- The first thread pushes while the second has reserved for a frame and copied nothing. A
single thread pushes the bytes that a reservation has at the start of a file, and left to the
next one. -/
theorem push_before_copy :
    (¬ ∀ s, Reach (step twoPages) Free (fun t => t = opened twoPages 2) s → Written twoPages s) ∧
    ¬ ∀ s, Reach (step smallFiles) Free (fun t => t = opened smallFiles 1) s →
      Written smallFiles s := by
  have hrun : ((run (step twoPages) (opened twoPages 2) ((receive 1 1500).take 3 ++ emptyPoll)).map
      glance) = some ([⟨0, 1512, []⟩], 1512, some (1, 0, 1512)) := by
    decide +kernel
  have hrun' : ((run (step smallFiles) (opened smallFiles 1) spilling).map glance) =
      some ([⟨112, 20, [(112, (paddingHeader 16).toBytes)]⟩,
        ⟨0, 112, [(0, (frameHeader smallFiles (frameOf 100)).toBytes),
          (12, payload smallFiles (frameOf 100))]⟩], 132, some (1, 36, 96)) := by
    decide +kernel
  obtain ⟨s, hs, hg⟩ := Option.map_eq_some_iff.mp hrun
  obtain ⟨t, ht, hg'⟩ := Option.map_eq_some_iff.mp hrun'
  have hlog : s.log = _ := congrArg Prod.fst hg
  have hlog' : t.log = _ := congrArg Prod.fst hg'
  refine ⟨fun h => not_written (k := 0) hg (by decide) (by decide) ?_ (h s (.run (.start rfl) hs)),
    fun h => not_written (k := 92) hg' (by decide) (by decide) ?_ (h t (.run (.start rfl) ht))⟩
  · rintro x - - - ⟨r, hr, -, -, -, w, hw, -⟩
    rw [hlog] at hr
    obtain rfl := List.mem_singleton.mp hr
    cases hw
  · rintro x hx hlap hcell ⟨r, hr, hlo, hhi, -, w, hw, hput⟩
    obtain rfl : x = 128 := by
      change x % 128 = 0 at hcell
      change 132 ≤ x + 128 at hlap
      omega
    rw [hlog', List.mem_cons, List.mem_singleton] at hr
    obtain rfl | rfl := hr
    · obtain rfl := List.mem_singleton.mp hw
      obtain ⟨i, hi, hat, -⟩ | ⟨head, -, hbytes, i, hi, hat⟩ := hput
      · rw [RawHeader.toBytes_length] at hi
        change i < 12 at hi
        change (112 + i) % 128 = 0 at hat
        omega
      · have hhead := congrArg RawHeader.ofBytes hbytes
        rw [RawHeader.ofBytes_toBytes, RawHeader.ofBytes_toBytes] at hhead
        have hcap : head.caplen.toNat = 4 := by
          rw [← hhead]
          rfl
        change (112 + 12 + i) % 128 = 0 at hat
        omega
    · change 128 < 0 + 112 at hhi
      omega

end Hpcap.Publication
