import Hpcap.Feed

namespace Hpcap.Packets

open Hpcap.Patch Hpcap.Reservation Hpcap.Rx Hpcap.Stream Hpcap.Recording Hpcap.Listeners
open Hpcap.Registry Hpcap.Transition Hpcap.Opening Hpcap.Intact Hpcap.Client Hpcap.ReadPacket
open Hpcap.Decoding Hpcap.Feed
open Hpcap.Capture (Elsewhere joinPos)
open Hpcap.Raw2pcap (FrameRecord recordLoop)

/-- Where `hpcapdd_p` is. A call of `hpcap_ack_wait_timeout` is two steps, as for `hpcapdd`. -/
inductive Pc
  | nextFile
  | filling
  | waiting
  | reading
  | closing
  | exited
  deriving DecidableEq

/-- The queue, and an `hpcapdd_p` with a handle: what is in its open file and in the files it has
closed. -/
structure State where
  queue : Poll.State
  handle : Handle
  pc : Pc
  stop : Bool
  i : Nat
  caplen : UInt16
  auxbuf : Nat → UInt8
  file : List UInt8
  closed : List (List UInt8)

def acknowledge (id : Int) (s : State) (pc : Pc) : Option State :=
  (Capture.acknowledge id (client s.queue s.handle) .waiting).map fun t =>
    { s with queue := t.queue, handle := t.handle, pc := pc }

def look (id : Int) (expect : Nat) (s : State) (pc : Pc) : Option State :=
  (Capture.look id expect (client s.queue s.handle) .waiting).map fun t =>
    { s with handle := t.handle, pc := pc }

/-- What the call of `hpcap_read_packet` leaves in `caplen`. -/
def newCaplen (o : Result) (caplen : UInt16) : UInt16 :=
  match o.header with
  | some (.caplen caplen') => caplen'
  | _ => caplen

/-- The packet goes to the file if there is one; all writes succeed. -/
def packetRead (s : State) (pc : Pc) (o : Result) : State :=
  let caplen := newCaplen o s.caplen
  let t := { s with handle := o.handle, auxbuf := o.auxbuf, caplen := caplen, pc := pc }
  if o.pbuffer = .null then t
  else { t with
    file := s.file ++ o.pointed s.queue.rx.dstBuf (caplen.toNat + rawHlen)
    i := s.i + caplen.toNat + rawHlen }

theorem packetRead_same (s : State) (pc : Pc) (o : Result) : (packetRead s pc o).queue = s.queue ∧
    (packetRead s pc o).handle = o.handle ∧ (packetRead s pc o).pc = pc := by
  rw [packetRead]
  dsimp only
  split <;> exact ⟨rfl, rfl, rfl⟩

def readPacket (stack : Nat → UInt8) (s : State) (pc : Pc) : Option State :=
  (hpcapReadPacket s.queue.rx.dstBuf s.handle s.auxbuf false stack).map (packetRead s pc)

/-- The next step of the program, where `stack` is what the header of a packet is read over. -/
def capture (cfg : Config) (id : Int) (stack : Nat → UInt8) (s : State) : Option State :=
  match s.pc with
  | .nextFile =>
    some (if s.stop then { s with pc := .exited } else { s with i := 0, file := [], pc := .filling })
  | .filling =>
    if s.stop = false ∧ s.i < cfg.fileSize then
      if s.handle.acks = s.handle.avail then acknowledge id s .waiting
      else some { s with pc := .reading }
    else some { s with pc := .closing }
  | .waiting => look id 1 s .reading
  | .reading =>
    if s.handle.acks < s.handle.avail then readPacket stack s .filling
    else some { s with pc := .filling }
  | .closing =>
    (acknowledge id s .nextFile).map fun t => { t with file := [], closed := s.closed ++ [s.file] }
  | .exited => none

/-- A step of `hpcapdd_p`, the signal that stops it, or something done elsewhere. -/
inductive Step
  | capture (stack : Nat → UInt8)
  | stop
  | op (a : Poll.Op)

def step (cfg : Config) (id : Int) (s : State) : Step → Option State
  | .capture stack => capture cfg id stack s
  | .stop => some { s with stop := true }
  | .op a =>
    if Elsewhere id a then (Poll.step cfg s.queue a).map fun q => { s with queue := q } else none

/-- Once the device is opened and its memory mapped. -/
def start (cfg : Config) (q : Poll.State) (id : Int) (auxbuf : Nat → UInt8) : State where
  queue := { q with lstnr := (hpcapAddListener q.lstnr id).1 }
  handle := ⟨0, 0, 0, 0, cfg.bufSize⟩
  pc := .nextFile
  stop := false
  i := 0
  caplen := 0
  auxbuf := auxbuf
  file := []
  closed := []

/-- Frames fit a descriptor. -/
def Received (s : State) : Step → Prop
  | .op a => Opening.Received s.queue a
  | _ => True

instance (s : State) : DecidablePred (Received s) := fun a => by
  unfold Received
  split <;> infer_instance

/-- Besides, a packet is read where no record of the window runs over the end of the buffer. -/
def Careful (cfg : Config) (s : State) : Step → Prop
  | .capture _ => s.pc = .reading → Unbroken cfg s.queue s.handle
  | a => Received s a

/-- The files are made of the records of these frames. -/
def Holds (cfg : Config) (s : State) (fs : List Frame) : Prop :=
  ∃ (fss : List (List Frame)) (last : List Frame), fs = fss.flatten ++ last ∧
    s.closed = fss.map (fun fs => fs.flatMap (frameBytes cfg)) ∧
    s.file = last.flatMap (frameBytes cfg)

/-- What holds at each place of the loop. -/
def Placed (s : State) : Prop :=
  (s.pc = .nextFile → s.file = []) ∧ (s.pc = .waiting → s.handle.acks = 0)

def Inv (cfg : Config) (id : Int) (q : Poll.State) (j : Nat) (s : State) : Prop :=
  Fed cfg id q j s.queue s.handle (Holds cfg s) ∧ Placed s

section Run

variable {cfg : Config} {id : Int} {q : Poll.State} {j : Nat} {s t : State} {fs : List Frame}

theorem Holds.congr (h : Holds cfg s fs) (hclosed : t.closed = s.closed) (hfile : t.file = s.file) :
    Holds cfg t fs := by
  obtain ⟨fss, last, hfs, hc, hf⟩ := h
  exact ⟨fss, last, hfs, hclosed.trans hc, hfile.trans hf⟩

/-- The packet that is read goes to the file. -/
theorem Holds.packet {o : Result} {f : Frame} {r : RawRecord} {pc : Pc} (h : Holds cfg s fs)
    (hnull : o.pbuffer ≠ .null) (hr : IsRecord cfg (.frame f) r)
    (hd : Delivers s.queue.rx.dstBuf false r o) : Holds cfg (packetRead s pc o) (fs ++ [f]) := by
  obtain ⟨fss, last, rfl, hc, hf⟩ := h
  have hcaplen : newCaplen o s.caplen = r.header.caplen := by
    rw [newCaplen, hd.header]
    rfl
  have hbytes := hd.bytes
  rw [packetBytes_length] at hbytes
  have hbytes : o.pointed s.queue.rx.dstBuf (rawHlen + r.header.caplen.toNat) = r.toBytes := hbytes
  rw [Nat.add_comm rawHlen] at hbytes
  rw [packetRead, if_neg hnull]
  refine ⟨fss, last ++ [f], by rw [List.append_assoc], hc, ?_⟩
  dsimp only
  rw [hcaplen, hbytes, hf, frame_bytes hr, List.flatMap_append]
  simp

/-- The file is closed. -/
theorem Holds.close (h : Holds cfg s fs) (hclosed : t.closed = s.closed ++ [s.file])
    (hfile : t.file = []) : Holds cfg t fs := by
  obtain ⟨fss, last, rfl, hc, hf⟩ := h
  refine ⟨fss ++ [last], [], by simp, ?_, hfile⟩
  rw [hclosed, hc, hf, List.map_append]
  rfl

theorem acknowledge_inv {pc : Pc} (h : Fed cfg id q j s.queue s.handle (Holds cfg s))
    (hb : cfg.bufSize ∣ cfg.fileSize) (hd : cfg.bufSize ∣ 2 ^ 32) (hid : id ≠ listenerEmpty)
    (ht : acknowledge id s pc = some t) :
    Fed cfg id q j t.queue t.handle (Holds cfg s) ∧ t.handle.acks = 0 ∧ t.pc = pc ∧
      t.file = s.file ∧ t.closed = s.closed := by
  obtain ⟨u, hu, rfl⟩ := Option.map_eq_some_iff.mp ht
  obtain ⟨hfed, hacks, -⟩ := h.acknowledge hb hd hid hu
  exact ⟨hfed, hacks, rfl, rfl, rfl⟩

/-- The loop goes on with the same files. -/
theorem Inv.goto (h : Inv cfg id q j s) {pc : Pc} (hnext : pc ≠ .nextFile) (hwait : pc ≠ .waiting) :
    Inv cfg id q j { s with pc := pc } :=
  ⟨h.1.mono fun _ hfs => hfs.congr rfl rfl, fun hpc => absurd hpc hnext, fun hpc => absurd hpc hwait⟩

theorem Inv.capture {stack : Nat → UInt8} (h : Inv cfg id q j s) (hb : cfg.bufSize ∣ cfg.fileSize)
    (hd : cfg.bufSize ∣ 2 ^ 32) (hid : id ≠ listenerEmpty) (ha : Careful cfg s (.capture stack))
    (ht : capture cfg id stack s = some t) : Inv cfg id q j t := by
  obtain ⟨hfed, hp⟩ := h
  unfold Packets.capture at ht
  split at ht
  · rename_i hpc
    obtain rfl := Option.some.inj ht
    split
    · exact Inv.goto ⟨hfed, hp⟩ nofun nofun
    · exact ⟨hfed.mono fun _ hfs => hfs.congr rfl (hp.1 hpc).symm, nofun, nofun⟩
  · split at ht
    · split at ht
      · obtain ⟨hfed', hacks, hpc, hfile, hclosed⟩ := acknowledge_inv hfed hb hd hid ht
        refine ⟨hfed'.mono fun _ hfs => hfs.congr hclosed hfile, fun h => ?_, fun _ => hacks⟩
        rw [hpc] at h
        cases h
      · obtain rfl := Option.some.inj ht
        exact Inv.goto ⟨hfed, hp⟩ nofun nofun
    · obtain rfl := Option.some.inj ht
      exact Inv.goto ⟨hfed, hp⟩ nofun nofun
  · rename_i hpc
    obtain ⟨u, hu, rfl⟩ := Option.map_eq_some_iff.mp ht
    exact ⟨(hfed.look hd (hp.2 hpc) hu).mono fun _ hfs => hfs.congr rfl rfl, nofun, nofun⟩
  · rename_i hpc
    split at ht
    · rename_i hlt
      obtain ⟨o, ho, rfl⟩ := Option.map_eq_some_iff.mp ht
      have hread := packetRead_same s .filling o
      refine ⟨?_, fun h => ?_, fun h => ?_⟩
      · rw [hread.1, hread.2.1]
        exact hfed.read hid hd hlt (ha hpc) ho fun _ _ _ hfs hnull hr hd' => hfs.packet hnull hr hd'
      · rw [hread.2.2] at h
        cases h
      · rw [hread.2.2] at h
        cases h
    · obtain rfl := Option.some.inj ht
      exact Inv.goto ⟨hfed, hp⟩ nofun nofun
  · obtain ⟨u, hu, rfl⟩ := Option.map_eq_some_iff.mp ht
    obtain ⟨hfed', hacks, hpc, -, -⟩ := acknowledge_inv hfed hb hd hid hu
    exact ⟨hfed'.mono fun _ hfs => hfs.close rfl rfl, fun _ => rfl, fun _ => hacks⟩
  · cases ht

theorem Inv.step {a : Step} (h : Inv cfg id q j s) (hb : cfg.bufSize ∣ cfg.fileSize)
    (hd : cfg.bufSize ∣ 2 ^ 32) (hid : id ≠ listenerEmpty) (ha : Careful cfg s a)
    (hs : Packets.step cfg id s a = some t) : Inv cfg id q j t := by
  cases a with
  | capture stack => exact h.capture hb hd hid ha hs
  | stop =>
    obtain rfl := Option.some.inj hs
    exact ⟨h.1.mono fun _ hfs => hfs.congr rfl rfl, h.2⟩
  | op a =>
    obtain ⟨helse, hs⟩ := Option.ite_none_right_eq_some.mp hs
    obtain ⟨r, hr, rfl⟩ := Option.map_eq_some_iff.mp hs
    exact ⟨(h.1.op hb hd hid helse ha hr).mono fun _ hfs => hfs.congr rfl rfl, h.2⟩

end Run

/-- `hpcapdd_p` has opened the device at an entry of the stream, in the state `q`, and has come
to `s`. -/
structure Reads (cfg : Config) (id : Int) (q : Poll.State) (s : State) : Prop extends
    Opens cfg id q where
  run : ∃ auxbuf, Reach (step cfg id) (Careful cfg) (fun t => t = start cfg q id auxbuf) s

end Hpcap.Packets
