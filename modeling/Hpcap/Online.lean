import Hpcap.Feed

namespace Hpcap.Online

open Hpcap.Patch Hpcap.Rx Hpcap.Stream Hpcap.Recording Hpcap.Listeners Hpcap.Registry
open Hpcap.Reservation Hpcap.Transition Hpcap.Opening Hpcap.Intact Hpcap.Client Hpcap.ReadPacket
open Hpcap.Decoding Hpcap.Feed
open Hpcap.Capture (Elsewhere joinPos)
open Hpcap.Raw2pcap (PcapPkthdr)

def hpcapPcapHeader (secs nsecs : UInt32) (len caplen : UInt16) : PcapPkthdr :=
  ⟨secs.toNat, nsecs.toNat / 1000, caplen.toNat, len.toNat⟩

/-- A call of the `packet_handler`, with the bytes that it finds at `bp`. -/
structure Call where
  bp : List UInt8
  head : PcapPkthdr

/-- Where `mgmon_packet_online_loop` is. A call of `hpcap_ack_wait_timeout` is two steps. -/
inductive Pc
  | testing
  | waiting
  | reading
  | stopping
  | exited
  deriving DecidableEq

/-- The queue, and the loop with a handle: the calls it has made. -/
structure State where
  queue : Poll.State
  handle : Handle
  pc : Pc
  stop : Bool
  head : PcapPkthdr
  auxbuf : Nat → UInt8
  calls : List Call

def acknowledge (id : Int) (s : State) (pc : Pc) : Option State :=
  (Capture.acknowledge id (client s.queue s.handle) .waiting).map fun t =>
    { s with queue := t.queue, handle := t.handle, pc := pc }

def look (id : Int) (expect : Nat) (s : State) (pc : Pc) : Option State :=
  (Capture.look id expect (client s.queue s.handle) .waiting).map fun t =>
    { s with handle := t.handle, pc := pc }

/-- What the call of `hpcap_read_packet` leaves in `head`. -/
def newHead (o : Result) (head : PcapPkthdr) : PcapPkthdr :=
  match o.header with
  | some (.readHeader sec nsec len caplen) => hpcapPcapHeader sec nsec len caplen
  | _ => head

/-- The packet goes to the callback if there is one. -/
def packetRead (s : State) (o : Result) : State :=
  let head := newHead o s.head
  let t := { s with handle := o.handle, auxbuf := o.auxbuf, head := head }
  if o.pbuffer = .null then t
  else { t with calls := s.calls ++ [⟨o.pointed s.queue.rx.dstBuf head.caplen, head⟩] }

theorem packetRead_same (s : State) (o : Result) : (packetRead s o).queue = s.queue ∧
    (packetRead s o).handle = o.handle ∧ (packetRead s o).pc = s.pc := by
  rw [packetRead]
  dsimp only
  split <;> exact ⟨rfl, rfl, rfl⟩

def readPacket (stack : Nat → UInt8) (s : State) : Option State :=
  (hpcapReadPacket s.queue.rx.dstBuf s.handle s.auxbuf true stack).map (packetRead s)

/-- The next step of the loop, where `stack` is what the header of a packet is read over. -/
def loop (id : Int) (stack : Nat → UInt8) (s : State) : Option State :=
  match s.pc with
  | .testing => if s.stop then some { s with pc := .stopping } else acknowledge id s .waiting
  | .waiting => look id 1 s .reading
  | .reading =>
    if s.handle.acks < s.handle.avail then readPacket stack s else some { s with pc := .testing }
  | .stopping => acknowledge id s .exited
  | .exited => none

/-- A step of the loop, the signal that stops it, or something done elsewhere. -/
inductive Step
  | loop (stack : Nat → UInt8)
  | stop
  | op (a : Poll.Op)

def step (cfg : Config) (id : Int) (s : State) : Step → Option State
  | .loop stack => loop id stack s
  | .stop => some { s with stop := true }
  | .op a =>
    if Elsewhere id a then (Poll.step cfg s.queue a).map fun q => { s with queue := q } else none

/-- Once the device is opened and its memory mapped. `head` and `auxbuf` are on the stack. -/
def start (cfg : Config) (q : Poll.State) (id : Int) (head : PcapPkthdr) (auxbuf : Nat → UInt8) :
    State where
  queue := { q with lstnr := (hpcapAddListener q.lstnr id).1 }
  handle := ⟨0, 0, 0, 0, cfg.bufSize⟩
  pc := .testing
  stop := false
  head := head
  auxbuf := auxbuf
  calls := []

/-- Frames fit a descriptor. -/
def Received (s : State) : Step → Prop
  | .op a => Opening.Received s.queue a
  | _ => True

instance (s : State) : DecidablePred (Received s) := fun a => by
  unfold Received
  split <;> infer_instance

/-- Besides, a packet is read where no record of the window runs over the end of the buffer. -/
def Careful (cfg : Config) (s : State) : Step → Prop
  | .loop _ => s.pc = .reading → Unbroken cfg s.queue s.handle
  | a => Received s a

/-- The call that a frame is to lead to. -/
def call (cfg : Config) (f : Frame) : Call :=
  ⟨payload cfg f, hpcapPcapHeader (frameHeader cfg f).sec (frameHeader cfg f).nsec
    (frameHeader cfg f).len (frameHeader cfg f).caplen⟩

/-- The calls are those of these frames. -/
def Holds (cfg : Config) (s : State) (fs : List Frame) : Prop := s.calls = fs.map (call cfg)

def Inv (cfg : Config) (id : Int) (q : Poll.State) (j : Nat) (s : State) : Prop :=
  Fed cfg id q j s.queue s.handle (Holds cfg s) ∧ (s.pc = .waiting → s.handle.acks = 0)

section Run

variable {cfg : Config} {id : Int} {q : Poll.State} {j : Nat} {s t : State} {fs : List Frame}

theorem Holds.congr (h : Holds cfg s fs) (hcalls : t.calls = s.calls) : Holds cfg t fs :=
  hcalls.trans h

/-- The callback is given the frame. -/
theorem Holds.packet {o : Result} {f : Frame} {r : RawRecord} (h : Holds cfg s fs)
    (hnull : o.pbuffer ≠ .null) (hr : IsRecord cfg (.frame f) r)
    (hd : Delivers s.queue.rx.dstBuf true r o) : Holds cfg (packetRead s o) (fs ++ [f]) := by
  have hheader : r.header = frameHeader cfg f := hr.header
  have hhead : newHead o s.head = (call cfg f).head := by
    rw [newHead, hd.header, hheader]
    rfl
  have hbytes := hd.bytes
  have hlen : (packetBytes true r).length = (call cfg f).head.caplen := by
    rw [packetBytes_length, hheader]
    rfl
  have hbody : packetBytes true r = payload cfg f := hr.body f rfl
  rw [hlen, hbody] at hbytes
  have h : s.calls = fs.map (call cfg) := h
  rw [Holds, packetRead, if_neg hnull]
  dsimp only
  rw [hhead, hbytes, h, List.map_append]
  rfl

theorem acknowledge_inv {pc : Pc} (h : Fed cfg id q j s.queue s.handle (Holds cfg s))
    (hb : cfg.bufSize ∣ cfg.fileSize) (hd : cfg.bufSize ∣ 2 ^ 32) (hid : id ≠ listenerEmpty)
    (ht : acknowledge id s pc = some t) : Inv cfg id q j t := by
  obtain ⟨u, hu, rfl⟩ := Option.map_eq_some_iff.mp ht
  obtain ⟨hfed, hacks, -⟩ := h.acknowledge hb hd hid hu
  exact ⟨hfed.mono fun _ hfs => hfs.congr rfl, fun _ => hacks⟩

theorem Inv.loop {stack : Nat → UInt8} (h : Inv cfg id q j s) (hb : cfg.bufSize ∣ cfg.fileSize)
    (hd : cfg.bufSize ∣ 2 ^ 32) (hid : id ≠ listenerEmpty) (ha : Careful cfg s (.loop stack))
    (ht : loop id stack s = some t) : Inv cfg id q j t := by
  obtain ⟨hfed, hp⟩ := h
  unfold Online.loop at ht
  split at ht
  · split at ht
    · obtain rfl := Option.some.inj ht
      exact ⟨hfed.mono fun _ hfs => hfs.congr rfl, nofun⟩
    · exact acknowledge_inv hfed hb hd hid ht
  · rename_i hpc
    obtain ⟨u, hu, rfl⟩ := Option.map_eq_some_iff.mp ht
    exact ⟨(hfed.look hd (hp hpc) hu).mono fun _ hfs => hfs.congr rfl, nofun⟩
  · rename_i hpc
    split at ht
    · rename_i hlt
      obtain ⟨o, ho, rfl⟩ := Option.map_eq_some_iff.mp ht
      obtain ⟨hqueue, hhandle, hsame⟩ := packetRead_same s o
      refine ⟨?_, fun h => ?_⟩
      · rw [hqueue, hhandle]
        exact hfed.read hid hd hlt (ha hpc) ho fun _ _ _ hfs hnull hr hd' => hfs.packet hnull hr hd'
      · rw [hsame, hpc] at h
        cases h
    · obtain rfl := Option.some.inj ht
      exact ⟨hfed.mono fun _ hfs => hfs.congr rfl, nofun⟩
  · exact acknowledge_inv hfed hb hd hid ht
  · cases ht

theorem Inv.step {a : Step} (h : Inv cfg id q j s) (hb : cfg.bufSize ∣ cfg.fileSize)
    (hd : cfg.bufSize ∣ 2 ^ 32) (hid : id ≠ listenerEmpty) (ha : Careful cfg s a)
    (hs : Online.step cfg id s a = some t) : Inv cfg id q j t := by
  cases a with
  | loop stack => exact h.loop hb hd hid ha hs
  | stop =>
    obtain rfl := Option.some.inj hs
    exact ⟨h.1.mono fun _ hfs => hfs.congr rfl, h.2⟩
  | op a =>
    obtain ⟨helse, hs⟩ := Option.ite_none_right_eq_some.mp hs
    obtain ⟨r, hr, rfl⟩ := Option.map_eq_some_iff.mp hs
    exact ⟨(h.1.op hb hd hid helse ha hr).mono fun _ hfs => hfs.congr rfl, h.2⟩

end Run

/-- The loop has opened the device at an entry of the stream, in the state `q`, and has come
to `s`. -/
structure Runs (cfg : Config) (id : Int) (q : Poll.State) (s : State) : Prop extends
    Opens cfg id q where
  run : ∃ head auxbuf,
    Reach (step cfg id) (Careful cfg) (fun t => t = start cfg q id head auxbuf) s

/-- The callback is called for the accepted frames, none missing and none twice, in their order,
from one accepted before on, and for nothing else. -/
theorem calls_are_frames (cfg : Config) (hb : cfg.bufSize ∣ cfg.fileSize)
    (hd : cfg.bufSize ∣ 2 ^ 32) (id : Int) (q : Poll.State) (s : State) (h : Runs cfg id q s)
    (hsound : Sound cfg s.queue.rx.trace) (htimed : Timed s.queue.rx.trace.accepted) :
    ∃ before got after : List Frame,
      s.queue.rx.trace.accepted.reverse = before ++ (got ++ after) ∧
      before <+: q.rx.trace.accepted.reverse ∧ s.calls = got.map (call cfg) := by
  obtain ⟨head, auxbuf, hrun⟩ := h.run
  obtain ⟨hfed, -⟩ : Inv cfg id q (joinPos q) s := by
    refine hrun.invariant (Inv cfg id q (joinPos q)) ?_ fun _ _ _ hu ha hs =>
      hu.step hb hd h.id_ne ha hs
    rintro t rfl
    exact ⟨h.toOpens.fed hb hd rfl, nofun⟩
  obtain ⟨before, got, after, haccepted, hbefore, hcalls, -⟩ :=
    h.toOpens.frames hb hd hfed hsound htimed
  exact ⟨before, got, after, haccepted, hbefore, hcalls⟩

/-- Two frames are received and handed on, and the loop is stopped. -/
def twoCalls : List Step :=
  [.loop blank, .op (.poll [⟨[1, 2, 3], 1, 0⟩, ⟨[4, 5], 1, 0⟩]), .loop blank, .loop blank,
    .loop blank, .loop blank, .stop, .loop blank, .loop blank]

theorem calls_are_frames_two : ∃ (s : State) (got : List Frame),
    Runs onePage 1 (Poll.init onePage blank) s ∧ s.pc = .exited ∧ got.length = 2 ∧
      s.calls = got.map (call onePage) := by
  have hrun : (run (guard (step onePage 1) Received)
      (start onePage (Poll.init onePage blank) 1 ⟨0, 0, 0, 0⟩ blank) twoCalls).map
      (fun s => (decide (Sound onePage s.queue.rx.trace), decide (Timed s.queue.rx.trace.accepted),
        decide (s.pc = .exited), s.calls.length)) = some (true, true, true, 2) := by
    decide +kernel
  obtain ⟨s, hs, he⟩ := Option.map_eq_some_iff.mp hrun
  simp only [Prod.mk.injEq, decide_eq_true_eq] at he
  obtain ⟨hsound, htimed, hexit, htwo⟩ := he
  have hreach : Reach (step onePage 1) Received
      (fun t => t = start onePage (Poll.init onePage blank) 1 ⟨0, 0, 0, 0⟩ blank) s :=
    .run_guard (.start rfl) hs
  have hruns : Runs onePage 1 (Poll.init onePage blank) s := by
    refine ⟨⟨⟨blank, .start rfl⟩, by decide, rfl, rfl, onEntry_boundary le_rfl (by decide)⟩,
      ⟨0, 0, 0, 0⟩, blank, hreach.mono fun u a ha => ?_⟩
    cases a with
    | loop stack => exact fun _ => .inl rfl
    | stop => exact ha
    | op a => exact ha
  obtain ⟨before, got, after, -, -, hcalls⟩ :=
    calls_are_frames onePage (by decide) (by decide) 1 (Poll.init onePage blank) s hruns hsound htimed
  have hlen := congrArg List.length hcalls
  rw [htwo, List.length_map] at hlen
  exact ⟨s, got, hruns, hexit, hlen.symm, hcalls⟩

end Hpcap.Online
