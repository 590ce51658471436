import Hpcap.Capture
import Hpcap.Intact

namespace Hpcap.Files

open Hpcap.Patch Hpcap.Reservation Hpcap.SharedLog Hpcap.Rx Hpcap.Stream Hpcap.Inked
open Hpcap.Recording Hpcap.Listeners Hpcap.Registry Hpcap.Transition Hpcap.Opening Hpcap.Intact
open Hpcap.Client
open Hpcap.Capture (Reader Block Core Placed Filled Reading Holds size acknowledge look
  hpcapWriteBlock capture joinPos opened)

/-- The files on the disk: what is in the open one, and in the ones that are closed. -/
structure Disk where
  file : List UInt8
  closed : List (List UInt8)

def Disk.content (d : Disk) : List UInt8 := d.closed.flatten ++ d.file

/-- The memory that a block is written from. -/
def blockBytes (s : Capture.State) (b : Block) : List UInt8 :=
  ring s.queue.rx.dstBuf s.handle.bufSize b.offset b.length

/-- What a step of `hpcapdd` from `s` to `t` leaves on the disk. -/
def disk (s t : Capture.State) (d : Disk) : Disk :=
  match s.pc with
  | .nextFile => { d with file := [] }
  | .closing => ⟨[], d.closed ++ [d.file]⟩
  | _ => { d with file := d.file ++ (t.blocks.drop s.blocks.length).flatMap (blockBytes s) }

/-- The queue with an `hpcapdd`, and its disk. -/
structure State where
  proc : Capture.State
  disk : Disk

def step (cfg : Config) (bs : Nat) (id : Int) (s : State) : Capture.Step → Option State
  | .capture => (capture cfg bs id s.proc).map fun t => ⟨t, disk s.proc t s.disk⟩
  | .stop => (Capture.step cfg bs id s.proc .stop).map fun t => ⟨t, s.disk⟩
  | .op a => (Capture.step cfg bs id s.proc (.op a)).map fun t => ⟨t, s.disk⟩

def start (cfg : Config) (q : Poll.State) (id : Int) : State := ⟨opened cfg q id, ⟨[], []⟩⟩

def Received (s : State) : Capture.Step → Prop := Capture.Received s.proc

instance (s : State) : DecidablePred (Received s) :=
  inferInstanceAs (DecidablePred (Capture.Received _))

section Step

variable {cfg : Config} {bs : Nat} {id : Int} {s t : Capture.State} {p : Nat}

/-- The listener stands at one position only. -/
theorem core_position (h : Core cfg id s p) {j r : Nat} {l : Listener}
    (hl : hpcapGetListener s.queue.lstnr id = some (j, l))
    (hr : Reader cfg.bufSize r s.queue.rx.trace.reserved l) : r = p := by
  obtain ⟨j', l', hl', hr'⟩ := h.listener
  obtain rfl := (Prod.mk.inj (Option.some.inj (hl.symm.trans hl'))).2
  exact hr.stands.unique hr'.stands

theorem core_unique {r : Nat} (h : Core cfg id s p) (h' : Core cfg id s r) : p = r := by
  obtain ⟨j, l, hl, hr⟩ := h.listener
  exact core_position h' hl hr

theorem registered (h : Core cfg id s p) (hid : id ≠ listenerEmpty) :
    s.queue.lstnr.listenersCount ≠ 0 ∧ released s.queue ≤ p := by
  obtain ⟨j, l, hl, hr⟩ := h.listener
  obtain ⟨hcount, r, hr', hroom⟩ := Capture.registered_reader h.queue.queue hid hl
  obtain ⟨-, L, hL, hw⟩ := h.queue.queue
  have hsame := hr.stands.unique hr'.stands
  have hfits := L.fits
  have hle := hr.le
  rw [hL.availBytes_global, Log.room] at hroom
  refine ⟨hcount, ?_⟩
  rw [released_eq hL hw]
  omega

theorem released_acknowledge {pc : Capture.Pc} (ht : acknowledge id s pc = some t) :
    released t.queue = released s.queue := by
  obtain ⟨-, ht⟩ := Option.ite_none_left_eq_some.mp ht
  obtain rfl := Option.some.inj ht
  dsimp only
  split
  · simp only [released, popHandle]
    split <;> rfl
  · rfl

theorem acknowledge_pc {pc : Capture.Pc} (ht : acknowledge id s pc = some t) :
    t.pc = pc ∧ t.stop = s.stop := by
  obtain ⟨-, ht⟩ := Option.ite_none_left_eq_some.mp ht
  obtain rfl := Option.some.inj ht
  exact ⟨rfl, rfl⟩

/-- What a step of the capture loop does to the files: `n` more bytes are taken. -/
inductive Effect (bs : Nat) (s t : Capture.State) : Nat → Prop
  | opens : s.pc = .nextFile → s.blocks = [] → t.blocks = [] → t.files = s.files →
      (s.stop = true → t.pc = .exited) → Effect bs s t 0
  | closes : s.pc = .closing → t.pc = .nextFile → t.blocks = [] →
      t.files = s.files ++ [s.blocks] → Effect bs s t 0
  | waits : s.pc ≠ .nextFile → s.pc ≠ .closing → s.pc ≠ .exited → t.blocks = s.blocks →
      t.files = s.files → Effect bs s t 0
  | writes : s.pc ≠ .nextFile → s.pc ≠ .closing → s.pc ≠ .exited → bs ≤ s.handle.avail →
      s.handle.acks = 0 → t.blocks = s.blocks ++ [⟨s.handle.rdoff, bs, s.queue.rx.trace.reserved⟩] →
      t.files = s.files → Effect bs s t bs

/-- A block is written when there is one, from where the handle reads. -/
theorem writeBlock_effect {maxBytes : Nat} {pc : Capture.Pc} (hpc : s.pc ≠ .nextFile)
    (hpc' : s.pc ≠ .closing) (hpc'' : s.pc ≠ .exited) (hacks : s.handle.acks = 0)
    (ht : hpcapWriteBlock bs maxBytes s pc = some t) :
    ∃ n, Effect bs s t n ∧ t.queue = s.queue ∧ t.handle.acks = s.handle.acks + n := by
  rw [hpcapWriteBlock] at ht
  split at ht
  · obtain rfl := Option.some.inj ht
    exact ⟨0, .waits hpc hpc' hpc'' rfl rfl, rfl, rfl⟩
  · rename_i hready
    obtain ⟨-, ht⟩ := Option.ite_none_left_eq_some.mp ht
    obtain rfl := Option.some.inj ht
    exact ⟨bs, .writes hpc hpc' hpc'' ((Nat.not_lt.mp hready).trans (min_le_left _ _)) hacks rfl rfl,
      rfl, rfl⟩

theorem acknowledge_effect (h : Core cfg id s p) (hb : cfg.bufSize ∣ cfg.fileSize)
    (hd : cfg.bufSize ∣ 2 ^ 32) (hid : id ≠ listenerEmpty) {pc : Capture.Pc}
    (ht : acknowledge id s pc = some t) :
    Core cfg id t (p + s.handle.acks) ∧ t.handle.acks = 0 ∧ t.blocks = s.blocks ∧
      t.files = s.files ∧ t.queue.rx = s.queue.rx := by
  obtain ⟨hcore, he, hacks, hrx⟩ := h.acknowledged hb hd hid ht
  exact ⟨hcore, hacks, by rw [he], by rw [he], hrx⟩

/-- A step of the capture loop: where the listener and the handle are then. -/
theorem capture_effect (hcore : Core cfg id s p) (hplaced : Placed cfg s (p + s.handle.acks))
    (hb : cfg.bufSize ∣ cfg.fileSize) (hd : cfg.bufSize ∣ 2 ^ 32) (hbs : 0 < bs)
    (hid : id ≠ listenerEmpty) (ht : capture cfg bs id s = some t) :
    ∃ p' n, Core cfg id t p' ∧ Placed cfg t (p' + t.handle.acks) ∧ Effect bs s t n ∧
      p' + t.handle.acks = p + s.handle.acks + n ∧ t.queue.rx = s.queue.rx ∧
      released t.queue = released s.queue := by
  obtain ⟨p', hcore', hplaced'⟩ := hcore.placed hb hd hbs hid hplaced ht
  obtain ⟨queue, handle, pc, stop, written, blocks, files⟩ := s
  suffices h : ∃ r n, Core cfg id t r ∧ Effect bs _ t n ∧
      r + t.handle.acks = p + handle.acks + n ∧ t.queue.rx = queue.rx ∧
        released t.queue = released queue by
    obtain ⟨r, n, hr, he, hpos, hrx, hrel⟩ := h
    obtain rfl := core_unique hr hcore'
    exact ⟨r, n, hr, hplaced', he, hpos, hrx, hrel⟩
  cases pc with
  | nextFile =>
    obtain ⟨rfl, -⟩ := hplaced
    by_cases hstop : stop = true
    · obtain rfl := Option.some.inj ((congrArg some (if_pos hstop)).symm.trans ht)
      exact ⟨p, 0, hcore.goto _, .opens rfl rfl rfl rfl fun _ => rfl, rfl, rfl, rfl⟩
    · obtain rfl := Option.some.inj ((congrArg some (if_neg hstop)).symm.trans ht)
      exact ⟨p, 0, ⟨hcore.queue, hcore.listener, hcore.handle, hcore.files⟩,
        .opens rfl rfl rfl rfl fun h => absurd h hstop, rfl, rfl, rfl⟩
  | filling =>
    by_cases hmore : stop = false ∧ written < cfg.fileSize
    · have ht : acknowledge id _ .waiting = some t := (if_pos hmore).symm.trans ht
      obtain ⟨hr, hacks, hblocks, hfiles, hrx⟩ := acknowledge_effect hcore hb hd hid ht
      exact ⟨_, 0, hr, .waits nofun nofun nofun hblocks hfiles, by rw [hacks], hrx,
        released_acknowledge ht⟩
    by_cases hstop : stop = true
    · have ht : acknowledge id _ .lastWaiting = some t :=
        ((if_neg hmore).trans (if_pos hstop)).symm.trans ht
      obtain ⟨hr, hacks, hblocks, hfiles, hrx⟩ := acknowledge_effect hcore hb hd hid ht
      exact ⟨_, 0, hr, .waits nofun nofun nofun hblocks hfiles, by rw [hacks], hrx,
        released_acknowledge ht⟩
    · have ht := ((if_neg hmore).trans (if_neg hstop)).symm.trans ht
      obtain rfl := Option.some.inj ht
      exact ⟨p, 0, hcore.goto _, .waits nofun nofun nofun rfl rfl, rfl, rfl, rfl⟩
  | waiting =>
    have hacks : handle.acks = 0 := hplaced.2
    obtain ⟨hr, he, hacks'⟩ := hcore.looked hd hacks ht
    exact ⟨p, 0, hr, .waits nofun nofun nofun (by rw [he]) (by rw [he]), by rw [hacks', hacks],
      by rw [he], by rw [he]⟩
  | writing =>
    obtain ⟨hfilled, hacks⟩ := hplaced
    by_cases hready : handle.avail ≥ bs
    · have ht : hpcapWriteBlock bs _ _ .filling = some t := (if_pos hready).symm.trans ht
      rw [hacks] at hfilled
      obtain ⟨hr, -⟩ := hcore.writeBlock hd hbs hacks hfilled ht
      obtain ⟨n, he, hq, hn⟩ := writeBlock_effect (by nofun) (by nofun) (by nofun) hacks ht
      exact ⟨p, n, hr, he, by rw [hn, Nat.add_assoc], by rw [hq], by rw [hq]⟩
    · obtain rfl := Option.some.inj ((if_neg hready).symm.trans ht)
      exact ⟨p, 0, hcore.goto _, .waits nofun nofun nofun rfl rfl, rfl, rfl, rfl⟩
  | lastWaiting =>
    have hacks : handle.acks = 0 := hplaced.2.1
    obtain ⟨hr, he, hacks'⟩ := hcore.looked hd hacks ht
    exact ⟨p, 0, hr, .waits nofun nofun nofun (by rw [he]) (by rw [he]), by rw [hacks', hacks],
      by rw [he], by rw [he]⟩
  | lastWriting =>
    obtain ⟨hfilled, hacks, -⟩ := hplaced
    by_cases hready : handle.avail > 0
    · have ht : hpcapWriteBlock bs _ _ .closing = some t := (if_pos hready).symm.trans ht
      rw [hacks] at hfilled
      obtain ⟨hr, -⟩ := hcore.writeBlock hd hbs hacks hfilled ht
      obtain ⟨n, he, hq, hn⟩ := writeBlock_effect (by nofun) (by nofun) (by nofun) hacks ht
      exact ⟨p, n, hr, he, by rw [hn, Nat.add_assoc], by rw [hq], by rw [hq]⟩
    · obtain rfl := Option.some.inj ((if_neg hready).symm.trans ht)
      exact ⟨p, 0, hcore.goto _, .waits nofun nofun nofun rfl rfl, rfl, rfl, rfl⟩
  | closing =>
    obtain ⟨u, hu, rfl⟩ := Option.map_eq_some_iff.mp ht
    obtain ⟨hr, hacks, hblocks, hfiles, hrx⟩ := acknowledge_effect hcore hb hd hid hu
    refine ⟨p + handle.acks, 0, ⟨hr.queue, hr.listener, hr.handle, hcore'.files⟩,
      .closes rfl (acknowledge_pc hu).1 rfl rfl, ?_, hrx, released_acknowledge hu⟩
    exact congrArg _ hacks
  | exited => cases ht

theorem look_stop {expect : Nat} {pc : Capture.Pc} (ht : look id expect s pc = some t) :
    t.stop = s.stop := by
  obtain ⟨slot, -, rfl⟩ := Option.map_eq_some_iff.mp ht
  rfl

theorem writeBlock_stop {maxBytes : Nat} {pc : Capture.Pc}
    (ht : hpcapWriteBlock bs maxBytes s pc = some t) : t.stop = s.stop := by
  rw [hpcapWriteBlock] at ht
  split at ht
  · obtain rfl := Option.some.inj ht
    rfl
  · obtain ⟨-, ht⟩ := Option.ite_none_left_eq_some.mp ht
    obtain rfl := Option.some.inj ht
    rfl

theorem capture_stop (ht : capture cfg bs id s = some t) : t.stop = s.stop := by
  unfold capture at ht
  split at ht
  · obtain rfl := Option.some.inj ht
    split <;> rfl
  · split at ht
    · exact (acknowledge_pc ht).2
    · split at ht
      · exact (acknowledge_pc ht).2
      · obtain rfl := Option.some.inj ht
        rfl
  · exact look_stop ht
  · split at ht
    · exact writeBlock_stop ht
    · obtain rfl := Option.some.inj ht
      rfl
  · exact look_stop ht
  · split at ht
    · exact writeBlock_stop ht
    · obtain rfl := Option.some.inj ht
      rfl
  · obtain ⟨u, hu, rfl⟩ := Option.map_eq_some_iff.mp ht
    exact (acknowledge_pc hu).2
  · cases ht

end Step

/-- From stream position `j` on the bytes are those the log puts there, where it puts any. -/
def Copied (cfg : Config) (j : Nat) (es : List Entry) (bytes : List UInt8) : Prop :=
  ∀ i b, ink (layout cfg) es (j + i) = some b → ∀ hi : i < bytes.length, bytes[i] = b

/-- All closed files are complete, but for one that was closed to stop. -/
def Complete (cfg : Config) (s : Capture.State) : Prop :=
  (∀ f ∈ s.files, size f = cfg.fileSize) ∨
    s.stop = true ∧ (s.pc = .nextFile ∨ s.pc = .exited) ∧
      ∃ fs f, s.files = fs ++ [f] ∧ ∀ g ∈ fs, size g = cfg.fileSize

/-- What is on the disk when the handle has taken the stream from `j` up to `pos`. -/
structure Saved (cfg : Config) (q : Poll.State) (j pos : Nat) (s : State) : Prop where
  file : s.disk.file.length = size s.proc.blocks
  closed : s.disk.closed.map List.length = s.proc.files.map size
  upTo : j + s.disk.content.length = pos
  complete : Complete cfg s.proc
  log : Sound cfg s.proc.queue.rx.trace → ∃ es₀ es, Kept cfg (released q) q.rx es₀ ∧ es₀ <+: es ∧
    Kept cfg (released s.proc.queue) s.proc.queue.rx es ∧ Copied cfg j es s.disk.content

/-- The files are those of `hpcapdd`, wherever the loop is. -/
def Inv (cfg : Config) (id : Int) (q : Poll.State) (j : Nat) (s : State) : Prop :=
  ∃ p, Core cfg id s.proc p ∧ Placed cfg s.proc (p + s.proc.handle.acks) ∧
    Saved cfg q j (p + s.proc.handle.acks) s

section Run

variable {cfg : Config} {q : Poll.State} {j pos n : Nat} {s : State} {t : Capture.State}

theorem Copied.mono {es es' : List Entry} {bytes : List UInt8} (h : Copied cfg j es bytes)
    (hle : j + bytes.length ≤ total (layout cfg) es) (hp : es <+: es') :
    Copied cfg j es' bytes := by
  obtain ⟨more, rfl⟩ := hp
  intro i b hb hi
  rw [ink_append_of_lt _ _ (by omega)] at hb
  exact h i b hb hi

theorem Copied.append {es : List Entry} {bytes more : List UInt8} (h : Copied cfg j es bytes)
    (hmore : Copied cfg (j + bytes.length) es more) : Copied cfg j es (bytes ++ more) := by
  intro i b hb hi
  by_cases hlt : i < bytes.length
  · rw [List.getElem_append_left hlt]
    exact h i b hb hlt
  · obtain ⟨k, rfl⟩ := Nat.exists_eq_add_of_le (Nat.not_lt.mp hlt)
    rw [← Nat.add_assoc] at hb
    rw [List.getElem_append_right (Nat.le_add_right _ _)]
    have hk := hmore k b hb (by rw [List.length_append] at hi; omega)
    simpa using hk

/-- Bytes of the buffer from where the log is kept on. -/
theorem Copied.ring {lo : Nat} {x : Rx.State} {es : List Entry} (h : Recorded cfg lo x es)
    (hj : lo ≤ j) : Copied cfg j es (Patch.ring x.dstBuf cfg.bufSize j n) := by
  intro i b hb hi
  rw [ring_getElem]
  exact h.shown _ b (by omega) hb

theorem content_close (d : Disk) : Disk.content ⟨[], d.closed ++ [d.file]⟩ = d.content := by
  simp [Disk.content]

theorem content_write (d : Disk) (bytes : List UInt8) :
    Disk.content { d with file := d.file ++ bytes } = d.content ++ bytes := by
  simp [Disk.content]

theorem disk_of_ne {s t : Capture.State} {d : Disk} (hpc : s.pc ≠ .nextFile)
    (hpc' : s.pc ≠ .closing) : disk s t d =
      { d with file := d.file ++ (t.blocks.drop s.blocks.length).flatMap (blockBytes s) } := by
  unfold disk
  split
  · rename_i h
    exact absurd h hpc
  · rename_i h
    exact absurd h hpc'
  · rfl

theorem Complete.keep {s t : Capture.State} (h : Complete cfg s) (hfiles : t.files = s.files)
    (hpc : s.pc ≠ .nextFile) (hpc' : s.pc ≠ .exited) : Complete cfg t := by
  obtain h | ⟨-, h, -⟩ := h
  · exact .inl (hfiles ▸ h)
  · exact absurd h (not_or.mpr ⟨hpc, hpc'⟩)

/-- What a step of the capture loop leaves on the disk. -/
theorem Saved.effect {bs p : Nat} {id : Int} (h : Saved cfg q j (p + s.proc.handle.acks) s)
    (hcore : Core cfg id s.proc p) (hplaced : Placed cfg s.proc (p + s.proc.handle.acks))
    (hid : id ≠ listenerEmpty) (hbs : 0 < bs) (he : Effect bs s.proc t n)
    (hstop : t.stop = s.proc.stop) (hrx : t.queue.rx = s.proc.queue.rx)
    (hrel : released t.queue = released s.proc.queue) :
    Saved cfg q j (p + s.proc.handle.acks + n) ⟨t, disk s.proc t s.disk⟩ := by
  have hlog : Sound cfg t.queue.rx.trace → ∃ es₀ es, Kept cfg (released q) q.rx es₀ ∧ es₀ <+: es ∧
      Kept cfg (released t.queue) t.queue.rx es ∧ Copied cfg j es s.disk.content := by
    rw [hrx, hrel]
    exact h.log
  obtain ⟨proc, d⟩ := s
  cases he with
  | opens hpc hempty hblocks hfiles hexit =>
    have hfile : d.file = [] := by
      have hlen := h.file
      dsimp only at hlen
      rw [hempty] at hlen
      exact List.length_eq_zero_iff.mp hlen
    have hdisk : disk proc t d = d := by
      rw [disk, hpc]
      exact congrArg (Disk.mk · _) hfile.symm
    refine ⟨?_, ?_, ?_, ?_, ?_⟩ <;> dsimp only
    · rw [hdisk, hblocks, hfile]
      rfl
    · rw [hdisk, hfiles]
      exact h.closed
    · rw [hdisk]
      exact h.upTo
    · obtain hall | ⟨hs, -, hlast⟩ := h.complete
      · exact .inl (hfiles ▸ hall)
      · exact .inr ⟨hstop.trans hs, .inr (hexit hs), hfiles ▸ hlast⟩
    · rw [hdisk]
      exact hlog
  | closes hpc hpc' hblocks hfiles =>
    have hdisk : disk proc t d = ⟨[], d.closed ++ [d.file]⟩ := by
      rw [disk, hpc]
    refine ⟨?_, ?_, ?_, ?_, ?_⟩ <;> dsimp only
    · rw [hdisk, hblocks]
      rfl
    · have hclosed := h.closed
      have hfile := h.file
      dsimp only at hclosed hfile
      rw [hdisk, hfiles, List.map_append, List.map_append, hclosed, List.map_singleton,
        List.map_singleton, hfile]
    · rw [hdisk, content_close]
      exact h.upTo
    · have hall : ∀ f ∈ proc.files, size f = cfg.fileSize := by
        obtain hall | ⟨-, hpc'' | hpc'', -⟩ := h.complete
        · exact hall
        · cases hpc.symm.trans hpc''
        · cases hpc.symm.trans hpc''
      dsimp only at hplaced
      rw [Capture.Placed, hpc] at hplaced
      obtain ⟨⟨b, -, -, -, hsize, -⟩, hs | hw⟩ := hplaced
      · exact .inr ⟨hstop.trans hs, .inl hpc', proc.files, proc.blocks, hfiles, hall⟩
      · refine .inl fun f hf => ?_
        rw [hfiles] at hf
        obtain hf | hf := List.mem_append.mp hf
        · exact hall f hf
        · obtain rfl := List.mem_singleton.mp hf
          exact hsize.trans hw
    · rw [hdisk, content_close]
      exact hlog
  | waits hpc hpc' hpc'' hblocks hfiles =>
    have hdisk : disk proc t d = d := by
      rw [disk_of_ne hpc hpc', hblocks, List.drop_length, List.flatMap_nil, List.append_nil]
    refine ⟨?_, ?_, ?_, ?_, ?_⟩ <;> dsimp only
    · rw [hdisk, hblocks]
      exact h.file
    · rw [hdisk, hfiles]
      exact h.closed
    · rw [hdisk]
      exact h.upTo
    · exact h.complete.keep hfiles hpc hpc''
    · rw [hdisk]
      exact hlog
  | writes hpc hpc' hpc'' hready hacks hblocks hfiles =>
    have hrdoff := hcore.handle.rdoff (by omega)
    have hbytes : blockBytes proc ⟨proc.handle.rdoff, n, proc.queue.rx.trace.reserved⟩ =
        Patch.ring proc.queue.rx.dstBuf cfg.bufSize p n := by
      dsimp only at hrdoff
      rw [blockBytes, hrdoff, hcore.handle.bufSize, hacks, Nat.add_zero, ring_mod]
    have hdisk : disk proc t d =
        { d with file := d.file ++ Patch.ring proc.queue.rx.dstBuf cfg.bufSize p n } := by
      rw [disk_of_ne hpc hpc', hblocks, List.drop_left, List.flatMap_cons, List.flatMap_nil,
        List.append_nil, hbytes]
    have hupTo := h.upTo
    dsimp only at hacks hupTo
    rw [hacks, Nat.add_zero] at hupTo
    refine ⟨?_, ?_, ?_, ?_, fun hsound => ?_⟩ <;> dsimp only
    · have hfile := h.file
      dsimp only at hfile
      rw [hdisk, hblocks, List.length_append, ring_length, hfile]
      simp [size]
    · rw [hdisk, hfiles]
      exact h.closed
    · rw [hdisk, content_write, List.length_append, ring_length, hacks, ← hupTo]
      omega
    · exact h.complete.keep hfiles hpc hpc''
    · obtain ⟨es₀, es, h₀, hpre, hk, hcopied⟩ := hlog hsound
      refine ⟨es₀, es, h₀, hpre, hk, ?_⟩
      rw [hdisk, content_write]
      refine hcopied.append ?_
      rw [hupTo, ← hrx]
      exact Copied.ring hk.toRecorded (hrel ▸ (registered hcore hid).2)

/-- What is done elsewhere leaves the disk as it is. -/
theorem Saved.op {p : Nat} {id : Int} {a : Poll.Op} {r : Poll.State}
    (h : Saved cfg q j (p + s.proc.handle.acks) s) (hcore : Core cfg id s.proc p)
    (hb : cfg.bufSize ∣ cfg.fileSize) (hd : cfg.bufSize ∣ 2 ^ 32) (hid : id ≠ listenerEmpty)
    (ha : Opening.Received s.proc.queue a) (hs : Poll.step cfg s.proc.queue a = some r) :
    Saved cfg q j (p + s.proc.handle.acks) ⟨{ s.proc with queue := r }, s.disk⟩ := by
  refine ⟨h.file, h.closed, h.upTo, h.complete, fun hsound => ?_⟩
  have hgo : ¬ Restarts s.proc.queue a := by
    have hcount := (registered hcore hid).1
    cases a with
    | poll frames => exact hcount
    | add id | del id | pop id count | ack id count => exact not_false
  obtain ⟨es₀, es, h₀, hpre, hk, hcopied⟩ := h.log (step_sound hgo hs hsound)
  obtain ⟨es', hk', hgrow⟩ := step_kept hb hd hcore.queue.queue (fun _ => hk) ha hs hsound
  refine ⟨es₀, es', h₀, hpre.trans (hgrow hgo), hk', hcopied.mono ?_ (hgrow hgo)⟩
  rw [h.upTo, hk.total_eq]
  exact hcore.acks_le

theorem Inv.step {bs : Nat} {id : Int} {t : State} {a : Capture.Step}
    (hb : cfg.bufSize ∣ cfg.fileSize) (hd : cfg.bufSize ∣ 2 ^ 32) (hbs : 0 < bs)
    (hid : id ≠ listenerEmpty) (h : Inv cfg id q j s) (ha : Received s a)
    (hs : Files.step cfg bs id s a = some t) : Inv cfg id q j t := by
  obtain ⟨p, hcore, hp, hsaved⟩ := h
  cases a with
  | capture =>
    obtain ⟨u, hu, rfl⟩ := Option.map_eq_some_iff.mp hs
    obtain ⟨p', n, hcore', hp', he, hpos, hrx, hrel⟩ := capture_effect hcore hp hb hd hbs hid hu
    refine ⟨p', hcore', hp', ?_⟩
    rw [hpos]
    exact hsaved.effect hcore hp hid hbs he (capture_stop hu) hrx hrel
  | stop =>
    obtain rfl := Option.some.inj hs
    have hinv : Capture.Inv cfg id s.proc := ⟨p, hcore, hp⟩
    have hstop : Capture.step cfg bs id s.proc .stop = some { s.proc with stop := true } := rfl
    obtain ⟨p', hcore', hp'⟩ := hinv.step hb hd hbs hid ha hstop
    obtain ⟨i, l, hl, hrd⟩ := hcore.listener
    obtain rfl := core_position hcore' hl hrd
    refine ⟨p, hcore', hp', hsaved.file, hsaved.closed, hsaved.upTo, ?_, hsaved.log⟩
    exact hsaved.complete.imp_right fun hlast => ⟨rfl, hlast.2⟩
  | op a =>
    obtain ⟨u, hu, rfl⟩ := Option.map_eq_some_iff.mp hs
    have hinv : Capture.Inv cfg id s.proc := ⟨p, hcore, hp⟩
    obtain ⟨p', hcore', hp'⟩ := hinv.step hb hd hbs hid ha hu
    obtain ⟨helse, hu⟩ := Option.ite_none_right_eq_some.mp hu
    obtain ⟨r, hr, rfl⟩ := Option.map_eq_some_iff.mp hu
    obtain ⟨i, l, hl, hrd⟩ := hcore.listener
    obtain ⟨m, hm, hrm, -⟩ := hrd.step hd hcore.queue.queue hid hl helse hr
    obtain rfl := core_position hcore' hm hrm
    exact ⟨p, hcore', hp', hsaved.op hcore hb hd hid ha hr⟩

/-- The device is opened at a file boundary of the stream. -/
theorem start_inv {id : Int} (hb : cfg.bufSize ∣ cfg.fileSize) (hd : cfg.bufSize ∣ 2 ^ 32)
    (h : Intact.Inv cfg q) (hopen : Opening.Inv cfg q) (hid : id ≠ listenerEmpty)
    (hnew : hpcapGetListener q.lstnr id = none) (hslot : (joinSlot q.lstnr id).isSome)
    (hfile : cfg.fileSize ∣ joinPos q) :
    ∃ j, cfg.fileSize ∣ j ∧ j ≤ q.rx.trace.reserved ∧ Inv cfg id q j (start cfg q id) := by
  obtain ⟨p, hcore, hp⟩ := Capture.opened_inv hb hd hopen hid hnew hslot hfile
  obtain ⟨-, l, -, hr⟩ := hcore.listener
  refine ⟨p, hp.2.resolve_left Bool.false_ne_true, hr.le, p, hcore, hp, rfl, rfl, rfl,
    .inl fun f hf => absurd hf List.not_mem_nil, fun hsound => ?_⟩
  obtain ⟨es, hes⟩ := h.log hsound
  have hstep : Poll.step cfg q (.add id) =
      some { q with lstnr := (hpcapAddListener q.lstnr id).1 } := if_pos ⟨hid, hnew⟩
  obtain ⟨es', hk, hgrow⟩ := step_kept hb hd h.queue (fun _ => hes)
    (show Opening.Received q (.add id) from trivial) hstep hsound
  exact ⟨es, es', hes, hgrow not_false, hk, fun i b _ hi => absurd hi (Nat.not_lt_zero i)⟩

end Run

end Hpcap.Files
