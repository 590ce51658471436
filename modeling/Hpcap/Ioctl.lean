import Hpcap.Killwait
import Hpcap.Lstop

namespace Hpcap.Ioctl

open Hpcap.Listeners Hpcap.Registry Hpcap.Transition Hpcap.Device
open Hpcap.Killwait (hpcapKillallListeners hpcapIoctlKillWait)
open Hpcap.Read (efault)
open Hpcap.Client (ListenerOp)

abbrev enotty : Int := 25

/-- A command, with its argument and how many bytes the copies from and to the user leave out.
What the commands on the buffer's memory do to the listeners is given. -/
inductive Cmd
  | lstop (lstop : ListenerOp) (fromUser toUser : Nat)
  | offsets (fromUser toUser : Nat)
  | killWait
  | bufInfo (fromUser toUser : Nat)
  | hugeMap (fromUser : Nat) (use : Table → Table × Int) (toUser : Nat)
  | hugeUnmap (release : Table → Table × Int)
  | statusInfo (fromUser toUser : Nat)
  | bufCheck (check : Int)
  | killLst (id : Int) (closes : Bool)
  | unknown

/-- A command that copies its argument in, does something, and copies it back. -/
def copied (s : State) (fromUser toUser : Nat) (r : State × Int) : State × Int :=
  if 0 < fromUser then (s, -efault) else if 0 < toUser then (r.1, -efault) else r

/-- What an `LSTOP` acknowledges. -/
def acknowledged (s : State) (handleId : Int) (ackBytes : Nat) : State :=
  if 0 < ackBytes then
    { s with lstnr := popHandle { s.lstnr with alreadyPopped := true } handleId ackBytes }
  else s

/-- What is done with a result that concerns the listeners. -/
def onTable (s : State) (r : Table × Int) : State × Int := ({ s with lstnr := r.1 }, r.2)

/-- The switch of `hpcap_ioctl`. -/
def switch (s : State) (handleId : Int) : Cmd → Option (State × Int)
  | .lstop op fromUser toUser =>
    some (copied s fromUser toUser (acknowledged s handleId op.ackBytes, 0))
  | .offsets fromUser toUser | .bufInfo fromUser toUser | .statusInfo fromUser toUser =>
    some (copied s fromUser toUser (s, 0))
  | .killWait => some ({ s with lstnr := hpcapKillallListeners s.lstnr }, 0)
  | .hugeMap fromUser use toUser => some (copied s fromUser toUser (onTable s (use s.lstnr)))
  | .hugeUnmap release => some (onTable s (release s.lstnr))
  | .bufCheck check => some (s, if check < 0 then -einval else 0)
  | .killLst id closes => hpcapKillListener s id closes
  | .unknown => some (s, -enotty)

/-- `hpcap_ioctl` on the file `f`. -/
def hpcapIoctl (s : State) (f : Nat) (cmd : Cmd) : Option (State × Int) :=
  (fileInfo s f).bind fun info =>
    match ioctlError s info.handleId with
    | some e => some (s, e)
    | none => switch s info.handleId cmd

theorem hpcapIoctl_killLst (s : State) (caller : Nat) (id : Int) (closes : Bool) :
    hpcapIoctl s caller (.killLst id closes) = hpcapIoctlKillLst s caller id closes := rfl

theorem hpcapIoctl_killWait (s : State) (caller : Nat) :
    hpcapIoctl s caller .killWait = hpcapIoctlKillWait s caller := by
  rw [hpcapIoctl, hpcapIoctlKillWait]
  cases fileInfo s caller with
  | none => rfl
  | some info =>
    rw [Option.bind_some, Option.map_some]
    cases ioctlError s info.handleId with
    | none => rfl
    | some e => rfl

/-- An ioctl of a killed handle fails with `-EBADF` and leaves everything as it is. -/
def Silenced (s : State) : Prop :=
  ∀ (f : Nat) (info : File), fileInfo s f = some info → info.killed = true →
    ∀ cmd, hpcapIoctl s f cmd = some (s, -ebadf)

/-- The id of each killed handle is recorded. -/
def KilledRecorded (s : State) : Prop :=
  ∀ (f : Nat) (info : File), fileInfo s f = some info → info.killed = true →
    info.handleId ∈ s.forceKilled

/-- A kill is refused or finds no listener, or there is room for the id, or it is recorded
already. -/
def Recorded (s : State) : Op → Prop
  | .openFile _ | .release _ => True
  | .kill caller id _ => s.forceKilled.length < maxForceKilledListeners ∨ id ∈ s.forceKilled ∨
      hpcapGetListener s.lstnr id = none ∨
        ∀ info ∈ fileInfo s caller, (ioctlError s info.handleId).isSome

instance (s : State) : DecidablePred (Recorded s)
  | .openFile _ | .release _ => instDecidableTrue
  | .kill _ _ _ => inferInstanceAs (Decidable (_ ∨ _))

section Recorded

variable {s t : State}

theorem hpcapIoctl_recorded {f : Nat} {info : File} (hinfo : fileInfo s f = some info)
    (h : info.handleId ∈ s.forceKilled) (cmd : Cmd) :
    hpcapIoctl s f cmd = some (s, -ebadf) := by
  have herror : ioctlError s info.handleId = some (-ebadf) := if_pos h
  rw [hpcapIoctl, hinfo, Option.bind_some, herror]

/-- Where its id is not recorded, a handle gets another error. -/
theorem hpcapIoctl_unknown {f : Nat} {info : File} (hinfo : fileInfo s f = some info)
    (h : info.handleId ∉ s.forceKilled) :
    hpcapIoctl s f .unknown = some (s, -einval) ∨ hpcapIoctl s f .unknown = some (s, -enotty) := by
  rw [hpcapIoctl, hinfo, Option.bind_some, ioctlError, if_neg h]
  by_cases hl : (hpcapGetListener s.lstnr info.handleId).isNone
  · rw [if_pos hl]
    exact .inl rfl
  · rw [if_neg hl]
    exact .inr rfl

theorem silenced_iff (s : State) : Silenced s ↔ KilledRecorded s := by
  refine ⟨fun h f info hinfo hk => ?_, fun h f info hinfo hk cmd =>
    hpcapIoctl_recorded hinfo (h f info hinfo hk) cmd⟩
  by_contra hno
  have hret := h f info hinfo hk .unknown
  obtain he | he := hpcapIoctl_unknown hinfo hno
  · have hcode : -einval = -ebadf := congrArg Prod.snd (Option.some.inj (he.symm.trans hret))
    exact absurd hcode (by decide)
  · have hcode : -enotty = -ebadf := congrArg Prod.snd (Option.some.inj (he.symm.trans hret))
    exact absurd hcode (by decide)

/-- The same of the files that are closed. -/
def AllRecorded (s : State) : Prop := ∀ f ∈ s.files, f.killed = true → f.handleId ∈ s.forceKilled

theorem AllRecorded.killedRecorded (h : AllRecorded s) : KilledRecorded s := fun _ info hinfo hk =>
  h info (List.mem_of_getElem? (fileInfo_some hinfo)) hk

theorem AllRecorded.opens (h : AllRecorded s) {kmallocOk : Bool} {r : State × Int}
    (hr : hpcapOpen s kmallocOk = some r) : AllRecorded r.1 := by
  by_cases hmax : s.opened + 1 > maxOpened
  · rw [open_refused hmax] at hr
    cases hr
    exact h
  · cases kmallocOk with
    | true =>
      rw [open_true hmax] at hr
      obtain ⟨slot, -, rfl⟩ := Option.map_eq_some_iff.mp hr
      intro f hf hk
      obtain hf | hf := List.mem_append.mp hf
      · exact h f hf hk
      · cases List.mem_singleton.mp hf
        cases hk
    | false =>
      rw [open_false hmax] at hr
      cases hr
      exact h

/-- A file that is closed stays killed, or not. -/
theorem files_release {f : Nat} {r : State × Int} (hr : hpcapRelease s f = some r) :
    r.1.forceKilled = s.forceKilled ∧
      ∀ g ∈ r.1.files, ∃ g' ∈ s.files, g'.handleId = g.handleId ∧ g'.killed = g.killed := by
  obtain ⟨info, hinfo, rfl⟩ := Option.map_eq_some_iff.mp hr
  refine ⟨rfl, fun g hg => ?_⟩
  obtain hg | rfl := List.mem_or_eq_of_mem_set hg
  · exact ⟨g, hg, rfl, rfl⟩
  · exact ⟨info, List.mem_of_getElem? (fileInfo_some hinfo), rfl, rfl⟩

theorem AllRecorded.release (h : AllRecorded s) {f : Nat} {r : State × Int}
    (hr : hpcapRelease s f = some r) : AllRecorded r.1 := by
  obtain ⟨hforce, hfiles⟩ := files_release hr
  intro g hg hk
  obtain ⟨g', hg', hid, hk'⟩ := hfiles g hg
  rw [hforce, ← hid]
  exact h g' hg' (hk'.trans hk)

theorem mem_addForceKilled {id : Int}
    (h : s.forceKilled.length < maxForceKilledListeners ∨ id ∈ s.forceKilled) :
    id ∈ (addForceKilled s id).forceKilled ∧
      ∀ x ∈ s.forceKilled, x ∈ (addForceKilled s id).forceKilled := by
  rw [addForceKilled]
  by_cases hroom : s.forceKilled.length < maxForceKilledListeners
  · rw [if_pos hroom]
    exact ⟨List.mem_append_right _ List.mem_cons_self, fun x hx => List.mem_append_left _ hx⟩
  · rw [if_neg hroom]
    exact ⟨h.resolve_left hroom, fun x hx => hx⟩

@[simp] theorem addForceKilled_files (s : State) (id : Int) :
    (addForceKilled s id).files = s.files := by
  rw [addForceKilled]
  split <;> rfl

/-- All that is killed before and the handle itself. -/
theorem AllRecorded.kill (h : AllRecorded s) {id : Int} {closes : Bool} {r : State × Int}
    (hroom : s.forceKilled.length < maxForceKilledListeners ∨ id ∈ s.forceKilled ∨
      hpcapGetListener s.lstnr id = none)
    (hr : hpcapKillListener s id closes = some r) : AllRecorded r.1 := by
  obtain hsame | ⟨i, l, u, hg, hu, hkilled⟩ := kill_cases hr
  · rwa [hsame]
  have hlid : l.id = id := of_decide_eq_true (findSlot_some hg).2
  have hroom : s.forceKilled.length < maxForceKilledListeners ∨ id ∈ s.forceKilled := by
    obtain hlt | hin | hno := hroom
    · exact .inl hlt
    · exact .inr hin
    · rw [hg] at hno
      cases hno
  -- closing the file changes neither ids nor marks
  have hfiles : u.forceKilled = s.forceKilled ∧ ∀ g ∈ u.files, ∃ g' ∈ (markKilled s i l).files,
      g'.handleId = g.handleId ∧ g'.killed = g.killed := by
    obtain ⟨-, rfl⟩ | ⟨-, f, -, hrelease⟩ := filpClose_cases hu
    · exact ⟨rfl, fun g hg => ⟨g, hg, rfl, rfl⟩⟩
    · obtain ⟨hforce, hfiles⟩ := files_release hrelease
      exact ⟨hforce, hfiles⟩
  obtain ⟨hforce, hfiles⟩ := hfiles
  rw [← hforce] at hroom
  obtain ⟨hself, hold⟩ := mem_addForceKilled hroom
  intro g hg hk
  rw [hkilled] at hg ⊢
  change g ∈ (addForceKilled u id).files at hg
  change g.handleId ∈ (addForceKilled u id).forceKilled
  rw [addForceKilled_files] at hg
  obtain ⟨g', hg', hgid, hgk⟩ := hfiles g hg
  obtain ⟨f, hf, rfl⟩ := List.mem_map.mp hg'
  by_cases hmarked : f.handleId = l.id
  · rw [if_pos hmarked] at hgid
    rw [← hgid]
    change f.handleId ∈ _
    rw [hmarked, hlid]
    exact hself
  · rw [if_neg hmarked] at hgid hgk
    rw [← hgid]
    apply hold
    rw [hforce]
    exact h f hf (hgk.trans hk)

theorem AllRecorded.step (h : AllRecorded s) {a : Op} (ha : Recorded s a)
    (hs : step s a = some t) : AllRecorded t := by
  cases a with
  | openFile kmallocOk =>
    obtain ⟨r, hr, rfl⟩ := Option.map_eq_some_iff.mp hs
    exact h.opens hr
  | release f =>
    obtain ⟨r, hr, rfl⟩ := Option.map_eq_some_iff.mp hs
    exact h.release hr
  | kill caller id closes =>
    obtain ⟨r, hr, rfl⟩ := Option.map_eq_some_iff.mp hs
    obtain hsame | ⟨info, hinfo, he, hr⟩ := ioctlKillLst_cases hr
    · rwa [hsame]
    · refine h.kill ?_ hr
      obtain hlt | hin | hno | hrefused := ha
      · exact .inl hlt
      · exact .inr (.inl hin)
      · exact .inr (.inr hno)
      · have hsome := hrefused info hinfo
        rw [he] at hsome
        cases hsome

end Recorded

/-- A killed handle gets `-EBADF` just when its id is recorded, and it is when there was room
for it whenever a handle was killed. -/
theorem killed_handle_silenced (s : State) : (Silenced s ↔ KilledRecorded s) ∧
    ∀ bufsize : Nat, Reach step Recorded (fun t => t = init bufsize) s → Silenced s := by
  refine ⟨silenced_iff s, fun bufsize h => (silenced_iff s).mpr ?_⟩
  have hall : AllRecorded s := by
    refine h.invariant AllRecorded ?_ fun _ _ _ hu ha hs => hu.step ha hs
    rintro t rfl
    exact nofun
  exact hall.killedRecorded

theorem killed_handle_silenced_first : ∃ s, run (guard step Recorded) (init 4096)
    [.openFile true, .openFile true, .kill 0 2 false] = some s ∧ s.forceKilled = [2] ∧
      Silenced s := by
  have hrun : (run (guard step Recorded) (init 4096) [.openFile true, .openFile true,
      .kill 0 2 false]).map State.forceKilled = some [2] := by
    decide +kernel
  obtain ⟨s, hs, hforce⟩ := Option.map_eq_some_iff.mp hrun
  exact ⟨s, hs, hforce, (killed_handle_silenced s).2 4096 (.run_guard (.start rfl) hs)⟩

/-- A handle kills twelve others, that are closed, and one more. -/
def thirteenKills : List Op :=
  .openFile true :: ((List.range 12).flatMap fun k => [.openFile true, .kill 0 (k + 2) true]) ++
    [.openFile true, .kill 0 14 false]

/-- The last one gets `-EINVAL`. -/
theorem thirteenth_kill_forgotten : ¬ ∀ (bufsize : Nat) (s : State),
    Reach step Free (fun t => t = init bufsize) s → Silenced s := by
  intro h
  have hrun : (run step (init 4096) thirteenKills).map (fun s =>
      (fileInfo s 13, s.forceKilled)) = some (some ⟨14, true, true⟩,
        [2, 3, 4, 5, 6, 7, 8, 9, 10, 11, 12, 13]) := by
    decide +kernel
  obtain ⟨s, hs, he⟩ := Option.map_eq_some_iff.mp hrun
  obtain ⟨hinfo, hforce⟩ := Prod.mk.inj he
  have hmem := (silenced_iff s).mp (h 4096 s (.run (.start rfl) hs)) 13 _ hinfo rfl
  rw [hforce] at hmem
  exact absurd hmem (by decide)

end Hpcap.Ioctl
