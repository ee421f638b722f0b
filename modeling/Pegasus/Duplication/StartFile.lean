/-
The log file that duplication starts to read at, after `load_from_private_log.cpp`.

A duplication reads the private log from a start decree on. It searches the files back to
the first whose header names a cleanable decree, and takes the latest one such that the
start decree lies between its header and that of the next file, or else the last file.
Which mutations a file holds it knows from these headers only.

- `findLogFileToStart_spec`: which file the two loops select;
- `logged_append`, `logged_garbageCollection`, …: what each event does to the sequence of the
  logged mutations;
- `Anchored`: collections that stay below the confirmed decree leave a header below it, or
  nothing above it;
- `Plog.Kept`: all that the events of a log keep, if opening it forgets no decree;
- `startsRight`: no file before the selected one holds a decree from the start decree on.
-/

import Pegasus.Replica.LearnState

namespace Pegasus.Replica

open List LogFile MutationLog

/-- What the header of a file says of it: where it starts and the highest decree before it. -/
def LogFile.header (f : LogFile) : Int × Int := (f.startOffset, f.previousMaxDecree)

namespace MutationLog

/-! ### The sequence of logged mutations -/

/-- The mutations of a log in the order they were appended: those in the files, the block in flight
included, and the pending ones. -/
def logged (cfg : LogConfig) (s : MutationLog) : List LoggedMutation :=
  s.files.flatMap LogFile.mutations ++ s.pendingMutations cfg

variable {cfg : LogConfig} {s s' : MutationLog} {e : LogEvent} {decree : Int} {size : Nat}
  {issued : List LoggedMutation}

section Logged

theorem place_concat (offset : Int) (pending : List (Int × Nat)) (decree : Int) (size : Nat) :
    ∃ m : LoggedMutation, m.decree = decree ∧ offset ≤ m.offset ∧
      place offset (pending ++ [(decree, size)]) = place offset pending ++ [m] := by
  induction pending generalizing offset with
  | nil => exact ⟨⟨decree, offset⟩, rfl, le_rfl, rfl⟩
  | cons p rest ih =>
    obtain ⟨m, hm, hoffset, heq⟩ := ih (offset + p.2)
    exact ⟨m, hm, by omega, by simp [place, heq]⟩

variable (cfg s)

theorem pendingMutations_eq :
    s.pendingMutations cfg = (blockOf cfg s.globalEndOffset (s.pending.getD [])).mutations := by
  unfold pendingMutations
  cases s.pending <;> rfl

theorem flatMap_mutations_createNewLogFile :
    (s.createNewLogFile cfg).files.flatMap mutations = s.files.flatMap mutations := by
  simp [createNewLogFile, mutations]

theorem flatMap_mutations_readyToAppend :
    (s.readyToAppend cfg).files.flatMap mutations =
      s.files.flatMap mutations :=
  readyToAppend_induction rfl (flatMap_mutations_createNewLogFile cfg s)

theorem readyToAppend_end_le :
    s.globalEndOffset ≤ (s.readyToAppend cfg).globalEndOffset :=
  readyToAppend_induction le_rfl (by simp [createNewLogFile])

variable {cfg s}

variable (recorded : Recorded cfg s) (hopen : s.isOpened = true)
include recorded hopen

theorem Recorded.flatMap_mutations_writePendingMutations {index : Nat}
    (hcurrent : s.current = some index) (pending : List (Int × Nat)) :
    (s.writePendingMutations cfg index pending).files.flatMap mutations =
      s.files.flatMap mutations ++ (blockOf cfg s.globalEndOffset pending).mutations := by
  obtain ⟨pre, last, hfiles, -, hnew⟩ :=
    (recorded.opened hopen).files_writePendingMutations recorded.ordered hcurrent pending
  rw [hnew, hfiles]
  simp [mutations]

theorem Recorded.logged_append (happend : s.append cfg decree size = some s') :
    ∃ m : LoggedMutation, m.decree = decree ∧ s.globalEndOffset ≤ m.offset ∧
      s'.logged cfg = s.logged cfg ++ [m] := by
  obtain ⟨t, index, rfl, hcurrent, hs'⟩ := append_cases happend
  obtain ⟨hrecorded, hopen'⟩ := recorded.readyToAppend hopen
  have hpending : s.pendingMutations cfg =
      (blockOf cfg (s.readyToAppend cfg).globalEndOffset (s.pending.getD [])).mutations := by
    rw [pendingMutations_eq]
    rcases readyToAppend_cases cfg s with h | ⟨_, h⟩
    · rw [h]
    · rw [h]
      rfl
  have hend := readyToAppend_end_le cfg s
  obtain ⟨m, hm, hoffset, hplace⟩ := place_concat
    ((s.readyToAppend cfg).globalEndOffset + cfg.blockHeaderSize) (s.pending.getD []) decree size
  refine ⟨m, hm, by omega, ?_⟩
  have hblock : (blockOf cfg (s.readyToAppend cfg).globalEndOffset
      (s.pending.getD [] ++ [(decree, size)])).mutations = s.pendingMutations cfg ++ [m] := by
    rw [hpending]
    exact hplace
  rw [logged, logged, append_assoc, ← hblock, ← flatMap_mutations_readyToAppend cfg s]
  rcases hs' with ⟨_, rfl⟩ | ⟨_, rfl⟩
  · rw [hrecorded.flatMap_mutations_writePendingMutations hopen' hcurrent, append_assoc]
    simp [pendingMutations, MutationLog.writePendingMutations]
  · rfl

theorem Recorded.logged_writeCompleted (hcompleted : s.writeCompleted cfg = some s') :
    s'.logged cfg = s.logged cfg := by
  rcases (writeCompleted_cases hcompleted).2 with ⟨_, rfl⟩ | ⟨pending, index, hpending, hcurrent, rfl⟩
  · rfl
  · rw [logged, recorded.flatMap_mutations_writePendingMutations hopen hcurrent]
    simp [logged, pendingMutations, MutationLog.writePendingMutations, hpending]

theorem Recorded.logged_close : (s.close cfg).logged cfg <+: s.logged cfg := by
  rcases close_cases cfg s with hclose | ⟨pending, index, hpending, hcurrent, hclose⟩
  · rw [hclose]
    simp [logged, pendingMutations, MutationLog.initStates]
  · rw [hclose]
    change (s.writePendingMutations cfg index pending).files.flatMap _ ++ [] <+: _
    rw [recorded.flatMap_mutations_writePendingMutations hopen hcurrent]
    simp [logged, pendingMutations, hpending]

omit hopen recorded

theorem flatMap_mutations_loseBlock (s : MutationLog) (torn : Nat) :
    (s.loseBlock torn).flatMap mutations = s.files.flatMap s.onDisk := by
  unfold loseBlock
  split
  · rename_i hidle
    exact flatMap_congr fun f _ => by rw [onDisk_of_ne (by simp [hidle])]
  · rename_i index hwriting
    rw [flatMap_map]
    refine flatMap_congr fun f _ => ?_
    by_cases h : f.index = index
    · simp [mutations, onDisk, hwriting, h]
    · rw [if_neg h, onDisk_of_ne]
      rw [hwriting]
      exact fun heq => h (Option.some.inj heq).symm

theorem InFlight.logged_crash (inFlight : InFlight s issued)
    (recorded : Recorded cfg s) (loss : CrashLoss) :
    (s.crash loss).logged cfg <+: s.logged cfg := by
  set files := if loss.block then s.loseBlock loss.torn else s.files with hfiles
  have hlost : files.flatMap mutations <+: s.files.flatMap mutations := by
    rw [hfiles]
    split
    · obtain ⟨rest, _, heq⟩ := inFlight.flatMap_mutations (List.Subset.refl _)
        (recorded.ordered.pairwise.imp fun h => h.1)
      rw [flatMap_mutations_loseBlock, heq]
      exact prefix_append _ _
    · exact prefix_rfl
  have hheader : (if loss.header then loseHeader files else files).flatMap
      mutations <+: files.flatMap mutations := by
    have hpre : (if loss.header then loseHeader files else files) <+: files := by
      unfold loseHeader
      split
      · split
        · exact dropLast_prefix _
        · exact prefix_rfl
      · exact prefix_rfl
    obtain ⟨rest, hrest⟩ := hpre
    exact ⟨rest.flatMap mutations, by rw [← flatMap_append, hrest]⟩
  have hcrash : (s.crash loss).logged cfg =
      (if loss.header then loseHeader files else files).flatMap
        mutations := append_nil _
  rw [hcrash]
  exact (hheader.trans hlost).trans (prefix_append _ _)

theorem logged_garbageCollection (cfg : LogConfig) (args : GcArgs) (view : GcView)
    (s : MutationLog) :
    s.logged cfg = (gcDeleted cfg args view s).flatMap mutations ++
      (s.garbageCollection cfg args view).logged cfg := by
  rw [logged, ← gcDeleted_append cfg args view s, flatMap_append, append_assoc]
  rfl

theorem logged_openLog {condition : Option Int} (hopenLog : s.openLog cfg condition = some s') :
    s'.logged cfg <+: s.logged cfg := by
  obtain ⟨_, _, rfl⟩ := Option.map_eq_some_iff.mp hopenLog
  change s.files.flatMap _ ++ [] <+: _
  simp [logged]

end Logged

/-! ### Headers -/

section Headers

theorem headers_writePendingMutations (cfg : LogConfig) (index : Nat)
    (pending : List (Int × Nat)) (s : MutationLog) :
    (s.writePendingMutations cfg index pending).files.map header = s.files.map header := by
  change (s.files.map _).map _ = _
  rw [map_map]
  refine map_congr_left fun f _ => ?_
  simp only [Function.comp_apply]
  split <;> rfl

theorem headers_readyToAppend (cfg : LogConfig) (s : MutationLog) :
    (s.readyToAppend cfg).files.map header = s.files.map header ∨
      (s.readyToAppend cfg).files.map header =
        s.files.map header ++ [(s.globalEndOffset, s.maxDecree)] :=
  readyToAppend_induction (.inl rfl) (.inr (by simp [createNewLogFile, header]))

theorem headers_append (happend : s.append cfg decree size = some s') :
    s'.files.map header = (s.readyToAppend cfg).files.map header := by
  obtain ⟨t, index, rfl, _, hs'⟩ := append_cases happend
  rcases hs' with ⟨_, rfl⟩ | ⟨_, rfl⟩
  · exact headers_writePendingMutations cfg index _ _
  · rfl

theorem headers_writeCompleted (hcompleted : s.writeCompleted cfg = some s') :
    s'.files.map header = s.files.map header := by
  rcases (writeCompleted_cases hcompleted).2 with ⟨_, rfl⟩ | ⟨pending, index, _, _, rfl⟩
  · rfl
  · exact headers_writePendingMutations cfg index pending s

theorem headers_close (cfg : LogConfig) (s : MutationLog) :
    (s.close cfg).files.map header = s.files.map header := by
  rcases close_cases cfg s with hclose | ⟨pending, index, _, _, hclose⟩
  · rw [hclose]
    rfl
  · rw [hclose]
    exact headers_writePendingMutations cfg index pending s

/-- A crash takes away the last file at most, and from the others blocks only. -/
theorem crash_files (s : MutationLog) (loss : CrashLoss) :
    ∃ change : LogFile → LogFile,
      (∀ f, (change f).header = f.header ∧ (change f).mutations ⊆ f.mutations) ∧
      ((s.crash loss).files = s.files.map change ∨
        (s.crash loss).files = s.files.dropLast.map change) := by
  have hlost : ∃ change : LogFile → LogFile,
      (∀ f, (change f).header = f.header ∧ (change f).mutations ⊆ f.mutations) ∧
      (if loss.block then s.loseBlock loss.torn else s.files) = s.files.map change := by
    have hid : ∃ change : LogFile → LogFile,
        (∀ f, (change f).header = f.header ∧ (change f).mutations ⊆ f.mutations) ∧
        s.files = s.files.map change :=
      ⟨id, fun f => ⟨rfl, List.Subset.refl _⟩, (map_id _).symm⟩
    split
    · unfold loseBlock
      split
      · exact hid
      · rename_i index hwriting
        refine ⟨loseLastBlock index loss.torn, fun f => ⟨?_, fun m hm => ?_⟩, rfl⟩
        · simp [header]
        · obtain ⟨b, hb, hm⟩ := mem_flatMap.mp hm
          exact mem_flatMap.mpr ⟨b, (blocks_loseLastBlock_sublist index loss.torn f).subset hb, hm⟩
    · exact hid
  obtain ⟨change, hchange, hfiles⟩ := hlost
  refine ⟨change, hchange, ?_⟩
  have hcrash : (s.crash loss).files = if loss.header then
      loseHeader (s.files.map change) else s.files.map change := by
    rw [← hfiles]
    rfl
  rw [hcrash, loseHeader]
  split
  · split
    · exact .inr map_dropLast.symm
    · exact .inl rfl
  · exact .inl rfl

theorem headers_crash (s : MutationLog) (loss : CrashLoss) :
    (s.crash loss).files.map header = s.files.map header ∨
      (s.crash loss).files.map header = (s.files.map header).dropLast := by
  obtain ⟨change, hchange, hfiles⟩ := crash_files s loss
  have hheader : header ∘ change = header := funext fun f => (hchange f).1
  rcases hfiles with h | h
  · exact .inl (by rw [h, map_map, hheader])
  · exact .inr (by rw [h, map_map, hheader, map_dropLast])

end Headers

/-- What holds of a log that is never reset: all offsets are valid ones. -/
structure Nonneg (cfg : LogConfig) (s : MutationLog) : Prop where
  valid_zero : s.validStartOffset = 0
  start_nonneg : ∀ h ∈ s.files.map LogFile.header, 0 ≤ h.1
  logged_nonneg : ∀ m ∈ s.logged cfg, 0 ≤ m.offset
  end_nonneg : s.isOpened = true → 0 ≤ s.globalEndOffset

section Nonneg

theorem writePendingMutations_end_le (cfg : LogConfig) (index : Nat) (pending : List (Int × Nat))
    (s : MutationLog) :
    s.globalEndOffset ≤ (s.writePendingMutations cfg index pending).globalEndOffset := by
  simp [writePendingMutations]

theorem append_end_le (happend : s.append cfg decree size = some s') :
    s.globalEndOffset ≤ s'.globalEndOffset ∧ s'.validStartOffset = s.validStartOffset ∧
      s'.isOpened = s.isOpened := by
  obtain ⟨t, index, rfl, _, hs'⟩ := append_cases happend
  have hready : s.globalEndOffset ≤ (s.readyToAppend cfg).globalEndOffset ∧
      (s.readyToAppend cfg).validStartOffset = s.validStartOffset ∧
      (s.readyToAppend cfg).isOpened = s.isOpened :=
    ⟨readyToAppend_end_le cfg s, readyToAppend_induction ⟨rfl, rfl⟩ ⟨rfl, rfl⟩⟩
  rcases hs' with ⟨_, rfl⟩ | ⟨_, rfl⟩
  · exact ⟨hready.1.trans (writePendingMutations_end_le cfg index _ _), hready.2⟩
  · exact hready

theorem isOpened_step (hkeeps : e.KeepsOpen) (hopen : s.isOpened = true)
    (hstep : step cfg s e = some s') : s'.isOpened = true := by
  cases stepped_of_step hstep with
  | append decree size _ hsize happend => rw [(append_end_le happend).2.2, hopen]
  | writeCompleted _ hcompleted =>
    rcases (writeCompleted_cases hcompleted).2 with ⟨_, rfl⟩ | ⟨_, _, _, _, rfl⟩
    · exact hopen
    · exact hopen
  | hintSwitchFile | demandSwitchFile | onPartitionReset decree | garbageCollection args view =>
    exact hopen
  | close | crash loss | openLog condition => exact hkeeps.elim

theorem Nonneg.mono (nonneg : Nonneg cfg s) (hvalid : s'.validStartOffset = s.validStartOffset)
    (hheaders : s'.files.map header ⊆ s.files.map header)
    (hlogged : s'.logged cfg ⊆ s.logged cfg) (hend : s'.isOpened = true → 0 ≤ s'.globalEndOffset) :
    Nonneg cfg s' :=
  ⟨hvalid.trans nonneg.valid_zero, fun h hh => nonneg.start_nonneg h (hheaders hh),
    fun m hm => nonneg.logged_nonneg m (hlogged hm), hend⟩

theorem Nonneg.step (nonneg : Nonneg cfg s) (recorded : Recorded cfg s)
    (inFlight : InFlight s issued) (hreset : ∀ decree, e ≠ .onPartitionReset decree)
    (hstep : step cfg s e = some s') : Nonneg cfg s' := by
  have hend := nonneg.end_nonneg
  cases stepped_of_step hstep with
  | append decree size hopen hsize happend =>
    obtain ⟨m, _, hoffset, hlogged⟩ := recorded.logged_append hopen happend
    obtain ⟨hle, hvalid, _⟩ := append_end_le happend
    refine ⟨hvalid.trans nonneg.valid_zero, ?_, ?_, fun _ => (hend hopen).trans hle⟩
    · intro h hh
      rw [headers_append happend] at hh
      rcases headers_readyToAppend cfg s with heq | heq
      · exact nonneg.start_nonneg h (heq ▸ hh)
      · rw [heq] at hh
        rcases mem_concat_iff.mp hh with hh | rfl
        · exact nonneg.start_nonneg h hh
        · exact hend hopen
    · intro m' hm'
      rw [hlogged] at hm'
      rcases mem_concat_iff.mp hm' with hm' | rfl
      · exact nonneg.logged_nonneg m' hm'
      · exact (hend hopen).trans hoffset
  | writeCompleted hopen hcompleted =>
    have hlogged : s'.logged cfg ⊆ s.logged cfg :=
      fun _ hm => recorded.logged_writeCompleted hopen hcompleted ▸ hm
    have hheaders : s'.files.map header ⊆ s.files.map header :=
      fun _ hh => headers_writeCompleted hcompleted ▸ hh
    rcases (writeCompleted_cases hcompleted).2 with ⟨_, rfl⟩ | ⟨pending, index, _, _, rfl⟩
    · exact nonneg.mono rfl hheaders hlogged hend
    · exact nonneg.mono rfl hheaders hlogged
        fun _ => (hend hopen).trans (writePendingMutations_end_le cfg index pending s)
  | hintSwitchFile | demandSwitchFile =>
    exact nonneg.mono rfl (List.Subset.refl _) (List.Subset.refl _) hend
  | onPartitionReset decree => exact absurd rfl (hreset decree)
  | garbageCollection args view =>
    refine nonneg.mono rfl ?_ ?_ hend
    · exact map_subset _ (drop_subset _ _)
    · rw [logged_garbageCollection cfg args view s]
      exact subset_append_right _ _
  | close hopen =>
    have hclosed : (s.close cfg).isOpened = false ∧
        (s.close cfg).validStartOffset = s.validStartOffset := by
      rcases close_cases cfg s with hclose | ⟨_, _, _, _, hclose⟩
      · rw [hclose]
        exact ⟨rfl, rfl⟩
      · rw [hclose]
        exact ⟨rfl, rfl⟩
    refine nonneg.mono hclosed.2 (fun _ hh => headers_close cfg s ▸ hh)
      (recorded.logged_close hopen).subset fun h => ?_
    rw [hclosed.1] at h
    cases h
  | crash loss =>
    refine nonneg.mono rfl ?_ (inFlight.logged_crash recorded loss).subset fun h => by cases h
    rcases headers_crash s loss with h | h
    · exact fun _ hh => h ▸ hh
    · rw [h]
      exact dropLast_subset _
  | openLog condition hclosed hlog =>
    have hlogged := (logged_openLog hlog).subset
    obtain ⟨endOffset, hlast, rfl⟩ := Option.map_eq_some_iff.mp hlog
    refine nonneg.mono rfl (List.Subset.refl _) hlogged fun _ => ?_
    change 0 ≤ endOffset
    cases hfiles : s.files.getLast? with
    | none =>
      rw [List.getLast?_eq_none_iff.mp hfiles] at hlast
      cases condition <;> exact (Option.some.inj hlast).le
    | some last =>
      rw [← replayEnd_eq_some hlast ((getLast?_replayedFiles condition s.files).trans hfiles)]
      exact (nonneg.start_nonneg _ (mem_map_of_mem (mem_of_getLast? hfiles))).trans
        (startOffset_le_dataEnd cfg last)

end Nonneg

end MutationLog

end Pegasus.Replica

namespace Pegasus.Duplication

open Replica Replica.MutationLog List TransitionSystem

/-- A private log, its `_cleanable_decree`, and the confirmed decree of a duplication, which the
meta server keeps. -/
structure Plog where
  log : MutationLog := {}
  cleanableDecree : Int := 0
  confirmedDecree : Int := 0

inductive PlogEvent where
  | log (e : LogEvent)
  | setCleanableDecree (decree : Int)
  | confirm (decree : Int)

namespace Plog

/-- One event. `init_states` resets the cleanable decree; the confirmed decree never decreases. -/
def step (cfg : LogConfig) (s : Plog) : PlogEvent → Option Plog
  | .log e => (MutationLog.step cfg s.log e).map fun log =>
      { s with
        log := log
        cleanableDecree := if log.isOpened && s.log.isOpened then s.cleanableDecree else 0 }
  | .setCleanableDecree decree =>
    if s.log.isOpened then some { s with cleanableDecree := decree } else none
  | .confirm decree =>
    if s.confirmedDecree ≤ decree then some { s with confirmedDecree := decree } else none

/-- The loop of `find_log_file_to_start` that opens the files, the latest first: the files it
collects, in the order of their indices. -/
def filesToSearch (cleanableDecree : Int) : List LogFile → List LogFile
  | [] => []
  | f :: older =>
    if f.previousMaxDecree ≤ cleanableDecree then [f]
    else filesToSearch cleanableDecree older ++ [f]

/-- The loop of `find_log_file_to_start` over the collected files, with `_current`. -/
def chooseFile (start : Int) : Option LogFile → List LogFile → Option LogFile
  | current, [] => current
  | current, [f] => some (current.getD f)
  | current, f :: g :: newer =>
    chooseFile start
      (if f.previousMaxDecree < start ∧ start ≤ g.previousMaxDecree then some f else current)
      (g :: newer)

/-- `load_from_private_log::find_log_file_to_start`, if every file can be opened. -/
def findLogFileToStart (s : Plog) (start : Int) : Option LogFile :=
  if s.log.maxDecree ≤ s.cleanableDecree then none
  else chooseFile start none (filesToSearch s.cleanableDecree s.log.files.reverse)

/-- Duplication starts to read at the right file: the files before it hold no decree from `start`
on. -/
def StartsRight (s : Plog) (start : Int) : Prop :=
  ∀ f, s.findLogFileToStart start = some f → f ∈ s.log.files ∧
    ∀ g ∈ s.log.files, g.index < f.index → ∀ m ∈ g.mutations, m.decree < start

/-! ### The two loops -/

variable {start : Int} {current : Option LogFile} {files : List LogFile} {f : LogFile}

theorem chooseFile_mem (hchoose : chooseFile start current files = some f) :
    f ∈ files ∨ current = some f := by
  induction current, files using chooseFile.induct start with
  | case1 current => exact .inr hchoose
  | case2 current g =>
    cases current with
    | none =>
      obtain rfl : g = f := Option.some.inj hchoose
      exact .inl mem_cons_self
    | some c => exact .inr hchoose
  | case3 current g h newer ih =>
    rw [chooseFile] at hchoose
    rcases ih hchoose with hmem | hcurrent
    · exact .inl (mem_cons_of_mem _ hmem)
    · split at hcurrent
      · rw [Option.some.inj hcurrent]
        exact .inl mem_cons_self
      · exact .inr hcurrent

/-- The loop over the collected files selects one whose header is below `start`, unless no header
is. -/
theorem chooseFile_header (hcurrent : ∀ g, current = some g → g.previousMaxDecree < start)
    (hchoose : chooseFile start current files = some f) :
    f.previousMaxDecree < start ∨ current = none ∧ ∀ g ∈ files, start ≤ g.previousMaxDecree := by
  induction current, files using chooseFile.induct start with
  | case1 current => exact .inl (hcurrent f hchoose)
  | case2 current g =>
    cases current with
    | none =>
      obtain rfl : g = f := Option.some.inj hchoose
      by_cases hlt : g.previousMaxDecree < start
      · exact .inl hlt
      · exact .inr ⟨rfl, by simpa using hlt⟩
    | some c => exact .inl (hcurrent f hchoose)
  | case3 current g h newer ih =>
    rw [chooseFile] at hchoose
    by_cases hrange : g.previousMaxDecree < start ∧ start ≤ h.previousMaxDecree
    · rw [if_pos hrange] at hchoose ih
      have hnext := ih (by rintro _ ⟨⟩; exact hrange.1) hchoose
      exact .inl (hnext.resolve_right fun hnone => by simp at hnone)
    · rw [if_neg hrange] at hchoose ih
      refine (ih hcurrent hchoose).imp_right ?_
      rintro ⟨hnone, hall⟩
      refine ⟨hnone, fun k hk => ?_⟩
      rcases mem_cons.mp hk with rfl | hk
      · have hnext := hall h mem_cons_self
        by_contra hlt
        exact hrange ⟨not_le.mp hlt, hnext⟩
      · exact hall k hk

theorem filesToSearch_subset (cleanableDecree : Int) (files : List LogFile) :
    filesToSearch cleanableDecree files ⊆ files := by
  induction files with
  | nil => exact List.Subset.refl _
  | cons f older ih =>
    rw [filesToSearch]
    split
    · simp
    · exact forall_mem_concat (fun g hg => mem_cons_of_mem _ (ih hg)) mem_cons_self

theorem filesToSearch_complete (cleanableDecree : Int) (files : List LogFile) :
    (∃ f ∈ filesToSearch cleanableDecree files, f.previousMaxDecree ≤ cleanableDecree) ∨
      files ⊆ filesToSearch cleanableDecree files := by
  induction files with
  | nil => exact .inr (List.Subset.refl _)
  | cons f older ih =>
    rw [filesToSearch]
    split
    · rename_i hclean
      exact .inl ⟨f, mem_cons_self, hclean⟩
    · refine ih.imp (fun ⟨g, hg, hclean⟩ => ⟨g, mem_append_left _ hg, hclean⟩) ?_
      intro hall g hg
      rcases mem_cons.mp hg with rfl | hg
      · simp
      · exact mem_append_left _ (hall hg)

/-- **The selected file** is one whose header is below `start`, unless no file has such a header. -/
theorem findLogFileToStart_spec {s : Plog} (hclean : s.cleanableDecree < start)
    (hfind : s.findLogFileToStart start = some f) :
    f ∈ s.log.files ∧ (f.previousMaxDecree < start ∨
      ∀ g ∈ s.log.files, start ≤ g.previousMaxDecree) := by
  unfold findLogFileToStart at hfind
  split at hfind
  · cases hfind
  have hmem := (chooseFile_mem hfind).resolve_right (by simp)
  refine ⟨mem_reverse.mp (filesToSearch_subset _ _ hmem), ?_⟩
  refine (chooseFile_header (by simp) hfind).imp_right ?_
  rintro ⟨-, hall⟩ g hg
  rcases filesToSearch_complete s.cleanableDecree s.log.files.reverse with hstop | hsearched
  · obtain ⟨h, hh, hle⟩ := hstop
    have := hall h hh
    omega
  · exact hall g (hsearched (mem_reverse.mpr hg))

theorem findLogFileToStart_mem {s : Plog} (hfind : s.findLogFileToStart start = some f) :
    f ∈ s.log.files := by
  unfold findLogFileToStart at hfind
  split at hfind
  · cases hfind
  have hmem := (chooseFile_mem hfind).resolve_right (by simp)
  exact mem_reverse.mp (filesToSearch_subset _ _ hmem)

/-! ### Collections below the confirmed decree -/

/-- What collections below the confirmed decree leave: a header that names at most this decree, or
no higher decree at all, and then the next file is going to have such a header. -/
def Anchored (confirmed : Int) (s : MutationLog) : Prop :=
  (∃ h ∈ s.files.map LogFile.header, h.2 ≤ confirmed) ∨
    (∀ m ∈ s.files.flatMap LogFile.mutations, m.decree ≤ confirmed) ∧
      (s.isOpened = true → s.current = none ∧ s.maxDecree ≤ confirmed)

variable {cfg : LogConfig}

section Anchored

theorem foldl_max_le {decrees : List Int} {start bound : Int} (hstart : start ≤ bound)
    (hall : ∀ d ∈ decrees, d ≤ bound) : decrees.foldl max start ≤ bound := by
  induction decrees generalizing start with
  | nil => exact hstart
  | cons d rest ih =>
    exact ih (max_le hstart (hall d mem_cons_self)) fun e he => hall e (mem_cons_of_mem _ he)

variable {confirmed : Int} {s s' : MutationLog}

variable (anchored : Anchored confirmed s)
include anchored

theorem Anchored.mono {confirmed' : Int} (hle : confirmed ≤ confirmed') :
    Anchored confirmed' s := by
  refine anchored.imp (fun ⟨h, hh, hdecree⟩ => ⟨h, hh, hdecree.trans hle⟩) ?_
  rintro ⟨hall, hopened⟩
  exact ⟨fun m hm => (hall m hm).trans hle, fun hopen => (hopened hopen).imp_right (·.trans hle)⟩

/-- The same files, or more of them: the header is still there. In a log that has no current file
the highest decree in memory becomes the header of the next one. -/
theorem Anchored.append (hopen : s.isOpened = true) {decree : Int} {size : Nat}
    (happend : s.append cfg decree size = some s') : Anchored confirmed s' := by
  refine .inl ?_
  rw [headers_append happend]
  rcases anchored with ⟨h, hh, hle⟩ | ⟨_, hopened⟩
  · refine ⟨h, ?_, hle⟩
    rcases headers_readyToAppend cfg s with heq | heq
    · rwa [heq]
    · rw [heq]
      exact mem_append_left _ hh
  · obtain ⟨hnone, hmax⟩ := hopened hopen
    obtain ⟨t, index, rfl, hcurrent, _⟩ := append_cases happend
    rcases readyToAppend_cases cfg s with h | ⟨h, _⟩
    · rw [h, hnone] at hcurrent
      cases hcurrent
    · rw [h]
      exact ⟨(s.globalEndOffset, s.maxDecree), by simp [createNewLogFile, LogFile.header], hmax⟩

omit anchored in
theorem covers_zero (nonneg : Nonneg cfg s) {f : LogFile} (hf : f ∈ s.files) {decree : Int}
    (covers : Covers s.validStartOffset decree f) {m : LoggedMutation} (hm : m ∈ f.mutations) :
    m.decree ≤ decree := by
  refine covers m hm ?_
  rw [nonneg.valid_zero]
  exact nonneg.logged_nonneg m (mem_append_left _ (mem_flatMap.mpr ⟨f, hf, hm⟩))

omit anchored in
theorem Anchored.garbageCollection (hheader : 0 < cfg.fileHeaderSize)
    (anchored : Anchored confirmed s) (recorded : Recorded cfg s) (nonneg : Nonneg cfg s)
    (hopen : s.isOpened = true) {args : GcArgs} (hvalid : args.validStartOffset = 0)
    (hclean : args.cleanableDecree ≤ confirmed) (view : GcView) :
    Anchored confirmed (s.garbageCollection cfg args view) := by
  have opened := recorded.opened hopen
  have happend := gcDeleted_append cfg args view s
  cases hdeleted : gcDeleted cfg args view s with
  | nil =>
    have hsame : s.garbageCollection cfg args view = s := by
      simp [MutationLog.garbageCollection, hdeleted]
    rwa [hsame]
  | cons _ _ =>
    unfold gcDeleted at hdeleted happend
    split at hdeleted
    · cases hdeleted
    rename_i hlength
    cases hmark : gcMark cfg args view s.current s.files.reverse s.maxDecree 0 with
    | none => simp [hmark] at hdeleted
    | some mark =>
      simp only [hmark, if_neg hlength] at happend
      obtain ⟨newer, f, older, hfiles, rfl, hcurrent, hdelete⟩ := gcMark_cases hmark
      have hf : f ∈ s.files := mem_reverse.mp (hfiles ▸ by simp)
      have hstart : 0 ≤ f.startOffset := nonneg.start_nonneg _ (mem_map_of_mem hf)
      have hclean' := hdelete.resolve_left (by
        unfold LogFile.endOffset LogFile.dataEnd
        omega)
      cases hlast : newer.getLast? with
      | some g =>
        -- the next file stays, and its header names a cleanable decree
        obtain ⟨newer', rfl⟩ := List.getLast?_eq_some_iff.mp hlast
        have hg : g ∈ s.files := mem_reverse.mp (hfiles ▸ by simp)
        have hlt : f.index < g.index := by
          have hpairwise := pairwise_reverse.mpr recorded.ordered.pairwise
          rw [hfiles, append_assoc] at hpairwise
          exact ((pairwise_cons.mp (pairwise_append.mp hpairwise).2.1).1 f (by simp)).1
        refine .inl ⟨g.header, mem_map_of_mem ?_, ?_⟩
        · rw [← happend] at hg
          refine (mem_append.mp hg).resolve_left fun hmem => ?_
          have := mem_takeWhile_imp (mem_of_mem_take hmem)
          simp only [decide_eq_true_eq] at this
          omega
        · rw [hlast] at hclean'
          exact hclean'.trans hclean
      | none =>
        -- the latest file is marked, so there is no current file
        rw [hlast] at hclean'
        obtain rfl : newer = [] := List.getLast?_eq_none_iff.mp hlast
        have hmax : s.maxDecree ≤ confirmed := le_trans hclean' hclean
        refine .inr ⟨?_, fun _ => ⟨?_, hmax⟩⟩
        · intro m hm
          obtain ⟨g, hg, hm⟩ := mem_flatMap.mp hm
          have hg : g ∈ s.files := mem_of_mem_drop hg
          exact (covers_zero nonneg hg (opened.covered_memory g hg) hm).trans hmax
        · change s.current = none
          cases hcur : s.current with
          | none => rfl
          | some i =>
            obtain ⟨last, hlast', rfl⟩ := opened.current_last i hcur
            have : s.files.getLast? = some f := by
              rw [← List.head?_reverse, hfiles]
              rfl
            rw [this] at hlast'
            cases hlast'
            exact absurd hcur hcurrent

theorem Anchored.crash (recorded : Recorded cfg s) (nonneg : Nonneg cfg s) (loss : CrashLoss) :
    Anchored confirmed (s.crash loss) := by
  obtain ⟨change, hchange, hfiles⟩ := crash_files s loss
  have hkept : ∀ files : List LogFile, (∃ h ∈ files.map LogFile.header, h.2 ≤ confirmed) →
      ∃ h ∈ (files.map change).map LogFile.header, h.2 ≤ confirmed := by
    intro files
    rw [map_map, show LogFile.header ∘ change = LogFile.header from
      funext fun f => (hchange f).1]
    exact id
  have hless : ∀ files : List LogFile,
      (∀ f ∈ files, ∀ m ∈ f.mutations, m.decree ≤ confirmed) →
      ∀ m ∈ (files.map change).flatMap LogFile.mutations, m.decree ≤ confirmed := by
    intro files hall m hm
    obtain ⟨g, hg, hm⟩ := mem_flatMap.mp hm
    obtain ⟨f, hf, rfl⟩ := mem_map.mp hg
    exact hall f hf m ((hchange f).2 hm)
  unfold Anchored
  rcases anchored with hheader | ⟨hall, _⟩
  · rcases hfiles with hfiles | hfiles
    · rw [hfiles]
      exact .inl (hkept s.files hheader)
    · rw [hfiles]
      rcases eq_nil_or_concat' s.files with hnil | ⟨pre, last, hlast⟩
      · simp [hnil] at hheader
      obtain ⟨h, hh, hle⟩ := hheader
      rw [hlast, dropLast_concat]
      rw [hlast, map_append] at hh
      rcases mem_append.mp hh with hh | hh
      · exact .inl (hkept pre ⟨h, hh, hle⟩)
      · obtain rfl : h = last.header := by simpa using hh
        refine .inr ⟨hless pre fun f hf m hm => ?_, fun hopen => by cases hopen⟩
        have hmem : f ∈ s.files := by simp [hlast, hf]
        have hcovered := recorded.covered
        rw [hlast, pairwise_append] at hcovered
        exact (covers_zero nonneg hmem (hcovered.2.2 f hf last (by simp)) hm).trans hle
  · have hall' : ∀ f ∈ s.files, ∀ m ∈ f.mutations, m.decree ≤ confirmed :=
      fun f hf m hm => hall m (mem_flatMap.mpr ⟨f, hf, hm⟩)
    refine .inr ⟨?_, fun hopen => by cases hopen⟩
    rcases hfiles with hfiles | hfiles
    · rw [hfiles]
      exact hless s.files hall'
    · rw [hfiles]
      exact hless _ fun f hf => hall' f (mem_of_mem_dropLast hf)

theorem Anchored.openLog (hconfirmed : 0 ≤ confirmed) {condition : Option Int}
    (hopenLog : s.openLog cfg condition = some s') : Anchored confirmed s' := by
  obtain ⟨_, _, rfl⟩ := Option.map_eq_some_iff.mp hopenLog
  refine anchored.imp_right fun ⟨hall, _⟩ => ⟨hall, fun _ => ⟨rfl, ?_⟩⟩
  refine foldl_max_le hconfirmed fun d hd => ?_
  obtain ⟨m, hm, rfl⟩ := mem_map.mp hd
  obtain ⟨f, hf, hm⟩ := mem_flatMap.mp (mem_filter.mp hm).1
  refine hall m (mem_flatMap.mpr ⟨f, ?_, hm⟩)
  unfold replayedFiles at hf
  split at hf
  · exact hf
  · exact mem_of_mem_drop hf

end Anchored

/-- What a log is asked for: it is never reset, and collections stay below the confirmed decree. -/
def Collects (s : Plog) : PlogEvent → Prop
  | .log (.onPartitionReset _) => False
  | .log (.garbageCollection args _) => args.cleanableDecree ≤ s.confirmedDecree
  | .setCleanableDecree decree => decree ≤ s.confirmedDecree
  | _ => True

def ForgetsNothing (s : Plog) : PlogEvent → Prop
  | .log (.openLog condition) => s.log.ReplayCovers condition
  | _ => True

structure Kept (cfg : LogConfig) (s : Plog) : Prop where
  recorded : Recorded cfg s.log
  inFlight : ∃ issued, InFlight s.log issued
  nonneg : Nonneg cfg s.log
  anchored : Anchored s.confirmedDecree s.log
  cleanable_le : s.cleanableDecree ≤ s.confirmedDecree
  confirmed_nonneg : 0 ≤ s.confirmedDecree

theorem kept_init {confirmed : Int} (hconfirmed : 0 ≤ confirmed) :
    Kept cfg { confirmedDecree := confirmed } where
  recorded := consistent_init.toRecorded
  inFlight := ⟨[], inFlight_of_idle rfl⟩
  nonneg := ⟨rfl, by simp, by simp [logged, pendingMutations], fun h => by cases h⟩
  anchored := .inr ⟨by simp, fun h => by cases h⟩
  cleanable_le := hconfirmed
  confirmed_nonneg := hconfirmed

section Steps

variable {s s' : Plog} {e : LogEvent}

theorem step_log (hstep : step cfg s (.log e) = some s') :
    MutationLog.step cfg s.log e = some s'.log ∧ s'.confirmedDecree = s.confirmedDecree := by
  obtain ⟨log, hlog, rfl⟩ := Option.map_eq_some_iff.mp hstep
  exact ⟨hlog, rfl⟩

theorem Kept.anchored_step (hheader : 0 < cfg.fileHeaderSize) (kept : Kept cfg s)
    {log : MutationLog} (hcollects : s.Collects (.log e))
    (hstep : MutationLog.step cfg s.log e = some log) : Anchored s.confirmedDecree log := by
  have anchored := kept.anchored
  cases MutationLog.stepped_of_step hstep with
  | append decree size hopen hsize happend => exact anchored.append hopen happend
  | writeCompleted hopen hcompleted =>
    rcases (writeCompleted_cases hcompleted).2 with ⟨_, rfl⟩ | ⟨pending, index, _, hcurrent, rfl⟩
    · exact anchored
    · refine .inl ?_
      rw [headers_writePendingMutations]
      refine anchored.resolve_right fun h => ?_
      rw [(h.2 hopen).1] at hcurrent
      cases hcurrent
  | hintSwitchFile hopen | demandSwitchFile hopen =>
    exact anchored.imp_right fun h => ⟨h.1, fun _ => h.2 hopen⟩
  | onPartitionReset decree => exact hcollects.elim
  | garbageCollection args view hopen hvalid =>
    rw [kept.nonneg.valid_zero, or_self] at hvalid
    exact anchored.garbageCollection hheader kept.recorded kept.nonneg hopen hvalid hcollects view
  | close hopen =>
    rcases close_cases cfg s.log with hclose | ⟨pending, index, _, hcurrent, hclose⟩
    · rw [hclose]
      exact anchored.imp_right fun h => ⟨h.1, fun hopen => by cases hopen⟩
    · refine .inl ?_
      rw [headers_close]
      refine anchored.resolve_right fun h => ?_
      rw [(h.2 hopen).1] at hcurrent
      cases hcurrent
  | crash loss => exact anchored.crash kept.recorded kept.nonneg loss
  | openLog condition hclosed hlog => exact anchored.openLog kept.confirmed_nonneg hlog

/-- **One event keeps the log as it is asked for**, if opening it forgets no decree. -/
theorem Kept.step (hheader : 0 < cfg.fileHeaderSize) (kept : Kept cfg s) {e : PlogEvent}
    (hcollects : s.Collects e) (hforgets : s.ForgetsNothing e)
    (hstep : step cfg s e = some s') : Kept cfg s' := by
  cases e with
  | log e =>
    obtain ⟨log, hlog, rfl⟩ := Option.map_eq_some_iff.mp hstep
    obtain ⟨issued, inFlight⟩ := kept.inFlight
    refine ⟨kept.recorded.step hlog ?_, ⟨_, inFlight.step kept.recorded hlog⟩,
      kept.nonneg.step kept.recorded inFlight ?_ hlog, kept.anchored_step hheader hcollects hlog,
      ?_, kept.confirmed_nonneg⟩
    · rintro condition rfl
      exact hforgets
    · rintro decree rfl
      exact hcollects
    · change (if _ then _ else _) ≤ _
      split
      · exact kept.cleanable_le
      · exact kept.confirmed_nonneg
  | setCleanableDecree decree =>
    obtain ⟨-, rfl⟩ := of_guard hstep
    exact ⟨kept.recorded, kept.inFlight, kept.nonneg, kept.anchored, hcollects,
      kept.confirmed_nonneg⟩
  | confirm decree =>
    obtain ⟨hle, rfl⟩ := of_guard hstep
    exact ⟨kept.recorded, kept.inFlight, kept.nonneg, kept.anchored.mono hle,
      kept.cleanable_le.trans hle, kept.confirmed_nonneg.trans hle⟩

/-- **Duplication starts to read at the right file**: for a start decree above the confirmed one, or
one that some header is below. -/
theorem Kept.startsRight (kept : Kept cfg s) {start : Int} (hclean : s.cleanableDecree < start)
    (hstart : s.confirmedDecree < start ∨ ∃ f ∈ s.log.files, f.previousMaxDecree < start) :
    s.StartsRight start := by
  intro f hfind
  obtain ⟨hf, hspec⟩ := findLogFileToStart_spec hclean hfind
  refine ⟨hf, fun g hg hlt m hm => ?_⟩
  rcases hspec with hheader | hnone
  · -- the header covers the files before
    have hpairwise := kept.recorded.ordered.pairwise.and kept.recorded.covered
    obtain ⟨before, after, hfiles⟩ := append_of_mem hf
    rw [hfiles] at hg hpairwise
    have hbefore : g ∈ before := by
      rcases mem_append.mp hg with hg | hg
      · exact hg
      · rcases mem_cons.mp hg with rfl | hg
        · omega
        · have := ((pairwise_cons.mp (pairwise_append.mp hpairwise).2.1).1 g hg).1.1
          omega
    have hcovers := ((pairwise_append.mp hpairwise).2.2 g hbefore f mem_cons_self).2
    have hmem : g ∈ s.log.files := by simp [hfiles, hbefore]
    exact (covers_zero kept.nonneg hmem hcovers hm).trans_lt hheader
  · rcases hstart with hconfirmed | ⟨h, hh, hlt⟩
    · rcases kept.anchored with ⟨h, hh, hle⟩ | ⟨hall, _⟩
      · obtain ⟨k, hk, rfl⟩ := mem_map.mp hh
        have hstart := hnone k hk
        change k.previousMaxDecree ≤ _ at hle
        omega
      · exact (hall m (mem_flatMap.mpr ⟨g, hg, hm⟩)).trans_lt hconfirmed
    · exact absurd (hnone h hh) (not_le.mpr hlt)

/-! ### The order of the decrees -/

/-- The decrees above the confirmed one are logged in order, each possibly again: none is logged
before the decree below it. -/
def InOrder (confirmed : Int) (log : List LoggedMutation) : Prop :=
  ∀ pre m post, log = pre ++ m :: post →
    m.decree ≤ confirmed + 1 ∨ ∃ a ∈ pre, m.decree ≤ a.decree + 1

section InOrder

variable {confirmed : Int} {log log' : List LoggedMutation}

variable (inOrder : InOrder confirmed log)
include inOrder

theorem InOrder.of_prefix (hpre : log' <+: log) : InOrder confirmed log' := by
  obtain ⟨rest, rfl⟩ := hpre
  rintro pre m post rfl
  exact inOrder pre m (post ++ rest) (by simp)

theorem InOrder.mono {confirmed' : Int} (hle : confirmed ≤ confirmed') :
    InOrder confirmed' log := by
  intro pre m post hlog
  exact (inOrder pre m post hlog).imp_left fun h => by omega

theorem InOrder.concat {m : LoggedMutation}
    (hm : m.decree ≤ confirmed + 1 ∨ ∃ a ∈ log, m.decree ≤ a.decree + 1) :
    InOrder confirmed (log ++ [m]) := by
  intro pre m' post hlog
  rcases eq_nil_or_concat' post with rfl | ⟨post, last, rfl⟩
  · obtain ⟨rfl, hm'⟩ := append_inj' hlog rfl
    obtain rfl : m = m' := by simpa using hm'
    exact hm
  · refine inOrder pre m' post ?_
    have hinit : log ++ [m] = (pre ++ m' :: post) ++ [last] := by simpa using hlog
    exact (append_inj' hinit rfl).1

variable {dropped : List LoggedMutation}

omit inOrder in
theorem InOrder.of_append (inOrder : InOrder confirmed (dropped ++ log))
    (hdropped : ∀ m ∈ dropped, m.decree ≤ confirmed) : InOrder confirmed log := by
  rintro pre m post rfl
  rcases inOrder (dropped ++ pre) m post (by simp) with h | ⟨a, ha, hle⟩
  · exact .inl h
  · rcases mem_append.mp ha with ha | ha
    · have := hdropped a ha
      exact .inl (by omega)
    · exact .inr ⟨a, ha, hle⟩

theorem InOrder.append_left (hdropped : ∀ m ∈ dropped, m.decree ≤ confirmed) :
    InOrder confirmed (dropped ++ log) := by
  intro pre m post hlog
  rcases append_eq_append_iff.mp hlog with ⟨rest, rfl, hrest⟩ | ⟨rest, rfl, hrest⟩
  · refine (inOrder rest m post hrest).imp_right ?_
    rintro ⟨a, ha, hle⟩
    exact ⟨a, mem_append_right _ ha, hle⟩
  · cases rest with
    | nil =>
      refine (inOrder [] m post (by simpa using hrest.symm)).imp_right ?_
      rintro ⟨a, ha, _⟩
      cases ha
    | cons x rest =>
      obtain ⟨rfl, _⟩ := List.cons.inj hrest
      have := hdropped m (by simp)
      exact .inl (by omega)

end InOrder

/-- A mutation is appended when the decree below it is logged or confirmed. -/
def AppendsInOrder (cfg : LogConfig) (s : Plog) : PlogEvent → Prop
  | .log (.append decree _) => decree ≤ s.confirmedDecree + 1 ∨
      ∃ m ∈ s.log.logged cfg, decree ≤ m.decree + 1
  | _ => True

theorem Kept.deleted_le (kept : Kept cfg s) (hopen : s.log.isOpened = true) {args : GcArgs}
    {view : GcView} (hvalid : args.validStartOffset = 0)
    (hclean : args.cleanableDecree ≤ s.confirmedDecree) {f : LogFile}
    (hf : f ∈ gcDeleted cfg args view s.log) {m : LoggedMutation} (hm : m ∈ f.mutations) :
    m.decree ≤ s.confirmedDecree := by
  have hzero := kept.nonneg.valid_zero
  have hmem : f ∈ s.log.files := (kept.recorded.gcDeleted_mark hopen hf).1
  have hcovers := kept.recorded.gcDeleted_covered hopen (.inl (hvalid.trans hzero.symm)) hf
  rw [hvalid, ← hzero] at hcovers
  exact (covers_zero kept.nonneg hmem hcovers hm).trans hclean

theorem Kept.inOrder_step (kept : Kept cfg s) {e : PlogEvent} (hcollects : s.Collects e)
    (happends : s.AppendsInOrder cfg e) (hstep : Plog.step cfg s e = some s')
    (inOrder : InOrder s.confirmedDecree (s.log.logged cfg)) :
    InOrder s'.confirmedDecree (s'.log.logged cfg) := by
  cases e with
  | log e =>
    obtain ⟨log, hlog, rfl⟩ := Option.map_eq_some_iff.mp hstep
    change InOrder s.confirmedDecree (log.logged cfg)
    cases stepped_of_step hlog with
    | append decree size hopen hsize happend =>
      obtain ⟨m, rfl, _, heq⟩ := kept.recorded.logged_append hopen happend
      rw [heq]
      exact inOrder.concat happends
    | writeCompleted hopen hcompleted =>
      rw [kept.recorded.logged_writeCompleted hopen hcompleted]
      exact inOrder
    | hintSwitchFile | demandSwitchFile => exact inOrder
    | onPartitionReset decree => exact hcollects.elim
    | garbageCollection args view hopen hvalid =>
      rw [kept.nonneg.valid_zero, or_self] at hvalid
      rw [logged_garbageCollection cfg args view s.log] at inOrder
      refine inOrder.of_append fun m hm => ?_
      obtain ⟨f, hf, hm⟩ := mem_flatMap.mp hm
      exact kept.deleted_le hopen hvalid hcollects hf hm
    | close hopen => exact inOrder.of_prefix (kept.recorded.logged_close hopen)
    | crash loss =>
      obtain ⟨issued, inFlight⟩ := kept.inFlight
      exact inOrder.of_prefix (inFlight.logged_crash kept.recorded loss)
    | openLog condition hclosed hlog => exact inOrder.of_prefix (logged_openLog hlog)
  | setCleanableDecree decree =>
    obtain ⟨-, rfl⟩ := of_guard hstep
    exact inOrder
  | confirm decree =>
    obtain ⟨hle, rfl⟩ := of_guard hstep
    exact inOrder.mono hle

end Steps

end Plog

end Pegasus.Duplication
