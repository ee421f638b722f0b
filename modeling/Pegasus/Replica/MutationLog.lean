/-
The private log of a replica (`Pegasus.Replica.MutationLog`), after `mutation_log.cpp`,
`mutation_log_replay.cpp` and `log_file.cpp`.

The log is a sequence of files. A file starts with a header that records the highest
decree logged before it; blocks of mutations follow. At most one block is being written
at a time and further mutations wait in a pending block. `files` is what is in the log
directory: it survives `close` and a crash, the rest of the state does not.

A crash loses the pending block, may lose the block that is being written (leaving
`torn` bytes of it behind) and may lose the header of the last file while nothing else
is in that file; such a file is renamed when the log is opened again.

Offsets are global: a file starts where the data of the one before it ends.
-/

import Pegasus.Replica.Checkpoint

namespace Pegasus.Replica

/-- A mutation in a log file: its decree and its global offset. -/
structure LoggedMutation where
  decree : Int
  offset : Int
deriving DecidableEq

structure LogBlock where
  size : Nat
  mutations : List LoggedMutation
deriving DecidableEq

structure LogFile where
  index : Nat
  startOffset : Int
  /-- `previous_log_max_decree`, from the header of the file. -/
  previousMaxDecree : Int
  blocks : List LogBlock := []
  /-- The bytes of an incomplete block at the end. -/
  torn : Nat := 0
deriving DecidableEq

structure LogConfig where
  /-- The block that holds the header of a file. -/
  fileHeaderSize : Nat
  /-- The header of a block. -/
  blockHeaderSize : Nat
  /-- `_max_log_file_size_in_bytes`. -/
  maxLogFileSize : Int

namespace LogFile

def mutations (f : LogFile) : List LoggedMutation := f.blocks.flatMap LogBlock.mutations

/-- The offset at which the data of a file ends, and its replay. -/
def dataEnd (cfg : LogConfig) (f : LogFile) : Int :=
  f.startOffset + cfg.fileHeaderSize + ((f.blocks.map LogBlock.size).sum : Nat)

def endOffset (cfg : LogConfig) (f : LogFile) : Int := f.dataEnd cfg + f.torn

end LogFile

/-- `mutation_log_private`. -/
structure MutationLog where
  isOpened : Bool := false
  files : List LogFile := []
  /-- The index of `_current_log_file`. -/
  current : Option Nat := none
  lastFileIndex : Nat := 0
  globalEndOffset : Int := 0
  maxDecree : Int := 0
  switchFileHint : Bool := false
  switchFileDemand : Bool := false
  /-- `_pending_write`: the decrees and sizes of its mutations. -/
  pending : Option (List (Int × Nat)) := none
  /-- The file whose last block is being written, if `_is_writing`. -/
  writing : Option Nat := none
  /-- `init_offset_in_private_log` of the application: the `valid_start_offset` of the last
  reset, which is kept with the application and survives a crash. -/
  validStartOffset : Int := 0

namespace MutationLog

def createNewLogFile (cfg : LogConfig) (s : MutationLog) : MutationLog :=
  { s with
    files := s.files ++
      [{ index := s.lastFileIndex + 1
         startOffset := s.globalEndOffset
         previousMaxDecree := s.maxDecree }]
    current := some (s.lastFileIndex + 1)
    lastFileIndex := s.lastFileIndex + 1
    globalEndOffset := s.globalEndOffset + cfg.fileHeaderSize
    switchFileHint := false
    switchFileDemand := false }

def needsNewFile (cfg : LogConfig) (s : MutationLog) : Bool :=
  match s.current.bind fun index => s.files.find? fun f => f.index == index with
  | none => true
  | some f =>
    let size := s.globalEndOffset - f.startOffset
    s.switchFileDemand || decide (cfg.maxLogFileSize ≤ size) ||
      (s.switchFileHint && decide (cfg.maxLogFileSize / 10 ≤ size))

def place : Int → List (Int × Nat) → List LoggedMutation
  | _, [] => []
  | offset, (decree, size) :: rest => ⟨decree, offset⟩ :: place (offset + size) rest

/-- The block that the pending mutations become at the end of the log. -/
def blockOf (cfg : LogConfig) (offset : Int) (pending : List (Int × Nat)) : LogBlock where
  size := cfg.blockHeaderSize + (pending.map Prod.snd).sum
  mutations := place (offset + cfg.blockHeaderSize) pending

/-- `mutation_log_private::write_pending_mutations`, with `mark_new_offset` and
`update_max_decree`. The write is only started here. -/
def writePendingMutations (cfg : LogConfig) (index : Nat) (pending : List (Int × Nat))
    (s : MutationLog) : MutationLog :=
  let block := blockOf cfg s.globalEndOffset pending
  { s with
    files := s.files.map fun f =>
      if f.index = index then { f with blocks := f.blocks ++ [block] } else f
    globalEndOffset := s.globalEndOffset + block.size
    maxDecree := max s.maxDecree ((pending.map Prod.fst).foldl max 0)
    pending := none
    writing := some index }

/-- `mutation_log_private::append`. A new pending block may need a new file. -/
def append (cfg : LogConfig) (decree : Int) (size : Nat) (s : MutationLog) : Option MutationLog :=
  let s := if s.pending.isNone && s.needsNewFile cfg then s.createNewLogFile cfg else s
  let pending := s.pending.getD [] ++ [(decree, size)]
  match s.current, s.writing with
  | none, _ => none
  | some index, none => some (s.writePendingMutations cfg index pending)
  | some _, some _ => some { s with pending := some pending }

def writeCompleted (cfg : LogConfig) (s : MutationLog) : Option MutationLog :=
  match s.writing, s.pending, s.current with
  | none, _, _ => none
  | some _, none, _ => some { s with writing := none }
  | some _, some _, none => none
  | some _, some pending, some index => some (s.writePendingMutations cfg index pending)

def onPartitionReset (decree : Int) (s : MutationLog) : MutationLog :=
  { s with maxDecree := decree, validStartOffset := s.globalEndOffset }

/-- `should_reserve_file`. `writeTime` is the last write time of the file, if it can be told. -/
def shouldReserveFile (cfg : LogConfig) (args : GcArgs) (now : Int) (writeTime : Option Int)
    (alreadyReserved : Int) (f : LogFile) : Bool :=
  if args.reserveMaxSize = 0 ∨ args.reserveMaxTime = 0 then false
  else if args.reserveMaxSize < alreadyReserved + (f.endOffset cfg - f.startOffset) then false
  else
    match writeTime with
    | none => true
    | some time => decide (now ≤ time + args.reserveMaxTime)

/-- The clock and the file times a collection sees, and how many files it can remove before
the file system fails. -/
structure GcView where
  now : Int := 0
  writeTime : Nat → Option Int := fun _ => some 0
  removable : Nat

/-- The loop of `garbage_collection` over the files, the latest first: the index of the largest
file that can be deleted. `maxDecree` covers the file at the head and those before it. -/
def gcMark (cfg : LogConfig) (args : GcArgs) (view : GcView) (current : Option Nat) :
    List LogFile → Int → Int → Option Nat
  | [], _, _ => none
  | f :: older, maxDecree, reserved =>
    let size := f.endOffset cfg - f.startOffset
    if current = some f.index then
      gcMark cfg args view current older f.previousMaxDecree (reserved + size)
    else if shouldReserveFile cfg args view.now (view.writeTime f.index) reserved f then
      gcMark cfg args view current older f.previousMaxDecree (reserved + size)
    else if f.endOffset cfg ≤ args.validStartOffset ∨ maxDecree ≤ args.cleanableDecree then
      some f.index
    else gcMark cfg args view current older f.previousMaxDecree (reserved + size)

/-- The files `garbage_collection` deletes, in increasing order. The `CHECK` before its loop, that
the current file is the last one, never fails (`Opened.current_last`). -/
def gcDeleted (cfg : LogConfig) (args : GcArgs) (view : GcView) (s : MutationLog) :
    List LogFile :=
  if s.files.length ≤ 1 then []
  else
    match gcMark cfg args view s.current s.files.reverse s.maxDecree 0 with
    | none => []
    | some mark => (s.files.takeWhile fun f => f.index ≤ mark).take view.removable

def garbageCollection (cfg : LogConfig) (args : GcArgs) (view : GcView) (s : MutationLog) :
    MutationLog :=
  { s with files := s.files.drop (gcDeleted cfg args view s).length }

/-- `init_states`: only the files and the application's record of the offset are left. -/
def initStates (s : MutationLog) : MutationLog :=
  { files := s.files, validStartOffset := s.validStartOffset }

/-- `mutation_log::close`: the pending block is written before the states are reset. -/
def close (cfg : LogConfig) (s : MutationLog) : MutationLog :=
  match s.pending, s.current with
  | some pending, some index => (s.writePendingMutations cfg index pending).initStates
  | _, _ => s.initStates

structure CrashLoss where
  /-- The block that is being written. -/
  block : Bool
  /-- The bytes of that block that are left. -/
  torn : Nat := 0
  /-- The last file, if it has nothing but a header. -/
  header : Bool := false

/-- The files after the block that is being written is lost. -/
def loseBlock (torn : Nat) (s : MutationLog) : List LogFile :=
  match s.writing with
  | none => s.files
  | some index => s.files.map fun f =>
      if f.index = index then { f with blocks := f.blocks.dropLast, torn := torn } else f

/-- The files after a header that has not been written is lost. -/
def loseHeader (files : List LogFile) : List LogFile :=
  if files.getLast?.any fun f => f.blocks.isEmpty then files.dropLast else files

def crash (loss : CrashLoss) (s : MutationLog) : MutationLog :=
  let files := if loss.block then s.loseBlock loss.torn else s.files
  { s with files := if loss.header then loseHeader files else files }.initStates

/-- The files `open` replays: with a replay condition, from the last one of those at the front
whose previous files can all be ignored. -/
def replayedFiles (condition : Option Int) (files : List LogFile) : List LogFile :=
  match condition with
  | none => files
  | some decree => files.drop ((files.takeWhile fun f => f.previousMaxDecree ≤ decree).length - 1)

/-- The checks of `mutation_log::replay` and the offset it ends at: the indices are contiguous
and every file starts where the one before it ends. -/
def replayEnd (cfg : LogConfig) : List LogFile → Option Int
  | [] => some 0
  | [f] => some (f.dataEnd cfg)
  | f :: g :: rest =>
    if g.index = f.index + 1 ∧ g.startOffset = f.dataEnd cfg then replayEnd cfg (g :: rest)
    else none

/-- The highest decree that replaying files reports: mutations before `valid_start_offset` are
skipped. -/
def replayedMaxDecree (validStartOffset : Int) (files : List LogFile) : Int :=
  (((files.flatMap LogFile.mutations).filter fun m => validStartOffset ≤ m.offset).map
    LoggedMutation.decree).foldl max 0

/-- `mutation_log::open`, of a log in its initial states. It fails when a replayed file does not
follow the one before it. -/
def openLog (cfg : LogConfig) (condition : Option Int) (s : MutationLog) : Option MutationLog :=
  (replayEnd cfg (replayedFiles condition s.files)).map fun endOffset =>
    { isOpened := true
      files := s.files
      lastFileIndex := (s.files.getLast?.map LogFile.index).getD 0
      globalEndOffset := endOffset
      maxDecree := replayedMaxDecree s.validStartOffset (replayedFiles condition s.files)
      validStartOffset := s.validStartOffset }

inductive LogEvent where
  | append (decree : Int) (size : Nat)
  | writeCompleted
  | hintSwitchFile
  | demandSwitchFile
  | onPartitionReset (decree : Int)
  | garbageCollection (args : GcArgs) (view : GcView)
  | close
  | crash (loss : CrashLoss)
  | openLog (condition : Option Int)

/-- One event. A closed log can only be opened; a mutation is never serialized to nothing, and a
collection is given the offset of the last reset, or 0. -/
def step (cfg : LogConfig) (s : MutationLog) (e : LogEvent) : Option MutationLog :=
  if s.isOpened then
    match e with
    | .append decree size => if 0 < size then s.append cfg decree size else none
    | .writeCompleted => s.writeCompleted cfg
    | .hintSwitchFile => some { s with switchFileHint := true }
    | .demandSwitchFile => some { s with switchFileDemand := true }
    | .onPartitionReset decree => some (s.onPartitionReset decree)
    | .garbageCollection args view =>
      if args.validStartOffset = s.validStartOffset ∨ args.validStartOffset = 0 then
        some (s.garbageCollection cfg args view)
      else none
    | .close => some (s.close cfg)
    | .crash loss => some (s.crash loss)
    | .openLog _ => none
  else
    match e with
    | .openLog condition => s.openLog cfg condition
    | _ => none

inductive Stepped (cfg : LogConfig) (s : MutationLog) : LogEvent → MutationLog → Prop where
  | append (decree : Int) (size : Nat) {t : MutationLog} (hopen : s.isOpened = true)
      (hsize : 0 < size) (happend : s.append cfg decree size = some t) :
      Stepped cfg s (.append decree size) t
  | writeCompleted {t : MutationLog} (hopen : s.isOpened = true)
      (hcompleted : s.writeCompleted cfg = some t) : Stepped cfg s .writeCompleted t
  | hintSwitchFile (hopen : s.isOpened = true) :
      Stepped cfg s .hintSwitchFile { s with switchFileHint := true }
  | demandSwitchFile (hopen : s.isOpened = true) :
      Stepped cfg s .demandSwitchFile { s with switchFileDemand := true }
  | onPartitionReset (decree : Int) (hopen : s.isOpened = true) :
      Stepped cfg s (.onPartitionReset decree) (s.onPartitionReset decree)
  | garbageCollection (args : GcArgs) (view : GcView) (hopen : s.isOpened = true)
      (hvalid : args.validStartOffset = s.validStartOffset ∨ args.validStartOffset = 0) :
      Stepped cfg s (.garbageCollection args view) (s.garbageCollection cfg args view)
  | close (hopen : s.isOpened = true) : Stepped cfg s .close (s.close cfg)
  | crash (loss : CrashLoss) (hopen : s.isOpened = true) :
      Stepped cfg s (.crash loss) (s.crash loss)
  | openLog (condition : Option Int) {t : MutationLog} (hclosed : s.isOpened = false)
      (hlog : s.openLog cfg condition = some t) : Stepped cfg s (.openLog condition) t

theorem stepped_of_step {cfg : LogConfig} {s t : MutationLog} {e : LogEvent}
    (hstep : s.step cfg e = some t) : Stepped cfg s e t := by
  cases hopen : s.isOpened with
  | false =>
    cases e with
    | openLog condition =>
      simp only [step, hopen, Bool.false_eq_true, if_false] at hstep
      exact .openLog condition hopen hstep
    | _ => simp [step, hopen] at hstep
  | true =>
    unfold step at hstep
    rw [if_pos hopen] at hstep
    cases e with
    | append decree size =>
      dsimp only at hstep
      split at hstep
      · exact .append decree size hopen ‹_› hstep
      · cases hstep
    | writeCompleted => exact .writeCompleted hopen hstep
    | garbageCollection args view =>
      dsimp only at hstep
      split at hstep
      · cases hstep
        exact .garbageCollection args view hopen ‹_›
      · cases hstep
    | openLog condition => cases hstep
    | hintSwitchFile =>
      cases hstep
      exact .hintSwitchFile hopen
    | demandSwitchFile =>
      cases hstep
      exact .demandSwitchFile hopen
    | onPartitionReset decree =>
      cases hstep
      exact .onPartitionReset decree hopen
    | close =>
      cases hstep
      exact .close hopen
    | crash loss =>
      cases hstep
      exact .crash loss hopen

end MutationLog

end Pegasus.Replica
