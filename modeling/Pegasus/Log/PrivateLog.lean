/-
The private log on disk (`Pegasus.Log.PrivateLog`), after `mutation_log.cpp`,
`mutation_log_replay.cpp` and `log_file.cpp`.

`dir` is the log directory, in the order of the indices of the files. What is written is in the
files at once: a write that is under way only keeps the next one waiting. `open` reads the files
from their first byte, the rest of the state is in memory only.

Where the process would stop at a `CHECK`, or would read outside its buffers, there is no result.
-/

import Pegasus.Log.Blocks

namespace Pegasus.Log

/-! ### The header of a file -/

structure ReplicaLogInfo where
  maxDecree : Int64 := 0
  validStartOffset : Int64 := 0
deriving DecidableEq

/-- `log_file_header`, with the `_previous_log_max_decrees` that follow it. -/
structure LogFileHeader where
  magic : UInt32 := Log.magic
  version : Int32 := 1
  startGlobalOffset : Int64
  previousLogMaxDecrees : List (UInt64 × ReplicaLogInfo)
deriving DecidableEq

def infoBytes (entry : UInt64 × ReplicaLogInfo) : ByteString :=
  Pod.bytes entry.1 ++ Pod.bytes entry.2.maxDecree ++ Pod.bytes entry.2.validStartOffset

def readInfo : Reader (UInt64 × ReplicaLogInfo) := do
  let gpid ← Reader.pod UInt64
  let maxDecree ← Reader.pod Int64
  let validStartOffset ← Reader.pod Int64
  return (gpid, { maxDecree, validStartOffset })

namespace LogFileHeader

/-- `log_file::write_file_header`. -/
def bytes (header : LogFileHeader) : ByteString :=
  Pod.bytes header.magic ++ Pod.bytes header.version ++ Pod.bytes header.startGlobalOffset ++
    Pod.bytes (Int32.ofNat header.previousLogMaxDecrees.length) ++
    header.previousLogMaxDecrees.flatMap infoBytes

/-- `log_file::get_file_header_size`. -/
def size (header : LogFileHeader) : Nat := 16 + 4 + 24 * header.previousLogMaxDecrees.length

/-- `log_file::is_right_header`, of a file whose name has the offset. -/
def isRightHeader (header : LogFileHeader) (startOffset : Int) : Bool :=
  header.magic == Log.magic && header.startGlobalOffset == Int64.ofInt startOffset

end LogFileHeader

/-- An entry takes the place of an earlier one for the same partition. -/
def insertInfo (infos : List (UInt64 × ReplicaLogInfo)) (entry : UInt64 × ReplicaLogInfo) :
    List (UInt64 × ReplicaLogInfo) :=
  infos.filter (fun other => other.1 != entry.1) ++ [entry]

def readFileHeader : Reader LogFileHeader := do
  let magic ← Reader.pod UInt32
  let version ← Reader.pod Int32
  let startGlobalOffset ← Reader.pod Int64
  let count ← Reader.pod Int32
  let entries ← Reader.each (fun _ => readInfo) (List.replicate count.toInt.toNat ())
  return { magic, version, startGlobalOffset, previousLogMaxDecrees := entries.foldl insertInfo [] }

/-! ### Reading files -/

/-- A file of the log directory: its name has the index and the offset. -/
structure DiskFile where
  index : Nat
  startOffset : Int
  content : ByteString
deriving DecidableEq

/-- What a replay returns: the mutations it has called back with are kept also if it fails. -/
structure Replayed where
  err : ErrorCode
  mutations : List MutationData
  endOffset : Int
deriving DecidableEq

/-- The mutations of a block from an offset on, the loop of `replay_block`. Every mutation takes
some bytes, so the length of what is left bounds the number of rounds. -/
def replayMutations (codes : TaskCodes) : Nat → ByteString → Int → Option Replayed
  | 0, _, _ => none
  | fuel + 1, left, endOffset =>
    if left = [] then some ⟨.ok, [], endOffset⟩
    else
      match readFrom codes left with
      | none => none
      | some (mu, left') =>
        if mu.header.logOffset ≠ Int64.ofInt endOffset then some ⟨.invalidData, [], endOffset⟩
        else
          (replayMutations codes fuel left' (endOffset + (left.length - left'.length))).map
            fun replayed => { replayed with mutations := mu :: replayed.mutations }

namespace DiskFile

/-- `log_file::end_offset` of a file that is read. -/
def endOffset (file : DiskFile) : Int := file.startOffset + file.content.length

/-- `log_file::open_read`. A file that cannot be opened is renamed. -/
def openRead (file : DiskFile) : Option (Except ErrorCode LogFileHeader) :=
  match readNextLogBlock (buffered 0 blockHeaderSize) 0 file.content with
  | none => none
  | some (.error err) => some (.error err)
  | some (.ok (body, _)) =>
    match readFileHeader body with
    | none => none
    | some (header, _) =>
      if header.isRightHeader file.startOffset then some (.ok header)
      else some (.error .invalidData)

/-- `mutation_log::replay_block` of the block that starts at a place of the file, read by a
stream whose buffers start at `stream`, and the checksum after it. The first block starts with
the header of the file. -/
def replayBlock (codes : TaskCodes) (file : DiskFile) (crc : UInt32) (stream start : Nat) :
    Option (Replayed × UInt32) :=
  match readNextLogBlock (buffered stream (start + blockHeaderSize))
      (if start = 0 then 0 else crc) (file.content.drop start) with
  | none => none
  | some (.error err) => some (⟨err, [], file.startOffset + start⟩, crc)
  | some (.ok (body, crc)) =>
    let endOffset := file.startOffset + start + blockHeaderSize
    if start = 0 then
      match readFileHeader body with
      | none => none
      | some (header, left) =>
        if header.isRightHeader file.startOffset then
          (replayMutations codes (left.length + 1) left (endOffset + header.size)).map (·, crc)
        else some (⟨.invalidData, [], endOffset + header.size⟩, crc)
    else (replayMutations codes (body.length + 1) body endOffset).map (·, crc)

/-- The loop of `mutation_log::replay` over the blocks of a file. Every block takes some bytes of
the file. -/
def replayFrom (codes : TaskCodes) (file : DiskFile) :
    Nat → UInt32 → Nat → Nat → Option Replayed
  | 0, _, _, _ => none
  | fuel + 1, crc, stream, start =>
    match replayBlock codes file crc stream start with
    | none => none
    | some (block, crc) =>
      if block.err ≠ .ok then some block
      else
        let next := (block.endOffset - file.startOffset).toNat
        let stream := advanceBuffers (advanceBuffers stream (start + blockHeaderSize)) next
        (replayFrom codes file fuel crc stream next).map
          fun rest => { rest with mutations := block.mutations ++ rest.mutations }

/-- `mutation_log::replay` of one file. -/
def replay (codes : TaskCodes) (file : DiskFile) : Option Replayed :=
  replayFrom codes file (file.content.length + 1) 0 0 0

end DiskFile

/-- The loop of `mutation_log::replay` over the files: every file starts where the replay of the
one before it ended, be that at an incomplete block. -/
def replayFiles (codes : TaskCodes) : List DiskFile → Int → ErrorCode → Option Replayed
  | [], endOffset, err => some ⟨err, [], endOffset⟩
  | file :: rest, endOffset, _ =>
    if file.startOffset ≠ endOffset then some ⟨.invalidData, [], endOffset⟩
    else
      match file.replay codes with
      | none => none
      | some replayed =>
        if replayed.err = .ok ∨ replayed.err = .handleEof ∨ replayed.err = .incompleteData then
          (replayFiles codes rest replayed.endOffset replayed.err).map
            fun more => { more with mutations := replayed.mutations ++ more.mutations }
        else some replayed

/-- `log_utils::check_log_files_continuity`: no index is missing. -/
def checkLogFilesContinuity : List DiskFile → Bool
  | [] => true
  | [_] => true
  | file :: next :: rest =>
    next.index == file.index + 1 && checkLogFilesContinuity (next :: rest)

/-- `mutation_log::replay` of the files of a log, with the `CHECK` that the last file was read to
its end. -/
def replayLogs (codes : TaskCodes) (files : List DiskFile) : Option Replayed :=
  if checkLogFilesContinuity files then
    let start := (files.head?.map DiskFile.startOffset).getD 0
    let last := (files.getLast?.map DiskFile.endOffset).getD 0
    match replayFiles codes files start .ok with
    | none => none
    | some replayed =>
      if replayed.err = .ok ∨ replayed.err = .handleEof then
        if last ≤ replayed.endOffset then some { replayed with err := .ok } else none
      else if replayed.err = .incompleteData then some { replayed with err := .ok }
      else some replayed
  else some ⟨.objectNotFound, [], 0⟩

/-! ### The log -/

structure LogFile where
  index : Nat
  startOffset : Int
  crc32 : UInt32
deriving DecidableEq

/-- `mutation_log_private`. -/
structure PrivateLog where
  gpid : UInt64
  dir : List DiskFile := []
  isOpened : Bool := false
  switchFileHint : Bool := false
  switchFileDemand : Bool := false
  lastFileIndex : Nat := 0
  /-- `_current_log_file`. -/
  current : Option LogFile := none
  globalEndOffset : Int := 0
  /-- `_private_log_info`. -/
  info : ReplicaLogInfo := {}
  /-- `_pending_write`. -/
  pending : Option LogAppender := none
  pendingMaxDecree : Int64 := 0
  isWriting : Bool := false
deriving DecidableEq

def writeAt (content : ByteString) (place : Nat) (bytes : ByteString) : ByteString :=
  content.take place ++ List.replicate (place - content.length) 0 ++ bytes ++
    content.drop (place + bytes.length)

namespace PrivateLog

/-- `init_states`: only the files are left. -/
def initStates (s : PrivateLog) : PrivateLog := { gpid := s.gpid, dir := s.dir }

def createNewLogFile (s : PrivateLog) : Option PrivateLog :=
  if s.dir.any fun file => file.index == s.lastFileIndex + 1 then none
  else
    let header : LogFileHeader :=
      { startGlobalOffset := Int64.ofInt s.globalEndOffset
        previousLogMaxDecrees := [(s.gpid, s.info)] }
    let block : LogBlock := { startOffset := s.globalEndOffset, blobs := [header.bytes] }
    let (bytes, crc) := commitLogBlocks s.globalEndOffset 0 [block]
    some { s with
      dir := s.dir ++
        [{ index := s.lastFileIndex + 1
           startOffset := s.globalEndOffset
           content := writeAt [] 0 bytes }]
      lastFileIndex := s.lastFileIndex + 1
      current := some
        { index := s.lastFileIndex + 1, startOffset := s.globalEndOffset, crc32 := crc }
      globalEndOffset := s.globalEndOffset + block.size
      switchFileHint := false
      switchFileDemand := false }

def needsNewFile (maxLogFileSize : Int) (s : PrivateLog) : Bool :=
  match s.current with
  | none => true
  | some file =>
    let size := s.globalEndOffset - file.startOffset
    s.switchFileDemand || decide (maxLogFileSize ≤ size) ||
      (s.switchFileHint && decide (maxLogFileSize / 10 ≤ size))

def writeFile (index place : Nat) (bytes : ByteString) (dir : List DiskFile) : List DiskFile :=
  dir.map fun file =>
    if file.index = index then { file with content := writeAt file.content place bytes } else file

/-- `mutation_log_private::commit_pending_mutations`, and what `write_pending_mutations` does
before it: the offset and the highest decree move on, and the pending buffer is given away. -/
def commitPendingMutations (file : LogFile) (pending : LogAppender) (s : PrivateLog) :
    PrivateLog :=
  let (bytes, crc) := commitLogBlocks file.startOffset file.crc32 pending.allBlocks
  { s with
    dir := writeFile file.index (pending.startOffset - file.startOffset).toNat bytes s.dir
    current := some { file with crc32 := crc }
    globalEndOffset := s.globalEndOffset + pending.size
    info :=
      { s.info with
        maxDecree := if s.info.maxDecree < s.pendingMaxDecree then s.pendingMaxDecree
          else s.info.maxDecree }
    pending := none
    pendingMaxDecree := 0
    isWriting := true }

/-- `mutation_log_private::write_pending_mutations`: the pending buffer has to start at the end
of the log. -/
def writePendingMutations (pending : LogAppender) (s : PrivateLog) : Option PrivateLog :=
  match s.current with
  | none => none
  | some file =>
    if s.globalEndOffset = pending.startOffset then some (s.commitPendingMutations file pending)
    else none

/-- The first part of `append`: without a pending buffer a new one is made, at the end of the log
or at the start of a new file. -/
def preparePending (maxLogFileSize : Int) (s : PrivateLog) : Option (PrivateLog × LogAppender) :=
  match s.pending with
  | some pending => some (s, pending)
  | none =>
    if s.needsNewFile maxLogFileSize then
      s.createNewLogFile.map fun s => (s, LogAppender.new s.globalEndOffset)
    else some (s, LogAppender.new s.globalEndOffset)

def addMutation (codes : TaskCodes) (pending : LogAppender) (mu : MutationData) (s : PrivateLog) :
    PrivateLog :=
  { s with
    pending := some (pending.appendMutation codes mu)
    pendingMaxDecree := if s.pendingMaxDecree < mu.header.decree then mu.header.decree
      else s.pendingMaxDecree }

def append (codes : TaskCodes) (maxLogFileSize : Int) (mu : MutationData) (s : PrivateLog) :
    Option PrivateLog :=
  match s.preparePending maxLogFileSize with
  | none => none
  | some (s, pending) =>
    if s.isWriting then some (s.addMutation codes pending mu)
    else (s.addMutation codes pending mu).writePendingMutations (pending.appendMutation codes mu)

def writeCompleted (s : PrivateLog) : Option PrivateLog :=
  if s.isWriting then
    match s.pending with
    | none => some { s with isWriting := false }
    | some pending => s.writePendingMutations pending
  else none

/-- `mutation_log::close`: what is pending is written. -/
def close (s : PrivateLog) : Option PrivateLog :=
  match s.pending with
  | none => some s.initStates
  | some pending => (s.writePendingMutations pending).map initStates

/-! ### Opening -/

/-- What `open` finds in the directory: the files it can read, and those that are left under
their names. -/
structure Loaded where
  err : ErrorCode
  files : List DiskFile
  dir : List DiskFile

/-- The first loop of `mutation_log::open`. -/
def loadFiles : List DiskFile → Option Loaded
  | [] => some ⟨.ok, [], []⟩
  | file :: rest =>
    match file.openRead with
    | none => none
    | some (.ok _) =>
      (loadFiles rest).map fun loaded =>
        { loaded with files := file :: loaded.files, dir := file :: loaded.dir }
    | some (.error err) =>
      if err = .handleEof ∨ err = .incompleteData then loadFiles rest
      else some ⟨err, [], rest⟩

structure OpenResult where
  err : ErrorCode
  /-- The mutations that `read_callback` was called with. -/
  replayed : List MutationData
  endOffset : Int
  log : PrivateLog

/-- The callback of `open`: a mutation that the replica accepts counts for the highest decree, and
must be of the partition of the log. -/
def noteReplayed (accepts : MutationData → Bool) (gpid : UInt64) :
    List MutationData → Int64 → Option Int64
  | [], maxDecree => some maxDecree
  | mu :: rest, maxDecree =>
    if accepts mu then
      if mu.header.pid = gpid then
        noteReplayed accepts gpid rest
          (if maxDecree < mu.header.decree then mu.header.decree else maxDecree)
      else none
    else noteReplayed accepts gpid rest maxDecree

/-- `mutation_log::open` without a replay condition. -/
def openLog (codes : TaskCodes) (accepts : MutationData → Bool) (s : PrivateLog) :
    Option OpenResult :=
  match loadFiles s.dir with
  | none => none
  | some loaded =>
    let s := { s with dir := loaded.dir }
    if loaded.err ≠ .ok then some ⟨loaded.err, [], 0, s⟩
    else
      match replayLogs codes loaded.files with
      | none => none
      | some replayed =>
        match noteReplayed accepts s.gpid replayed.mutations s.info.maxDecree with
        | none => none
        | some maxDecree =>
          if replayed.err = .ok then
            some ⟨.ok, replayed.mutations, replayed.endOffset,
              { s with
                isOpened := true
                lastFileIndex := (loaded.files.getLast?.map DiskFile.index).getD 0
                globalEndOffset := replayed.endOffset
                info := { s.info with maxDecree := maxDecree } }⟩
          else some ⟨replayed.err, replayed.mutations, replayed.endOffset, s.initStates⟩

end PrivateLog

end Pegasus.Log
