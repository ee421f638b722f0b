/-
Runs of the private log over restarts and crashes (`Pegasus.Log.Recovery`).

A run appends mutations, completes writes, asks for new files, closes and opens the log, and
crashes: then only the files are left, the last one cut at any byte. `RecordedLog` keeps beside
the log what was appended and which blocks were written.

- `Kept`: the files are images of the written blocks, and the state in memory fits them; one lemma
  for each event (`RecordedLog.step_kept`);
- `write_then_replay`: without a crash, opening the files replays what was appended;
- `crash_recovery`: after a crash the log opens with the blocks before the cut, and what is
  appended afterwards follows them.
-/

import Pegasus.Lib.Run
import Pegasus.Common
import Pegasus.Log.Layout

namespace Pegasus.Log

open TransitionSystem List Option PrivateLog FileImage

structure LogSetting where
  codes : TaskCodes
  /-- `_max_log_file_size_in_bytes`. -/
  maxLogFileSize : Int
  /-- What `read_callback` returns. -/
  accepts : MutationData → Bool

inductive LogEvent where
  | append (mu : MutationData)
  | writeCompleted
  | hintSwitchFile
  | demandSwitchFile
  /-- The log is closed and opened again. -/
  | reopen
  /-- The process dies, the last file is cut and the log is opened again. -/
  | restart (cut : Nat)

def LogEvent.mutation? : LogEvent → Option MutationData
  | .append mu => some mu
  | _ => none

def LogEvent.isRestart : LogEvent → Bool
  | .restart _ => true
  | _ => false

namespace PrivateLog

def cutLast (cut : Nat) (dir : List DiskFile) : List DiskFile :=
  dir.dropLast ++
    (dir.getLast?.map fun file => { file with content := file.content.take cut }).toList

def crashed (s : PrivateLog) (cut : Nat) : PrivateLog :=
  { s.initStates with dir := cutLast cut s.dir }

def cutOffset (s : PrivateLog) (cut : Nat) : Int :=
  (s.dir.getLast?.map DiskFile.startOffset).getD 0 + cut

def lastBlockSize (s : PrivateLog) : Nat :=
  (s.pending.map fun pending => pending.closeFullBlock.last.size).getD blockHeaderSize

end PrivateLog

/-- A log, the mutations appended to it, with the offsets they got, and the blocks written. -/
structure RecordedLog where
  log : PrivateLog
  appended : List MutationData := []
  written : List LogBlock := []

namespace RecordedLog

variable (setting : LogSetting)

def reopened (result : PrivateLog.OpenResult) (written : List LogBlock) : RecordedLog where
  log := result.log
  appended := result.replayed
  written := written

def writtenBefore (s : RecordedLog) (cut : Nat) : List LogBlock :=
  s.written.filter fun block => block.startOffset + block.size ≤ s.log.cutOffset cut

def pendingBlocks (pending : Option LogAppender) : List LogBlock :=
  (pending.map LogAppender.allBlocks).getD []

/-- One event. A log that cannot be opened makes no step. -/
def step (s : RecordedLog) : LogEvent → Option RecordedLog
  | .append mu =>
    match s.log.preparePending setting.maxLogFileSize,
        s.log.append setting.codes setting.maxLogFileSize mu with
    | some (before, pending), some log =>
      some
        { log := log
          appended := s.appended ++ [pending.place mu]
          written := s.written ++
            if before.isWriting then [] else (pending.appendMutation setting.codes mu).allBlocks }
    | _, _ => none
  | .writeCompleted =>
    s.log.writeCompleted.map fun log =>
      { s with log := log, written := s.written ++ pendingBlocks s.log.pending }
  | .hintSwitchFile => some { s with log := { s.log with switchFileHint := true } }
  | .demandSwitchFile => some { s with log := { s.log with switchFileDemand := true } }
  | .reopen =>
    match s.log.close.bind (PrivateLog.openLog setting.codes setting.accepts) with
    | some result =>
      if result.err = .ok then some (reopened result (s.written ++ pendingBlocks s.log.pending))
      else none
    | none => none
  | .restart cut =>
    match (s.log.crashed cut).openLog setting.codes setting.accepts with
    | some result => if result.err = .ok then some (reopened result (s.writtenBefore cut)) else none
    | none => none

def created (gpid : UInt64) : RecordedLog where
  log := { gpid := gpid, isOpened := true }

/-- An appended mutation is one of the log's partition, its task codes are registered, and the
body of the block that it goes to keeps a length that fits in an `int`. -/
def Fits (s : RecordedLog) : LogEvent → Prop
  | .append mu =>
    mu.header.pid = s.log.gpid ∧
      (∀ update ∈ mu.updates, setting.codes.Registered update.code) ∧
      s.log.lastBlockSize - blockHeaderSize + (mu.bytes setting.codes).length < 2 ^ 31
  | _ => True

end RecordedLog

open RecordedLog

/-! ### The invariant -/

/-- The state in memory fits the files, which are images of the written blocks. -/
structure RecordedLog.Kept (setting : LogSetting) (s : RecordedLog) (images : List FileImage) :
    Prop where
  dir_eq : s.log.dir = images.map FileImage.file
  chained : Chained images
  sound : ∀ image ∈ images, image.Sound setting.codes
  ends_at_last : s.log.globalEndOffset = (images.getLast?.map FileImage.dataEnd).getD 0
  lastFileIndex_eq : s.log.lastFileIndex = (images.getLast?.map FileImage.index).getD 0
  current_last : ∀ file, s.log.current = some file → ∃ last, images.getLast? = some last ∧
    file.index = last.index ∧ file.startOffset = last.startOffset ∧
    file.crc32 = last.committed.2 ∧ last.torn = []
  pending_follows : ∀ pending, s.log.pending = some pending → s.log.current.isSome ∧
    BlocksFrom setting.codes s.log.globalEndOffset pending.allBlocks
  written_eq : s.written = images.flatMap FileImage.blocks
  appended_eq : s.appended = s.written.flatMap LogBlock.mutations ++
    (RecordedLog.pendingBlocks s.log.pending).flatMap LogBlock.mutations
  pid_eq : ∀ mu ∈ s.appended, mu.header.pid = s.log.gpid

/-! ### Appenders -/

section Appenders

variable {codes : TaskCodes} {offset : Int} {pending : LogAppender} {mu : MutationData}

theorem sound_empty (codes : TaskCodes) (offset : Int) :
    LogBlock.Sound codes { startOffset := offset } where
  blobs_eq := rfl
  placed := trivial
  registered := by simp
  short := by simp [LogBlock.body]

theorem blocksFrom_new (codes : TaskCodes) (offset : Int) :
    BlocksFrom codes offset (LogAppender.new offset).allBlocks :=
  ⟨rfl, sound_empty codes offset, trivial⟩

variable (hblocks : BlocksFrom codes offset pending.allBlocks)
include hblocks

theorem last_startOffset :
    pending.last.startOffset = offset + blocksSize pending.full ∧ pending.last.Sound codes := by
  have hlast := (blocksFrom_append.mp hblocks).2
  exact ⟨hlast.1, hlast.2.1⟩

theorem startOffset_eq : pending.startOffset = offset := by
  unfold LogAppender.startOffset LogAppender.allBlocks at *
  cases hfull : pending.full with
  | nil =>
    rw [hfull] at hblocks
    exact hblocks.1
  | cons block rest =>
    rw [hfull] at hblocks
    exact hblocks.1

theorem BlocksFrom.closeFullBlock : BlocksFrom codes offset pending.closeFullBlock.allBlocks := by
  obtain ⟨hlast, -⟩ := last_startOffset hblocks
  unfold LogAppender.closeFullBlock
  split
  · refine blocksFrom_append.mpr ⟨hblocks, ?_, sound_empty _ _, trivial⟩
    simp only [hlast, blocksSize_append, blocksSize_cons, blocksSize_nil]
    push_cast
    ring
  · exact hblocks

omit hblocks in
theorem mutations_closeFullBlock :
    pending.closeFullBlock.allBlocks.flatMap LogBlock.mutations =
      pending.allBlocks.flatMap LogBlock.mutations := by
  unfold LogAppender.closeFullBlock
  split
  · simp [LogAppender.allBlocks]
  · rfl

omit hblocks in
theorem length_bytes_withLogOffset (codes : TaskCodes) (mu : MutationData) (offset : Int64) :
    ((mu.withLogOffset offset).bytes codes).length = (mu.bytes codes).length := by
  simp [MutationData.bytes, MutationData.writeTo, MutationData.front, MutationHeader.bytes,
    MutationData.withLogOffset, Pod.width]

omit hblocks in
theorem LogBlock.Sound.add {block : LogBlock} (sound : block.Sound codes)
    (hoffset : mu.header.logOffset = Int64.ofInt (block.startOffset + block.size))
    (registered : ∀ update ∈ mu.updates, codes.Registered update.code)
    (hshort : block.size - blockHeaderSize + (mu.bytes codes).length < 2 ^ 31) :
    LogBlock.Sound codes
      { block with
        blobs := block.blobs ++ mu.writeTo codes
        mutations := block.mutations ++ [mu] } where
  blobs_eq := by simp [sound.blobs_eq]
  placed := by
    refine placedFrom_append.mpr ⟨sound.placed, ?_, trivial⟩
    rw [hoffset, LogBlock.size_eq, sound.body_eq]
    congr 1
    push_cast
    ring
  registered := by exact forall_mem_concat sound.registered registered
  short := by
    have hbody : (block.blobs ++ mu.writeTo codes).flatten = block.body ++ mu.bytes codes :=
      flatten_append
    rw [LogBlock.size_eq] at hshort
    change (block.blobs ++ mu.writeTo codes).flatten.length < 2 ^ 31
    rw [hbody, length_append]
    omega

theorem BlocksFrom.appendMutation (registered : ∀ update ∈ mu.updates, codes.Registered update.code)
    (hshort :
      pending.closeFullBlock.last.size - blockHeaderSize + (mu.bytes codes).length < 2 ^ 31) :
    BlocksFrom codes offset (pending.appendMutation codes mu).allBlocks := by
  have hclosed := hblocks.closeFullBlock
  obtain ⟨hlast, sound⟩ := last_startOffset hclosed
  have hbytes : ((pending.place mu).bytes codes).length = (mu.bytes codes).length :=
    length_bytes_withLogOffset codes mu _
  refine blocksFrom_append.mpr ⟨(blocksFrom_append.mp hclosed).1, hlast, ?_, trivial⟩
  exact sound.add rfl registered (by rwa [hbytes])

omit hblocks

theorem mutations_appendMutation :
    (pending.appendMutation codes mu).allBlocks.flatMap LogBlock.mutations =
      pending.allBlocks.flatMap LogBlock.mutations ++ [pending.place mu] := by
  calc (pending.appendMutation codes mu).allBlocks.flatMap LogBlock.mutations
      = pending.closeFullBlock.allBlocks.flatMap LogBlock.mutations ++ [pending.place mu] := by
        simp [LogAppender.appendMutation, LogAppender.allBlocks]
    _ = pending.allBlocks.flatMap LogBlock.mutations ++ [pending.place mu] := by
        rw [mutations_closeFullBlock]

end Appenders

/-! ### Steps of an open log -/

theorem writeAt_end (content bytes : ByteString) {place : Nat} (hplace : place = content.length) :
    writeAt content place bytes = content ++ bytes := by
  subst hplace
  simp [writeAt]

namespace RecordedLog.Kept

variable {setting : LogSetting} {s : RecordedLog} {images : List FileImage}

variable (kept : s.Kept setting images)
include kept

theorem createNewLogFile (hpending : s.log.pending = none) :
    ∃ log last, s.log.createNewLogFile = some log ∧
      RecordedLog.Kept setting { s with log := log } (images ++ [last]) ∧ last.torn = [] ∧
      log.pending = none ∧ log.current.isSome ∧ log.isWriting = s.log.isWriting ∧
      log.gpid = s.log.gpid := by
  set last : FileImage :=
    { index := s.log.lastFileIndex + 1, startOffset := s.log.globalEndOffset,
      entry := (s.log.gpid, s.log.info) } with hlast
  have hfresh : (s.log.dir.any fun file => file.index == s.log.lastFileIndex + 1) = false := by
    rw [kept.dir_eq, List.any_eq_false]
    intro file hfile
    obtain ⟨image, himage, rfl⟩ := List.mem_map.mp hfile
    have hindex := kept.lastFileIndex_eq
    rcases eq_nil_or_concat' images with rfl | ⟨init, old, rfl⟩
    · simp at himage
    · have hle : image.index ≤ old.index := by
        rcases mem_concat_iff.mp himage with hinit | rfl
        · exact (kept.chained.before_last hinit).1.le
        · rfl
      simp only [List.getLast?_concat, map_some, getD_some] at hindex
      simp only [file, beq_iff_eq]
      omega
  have hcontent : writeAt [] 0 (commitLogBlocks last.startOffset 0 [last.headerBlock]).1 =
      last.file.content := writeAt_end [] _ rfl
  have hsize : last.headerBlock.size = last.front.length := LogBlock.length_bytes.symm
  refine ⟨_, last, if_neg (by simp [hfresh]), ?_, rfl, hpending, rfl, rfl, rfl⟩
  constructor
  · change s.log.dir ++ _ = _
    rw [kept.dir_eq, map_append]
    exact congrArg (fun content => _ ++ [DiskFile.mk _ _ content]) hcontent
  · refine isChain_append.mpr ⟨kept.chained, .singleton _, ?_⟩
    intro old hold next hnext
    obtain rfl : last = next := by simpa using hnext
    have hend := kept.ends_at_last
    have hindex := kept.lastFileIndex_eq
    rw [hold] at hend hindex
    exact ⟨congrArg (· + 1) hindex, hend⟩
  · exact forall_mem_concat kept.sound ⟨trivial, torn_nil _ _⟩
  · rw [List.getLast?_concat]
    change s.log.globalEndOffset + (last.headerBlock.size : Int) = last.dataEnd
    rw [hsize, dataEnd]
    simp [hlast]
  · rw [List.getLast?_concat]
    rfl
  · intro file hfile
    cases hfile
    exact ⟨last, List.getLast?_concat, rfl, rfl, rfl, rfl⟩
  · intro pending hsome
    exact absurd (hpending.symm.trans hsome) (by simp)
  · rw [flatMap_append, ← kept.written_eq]
    simp [hlast]
  · exact kept.appended_eq
  · exact kept.pid_eq

omit kept in
theorem commit_dir {log : PrivateLog} {init : List FileImage} {last : FileImage} {file : LogFile}
    {pending : LogAppender} (chained : Chained (init ++ [last]))
    (hdir : log.dir = (init ++ [last]).map FileImage.file) (hindex : file.index = last.index)
    (hstart : file.startOffset = last.startOffset) (hcrc : file.crc32 = last.committed.2)
    (htorn : last.torn = []) (hoffset : pending.startOffset = last.dataEnd) :
    (log.commitPendingMutations file pending).dir =
      (init ++ [last.extend pending.allBlocks]).map FileImage.file := by
  have hplace : (pending.startOffset - file.startOffset).toNat = last.file.content.length := by
    rw [hoffset, hstart, FileImage.length_content, htorn, FileImage.dataEnd]
    simp only [length_nil]
    omega
  have hcontent : writeAt last.file.content (pending.startOffset - file.startOffset).toNat
      (commitLogBlocks file.startOffset file.crc32 pending.allBlocks).1 =
        (last.extend pending.allBlocks).file.content := by
    rw [writeAt_end _ _ hplace, FileImage.content_extend htorn, hstart, hcrc]
  change writeFile _ _ _ log.dir = _
  rw [writeFile, hdir, map_append, map_append, map_append, List.map_map]
  congr 1
  · refine map_congr_left fun image himage => ?_
    have hne : image.file.index ≠ file.index := by
      rw [hindex]
      exact (chained.before_last himage).1.ne
    simp only [Function.comp_apply, if_neg hne]
  · have heq : last.file.index = file.index := hindex.symm
    simp only [map_cons, map_nil, if_pos heq, hcontent]
    rfl

variable {pending : LogAppender}

theorem writePendingMutations (hpending : s.log.pending = some pending) :
    ∃ log images', s.log.writePendingMutations pending = some log ∧
      RecordedLog.Kept setting
        { s with log := log, written := s.written ++ pending.allBlocks } images' ∧
      log.pending = none ∧ log.gpid = s.log.gpid ∧
      ((∀ image ∈ images, image.torn = []) → ∀ image ∈ images', image.torn = []) := by
  obtain ⟨hcurrent, hblocks⟩ := kept.pending_follows pending hpending
  obtain ⟨file, hfile⟩ := isSome_iff_exists.mp hcurrent
  obtain ⟨last, hlast, hindex, hstart, hcrc, htorn⟩ := kept.current_last file hfile
  obtain ⟨init, rfl⟩ := List.getLast?_eq_some_iff.mp hlast
  have hend : s.log.globalEndOffset = last.dataEnd := by
    rw [kept.ends_at_last, hlast]
    rfl
  have hoffset := startOffset_eq hblocks
  have hsize : pending.size = blocksSize pending.allBlocks := rfl
  have hdir : (s.log.commitPendingMutations file pending).dir =
      (init ++ [last.extend pending.allBlocks]).map FileImage.file :=
    commit_dir kept.chained kept.dir_eq hindex hstart hcrc htorn (hoffset.trans hend)
  refine ⟨s.log.commitPendingMutations file pending, init ++ [last.extend pending.allBlocks], ?_,
    ?_, rfl, rfl, ?_⟩
  · rw [writePendingMutations, hfile]
    exact if_pos hoffset.symm
  · constructor
    · exact hdir
    · exact kept.chained.replace_last rfl rfl
    · refine forall_mem_concat (forall_mem_append.mp kept.sound).1 ?_
      exact (kept.sound last (by simp)).extend htorn (hend ▸ hblocks)
    · rw [List.getLast?_concat]
      change s.log.globalEndOffset + (pending.size : Int) = (last.extend pending.allBlocks).dataEnd
      rw [FileImage.dataEnd_extend, hend, hsize]
    · rw [List.getLast?_concat]
      exact kept.lastFileIndex_eq.trans (by rw [hlast]; rfl)
    · intro file' hfile'
      cases hfile'
      refine ⟨_, List.getLast?_concat, hindex, hstart, ?_, htorn⟩
      rw [FileImage.committed_extend, ← hstart, ← hcrc]
    · intro pending' hpending'
      cases hpending'
    · rw [kept.written_eq]
      simp [FileImage.extend]
    · have happended := kept.appended_eq
      rw [hpending] at happended
      rw [happended]
      simp [pendingBlocks, commitPendingMutations]
    · exact kept.pid_eq
  · intro huntorn
    exact forall_mem_concat (forall_mem_append.mp huntorn).1 htorn

theorem preparePending :
    ∃ log pending images', s.log.preparePending setting.maxLogFileSize = some (log, pending) ∧
      RecordedLog.Kept setting { s with log := { log with pending := some pending } } images' ∧
      pending.closeFullBlock.last.size = s.log.lastBlockSize ∧
      log.isWriting = s.log.isWriting ∧ log.gpid = s.log.gpid ∧
      ((∀ image ∈ images, image.torn = []) → ∀ image ∈ images', image.torn = []) := by
  -- an empty buffer can be put at the end of a log that has a current file
  have hnew : ∀ {log : PrivateLog} {images' : List FileImage},
      RecordedLog.Kept setting { s with log := log } images' → log.pending = none →
      log.current.isSome → RecordedLog.Kept setting
        { s with log := { log with pending := some (.new log.globalEndOffset) } } images' := by
    intro log images' kept' hnone hcurrent
    refine { kept' with pending_follows := ?_, appended_eq := ?_ }
    · intro pending hpending
      cases hpending
      exact ⟨hcurrent, blocksFrom_new _ _⟩
    · rw [kept'.appended_eq]
      simp [pendingBlocks, hnone, LogAppender.new, LogAppender.allBlocks]
  have hsize : ∀ offset, (LogAppender.new offset).closeFullBlock.last.size = blockHeaderSize := by
    intro offset
    rfl
  cases hpending : s.log.pending with
  | some pending =>
    refine ⟨s.log, pending, images, ?_, ?_, ?_, rfl, rfl, id⟩
    · rw [PrivateLog.preparePending, hpending]
    · rw [← hpending]
      exact kept
    · rw [PrivateLog.lastBlockSize, hpending]
      rfl
  | none =>
    have hlast : s.log.lastBlockSize = blockHeaderSize := by
      rw [PrivateLog.lastBlockSize, hpending]
      rfl
    by_cases hneeds : s.log.needsNewFile setting.maxLogFileSize = true
    · obtain ⟨log, last, hcreate, kept', htorn, hnone, hcurrent, hwriting, hgpid⟩ :=
        kept.createNewLogFile hpending
      refine ⟨log, .new log.globalEndOffset, images ++ [last], ?_, hnew kept' hnone hcurrent,
        by rw [hsize, hlast], hwriting, hgpid, ?_⟩
      · rw [PrivateLog.preparePending, hpending]
        simp [hneeds, hcreate]
      · intro huntorn
        exact forall_mem_concat huntorn htorn
    · have hcurrent : s.log.current.isSome := by
        rw [PrivateLog.needsNewFile] at hneeds
        cases hfile : s.log.current with
        | none => simp [hfile] at hneeds
        | some file => rfl
      refine ⟨s.log, .new s.log.globalEndOffset, images, ?_, hnew kept hpending hcurrent,
        by rw [hsize, hlast], rfl, rfl, id⟩
      rw [PrivateLog.preparePending, hpending]
      simp [hneeds]

theorem addMutation (hpending : s.log.pending = some pending)
    {mu : MutationData} (hpid : mu.header.pid = s.log.gpid)
    (registered : ∀ update ∈ mu.updates, setting.codes.Registered update.code)
    (hshort : pending.closeFullBlock.last.size - blockHeaderSize +
      (mu.bytes setting.codes).length < 2 ^ 31) :
    RecordedLog.Kept setting
      { s with
        log := s.log.addMutation setting.codes pending mu
        appended := s.appended ++ [pending.place mu] } images := by
  obtain ⟨hcurrent, hblocks⟩ := kept.pending_follows pending hpending
  refine { kept with pending_follows := ?_, appended_eq := ?_, pid_eq := ?_ }
  · intro pending' hpending'
    cases hpending'
    exact ⟨hcurrent, hblocks.appendMutation registered hshort⟩
  · have happended := kept.appended_eq
    rw [hpending] at happended
    change s.appended ++ _ = s.written.flatMap _ ++ (LogAppender.allBlocks _).flatMap _
    rw [mutations_appendMutation, happended, append_assoc]
    rfl
  · exact forall_mem_concat kept.pid_eq hpid

theorem append {mu : MutationData} (fits : s.Fits setting (.append mu)) :
    ∃ s' images', s.step setting (.append mu) = some s' ∧ s'.Kept setting images' ∧
      ((∀ image ∈ images, image.torn = []) → ∀ image ∈ images', image.torn = []) ∧
      ∃ offset, s'.appended = s.appended ++ [mu.withLogOffset offset] := by
  obtain ⟨hpid, registered, hshort⟩ := fits
  obtain ⟨log, pending, images', hprepare, kept', hsize, hwriting, hgpid, huntorn⟩ :=
    kept.preparePending
  have hadded : RecordedLog.Kept setting
      { log := log.addMutation setting.codes pending mu
        appended := s.appended ++ [pending.place mu]
        written := s.written } images' :=
    kept'.addMutation rfl (hpid.trans hgpid.symm) registered (by rwa [hsize])
  by_cases hbusy : log.isWriting = true
  · refine ⟨_, images', ?_, hadded, huntorn, _, rfl⟩
    simp only [step, PrivateLog.append, hprepare, hbusy, if_true, append_nil]
  · obtain ⟨log', images'', hwrite, hkept, -, -, huntorn'⟩ := hadded.writePendingMutations rfl
    refine ⟨_, images'', ?_, hkept, fun h => huntorn' (huntorn h), _, rfl⟩
    have hidle : log.isWriting = false := by simpa using hbusy
    simp only [step, PrivateLog.append, hprepare, hidle, Bool.false_eq_true, if_false, hwrite]

end RecordedLog.Kept

/-! ### Opening -/

theorem noteReplayed_eq_some (accepts : MutationData → Bool) {gpid : UInt64}
    {mutations : List MutationData} (hpid : ∀ mu ∈ mutations, mu.header.pid = gpid)
    (maxDecree : Int64) :
    ∃ highest, noteReplayed accepts gpid mutations maxDecree = some highest := by
  induction mutations generalizing maxDecree with
  | nil => exact ⟨maxDecree, rfl⟩
  | cons mu rest ih =>
    have hrest := ih fun other hother => hpid other (mem_cons_of_mem _ hother)
    simp only [noteReplayed, hpid mu mem_cons_self, if_true]
    split
    · exact hrest _
    · exact hrest _

/-- **Opening files that are images** replays their mutations. -/
theorem opens_images (setting : LogSetting) {log : PrivateLog} {images : List FileImage}
    (hload : loadFiles log.dir = some ⟨.ok, images.map file, images.map file⟩)
    (chained : Chained images) (sound : ∀ image ∈ images, image.Sound setting.codes)
    (hpid : ∀ mu ∈ images.flatMap mutations, mu.header.pid = log.gpid)
    (hcurrent : log.current = none) (hpending : log.pending = none) :
    ∃ result, log.openLog setting.codes setting.accepts = some result ∧ result.err = .ok ∧
      result.replayed = images.flatMap mutations ∧
      result.log.dir = images.map file ∧
      result.endOffset = (images.getLast?.map dataEnd).getD 0 ∧
      result.log.gpid = log.gpid ∧
      (reopened result (images.flatMap blocks)).Kept setting images := by
  obtain ⟨highest, hnote⟩ := noteReplayed_eq_some setting.accepts hpid log.info.maxDecree
  have hopen : log.openLog setting.codes setting.accepts =
      some
        { err := .ok
          replayed := images.flatMap mutations
          endOffset := (images.getLast?.map dataEnd).getD 0
          log :=
            { log with
              dir := images.map file
              isOpened := true
              lastFileIndex := ((images.map file).getLast?.map DiskFile.index).getD 0
              globalEndOffset := (images.getLast?.map dataEnd).getD 0
              info := { log.info with maxDecree := highest } } } := by
    simp only [openLog, hload, replayLogs_images chained sound, hnote, ne_eq,
      not_true_eq_false, if_false, if_true]
  refine ⟨_, hopen, rfl, rfl, rfl, rfl, rfl, ?_⟩
  constructor
  · rfl
  · exact chained
  · exact sound
  · rfl
  · rw [reopened, List.getLast?_map, Option.map_map]
    rfl
  · intro file hfile
    exact absurd (hcurrent.symm.trans hfile) (by simp)
  · intro pending hsome
    exact absurd (hpending.symm.trans hsome) (by simp)
  · rfl
  · simp only [reopened, pendingBlocks, hpending]
    rw [flatMap_mutations]
    simp
  · exact hpid

/-! ### Crashes -/

section Crashes

variable {setting : LogSetting} {s : RecordedLog} {init : List FileImage} {last : FileImage}

theorem cutLast_images (cut : Nat) : cutLast cut ((init ++ [last]).map file) =
    init.map file ++ [{ last.file with content := last.file.content.take cut }] := by
  simp [cutLast]

variable (kept : s.Kept setting (init ++ [last]))
include kept

theorem writtenBefore_images (cut : Nat) :
    s.writtenBefore cut = init.flatMap blocks ++
      last.blocks.filter fun block => block.startOffset + block.size ≤ last.startOffset + cut := by
  have hcut : s.log.cutOffset cut = last.startOffset + cut := by simp [cutOffset, kept.dir_eq, file]
  rw [writtenBefore, kept.written_eq, hcut, flatMap_append, filter_append,
    flatMap_singleton, filter_eq_self.mpr]
  intro block hblock
  obtain ⟨image, himage, hblock⟩ := mem_flatMap.mp hblock
  have hextent := (kept.sound image (mem_append_left _ himage)).blocks.extent hblock
  have hbefore := (kept.chained.before_last himage).2
  rw [dataEnd] at hbefore
  simp only [decide_eq_true_eq]
  omega

theorem loads_headless {cut : Nat} (hcut : cut < last.front.length) :
    loadFiles (cutLast cut s.log.dir) =
        some ⟨.ok, init.map file, init.map file⟩ ∧
      s.writtenBefore cut = init.flatMap blocks := by
  constructor
  · rw [kept.dir_eq, cutLast_images]
    refine loadFiles_headless init ⟨last.headerBlock, headerBlock_short, ?_, ?_⟩
    · change (last.front ++ _).take cut <+: last.front
      rw [take_append_of_le_length hcut.le]
      exact take_prefix _ _
    · exact (length_take_le _ _).trans_lt hcut
  · rw [writtenBefore_images kept, filter_eq_nil_iff.mpr, append_nil]
    intro block hblock
    have hextent := (kept.sound last (by simp)).blocks.extent hblock
    simp only [decide_eq_true_eq]
    omega

theorem loads_cut {cut : Nat} (hcut : last.front.length ≤ cut) :
    ∃ last', loadFiles (cutLast cut s.log.dir) =
        some ⟨.ok, (init ++ [last']).map file, (init ++ [last']).map file⟩ ∧
      last'.index = last.index ∧ last'.startOffset = last.startOffset ∧
      last'.Sound setting.codes ∧ last'.blocks <+: last.blocks ∧
      s.writtenBefore cut = init.flatMap blocks ++ last'.blocks := by
  have sound := kept.sound last (by simp)
  obtain ⟨whole, lost, torn, hblocks, htake, htorn, hsize, hlost⟩ :=
    cut_blocks (fun block hblock => (sound.blocks.sound hblock).short) sound.torn
      (cut - last.front.length)
  have hfrom := sound.blocks
  rw [hblocks, blocksFrom_append] at hfrom
  set last' : FileImage := { last with blocks := whole, torn := torn } with hlast'
  have hcontent : last.file.content.take cut = last'.file.content := by
    change (last.front ++ (last.committed.1 ++ last.torn)).take cut =
      last.front ++ (last'.committed.1 ++ torn)
    rw [take_append, take_of_length_le hcut]
    exact congrArg (last.front ++ ·) htake
  refine ⟨last', ?_, rfl, rfl, ⟨hfrom.1, htorn⟩, ⟨lost, hblocks.symm⟩, ?_⟩
  · have hfile : { last.file with content := last.file.content.take cut } = last'.file := by
      rw [hcontent]
      rfl
    rw [kept.dir_eq, cutLast_images, hfile, ← map_singleton (f := file), ← map_append]
    exact loadFiles_images _
  · rw [writtenBefore_images kept, hblocks, filter_append, filter_eq_self.mpr,
      filter_eq_nil_iff.mpr, append_nil]
    · intro block hblock
      -- the first lost block ends after the cut, and so do those after it
      obtain ⟨first, rest, rfl⟩ := exists_cons_of_ne_nil (ne_nil_of_mem hblock)
      have hfirst := hlost first rest rfl
      simp only [decide_eq_true_eq]
      rcases mem_cons.mp hblock with rfl | hblock
      · have := hfrom.2.1
        omega
      · have := (BlocksFrom.extent hfrom.2.2.2 hblock).1
        omega
    · intro block hblock
      have hextent := hfrom.1.extent hblock
      simp only [decide_eq_true_eq]
      omega

omit kept

variable {images : List FileImage}

/-- **What a crash leaves can be opened**: the files are images of the blocks before the cut. -/
theorem loads_crashed (kept : s.Kept setting images) (cut : Nat) :
    ∃ images', loadFiles (s.log.crashed cut).dir =
        some ⟨.ok, images'.map file, images'.map file⟩ ∧
      Chained images' ∧ (∀ image ∈ images', image.Sound setting.codes) ∧
      images'.flatMap blocks = s.writtenBefore cut ∧
      s.writtenBefore cut <+: s.written := by
  change ∃ images', loadFiles (cutLast cut s.log.dir) = _ ∧ _
  rcases eq_nil_or_concat' images with rfl | ⟨init, last, rfl⟩
  · have hwritten : s.written = [] := kept.written_eq
    refine ⟨[], ?_, .nil, by simp, ?_, ?_⟩
    · rw [kept.dir_eq]
      rfl
    · simp [writtenBefore, hwritten]
    · simp [writtenBefore, hwritten]
  · have hwritten : s.written = init.flatMap blocks ++ last.blocks := by
      rw [kept.written_eq, flatMap_append, flatMap_singleton]
    have hinit := (forall_mem_append.mp kept.sound).1
    rcases lt_or_ge cut last.front.length with hcut | hcut
    · obtain ⟨hload, hbefore⟩ := loads_headless kept hcut
      refine ⟨init, hload, kept.chained.left_of_append, hinit, hbefore.symm, ?_⟩
      rw [hbefore, hwritten]
      exact prefix_append _ _
    · obtain ⟨last', hload, hindex, hstart, sound, hpre, hbefore⟩ := loads_cut kept hcut
      refine ⟨init ++ [last'], hload, kept.chained.replace_last hindex hstart, ?_, ?_, ?_⟩
      · exact forall_mem_concat hinit sound
      · rw [hbefore, flatMap_append, flatMap_singleton]
      · rw [hbefore, hwritten]
        exact prefix_append_right_inj _ |>.mpr hpre

/-- Opening the log after a crash replays what was written before the cut. -/
theorem opens_crashed (kept : s.Kept setting images) (cut : Nat) :
    ∃ result images', (s.log.crashed cut).openLog setting.codes setting.accepts = some result ∧
      result.err = .ok ∧
      result.replayed = (s.writtenBefore cut).flatMap LogBlock.mutations ∧
      result.replayed <+: s.appended ∧
      (reopened result (s.writtenBefore cut)).Kept setting images' := by
  obtain ⟨images', hload, chained, sound, hblocks, hpre⟩ := loads_crashed kept cut
  have hmutations : images'.flatMap mutations =
      (s.writtenBefore cut).flatMap LogBlock.mutations := by
    rw [flatMap_mutations, hblocks]
  have happended : (s.writtenBefore cut).flatMap LogBlock.mutations <+: s.appended := by
    rw [kept.appended_eq]
    exact (hpre.flatMap _).trans (prefix_append _ _)
  have hpid : ∀ mu ∈ images'.flatMap mutations, mu.header.pid = (s.log.crashed cut).gpid := by
    intro mu hmu
    rw [hmutations] at hmu
    exact kept.pid_eq mu (happended.subset hmu)
  obtain ⟨result, hopen, herr, hreplayed, -, -, -, hkept⟩ :=
    opens_images setting hload chained sound hpid rfl rfl
  rw [hmutations] at hreplayed
  exact ⟨result, images', hopen, herr, hreplayed, hreplayed ▸ happended, hblocks ▸ hkept⟩

end Crashes

/-! ### Runs -/

namespace RecordedLog

variable {setting : LogSetting} {s s' : RecordedLog} {images : List FileImage} {e : LogEvent}

variable (kept : s.Kept setting images)
include kept

/-- **Opening files without a crash** replays everything that was appended. -/
theorem opens_closed (hpending : s.log.pending = none) :
    ∃ result, s.log.initStates.openLog setting.codes setting.accepts = some result ∧
      result.err = .ok ∧ result.replayed = s.appended ∧
      result.log.dir = images.map file ∧
      result.endOffset = s.log.globalEndOffset ∧
      (reopened result s.written).Kept setting images := by
  have hmutations : images.flatMap mutations = s.appended := by
    rw [flatMap_mutations, ← kept.written_eq, kept.appended_eq, hpending]
    simp [pendingBlocks]
  have hload : loadFiles s.log.initStates.dir = some ⟨.ok, images.map file, images.map file⟩ := by
    change loadFiles s.log.dir = _
    rw [kept.dir_eq]
    exact loadFiles_images images
  obtain ⟨result, hopen, herr, hreplayed, hdir, hend, -, hkept⟩ :=
    opens_images setting hload kept.chained kept.sound
      (fun mu hmu => kept.pid_eq mu (hmutations ▸ hmu)) rfl rfl
  exact ⟨result, hopen, herr, hreplayed.trans hmutations, hdir, hend.trans kept.ends_at_last.symm,
    kept.written_eq ▸ hkept⟩

omit kept in
/-- What a log without a crash goes through: nothing is torn, and mutations are added at the end. -/
def Extends (images : List FileImage) (s : RecordedLog) (mutations : List MutationData)
    (images' : List FileImage) (s' : RecordedLog) : Prop :=
  ((∀ image ∈ images, image.torn = []) → ∀ image ∈ images', image.torn = []) ∧
    ∃ added, s'.appended = s.appended ++ added ∧
      added.map (·.withLogOffset 0) = mutations.map (·.withLogOffset 0)

omit kept in
theorem Extends.of_eq (h : s'.appended = s.appended) : Extends images s [] images s' :=
  ⟨id, [], by simp [h], rfl⟩

theorem close_kept :
    ∃ (t : RecordedLog) (images' : List FileImage),
      s.log.close = some t.log.initStates ∧ t.Kept setting images' ∧
      t.log.pending = none ∧ t.appended = s.appended ∧
      t.written = s.written ++ pendingBlocks s.log.pending ∧
      ((∀ image ∈ images, image.torn = []) → ∀ image ∈ images', image.torn = []) := by
  cases hpending : s.log.pending with
  | none =>
    refine ⟨s, images, ?_, kept, hpending, rfl, by simp [pendingBlocks], id⟩
    rw [close, hpending]
  | some pending =>
    obtain ⟨log, images', hwrite, hkept, hnone, -, huntorn⟩ := kept.writePendingMutations hpending
    refine ⟨_, images', ?_, hkept, hnone, rfl, rfl, huntorn⟩
    rw [close, hpending]
    simp only [hwrite, map_some]

theorem writeCompleted_kept (hstep : s.step setting .writeCompleted = some s') :
    ∃ images', s'.Kept setting images' ∧ Extends images s [] images' s' := by
  obtain ⟨log, hlog, rfl⟩ := map_eq_some_iff.mp hstep
  obtain ⟨-, hlog⟩ := ite_none_right_eq_some.mp hlog
  cases hpending : s.log.pending with
  | none =>
    simp only [hpending, some.injEq] at hlog
    subst hlog
    have happended := kept.appended_eq
    rw [hpending] at happended
    refine ⟨images, ?_, .of_eq rfl⟩
    simp only [pendingBlocks, map_none, getD_none, append_nil]
    exact { kept with pending_follows := by simp, appended_eq := happended }
  | some pending =>
    simp only [hpending] at hlog
    obtain ⟨log', images', hwrite, hkept, -, -, huntorn⟩ := kept.writePendingMutations hpending
    obtain rfl := mem_unique hwrite hlog
    exact ⟨images', hkept, huntorn, [], by simp, rfl⟩

theorem reopen_kept (hstep : s.step setting .reopen = some s') :
    ∃ images', s'.Kept setting images' ∧ Extends images s [] images' s' := by
  obtain ⟨t, images', hclose, hkept, hnone, happended, hwritten, huntorn⟩ := close_kept kept
  obtain ⟨result, hopen, herr, hreplayed, -, -, hkept'⟩ := opens_closed hkept hnone
  simp only [step, hclose, bind_some, hopen, herr, if_true, some.injEq] at hstep
  subst hstep
  refine ⟨images', hwritten ▸ hkept', huntorn, [], ?_, rfl⟩
  rw [append_nil]
  exact hreplayed.trans happended

/-- **One event keeps the log in shape**, and without a crash only adds to it. -/
theorem step_kept (fits : s.Fits setting e) (hstep : s.step setting e = some s') :
    ∃ images', s'.Kept setting images' ∧
      (e.isRestart = false → Extends images s e.mutation?.toList images' s') := by
  cases e with
  | append mu =>
    obtain ⟨t, images', ht, hkept, huntorn, offset, happended⟩ := kept.append fits
    obtain rfl := mem_unique ht hstep
    exact ⟨images', hkept, fun _ => ⟨huntorn, _, happended, rfl⟩⟩
  | writeCompleted =>
    obtain ⟨images', hkept, hextends⟩ := writeCompleted_kept kept hstep
    exact ⟨images', hkept, fun _ => hextends⟩
  | hintSwitchFile =>
    cases hstep
    exact ⟨images, { kept with }, fun _ => .of_eq rfl⟩
  | demandSwitchFile =>
    cases hstep
    exact ⟨images, { kept with }, fun _ => .of_eq rfl⟩
  | reopen =>
    obtain ⟨images', hkept, hextends⟩ := reopen_kept kept hstep
    exact ⟨images', hkept, fun _ => hextends⟩
  | restart cut =>
    obtain ⟨result, images', hopen, herr, -, -, hkept⟩ := opens_crashed kept cut
    simp only [step, hopen, herr, if_true, some.injEq] at hstep
    subst hstep
    exact ⟨images', hkept, fun h => by cases h⟩

/-- **Runs.** Whatever happens, the files stay images of the written blocks; without a crash, what
is appended is added at the end. -/
theorem run_kept {events : List LogEvent} (hrun : run (step setting) s events = some s')
    (hfits : StepsMeet (step setting) (Fits setting) s events) :
    ∃ images', s'.Kept setting images' ∧ ((∀ e ∈ events, e.isRestart = false) →
      Extends images s (events.filterMap LogEvent.mutation?) images' s') := by
  induction events generalizing s images with
  | nil =>
    cases hrun
    exact ⟨images, kept, fun _ => .of_eq rfl⟩
  | cons e rest ih =>
    obtain ⟨t, hstep, hrest⟩ := run_cons_eq_some.mp hrun
    obtain ⟨images₁, hkept₁, hextends₁⟩ := step_kept kept hfits.1 hstep
    obtain ⟨images', hkept', hextends'⟩ := ih hkept₁ hrest (hfits.2 t hstep)
    refine ⟨images', hkept', fun hcrash => ?_⟩
    obtain ⟨huntorn₁, added₁, happended₁, hadded₁⟩ := hextends₁ (hcrash e mem_cons_self)
    obtain ⟨huntorn', added', happended', hadded'⟩ :=
      hextends' fun e' he' => hcrash e' (mem_cons_of_mem _ he')
    refine ⟨fun h => huntorn' (huntorn₁ h), added₁ ++ added', ?_, ?_⟩
    · rw [happended', happended₁, append_assoc]
    · rw [map_append, hadded₁, hadded']
      cases hmutation : e.mutation? <;> simp [hmutation]

omit kept

theorem created_kept (setting : LogSetting) (gpid : UInt64) : (created gpid).Kept setting [] where
  dir_eq := rfl
  chained := .nil
  sound := by simp
  ends_at_last := rfl
  lastFileIndex_eq := rfl
  current_last := by simp [created]
  pending_follows := by simp [created]
  written_eq := rfl
  appended_eq := rfl
  pid_eq := by simp [created]

/-! ### Bodies that are too long -/

variable {image : FileImage} {block : LogBlock} {left : ByteString}

variable (hleft : 2 * streamBufferBytes < left.length)
include hleft

/-- A file whose first block of mutations is too long, or what is left of that block, cannot be
replayed if it goes on behind the buffers of the stream. -/
theorem replay_long {codes : TaskCodes} (hblocks : image.blocks = [])
    (hlong : 2 ^ 31 ≤ block.body.length) (hlength : block.body.length < 2 ^ 32)
    (htorn : image.torn = (block.header image.startOffset image.committed.2).bytes ++ left) :
    image.file.replay codes = none := by
  have hcommitted : image.committed =
      ([], (image.headerBlock.header image.startOffset 0).bodyCrc) := by
    rw [committed, hblocks]
    rfl
  have hdrop : image.file.content.drop image.front.length = image.torn := by simp [file, hcommitted]
  have hfront : image.front.length ≠ 0 := by simpa using image.front_ne_nil
  have hstart : (image.startOffset + image.front.length - image.file.startOffset).toNat =
      image.front.length := by
    simp [file]
  have hbuffered : buffered (advanceBuffers (advanceBuffers 0 (0 + blockHeaderSize))
      image.front.length) (image.front.length + blockHeaderSize) < left.length := by
    rw [show image.front.length = 60 from FileImage.length_front]
    exact lt_of_le_of_lt (by decide) hleft
  obtain ⟨n, hn⟩ : ∃ n, image.file.content.length = n + 1 :=
    ⟨image.file.content.length - 1, by rw [image.length_content]; omega⟩
  rw [hcommitted] at htorn
  rw [DiskFile.replay, DiskFile.replayFrom, replayBlock_front]
  simp only [ne_eq, not_true_eq_false, if_false, hstart, hn]
  rw [DiskFile.replayFrom, DiskFile.replayBlock, if_neg hfront, hdrop, htorn,
    readNextLogBlock_long hlong hlength hbuffered]
  rfl

theorem openLog_long {log : PrivateLog} (hdir : log.dir = [image.file])
    (hblocks : image.blocks = []) (hlong : 2 ^ 31 ≤ block.body.length)
    (hlength : block.body.length < 2 ^ 32)
    (htorn : image.torn = (block.header image.startOffset image.committed.2).bytes ++ left) :
    log.openLog setting.codes setting.accepts = none := by
  have hload : loadFiles log.dir = some ⟨.ok, [image.file], [image.file]⟩ := by
    rw [hdir]
    exact loadFiles_images [image]
  have hreplay : replayLogs setting.codes [image.file] = none := by
    simp only [replayLogs, checkLogFilesContinuity, if_true, List.head?_cons, map_some,
      getD_some, replayFiles, ne_eq, not_true_eq_false, if_false,
      replay_long hleft hblocks hlong hlength htorn]
  simp only [openLog, hload, ne_eq, not_true_eq_false, if_false, hreplay]

omit hleft

theorem first_append (setting : LogSetting) (gpid : UInt64) (mu : MutationData) :
    ∃ (s : RecordedLog) (image : FileImage) (block : LogBlock),
      run (step setting) (created gpid) [.append mu] = some s ∧
      s.log.pending = none ∧ s.log.dir = [image.file] ∧ image.blocks = [] ∧
      image.torn = block.bytes image.startOffset image.committed.2 ∧
      block.body.length = (mu.bytes setting.codes).length := by
  obtain ⟨log, last, hcreate, kept, htorn, hnone, hcurrent, hwriting, -⟩ :=
    (created_kept setting gpid).createNewLogFile rfl
  obtain ⟨file, hfile⟩ := isSome_iff_exists.mp hcurrent
  obtain ⟨_, hlast, hindex, hstart, hcrc, -⟩ := kept.current_last file hfile
  cases hlast
  have hblocks : last.blocks = [] := by simpa [created] using kept.written_eq.symm
  have hend : log.globalEndOffset = last.dataEnd := kept.ends_at_last
  have hidle : log.isWriting = false := hwriting
  have hprepare : (created gpid).log.preparePending setting.maxLogFileSize =
      some (log, .new log.globalEndOffset) := by
    have hempty : (created gpid).log.pending = none := rfl
    have hneeds : (created gpid).log.needsNewFile setting.maxLogFileSize = true := rfl
    rw [preparePending, hempty]
    simp only [hneeds, if_true, hcreate, map_some]
  set added := log.addMutation setting.codes (.new log.globalEndOffset) mu with hadded
  set pending := (LogAppender.new log.globalEndOffset).appendMutation setting.codes mu with hpending
  have hoffset : pending.startOffset = log.globalEndOffset := rfl
  have hwrite : added.writePendingMutations pending =
      some (added.commitPendingMutations file pending) := by
    have hcurrent' : added.current = some file := hfile
    rw [writePendingMutations, hcurrent']
    exact if_pos hoffset.symm
  have hdir : (added.commitPendingMutations file pending).dir =
      ([] ++ [last.extend pending.allBlocks]).map FileImage.file :=
    Kept.commit_dir kept.chained kept.dir_eq hindex hstart hcrc htorn (hoffset.trans hend)
  refine ⟨{ log := added.commitPendingMutations file pending,
            appended := [(LogAppender.new log.globalEndOffset).place mu],
            written := pending.allBlocks },
    { last with torn := pending.last.bytes last.startOffset last.committed.2 }, pending.last,
    ?_, rfl, ?_, hblocks, rfl, ?_⟩
  · simp only [run, step, append, hprepare, hidle, Bool.false_eq_true,
      if_false, ← hpending, ← hadded, hwrite, bind_some]
    rfl
  · rw [hdir]
    refine congrArg (fun content => [DiskFile.mk last.index last.startOffset content]) ?_
    change (last.extend pending.allBlocks).file.content =
      last.front ++ (last.committed.1 ++ pending.last.bytes last.startOffset last.committed.2)
    rw [FileImage.content_extend htorn]
    have hall : pending.allBlocks = [pending.last] := rfl
    simp [hall, FileImage.file, htorn, commitLogBlocks]
  · change ((LogAppender.new log.globalEndOffset).place mu |>.writeTo setting.codes).flatten.length = _
    exact length_bytes_withLogOffset setting.codes mu _

def twoCodes : TaskCodes where
  names := [[0x49, 0x4e, 0x56], [0x50, 0x55, 0x54]]
  nodup := by decide

/-- A log that switches files at 200 bytes, read by a replica that takes everything. -/
def smallFiles : LogSetting where
  codes := twoCodes
  maxLogFileSize := 200
  accepts := fun _ => true

def putOf (decree : Int64) (data : ByteString) : MutationData where
  header := { pid := 1, ballot := 1, decree := decree, lastCommittedDecree := 0, timestamp := 7 }
  updates := [{ code := 1, serializationType := 1, data := data }]

theorem length_putOf (decree : Int64) (data : ByteString) :
    ((putOf decree data).bytes twoCodes).length = 75 + data.length := by
  simp only [MutationData.bytes, MutationData.writeTo, MutationData.front, MutationHeader.bytes,
    putOf, flatMap_cons, flatMap_nil, MutationUpdate.preamble, flatten_cons,
    map_cons, map_nil, flatten_nil, length_append, Pod.length_bytes, Pod.width,
    length_nil]
  have hname : (twoCodes.toString 1).length = 3 := rfl
  omega

/-- Data of `2 ^ 31` bytes: its length is the first that an `int` does not hold. -/
def longData : ByteString := List.replicate (2 ^ 31) 0

theorem length_longData : longData.length = 2 ^ 31 := length_replicate

/-- Two mutations in one file and a third in the next. -/
def threePuts : List LogEvent :=
  [.append (putOf 1 [1, 2]), .append (putOf 2 []), .writeCompleted, .writeCompleted,
    .append (putOf 3 [3])]

theorem threePuts_fits : StepsMeet (step smallFiles) (Fits smallFiles) (created 1) threePuts := by
  refine ⟨⟨rfl, by decide, by decide⟩, ?_⟩
  rintro _ ⟨⟩
  refine ⟨⟨rfl, by decide, by decide⟩, ?_⟩
  rintro _ ⟨⟩
  refine ⟨trivial, ?_⟩
  rintro _ ⟨⟩
  refine ⟨trivial, ?_⟩
  rintro _ ⟨⟩
  exact ⟨⟨rfl, by decide, by decide⟩, fun _ _ => trivial⟩

/-- **Write, then replay.** After any run without a crash whose appends all fit, and with nothing
left to be written, opening the files replays the mutations that were appended, in order and
unchanged but for the offset they got, finds every file to start where the one before it ends, and
ends at the end offset of the writer. -/
theorem write_then_replay {gpid : UInt64} {events : List LogEvent}
    (hrun : run (step setting) (created gpid) events = some s)
    (hfits : StepsMeet (step setting) (Fits setting) (created gpid) events)
    (hcrash : ∀ e ∈ events, e.isRestart = false) (hpending : s.log.pending = none) :
    ∃ result, s.log.initStates.openLog setting.codes setting.accepts = some result ∧
      result.err = .ok ∧ result.replayed = s.appended ∧
      s.appended.map (·.withLogOffset 0) =
        (events.filterMap LogEvent.mutation?).map (·.withLogOffset 0) ∧
      result.log.dir.IsChain (fun file next => next.startOffset = file.endOffset) ∧
      result.endOffset = s.log.globalEndOffset := by
  obtain ⟨images, hkept, hextends⟩ := run_kept (created_kept setting gpid) hrun hfits
  obtain ⟨huntorn, added, happended, hadded⟩ := hextends hcrash
  obtain ⟨result, hopen, herr, hreplayed, hdir, hend, -⟩ := opens_closed hkept hpending
  refine ⟨result, hopen, herr, hreplayed, ?_, ?_, hend⟩
  · rw [happended]
    exact hadded
  · rw [hdir]
    exact images_contiguous hkept.chained (huntorn (by simp))

/-- The two files of `threePuts` are replayed. -/
theorem write_then_replay_threePuts :
    ∃ s, run (step smallFiles) (created 1) threePuts = some s ∧
      s.log.dir.length = 2 ∧
      ∃ result, s.log.initStates.openLog smallFiles.codes smallFiles.accepts = some result ∧
        result.err = .ok ∧ result.replayed = s.appended ∧
        s.appended.map (·.withLogOffset 0) = [putOf 1 [1, 2], putOf 2 [], putOf 3 [3]] ∧
        result.log.dir.IsChain (fun file next => next.startOffset = file.endOffset) ∧
        result.endOffset = s.log.globalEndOffset :=
  ⟨_, rfl, rfl, write_then_replay rfl threePuts_fits (by decide) rfl⟩

/-- A mutation with an update of `2 ^ 31` bytes is written, in a block whose length is negative when
it is read: the log cannot be opened any more. -/
theorem long_mutation_not_replayed :
    ∃ s, run (step smallFiles) (created 1) [.append (putOf 1 longData)] = some s ∧
      s.log.pending = none ∧
      s.log.initStates.openLog smallFiles.codes smallFiles.accepts = none := by
  obtain ⟨s, image, block, hrun, hpending, hdir, hblocks, htorn, hlength⟩ :=
    first_append smallFiles 1 (putOf 1 longData)
  have hbody : block.body.length = 75 + 2 ^ 31 := by
    rw [hlength, ← length_longData]
    exact length_putOf 1 longData
  have hleft : 2 * streamBufferBytes < block.body.length := by
    rw [hbody]
    decide
  exact ⟨s, hrun, hpending, openLog_long hleft hdir hblocks (by omega) (by omega) htorn⟩

/-- **Crash recovery.** After any run whose appends all fit, with the last file cut at any byte, the
log opens and replays the mutations of the written blocks that lie wholly before the cut, a prefix
of what was appended. If it is then used without another crash until nothing is left to be
written, opening it again replays that prefix and what was appended since, in order and unchanged
but for the offsets. -/
theorem crash_recovery {gpid : UInt64} {events : List LogEvent}
    (hrun : run (step setting) (created gpid) events = some s)
    (hfits : StepsMeet (step setting) (Fits setting) (created gpid) events)
    (cut : Nat) :
    ∃ result, (s.log.crashed cut).openLog setting.codes setting.accepts = some result ∧
      result.err = .ok ∧ result.replayed <+: s.appended ∧
      result.replayed = (s.writtenBefore cut).flatMap LogBlock.mutations ∧
      ∀ more t,
        run (step setting) (reopened result (s.writtenBefore cut)) more = some t →
        StepsMeet (step setting) (Fits setting)
          (reopened result (s.writtenBefore cut)) more →
        (∀ e ∈ more, e.isRestart = false) → t.log.pending = none →
        ∃ again added, t.log.initStates.openLog setting.codes setting.accepts = some again ∧
          again.err = .ok ∧ again.replayed = result.replayed ++ added ∧
          added.map (·.withLogOffset 0) =
            (more.filterMap LogEvent.mutation?).map (·.withLogOffset 0) := by
  obtain ⟨images, hkept, -⟩ := run_kept (created_kept setting gpid) hrun hfits
  obtain ⟨result, images', hopen, herr, hreplayed, hpre, hkept'⟩ := opens_crashed hkept cut
  refine ⟨result, hopen, herr, hpre, hreplayed, ?_⟩
  intro more t hmore hfits' hcrash hpending
  obtain ⟨images'', hkept'', hextends⟩ := run_kept hkept' hmore hfits'
  obtain ⟨-, added, happended, hadded⟩ := hextends hcrash
  obtain ⟨again, hagain, herr', hreplayed', -⟩ := opens_closed hkept'' hpending
  exact ⟨again, added, hagain, herr', hreplayed'.trans happended, hadded⟩

/-- The second file of `threePuts` is cut in its header, and used again. -/
theorem crash_recovery_threePuts :
    ∃ s, run (step smallFiles) (created 1) threePuts = some s ∧
      ∃ result, (s.log.crashed 20).openLog smallFiles.codes smallFiles.accepts = some result ∧
        result.err = .ok ∧ result.replayed <+: s.appended ∧
        result.replayed = (s.writtenBefore 20).flatMap LogBlock.mutations := by
  obtain ⟨result, hopen, herr, hpre, hreplayed, -⟩ :=
    crash_recovery rfl threePuts_fits 20
  exact ⟨_, rfl, result, hopen, herr, hpre, hreplayed⟩

/-- The same after a crash: cut in the body of that block, behind the buffers of the stream, the
file cannot be opened. -/
theorem long_mutation_not_recovered :
    ∃ s, run (step smallFiles) (created 1) [.append (putOf 1 longData)] = some s ∧
      (s.log.crashed (3 * streamBufferBytes)).openLog smallFiles.codes smallFiles.accepts = none := by
  obtain ⟨s, image, block, hrun, -, hdir, hblocks, htorn, hlength⟩ :=
    first_append smallFiles 1 (putOf 1 longData)
  have hbody : block.body.length = 75 + 2 ^ 31 := by
    rw [hlength, ← length_longData]
    exact length_putOf 1 longData
  refine ⟨s, hrun, ?_⟩
  -- 60 bytes of the header of the file and 16 of that of the block are before the cut
  have hcut : (s.log.crashed (3 * streamBufferBytes)).dir =
      [({ image with
          torn := (block.header image.startOffset image.committed.2).bytes ++
            block.body.take (3 * streamBufferBytes - 76) } : FileImage).file] := by
    have hfront : image.front.length = 60 := FileImage.length_front
    have hcommitted : image.committed.1 = [] := by
      rw [FileImage.committed, hblocks]
      rfl
    have hcontent : image.file.content.take (3 * streamBufferBytes) = image.front ++
        ((block.header image.startOffset image.committed.2).bytes ++
          block.body.take (3 * streamBufferBytes - 76)) := by
      simp only [FileImage.file, hcommitted, nil_append, htorn, LogBlock.bytes]
      rw [take_append, hfront, take_of_length_le (by rw [hfront]; decide), take_append,
        take_of_length_le (by rw [length_header]; decide), length_header]
      rfl
    change PrivateLog.cutLast (3 * streamBufferBytes) s.log.dir = _
    rw [hdir]
    refine congrArg (fun content => [DiskFile.mk image.index image.startOffset content]) ?_
    change image.file.content.take (3 * streamBufferBytes) = image.front ++ (image.committed.1 ++ _)
    rw [hcontent, hcommitted, nil_append]
  have hleft : 2 * streamBufferBytes < (block.body.take (3 * streamBufferBytes - 76)).length := by
    rw [length_take, hbody]
    decide
  exact openLog_long hleft hcut hblocks (by omega) (by omega) rfl

end RecordedLog

end Pegasus.Log
