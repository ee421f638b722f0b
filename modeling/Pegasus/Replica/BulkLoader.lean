/-
The bulk loader of a replica, after `replica_bulk_loader.cpp`.

The files of a bulk load are downloaded one after another by background tasks, each of which
enqueues the next one. Whether the download has ended is judged by a count of bytes to which every
download task adds. Requests, pauses and role changes clear the count and cancel the tasks, but a
task that is already running goes on, and may find the status of the next round.

- `progressOf`: the progress in doubles;
- `progressOf_self`, `progressOf_lt`: it is a hundred exactly when all bytes are counted.
-/

import Pegasus.Common
import Pegasus.Lib.Run
import Pegasus.Lib.Binary64

namespace Pegasus.Replica.BulkLoad

open Binary64

inductive BulkLoadStatus where
  | invalid
  | downloading
  | downloaded
  | ingesting
  | succeed
  | failed
  | pausing
  | paused
  | canceled
deriving DecidableEq

inductive Role where
  | primary
  | secondary
  | other
deriving DecidableEq

structure FileMeta where
  name : String
  size : Int
  md5 : String := ""
deriving DecidableEq

/-- `bulk_load_metadata`. -/
structure Metadata where
  files : List FileMeta := []
  fileTotalSize : Int := 0
deriving DecidableEq

inductive Waiting where
  /-- `download_files`. -/
  | files
  /-- `download_sst_file` with the files that are left; the last one is downloaded first. -/
  | sstFile (rest : List FileMeta)
deriving DecidableEq

/-- A background task that runs, by what it does next. -/
inductive Running where
  /-- `download_files`: downloads the metadata and parses it. -/
  | metadata
  /-- `download_files`: enqueues the first file. -/
  | parsed
  /-- `download_sst_file`, behind the check of the status: downloads a file. -/
  | fetch (rest : List FileMeta)
  /-- `download_sst_file`: a file was downloaded and verified; updates the progress. -/
  | update (rest : List FileMeta) (fSize : Nat)
  /-- `download_sst_file`: enqueues the next file. -/
  | next (rest : List FileMeta)
deriving DecidableEq

structure Loader where
  role : Role := .other
  status : BulkLoadStatus := .invalid
  metadata : Metadata := {}
  /-- `_cur_downloaded_size`. -/
  curDownloadedSize : Nat := 0
  downloadProgress : Int := 0
  waiting : List Waiting := []
  running : List Running := []
  /-- How many tasks for `check_download_finish` are queued. -/
  checks : Nat := 0
  /-- The sizes of the files in the local directory. -/
  dir : String → Option Int := fun _ => none

/-- What the block service does for a download: it fails, perhaps with a file left behind, or
returns the size and the md5 of the file it wrote. -/
inductive Fetched where
  | failed (left : Option Int)
  | ok (size : Nat) (md5 : String)
deriving DecidableEq

structure Request where
  metaStatus : BulkLoadStatus
  /-- Too many replicas of the node are downloading. -/
  busy : Bool := false
  /-- The local directory can be created. -/
  dirCreated : Bool := true
  /-- The old local directory can be renamed. -/
  dirRemoved : Bool := true
  /-- What `is_cleaned_up` returns in the status `BLS_INVALID`. -/
  cleanedUp : Bool := false
deriving DecidableEq

inductive Event where
  /-- `do_bulk_load`, for a request of the meta server or of the primary. -/
  | request (req : Request)
  | changeRole (role : Role)
  /-- A worker takes a task from the queue. -/
  | start (i : Nat)
  /-- `download_files` has the metadata, or has failed. -/
  | metadata (i : Nat) (loaded : Option Metadata)
  /-- `download_files` enqueues the first file. -/
  | first (i : Nat)
  /-- `download_sst_file` downloads a file; `removed` tells whether a file of the wrong size can be
  removed. -/
  | fetch (i : Nat) (removed : Bool) (fetched : Fetched)
  | update (i : Nat)
  | next (i : Nat)
  /-- `check_download_finish`. -/
  | check
deriving DecidableEq

def PROGRESS_FINISHED : Int := 100

/-- `(cur_downloaded_size / total_size) * 100` in doubles, cast to an integer. -/
def progressOf (curDownloadedSize : Nat) (totalSize : Int) : Int :=
  let ratio := round53
    (round53 curDownloadedSize / round53 totalSize)
  ⌊round53 (ratio * 100)⌋

def validateStatus (metaStatus localStatus : BulkLoadStatus) : Bool :=
  match metaStatus with
  | .downloading => !(localStatus = .failed ∨ localStatus = .pausing ∨ localStatus = .canceled)
  | .downloaded => localStatus = .downloaded
  | .ingesting => localStatus = .downloaded ∨ localStatus = .ingesting
  | .succeed =>
    localStatus = .downloaded ∨ localStatus = .ingesting ∨ localStatus = .succeed ∨
      localStatus = .invalid
  | .pausing =>
    localStatus = .invalid ∨ localStatus = .downloading ∨ localStatus = .downloaded ∨
      localStatus = .pausing ∨ localStatus = .paused
  | .paused => false
  | .invalid | .failed | .canceled => true

namespace Loader

/-- `clear_bulk_load_states`. The tasks in the queue are cancelled, those that run are not. -/
def clearBulkLoadStates (l : Loader) : Loader :=
  { l with
    status := .invalid
    metadata := {}
    curDownloadedSize := 0
    downloadProgress := 0
    waiting := [] }

def removeLocalBulkLoadDir (l : Loader) (removed : Bool) : Loader :=
  { l with dir := if removed then fun _ => none else l.dir }

def startDownload (l : Loader) (req : Request) : Loader :=
  if req.busy then l
  else
    let l := if l.status = .invalid then l.removeLocalBulkLoadDir req.dirRemoved else l
    { l.clearBulkLoadStates with
      status := .downloading
      waiting := if req.dirCreated then [.files] else [] }

def pauseBulkLoad (l : Loader) : Loader :=
  if l.status = .paused then l
  else { l with status := .paused, waiting := if l.status = .downloading then [] else l.waiting }

def handleBulkLoadFinish (l : Loader) (req : Request) : Loader :=
  if l.status = .invalid ∧ req.cleanedUp then l
  else (l.removeLocalBulkLoadDir req.dirRemoved).clearBulkLoadStates

/-- The local statuses in which a request to download starts a round. -/
def startsDownload (l : Loader) : Bool :=
  l.status = .invalid ∨ l.status = .paused ∨ l.status = .ingesting ∨ l.status = .succeed

def doBulkLoad (l : Loader) (req : Request) : Loader :=
  if l.role = .other then l
  else if validateStatus req.metaStatus l.status = false then l
  else
    match req.metaStatus with
    | .downloading => if l.startsDownload then l.startDownload req else l
    | .ingesting => if l.status = .downloaded then { l with status := .ingesting } else l
    | .succeed =>
      if l.status = .downloaded ∨ l.status = .ingesting then { l with status := .succeed }
      else l.handleBulkLoadFinish req
    | .pausing => l.pauseBulkLoad
    | .canceled | .failed => l.handleBulkLoadFinish req
    | .invalid | .downloaded | .paused => l

/-- `clear_bulk_load_states_if_needed`, with the new role. -/
def changeRole (l : Loader) (role : Role) : Loader :=
  let cleared :=
    if (role = .primary ∨ role = .secondary) ∧ role ≠ l.role ∧
        ¬(l.status = .succeed ∨ l.status = .canceled ∨ l.status = .failed ∨
          l.status = .invalid) then
      l.clearBulkLoadStates
    else l
  { cleared with role := role }

/-- The download of one file: the local directory, and the size if the file is verified. A file
that is there already is verified by its size. -/
def fetchFile (dir : String → Option Int) (f : FileMeta) (removed : Bool) (fetched : Fetched) :
    (String → Option Int) × Option Nat :=
  match dir f.name with
  | none => download dir
  | some size =>
    if size = f.size then (dir, some (f.size % 2 ^ 64).toNat)
    else if removed then download (Function.update dir f.name none)
    else (dir, none)
where
  /-- `download_file`, and the check of md5 and size. -/
  download (dir : String → Option Int) : (String → Option Int) × Option Nat :=
    match fetched with
    | .failed left => (Function.update dir f.name left, none)
    | .ok size md5 =>
      (Function.update dir f.name (some size),
        if (f.md5 ≠ "" ∧ md5 ≠ f.md5) ∨ (size : Int) ≠ f.size then none else some size)

/-- `update_bulk_load_download_progress`, with the task for `check_download_finish`. -/
def updateProgress (l : Loader) (fSize : Nat) : Loader :=
  if l.metadata.fileTotalSize ≤ 0 then l
  else
    let size := (l.curDownloadedSize + fSize) % 2 ^ 64
    { l with
      curDownloadedSize := size
      downloadProgress := progressOf size l.metadata.fileTotalSize
      checks := l.checks + 1 }

def leave (l : Loader) (i : Nat) : Loader := { l with running := l.running.eraseIdx i }

def goTo (l : Loader) (i : Nat) (task : Running) : Loader :=
  { l with running := l.running.set i task }

/-- A worker takes a task from the queue; `download_sst_file` checks the status first. -/
def startTask (l : Loader) (i : Nat) (task : Waiting) : Loader :=
  let l := { l with waiting := l.waiting.eraseIdx i }
  match task with
  | .files => { l with running := l.running ++ [.metadata] }
  | .sstFile rest =>
    if l.status = .downloading then { l with running := l.running ++ [.fetch rest] } else l

/-- `download_files` with its metadata. The metadata is overwritten before it is checked. -/
def loadMetadata (l : Loader) (i : Nat) : Option Metadata → Loader
  | none => l.leave i
  | some m =>
    let l := { l with metadata := m }
    if m.fileTotalSize ≤ 0 then l.leave i else l.goTo i .parsed

def enqueueFile (l : Loader) (rest : List FileMeta) : Loader :=
  if rest = [] then l else { l with waiting := l.waiting ++ [.sstFile rest] }

def checkDownloadFinish (l : Loader) : Loader :=
  if l.downloadProgress = PROGRESS_FINISHED ∧ l.status = .downloading then
    { l with status := .downloaded, waiting := [] }
  else l

def step (l : Loader) : Event → Option Loader
  | .request req => some (l.doBulkLoad req)
  | .changeRole role => some (l.changeRole role)
  | .start i => (l.waiting[i]?).map (l.startTask i)
  | .metadata i loaded =>
    if l.running[i]? = some .metadata then some (l.loadMetadata i loaded) else none
  | .first i =>
    if l.running[i]? = some .parsed then some ((l.leave i).enqueueFile l.metadata.files) else none
  | .fetch i removed fetched =>
    match l.running[i]? with
    | some (.fetch rest) => (rest.getLast?).map fun f =>
      let (dir, verified) := fetchFile l.dir f removed fetched
      let l := { l with dir := dir }
      match verified with
      | none => l.leave i
      | some fSize => l.goTo i (.update rest fSize)
    | _ => none
  | .update i =>
    match l.running[i]? with
    | some (.update rest fSize) => some ((l.updateProgress fSize).goTo i (.next rest))
    | _ => none
  | .next i =>
    match l.running[i]? with
    | some (.next rest) => some ((l.leave i).enqueueFile rest.dropLast)
    | _ => none
  | .check =>
    if l.checks = 0 then none else some { l.checkDownloadFinish with checks := l.checks - 1 }

end Loader

/-! ### The progress -/

theorem progressOf_zero (total : Int) : progressOf 0 total = 0 := by simp [progressOf]

theorem progressOf_self {total : Nat} (hpos : 0 < total) (hsmall : total ≤ 2 ^ 53) :
    progressOf total total = PROGRESS_FINISHED := by
  have hne : (total : ℚ) ≠ 0 := by exact_mod_cast hpos.ne'
  have hone : round53 1 = 1 := by exact_mod_cast round53_natCast (show 1 ≤ 2 ^ 53 by norm_num)
  have hhundred : round53 100 = 100 := by
    exact_mod_cast round53_natCast (show 100 ≤ 2 ^ 53 by norm_num)
  simp only [progressOf, Int.cast_natCast, round53_natCast hsmall, div_self hne, hone,
    one_mul, hhundred, PROGRESS_FINISHED]
  norm_num

/-- A ratio below one stays below one by the last bit of its doubles. -/
theorem round53_ratio {cur total : Nat} (hlt : cur < total) (hsmall : total ≤ 2 ^ 53) :
    round53 ((cur : ℚ) / total) ≤ 1 - 2 ^ (-53 : ℤ) := by
  have htotal : (0 : ℚ) < total := by exact_mod_cast (Nat.zero_le cur).trans_lt hlt
  rcases Nat.eq_zero_or_pos cur with rfl | hcur
  · norm_num
  have hpos : (0 : ℚ) < (cur : ℚ) / total := div_pos (by exact_mod_cast hcur) htotal
  have hle : (cur : ℚ) / total ≤ 1 - 2 ^ (-53 : ℤ) := by
    have hstep : (cur : ℚ) + 1 ≤ total := by exact_mod_cast hlt
    have hsmall' : (total : ℚ) ≤ 2 ^ 53 := by exact_mod_cast hsmall
    rw [div_le_iff₀ htotal]
    norm_num
    linarith
  have hlog : lastBit ((cur : ℚ) / total) ≤ -53 := by
    have hone : (cur : ℚ) / total < (2 : ℕ) ^ (0 : ℤ) := by
      rw [zpow_zero, div_lt_one htotal]
      exact_mod_cast hlt
    have := (Int.lt_zpow_iff_log_lt one_lt_two hpos).mp hone
    unfold lastBit
    omega
  obtain ⟨k, hk⟩ := exists_mul_zpow hlog
  refine round53_le hpos (k := (2 ^ 53 - 1) * k) ?_ hle
  push_cast
  rw [mul_assoc, ← hk]
  norm_num

theorem round53_percent {q : ℚ} (hq : q ≤ 1 - 2 ^ (-53 : ℤ)) : round53 (q * 100) < 100 := by
  rcases le_or_gt q 0 with hneg | hpos
  · have : round53 (q * 100) = 0 := by
      rw [round53, if_pos (by linarith)]
    rw [this]
    norm_num
  have hprod : 0 < q * 100 := by positivity
  have hlt : q * 100 < (2 : ℕ) ^ (7 : ℤ) := by
    norm_num at hq ⊢
    linarith
  have hlog := (Int.lt_zpow_iff_log_lt one_lt_two hprod).mp hlt
  rcases (show Int.log 2 (q * 100) < 6 ∨ Int.log 2 (q * 100) = 6 by omega) with hsix | hsix
  · -- below the binade of a hundred
    have hle : round53 (q * 100) ≤ 2 ^ (6 : ℤ) :=
      (round53_le_zpow hprod).trans (zpow_le_zpow_right₀ (by norm_num) (by omega))
    norm_num at hle ⊢
    linarith
  · -- in the binade of a hundred, where the last bit is larger than twice the distance
    have hbit : lastBit (q * 100) = -46 := by
      unfold lastBit
      omega
    rw [round53_of_pos hprod, hbit]
    have hround : roundHalfEven (q * 100 / 2 ^ (-46 : ℤ)) < 100 * 2 ^ 46 := by
      refine roundHalfEven_lt ?_
      norm_num at hq ⊢
      linarith
    have hcast : (roundHalfEven (q * 100 / 2 ^ (-46 : ℤ)) : ℚ) < 100 * 2 ^ 46 := by
      exact_mod_cast hround
    norm_num at hcast ⊢
    linarith

theorem progressOf_lt {cur total : Nat} (hlt : cur < total) (hsmall : total ≤ 2 ^ 53) :
    progressOf cur total < PROGRESS_FINISHED := by
  have hcur : cur ≤ 2 ^ 53 := hlt.le.trans hsmall
  have hpercent := round53_percent (round53_ratio hlt hsmall)
  simp only [progressOf, Int.cast_natCast, round53_natCast hsmall,
    round53_natCast hcur, PROGRESS_FINISHED]
  exact Int.floor_lt.mpr (by exact_mod_cast hpercent)

end Pegasus.Replica.BulkLoad
