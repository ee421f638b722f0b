/-
Replacing the log by a learnt one, after `mutation_log::reset_from`.

The files of the source directory are checked, the current directory is renamed away, the source
directory is renamed to the current one, and the new log is opened. Two deferred functions undo the
renames if the error code says so. Each rename, removal and read may fail.

- `AllOrNothing`: what a call that returns is to leave;
- `reset_from_is_all_or_nothing_iff`: the main result;
- `failed_rename_loses_the_log`: the source directory that cannot be renamed.
-/

import Pegasus.Log.PrivateLog

namespace Pegasus.Log

open Option

inductive ResetCode where
  | log (err : ErrorCode)
  | fileOperationFailed
deriving DecidableEq

abbrev ResetCode.ok : ResetCode := .log .ok

/-- The directories of `reset_from`; `none` for one that does not exist. -/
structure LogDirs where
  current : Option (List DiskFile)
  source : Option (List DiskFile)
  temp : Option (List DiskFile) := none
deriving DecidableEq

/-- Which file operations fail, and what a failed one leaves of a directory. -/
structure ResetFaults where
  /-- Listing or reading the source directory. -/
  check : Bool := false
  removeSource : Option (List DiskFile) := none
  moveCurrent : Bool := false
  moveSource : Bool := false
  /-- Listing or reading the new files in `open`. -/
  opening : Option (List DiskFile) := none
  moveBack : Bool := false
  restore : Bool := false
  removeTemp : Option (List DiskFile) := none
deriving DecidableEq

/-- `_log_files[index] = file`, in the order of the indexes. -/
def insertFile (file : DiskFile) : List DiskFile → List DiskFile
  | [] => [file]
  | other :: rest =>
    if file.index < other.index then file :: other :: rest
    else if file.index = other.index then file :: rest
    else other :: insertFile file rest

/-- `log_utils::open_log_file_map`; `none` if a `CHECK` fails. -/
def openLogFileMap : List DiskFile → List DiskFile → Option (Except ErrorCode (List DiskFile))
  | [], map => some (.ok map)
  | file :: rest, map =>
    match file.openRead with
    | none => none
    | some (.error err) => some (.error err)
    | some (.ok _) => openLogFileMap rest (insertFile file map)

/-- `log_utils::check_log_files_continuity` of a directory. -/
def checkDirContinuity (faults : ResetFaults) : Option (List DiskFile) → Option ResetCode
  | none => some .fileOperationFailed
  | some files =>
    if faults.check then some .fileOperationFailed
    else
      match openLogFileMap files [] with
      | none => none
      | some (.error err) => some (.log err)
      | some (.ok map) => some (.log (if checkLogFilesContinuity map then .ok else .objectNotFound))

/-- `rename_path` of a directory: what is then under the two names. The new name must be free. -/
def renamePath (fails : Bool) (old new : Option (List DiskFile)) :
    Option (Option (List DiskFile) × Option (List DiskFile)) :=
  if fails = false ∧ old.isSome ∧ new = none then some (none, old) else none

/-- `temp_dir_resolve`; `none` if its `CHECK` fails. -/
def tempDirResolve (faults : ResetFaults) (err : ResetCode) (dirs : LogDirs) : Option LogDirs :=
  if err = .ok then some { dirs with temp := faults.removeTemp }
  else
    (renamePath faults.restore dirs.temp dirs.current).map fun (temp, current) =>
      { dirs with temp := temp, current := current }

/-- `dir_resolve`; `none` if its `CHECK` fails. -/
def dirResolve (faults : ResetFaults) (err : ResetCode) (dirs : LogDirs) : Option LogDirs :=
  if err = .ok then some dirs
  else
    (renamePath faults.moveBack dirs.current dirs.source).map fun (current, source) =>
      { dirs with current := current, source := source }

section Reset

variable (codes : TaskCodes) (accepts : MutationData → Bool) (gpid : UInt64)

/-- `open` of the new files: its code, and what it leaves of the directory. -/
def openCurrent (faults : ResetFaults) (files : List DiskFile) :
    Option (ResetCode × List DiskFile) :=
  match faults.opening with
  | some left => some (.fileOperationFailed, left)
  | none =>
    -- the `CHECK` that no two files have one index
    if (files.map DiskFile.index).Nodup then
      (PrivateLog.openLog codes accepts { gpid := gpid, dir := files }).map fun result =>
        (.log result.err, result.log.dir)
    else none

/-- `mutation_log::reset_from` after `close`; `none` if a `CHECK` fails. -/
def resetFrom (faults : ResetFaults) (dirs : LogDirs) : Option (LogDirs × ResetCode) := do
  let es ← checkDirContinuity faults dirs.source
  if es ≠ .ok then
    match faults.removeSource with
    | some left => some ({ dirs with source := some left }, .fileOperationFailed)
    | none => some ({ dirs with source := none }, es)
  else
    match renamePath faults.moveCurrent dirs.current dirs.temp with
    | none => some (dirs, .fileOperationFailed)
    | some (current, temp) =>
      match renamePath faults.moveSource dirs.source current with
      | none => do
        -- `err` is still `ERR_OK`
        let dirs ← tempDirResolve faults .ok { dirs with current := current, temp := temp }
        some (dirs, .ok)
      | some (source, current) => do
        let (err, left) ← openCurrent codes accepts gpid faults (current.getD [])
        -- the deferred functions run in the reverse order
        let dirs ← dirResolve faults err { current := some left, source := source, temp := temp }
        let dirs ← tempDirResolve faults err dirs
        some (dirs, err)

/-! ### Opening what was checked -/

variable {codes accepts gpid} {faults : ResetFaults} {dirs : LogDirs}

theorem openRead_of_openLogFileMap {files map map' : List DiskFile}
    (h : openLogFileMap files map = some (.ok map')) :
    ∀ file ∈ files, ∃ header, file.openRead = some (.ok header) := by
  induction files generalizing map with
  | nil =>
    intro file hfile
    cases hfile
  | cons first rest ih =>
    unfold openLogFileMap at h
    split at h
    · cases h
    · cases h
    · rename_i header hread
      exact List.forall_mem_cons.mpr ⟨⟨header, hread⟩, ih h⟩

variable {files : List DiskFile}

theorem loadFiles_of_openRead
    (h : ∀ file ∈ files, ∃ header, file.openRead = some (.ok header)) :
    PrivateLog.loadFiles files = some ⟨.ok, files, files⟩ := by
  induction files with
  | nil => rfl
  | cons file rest ih =>
    obtain ⟨header, hread⟩ := h file List.mem_cons_self
    have hrest := ih fun other hother => h other (List.mem_cons_of_mem _ hother)
    simp [PrivateLog.loadFiles, hread, hrest]

theorem dir_of_openLog {log : PrivateLog} {result : PrivateLog.OpenResult}
    (hread : ∀ file ∈ files, ∃ header, file.openRead = some (.ok header)) (hdir : log.dir = files)
    (hopen : log.openLog codes accepts = some result) : result.log.dir = files := by
  simp only [PrivateLog.openLog, hdir, loadFiles_of_openRead hread, ne_eq, not_true_eq_false,
    if_false] at hopen
  split at hopen
  · cases hopen
  · split at hopen
    · cases hopen
    · split at hopen <;>
      · cases hopen
        rfl

theorem renamePath_eq_some {fails : Bool} {old new : Option (List DiskFile)}
    {names : Option (List DiskFile) × Option (List DiskFile)} :
    renamePath fails old new = some names ↔
      fails = false ∧ old.isSome ∧ new = none ∧ names = (none, old) := by
  unfold renamePath
  split
  · rename_i h
    simp [h, eq_comm]
  · rename_i h
    simp only [reduceCtorEq, false_iff]
    intro h'
    exact h ⟨h'.1, h'.2.1, h'.2.2.1⟩

theorem openCurrent_ok {files left : List DiskFile}
    (hread : ∀ file ∈ files, ∃ header, file.openRead = some (.ok header))
    (hopen : openCurrent codes accepts gpid faults files = some (.ok, left)) :
    faults.opening = none ∧ left = files := by
  unfold openCurrent at hopen
  split at hopen
  · cases hopen
  · rename_i hopening
    split at hopen
    · obtain ⟨result, hresult, heq⟩ := map_eq_some_iff.mp hopen
      obtain ⟨-, rfl⟩ := Prod.mk.inj heq
      exact ⟨hopening, dir_of_openLog hread rfl hresult⟩
    · cases hopen

/-! ### The main result -/

/-- The continuity check passes and the current directory can be renamed away. -/
def ReachesSource (faults : ResetFaults) (dirs : LogDirs) : Prop :=
  checkDirContinuity faults dirs.source = some .ok ∧ faults.moveCurrent = false ∧
    dirs.current.isSome

def ResetFaults.Any (faults : ResetFaults) : Prop :=
  faults.check = true ∨ faults.moveCurrent = true ∨ faults.moveSource = true ∨ faults.opening.isSome

/-- **All or nothing**: an error code leaves the current directory as it was, `ERR_OK` is returned
only with the files of the source directory in it, and never after a failed operation. -/
structure AllOrNothing (faults : ResetFaults) (dirs dirs' : LogDirs) (code : ResetCode) :
    Prop where
  kept : code ≠ .ok → dirs'.current = dirs.current
  replaced : code = .ok → dirs'.current = dirs.source
  failed : faults.Any → code ≠ .ok

inductive ResetOutcome (faults : ResetFaults) (dirs dirs' : LogDirs) (code : ResetCode) : Prop where
  | refused (reaches : ¬ReachesSource faults dirs) (err : code ≠ .ok)
      (kept : dirs'.current = dirs.current)
  | lost (reaches : ReachesSource faults dirs) (fails : faults.moveSource = true) (ok : code = .ok)
      (gone : dirs'.current = none)
  | undone (moved : faults.moveSource = false) (err : code ≠ .ok)
      (kept : dirs'.current = dirs.current)
  | replaced (moved : faults.moveSource = false) (ok : code = .ok)
      (current : dirs'.current = dirs.source) (none_failed : ¬faults.Any)

theorem readNextLogBlock_ne_ok (buffered : Nat) (crc : UInt32) (left : ByteString) :
    readNextLogBlock buffered crc left ≠ some (.error .ok) := by
  unfold readNextLogBlock
  repeat' (first | split | simp)

theorem openRead_ne_ok (file : DiskFile) : file.openRead ≠ some (.error .ok) := by
  unfold DiskFile.openRead
  split
  · simp
  · rename_i hblock
    intro h
    cases h
    exact readNextLogBlock_ne_ok _ _ _ hblock
  · repeat' (first | split | simp)

theorem openLogFileMap_ne_ok (files map : List DiskFile) :
    openLogFileMap files map ≠ some (.error .ok) := by
  induction files generalizing map with
  | nil => exact nofun
  | cons file rest ih =>
    unfold openLogFileMap
    split
    · exact nofun
    · rename_i err hread
      intro h
      cases h
      exact openRead_ne_ok file hread
    · exact ih _

theorem files_of_checkDirContinuity {source : Option (List DiskFile)}
    (h : checkDirContinuity faults source = some .ok) :
    ∃ files, source = some files ∧ faults.check = false ∧
      ∀ file ∈ files, ∃ header, file.openRead = some (.ok header) := by
  cases source with
  | none => cases h
  | some files =>
    simp only [checkDirContinuity] at h
    split at h
    · cases h
    · rename_i hcheck
      split at h
      · cases h
      · rename_i err hmap
        cases h
        exact absurd hmap (openLogFileMap_ne_ok files [])
      · rename_i map hmap
        exact ⟨files, rfl, Bool.eq_false_iff.mpr hcheck, openRead_of_openLogFileMap hmap⟩

theorem current_of_resolve {err : ResetCode} {opened moved dirs' : LogDirs} (herr : err ≠ .ok)
    (hback : dirResolve faults err opened = some moved)
    (hrestore : tempDirResolve faults err moved = some dirs') : dirs'.current = opened.temp := by
  unfold dirResolve at hback
  unfold tempDirResolve at hrestore
  rw [if_neg herr] at hback hrestore
  obtain ⟨names, hnames, rfl⟩ := map_eq_some_iff.mp hback
  obtain ⟨-, -, -, rfl⟩ := renamePath_eq_some.mp hnames
  obtain ⟨names, hnames, rfl⟩ := map_eq_some_iff.mp hrestore
  obtain ⟨-, -, -, rfl⟩ := renamePath_eq_some.mp hnames
  rfl

theorem resetFrom_outcome {dirs' : LogDirs} {code : ResetCode}
    (h : resetFrom codes accepts gpid faults dirs = some (dirs', code)) (htemp : dirs.temp = none) :
    ResetOutcome faults dirs dirs' code := by
  obtain ⟨es, hcheck, h⟩ := bind_eq_some_iff.mp h
  split at h
  · rename_i hes
    have hreaches : ¬ReachesSource faults dirs := by
      intro hreach
      exact hes (mem_unique hcheck hreach.1)
    split at h
    · cases h
      exact .refused hreaches nofun rfl
    · cases h
      exact .refused hreaches hes rfl
  · rename_i hes
    obtain rfl := not_not.mp hes
    obtain ⟨files, hsource, hok, hread⟩ := files_of_checkDirContinuity hcheck
    split at h
    · rename_i hmove
      cases h
      refine .refused ?_ nofun rfl
      intro hreach
      rw [renamePath_eq_some.mpr ⟨hreach.2.1, hreach.2.2, htemp, rfl⟩] at hmove
      cases hmove
    · rename_i current temp hmove
      obtain ⟨hmoved, hcurrent, -, hnames⟩ := renamePath_eq_some.mp hmove
      cases hnames
      have hreach : ReachesSource faults dirs := ⟨hcheck, hmoved, hcurrent⟩
      split at h
      · rename_i hfail
        cases h
        refine .lost hreach ?_ rfl rfl
        by_contra hmovable
        have hsome : dirs.source.isSome := by
          rw [hsource]
          rfl
        rw [renamePath_eq_some.mpr ⟨Bool.eq_false_iff.mpr hmovable, hsome, rfl, rfl⟩] at hfail
        cases hfail
      · rename_i source current hmoving
        obtain ⟨hmovable, -, -, hnames⟩ := renamePath_eq_some.mp hmoving
        cases hnames
        rw [hsource] at h
        obtain ⟨⟨err, left⟩, hopen, h⟩ := bind_eq_some_iff.mp h
        obtain ⟨moved, hback, h⟩ := bind_eq_some_iff.mp h
        obtain ⟨last, hrestore, h⟩ := bind_eq_some_iff.mp h
        cases h
        by_cases herr : code = .ok
        · subst herr
          obtain ⟨hopening, rfl⟩ := openCurrent_ok hread hopen
          cases hback
          cases hrestore
          refine .replaced hmovable rfl hsource.symm ?_
          rintro (hfault | hfault | hfault | hfault)
          · rw [hok] at hfault
            cases hfault
          · rw [hmoved] at hfault
            cases hfault
          · rw [hmovable] at hfault
            cases hfault
          · rw [hopening] at hfault
            cases hfault
        · exact .undone hmovable herr (current_of_resolve herr hback hrestore)

/-- No `CHECK` fails: the renames back succeed, and neither reading the files of the source
directory nor opening them as the log aborts. -/
structure ChecksPass (codes : TaskCodes) (accepts : MutationData → Bool) (gpid : UInt64)
    (faults : ResetFaults) (dirs : LogDirs) : Prop where
  back : faults.moveBack = false
  restore : faults.restore = false
  check : (checkDirContinuity faults dirs.source).isSome
  opens : ∀ files, dirs.source = some files → (openCurrent codes accepts gpid faults files).isSome

theorem resolve_isSome {temp : Option (List DiskFile)}
    (h : ChecksPass codes accepts gpid faults dirs) (htemp : temp.isSome) (err : ResetCode)
    (left : List DiskFile) :
    ∃ moved last, dirResolve faults err ⟨some left, none, temp⟩ = some moved ∧
      tempDirResolve faults err moved = some last := by
  by_cases herr : err = .ok
  · exact ⟨_, _, if_pos herr, if_pos herr⟩
  · simp [dirResolve, tempDirResolve, herr, renamePath, h.back, h.restore, htemp]

theorem resetFrom_isSome (h : ChecksPass codes accepts gpid faults dirs) :
    ∃ result, resetFrom codes accepts gpid faults dirs = some result := by
  obtain ⟨es, hcheck⟩ := isSome_iff_exists.mp h.check
  simp only [resetFrom, hcheck, bind_eq_bind, bind_some]
  split
  · split <;> exact ⟨_, rfl⟩
  · split
    · exact ⟨_, rfl⟩
    · rename_i hmove
      obtain ⟨-, hcurrent, -, hnames⟩ := renamePath_eq_some.mp hmove
      cases hnames
      split
      · exact ⟨_, rfl⟩
      · rename_i hmoving
        obtain ⟨-, hsource, -, hnames⟩ := renamePath_eq_some.mp hmoving
        cases hnames
        obtain ⟨files, hfiles⟩ := isSome_iff_exists.mp hsource
        obtain ⟨⟨err, left⟩, hopen⟩ := isSome_iff_exists.mp (h.opens files hfiles)
        obtain ⟨moved, last, hback, hrestore⟩ := resolve_isSome h hcurrent err left
        refine ⟨(last, err), ?_⟩
        simp [hfiles, hopen, hback, hrestore]

/-- **`reset_from` is all or nothing** if and only if the source directory can be renamed to the
current one when that is tried. It returns unless a `CHECK` fails. The temporary name is a new
one. -/
theorem reset_from_is_all_or_nothing_iff (codes : TaskCodes) (accepts : MutationData → Bool)
    (gpid : UInt64) (faults : ResetFaults) (dirs : LogDirs) (htemp : dirs.temp = none) :
    (ChecksPass codes accepts gpid faults dirs →
      ∃ result, resetFrom codes accepts gpid faults dirs = some result) ∧
    ∀ dirs' code, resetFrom codes accepts gpid faults dirs = some (dirs', code) →
      (AllOrNothing faults dirs dirs' code ↔
        (ReachesSource faults dirs → faults.moveSource = false)) := by
  refine ⟨resetFrom_isSome, ?_⟩
  intro dirs' code hreturns
  cases resetFrom_outcome hreturns htemp with
  | refused hreaches herr hkept =>
    constructor
    · intro _ hreach
      exact absurd hreach hreaches
    · intro _
      exact ⟨fun _ => hkept, fun hok => absurd hok herr, fun _ => herr⟩
  | lost hreaches hfails hok hgone =>
    constructor
    · intro h
      obtain ⟨files, hsource, -⟩ := files_of_checkDirContinuity hreaches.1
      have hcurrent := h.replaced hok
      rw [hgone, hsource] at hcurrent
      cases hcurrent
    · intro hmoved
      rw [hfails] at hmoved
      cases hmoved hreaches
  | undone hmoved herr hkept =>
    constructor
    · intro _ _
      exact hmoved
    · intro _
      exact ⟨fun _ => hkept, fun hok => absurd hok herr, fun _ => herr⟩
  | replaced hmoved hok hcurrent hnone =>
    constructor
    · intro _ _
      exact hmoved
    · intro _
      exact ⟨fun herr => absurd hok herr, fun _ => hcurrent, fun hany => absurd hany hnone⟩

end Reset

/-- A log of one file, and an empty log learnt in its place. -/
def learntEmpty : LogDirs where
  current := some [⟨1, 0, [0]⟩]
  source := some []

/-- The same with a learnt log of one file. -/
def learntFile : LogDirs :=
  { learntEmpty with
    source := (PrivateLog.createNewLogFile { gpid := 1, dir := [] }).map PrivateLog.dir }

/-- `reset_from` of such a log, with no code registered. -/
def resetLearnt (faults : ResetFaults) (dirs : LogDirs) : Option (LogDirs × ResetCode) :=
  resetFrom ⟨[], .nil⟩ (fun _ => true) 1 faults dirs

/-- The learnt file is put in place, or the old one is brought back if the new one cannot be
read. -/
theorem reset_from_is_all_or_nothing_of_file :
    (∃ dirs, resetLearnt {} learntFile = some (dirs, .ok) ∧ AllOrNothing {} learntFile dirs .ok) ∧
    ∃ dirs, resetLearnt { opening := some [] } learntFile = some (dirs, .fileOperationFailed) ∧
      AllOrNothing { opening := some [] } learntFile dirs .fileOperationFailed := by
  have hok : (resetLearnt {} learntFile).map Prod.snd = some .ok := by decide +kernel
  have hfailed : (resetLearnt { opening := some [] } learntFile).map Prod.snd =
      some .fileOperationFailed := by decide +kernel
  obtain ⟨⟨dirs, _⟩, hreset, rfl⟩ := map_eq_some_iff.mp hok
  obtain ⟨⟨dirs', _⟩, hreset', rfl⟩ := map_eq_some_iff.mp hfailed
  refine ⟨⟨dirs, hreset, ?_⟩, dirs', hreset', ?_⟩
  · exact ((reset_from_is_all_or_nothing_iff _ _ 1 {} _ rfl).2 _ _ hreset).mpr fun _ => rfl
  · exact ((reset_from_is_all_or_nothing_iff _ _ 1 _ _ rfl).2 _ _ hreset').mpr fun _ => rfl

/-- The source directory cannot be renamed: `ERR_OK` is returned, the temporary directory with the
only log is removed, and there is no current directory. -/
theorem failed_rename_loses_the_log :
    resetLearnt { moveSource := true } learntEmpty = some (⟨none, some [], none⟩, .ok) ∧
      ¬AllOrNothing { moveSource := true } learntEmpty ⟨none, some [], none⟩ .ok := by
  refine ⟨rfl, ?_⟩
  intro h
  cases h.replaced rfl

end Pegasus.Log
