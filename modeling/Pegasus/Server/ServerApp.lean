/-
The storage of a replica (`Pegasus.Server.ServerApp`), after `replication_app_base.cpp` and the
checkpoints of `pegasus_server_impl.cpp`.

A replica counts the decrees it has applied in memory, and the database has the decree of the last
write. A checkpoint compares the two and aborts the process when they differ.

* `applied_decrees_recorded`: along every run of mutations that all leave a record, the decree in
  the database is the last committed one and no checkpoint aborts.
* `corrupt_write_not_recorded`: a `multi_put` whose body does not parse is answered with `kOk`,
  and the next checkpoint aborts.
-/

import Pegasus.Server.RecordedDecree

namespace Pegasus.Server

open TransitionSystem (StepsMeet)

open Option

/-- The storage of a replica: the database, what of it has been flushed to files, and the decrees
the replica keeps in memory. -/
structure ServerApp where
  db : Database
  flushed : Database
  lastCommittedDecree : Int
  lastDurableDecree : Int

/-- What happens to the storage. A checkpoint may fail to be created; a restart loses what has not
been flushed. -/
inductive AppEvent where
  | apply (env : Surroundings) (mu : AppliedMutation)
  | flush
  | syncCheckpoint (created : Bool)
  | asyncCheckpoint (flushMemtable created : Bool)
  | reopen

namespace ServerApp

def hasIngestionRequest (mu : AppliedMutation) : Bool :=
  mu.requests.any fun m => match m.request with
    | .bulkLoad _ => true
    | _ => false

/-- `replication_app_base::apply_mutation`, with the status of the storage. After an error of the
storage the replica is closed; only for an ingestion request the decree counts as committed. -/
def applyMutation (env : Surroundings) (mu : AppliedMutation) (app : ServerApp) :
    Option (Status × ServerApp) :=
  if mu.decree ≠ app.lastCommittedDecree + 1 then none
  else
    match env.onBatchedWriteRequests mu ⟨app.db, env.writeStatus⟩ with
    | none => none
    | some (status, s) =>
      if status ≠ .ok ∧ hasIngestionRequest mu = false then none
      else some (status,
        { app with db := s.db, lastCommittedDecree := app.lastCommittedDecree + 1 })

/-- `pegasus_server_impl::sync_checkpoint`; a failed `CHECK` is `none`. The checkpoint flushes
the memtable. -/
def syncCheckpoint (created : Bool) (app : ServerApp) : Option ServerApp :=
  if ¬ app.lastDurableDecree ≤ app.lastCommittedDecree then none
  else if app.lastDurableDecree = app.lastCommittedDecree ∨ created = false then some app
  else if app.lastCommittedDecree ≠ app.db.lastFlushedDecree then none
  else some { app with flushed := app.db, lastDurableDecree := app.lastCommittedDecree }

/-- `pegasus_server_impl::async_checkpoint`. A flush that is only triggered is an event of its
own. -/
def asyncCheckpoint (flushMemtable created : Bool) (app : ServerApp) : Option ServerApp :=
  if ¬ (app.lastDurableDecree ≤ app.flushed.lastFlushedDecree ∧
      app.flushed.lastFlushedDecree ≤ app.lastCommittedDecree) then none
  else if app.lastDurableDecree = app.lastCommittedDecree then
    if app.lastDurableDecree ≠ app.flushed.lastFlushedDecree ∨
        app.flushed.lastFlushedDecree ≠ app.lastCommittedDecree then none
    else some app
  else if app.lastDurableDecree = app.flushed.lastFlushedDecree then
    if app.flushed.lastFlushedDecree < app.lastCommittedDecree then some app else none
  else if created = false then some app
  else
    let flushed := if flushMemtable then app.db else app.flushed
    if flushed.lastFlushedDecree ≤ app.lastDurableDecree then none
    else some { app with flushed := flushed, lastDurableDecree := flushed.lastFlushedDecree }

def step (app : ServerApp) : AppEvent → Option ServerApp
  | .apply env mu => (app.applyMutation env mu).map Prod.snd
  | .flush => some { app with flushed := app.db }
  | .syncCheckpoint created => app.syncCheckpoint created
  | .asyncCheckpoint flushMemtable created => app.asyncCheckpoint flushMemtable created
  | .reopen => some
      { app with db := app.flushed, lastCommittedDecree := app.flushed.lastFlushedDecree }

/-- The mutation applied leaves a record; an ingestion request comes alone, as it is not batched,
and its write succeeds. -/
def LeavesRecord (_ : ServerApp) : AppEvent → Prop
  | .apply env mu => env.leavesRecord mu = true ∧ (hasIngestionRequest mu = true →
      mu.requests.length = 1 ∧ env.writeStatus.head?.getD .ok = .ok)
  | _ => True

/-- **The decrees are in order**: the database has the last committed one, its files may have an
earlier one, and the last checkpoint one that is not later than that. -/
structure InOrder (app : ServerApp) : Prop where
  recorded : app.db.lastFlushedDecree = app.lastCommittedDecree
  flushed_le : app.flushed.lastFlushedDecree ≤ app.lastCommittedDecree
  durable_le : app.lastDurableDecree ≤ app.flushed.lastFlushedDecree

variable {app app' : ServerApp} {env : Surroundings} {mu : AppliedMutation} {status : Status}

theorem syncCheckpoint_inOrder (h : app.InOrder) (created : Bool) :
    ∃ app', app.syncCheckpoint created = some app' ∧ app'.InOrder := by
  have hle : app.lastDurableDecree ≤ app.lastCommittedDecree :=
    Int.le_trans h.durable_le h.flushed_le
  unfold syncCheckpoint
  rw [if_neg (not_not.mpr hle)]
  split
  · exact ⟨app, rfl, h⟩
  · rw [if_neg (not_not.mpr h.recorded.symm)]
    exact ⟨_, rfl, h.recorded, Int.le_of_eq h.recorded, Int.le_of_eq h.recorded.symm⟩

theorem asyncCheckpoint_inOrder (h : app.InOrder) (flushMemtable created : Bool) :
    ∃ app', app.asyncCheckpoint flushMemtable created = some app' ∧ app'.InOrder := by
  have hrecorded := h.recorded
  have hflushed := h.flushed_le
  have hdurable := h.durable_le
  unfold asyncCheckpoint
  rw [if_neg (not_not.mpr ⟨hdurable, hflushed⟩)]
  split
  · rw [if_neg (by omega)]
    exact ⟨app, rfl, h⟩
  split
  · rw [if_pos (by omega)]
    exact ⟨app, rfl, h⟩
  split
  · exact ⟨app, rfl, h⟩
  · -- the files are ahead of the last checkpoint, and the database is not behind the files
    cases flushMemtable with
    | true =>
      dsimp only
      rw [if_pos rfl, if_neg (by omega)]
      exact ⟨_, rfl, hrecorded, Int.le_of_eq hrecorded, Int.le_refl _⟩
    | false =>
      dsimp only
      rw [if_neg Bool.false_ne_true, if_neg (by omega)]
      exact ⟨_, rfl, hrecorded, hflushed, Int.le_refl _⟩

theorem ingestion_ok {db : Database} (hingestion : hasIngestionRequest mu = true)
    (hone : mu.requests.length = 1) (hwrite : env.writeStatus.head?.getD .ok = .ok) {s : Session}
    (h : env.onBatchedWriteRequests mu ⟨db, env.writeStatus⟩ = some (status, s)) :
    status = .ok := by
  obtain ⟨m, hm⟩ := List.length_eq_one_iff.mp hone
  unfold hasIngestionRequest at hingestion
  unfold Surroundings.onBatchedWriteRequests at h
  rw [hm] at hingestion h
  cases hrequest : m.request with
  | bulkLoad body =>
    simp only [hrequest, Surroundings.nonBatchWriteHandler, ne_eq, not_true_eq_false, if_false] at h
    cases body with
    | none => exact (Prod.mk.inj (some.inj h)).1.symm
    | some body =>
      obtain ⟨⟨ending, s₁⟩, hhandle, heq⟩ := map_eq_some_iff.mp h
      unfold Surroundings.nonBatchWriteHandler.handle at hhandle
      obtain ⟨⟨status₁, s₂⟩, hsubmit, hend⟩ := map_eq_some_iff.mp hhandle
      obtain ⟨rfl, rfl⟩ := Prod.mk.inj hend
      obtain ⟨rfl, -⟩ := Prod.mk.inj heq
      have hwritten := congrArg Prod.fst (some.inj hsubmit)
      unfold Session.write at hwritten
      cases hstatus : env.writeStatus with
      | nil =>
        rw [hstatus] at hwritten
        exact hwritten.symm
      | cons first rest =>
        rw [hstatus] at hwrite hwritten
        simp only [List.head?_cons, getD_some] at hwrite
        simp only [hwrite, if_true] at hwritten
        exact hwritten.symm
  | _ => simp [hrequest] at hingestion

/-- **Applying a mutation that leaves a record records its decree.** -/
theorem applyMutation_records (hleaves : app.LeavesRecord (.apply env mu))
    (h : app.applyMutation env mu = some (status, app')) :
    app'.db.lastFlushedDecree = mu.decree ∧ app'.lastCommittedDecree = mu.decree ∧
      app'.flushed = app.flushed ∧ app'.lastDurableDecree = app.lastDurableDecree ∧
      mu.decree = app.lastCommittedDecree + 1 := by
  unfold applyMutation at h
  split at h
  · cases h
  rename_i hdecree
  rw [not_not] at hdecree
  cases hwrite : env.onBatchedWriteRequests mu ⟨app.db, env.writeStatus⟩ with
  | none => simp [hwrite] at h
  | some out =>
    obtain ⟨written, s⟩ := out
    simp only [hwrite] at h
    split at h
    · cases h
    rename_i hgo
    obtain ⟨-, rfl⟩ := Prod.mk.inj (some.inj h)
    have hok : written = .ok := by
      by_contra hne
      have hingestion : hasIngestionRequest mu = true := by
        by_contra hnone
        exact hgo ⟨hne, Bool.eq_false_iff.mpr hnone⟩
      obtain ⟨hone, hstatus⟩ := hleaves.2 hingestion
      exact hne (ingestion_ok hingestion hone hstatus hwrite)
    subst hok
    have hrecorded := env.onBatchedWriteRequests_recorded hwrite
    unfold Surroundings.Recorded at hrecorded
    rw [if_pos hleaves.1] at hrecorded
    exact ⟨hrecorded, hdecree.symm, rfl, rfl, hdecree⟩

theorem step_inOrder {event : AppEvent} (hleaves : app.LeavesRecord event)
    (h : app.step event = some app') (hin : app.InOrder) : app'.InOrder := by
  cases event with
  | apply env mu =>
    obtain ⟨⟨status, next⟩, happly, rfl⟩ := map_eq_some_iff.mp h
    obtain ⟨hrecorded, hcommitted, hflushed, hdurable, hdecree⟩ :=
      applyMutation_records hleaves happly
    have hle := hin.flushed_le
    refine ⟨hrecorded.trans hcommitted.symm, ?_, ?_⟩
    · rw [hflushed, hcommitted]
      omega
    · rw [hflushed, hdurable]
      exact hin.durable_le
  | flush =>
    obtain rfl := some.inj h
    exact ⟨hin.recorded, Int.le_of_eq hin.recorded,
      Int.le_trans (Int.le_trans hin.durable_le hin.flushed_le) (Int.le_of_eq hin.recorded.symm)⟩
  | syncCheckpoint created =>
    obtain ⟨next, hnext, hin'⟩ := syncCheckpoint_inOrder hin created
    rw [step, hnext] at h
    exact some.inj h ▸ hin'
  | asyncCheckpoint flushMemtable created =>
    obtain ⟨next, hnext, hin'⟩ := asyncCheckpoint_inOrder hin flushMemtable created
    rw [step, hnext] at h
    exact some.inj h ▸ hin'
  | reopen =>
    obtain rfl := some.inj h
    exact ⟨rfl, Int.le_refl _, hin.durable_le⟩

/-- **Every applied decree is recorded.** From a storage that has been opened, along every run whose
mutations leave records, the database has the last committed decree, no checkpoint fails a `CHECK`,
and the next mutation that leaves a record is recorded under its decree. -/
theorem applied_decrees_recorded {app app' : ServerApp} (hin : app.InOrder)
    (events : List AppEvent) (hleaves : StepsMeet step LeavesRecord app events)
    (hrun : TransitionSystem.run step app events = some app') :
    app'.db.lastFlushedDecree = app'.lastCommittedDecree ∧
      (∀ created, app'.syncCheckpoint created ≠ none) ∧
      (∀ flushMemtable created, app'.asyncCheckpoint flushMemtable created ≠ none) ∧
      ∀ env mu next, app'.LeavesRecord (.apply env mu) →
        app'.applyMutation env mu = some (.ok, next) → next.db.lastFlushedDecree = mu.decree := by
  have hin' : app'.InOrder := TransitionSystem.run_invariant_of_steps
    (fun _ _ _ hstep hmeets h => step_inOrder hmeets hstep h) hrun hleaves hin
  refine ⟨hin'.recorded, fun created hnone => ?_, fun flushMemtable created hnone => ?_,
    fun env mu next hmu happly => (applyMutation_records hmu happly).1⟩
  · obtain ⟨next, hnext, -⟩ := syncCheckpoint_inOrder hin' created
    rw [hnext] at hnone
    cases hnone
  · obtain ⟨next, hnext, -⟩ := asyncCheckpoint_inOrder hin' flushMemtable created
    rw [hnext] at hnone
    cases hnone

def created : ServerApp where
  db := ⟨fun _ => none, 0⟩
  flushed := ⟨fun _ => none, 0⟩
  lastCommittedDecree := 0
  lastDurableDecree := 0

/-- A batch with one put that parses and one that does not, and a checkpoint. -/
theorem applied_decrees_recorded_batch :
    let events : List AppEvent :=
      [.apply {} { decree := 1, requests :=
          [⟨.put none, 0, 0⟩, ⟨.put (some { key := [0, 1, 97] }), 0, 0⟩] },
        .syncCheckpoint true]
    created.InOrder ∧ StepsMeet step LeavesRecord created events ∧
    ∃ app, TransitionSystem.run step created events = some app ∧
      app.lastCommittedDecree = 1 ∧ app.lastDurableDecree = 1 ∧
      app.db.lastFlushedDecree = app.lastCommittedDecree := by
  intro events
  have hin : created.InOrder := ⟨rfl, Int.le_refl _, Int.le_refl _⟩
  have hleaves : StepsMeet step LeavesRecord created events :=
    ⟨⟨rfl, nofun⟩, fun _ _ => ⟨trivial, fun _ _ => trivial⟩⟩
  exact ⟨hin, hleaves, _, rfl, rfl, rfl, (applied_decrees_recorded hin events hleaves rfl).1⟩

/-- The request is answered with `kOk` on a new storage and its decree is committed, but the
database keeps the decree before, and the next checkpoint aborts. -/
def Unrecorded (request : WriteRequest) : Prop :=
  ∃ app, created.applyMutation {} { decree := 1, requests := [⟨request, 0, 0⟩] } = some (.ok, app) ∧
    app.lastCommittedDecree = 1 ∧ app.db.lastFlushedDecree = 0 ∧ app.syncCheckpoint true = none

/-- **A write that does not parse is not recorded.** So it is with a batch none of whose requests
parses, and with a `duplicate_request` without entries. -/
theorem corrupt_write_not_recorded :
    Unrecorded (.multiPut none) ∧ Unrecorded (.put none) ∧ Unrecorded (.duplicate (some [])) := by
  refine ⟨?_, ?_, ?_⟩
  · exact ⟨_, rfl, rfl, rfl, rfl⟩
  · exact ⟨_, rfl, rfl, rfl, rfl⟩
  · exact ⟨_, rfl, rfl, rfl, rfl⟩

end ServerApp

end Pegasus.Server
