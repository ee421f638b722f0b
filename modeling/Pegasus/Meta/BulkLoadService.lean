/-
The bulk load of a partition on the meta server, after `meta_bulk_load_service.cpp`.

A response of the primary may bring the metadata of the files, and the progress of the download.
Each makes the meta server copy its record of the partition, write the changed copy to the storage,
and take the copy over in the callback of the write.

- `Partition.InStep`: the record and the storage, with one write at most;
- `one_write_keeps_the_record`: the main result;
- `two_writes_lose_an_update`: metadata and full progress in one response.
-/

import Pegasus.Replica.BulkLoader

namespace Pegasus.Meta.BulkLoad

open TransitionSystem List Option Replica.BulkLoad

/-- `partition_bulk_load_info`. -/
structure PartitionInfo where
  status : BulkLoadStatus := .downloading
  metadata : Metadata := {}
  everIngestSucceed : Bool := false
  hostPorts : List Nat := []
deriving DecidableEq

/-- `partition_bulk_load_state` of a node. -/
structure NodeState where
  downloadProgress : Option Int
  /-- Whether `download_status` is `ERR_OK`. -/
  downloadOk : Option Bool
deriving DecidableEq

/-- `bulk_load_response`. -/
structure Response where
  totalDownloadProgress : Option Int
  groupState : List (Nat × NodeState)
  metadata : Option Metadata := none
deriving DecidableEq

/-- Whether a response says that the download has ended (`PROGRESS_FINISHED`). -/
def Response.finished (response : Response) : Bool :=
  response.totalDownloadProgress.any fun progress => 100 ≤ progress

/-- A write of the record. The storage may have it before its callback comes. -/
structure InfoWrite where
  info : PartitionInfo
  /-- The write is of `update_partition_info_on_remote_storage`. -/
  ofStatus : Bool
  applied : Bool := false
deriving DecidableEq

structure Partition where
  info : PartitionInfo := {}
  pendingSync : Bool := false
  totalDownloadProgress : Int := 0
  groupState : Option (List (Nat × NodeState)) := none
  stored : PartitionInfo := {}
  writes : List InfoWrite := []
deriving DecidableEq

inductive Event where
  | downloading (response : Response)
  /-- The table changes the status; a rollback changes it to `BLS_DOWNLOADING`. -/
  | update (newStatus : BulkLoadStatus)
  /-- The storage takes a write, again if it timed out. -/
  | store (i : Nat)
  | written (i : Nat)
deriving DecidableEq

namespace Partition

/-- `is_partition_metadata_not_updated`. -/
def MetadataNotUpdated (p : Partition) : Prop :=
  p.info.metadata.files.length = 0 ∧ p.info.metadata.fileTotalSize = 0
deriving Decidable

def issue (p : Partition) (w : InfoWrite) : Partition := { p with writes := p.writes ++ [w] }

/-- `update_partition_metadata_on_remote_storage`. -/
def updateMetadata (metadata : Metadata) (p : Partition) : Partition :=
  p.issue { info := { p.info with metadata := metadata }, ofStatus := false }

/-- `update_partition_info_unlock`. -/
def withStatus (newStatus : BulkLoadStatus) (p : Partition) : PartitionInfo :=
  match p.info.status, newStatus, p.groupState with
  | .ingesting, .succeed, some nodes =>
    { p.info with status := .succeed, hostPorts := nodes.map Prod.fst, everIngestSucceed := true }
  | _, _, _ => { p.info with status := newStatus }

/-- A status that `update_partition_info_on_remote_storage` does not write: the partition has it, or
a write of the status is on its way. A rollback that finds the flag set tries again. -/
def Skips (p : Partition) (newStatus : BulkLoadStatus) : Prop :=
  (p.info.status = newStatus ∧ newStatus ≠ .downloading) ∨ p.pendingSync = true
deriving Decidable

/-- `update_partition_info_on_remote_storage`. -/
def updateInfo (newStatus : BulkLoadStatus) (p : Partition) : Partition :=
  if p.Skips newStatus then p
  else { p with pendingSync := true }.issue { info := p.withStatus newStatus, ofStatus := true }

/-- `handle_app_downloading`. A node that failed makes the table fail, which leaves the record. -/
def handleAppDownloading (response : Response) (p : Partition) : Partition :=
  match response.totalDownloadProgress with
  | none => p
  | some totalProgress =>
    if response.groupState.all fun node =>
        node.2.downloadProgress.isSome && node.2.downloadOk == some true then
      let p := match response.metadata with
        | some metadata => if p.MetadataNotUpdated then p.updateMetadata metadata else p
        | none => p
      let p := { p with
        totalDownloadProgress := totalProgress
        groupState := some response.groupState }
      -- `PROGRESS_FINISHED`
      if 100 ≤ totalProgress then p.updateInfo .downloaded else p
    else p

/-- The callbacks of the writes, with `update_partition_info_on_remote_storage_reply`. -/
def onWritten (w : InfoWrite) (p : Partition) : Partition :=
  let p := { p with info := w.info }
  if w.ofStatus then
    let p := { p with pendingSync := false }
    if w.info.status = .downloading then { p with groupState := none, totalDownloadProgress := 0 }
    else p
  else p

def step (p : Partition) : Event → Option Partition
  | .downloading response => some (p.handleAppDownloading response)
  | .update newStatus => some (p.updateInfo newStatus)
  | .store i =>
    p.writes[i]?.map fun w =>
      { p with stored := w.info, writes := p.writes.set i { w with applied := true } }
  | .written i =>
    match p.writes[i]? with
    | some w =>
      if w.applied then some ({ p with writes := p.writes.eraseIdx i }.onWritten w) else none
    | none => none

/-- The event makes the meta server issue one write at most, and none while another one is
outstanding: a response brings the metadata or the end of the download, not both, and finds no write
that it would have to wait for; so does a status change of the table. -/
def OneWrite (p : Partition) : Event → Prop
  | .downloading response =>
    (response.metadata ≠ none ∧ p.MetadataNotUpdated →
      p.writes = [] ∧ (response.finished = true → p.Skips .downloaded)) ∧
    (response.finished = true → p.writes = [] ∨ p.Skips .downloaded)
  | .update newStatus => p.writes = [] ∨ p.Skips newStatus
  | .store _ | .written _ => True

instance (p : Partition) (e : Event) : Decidable (p.OneWrite e) := by
  cases e <;> unfold OneWrite <;> infer_instance

/-- What an event is to keep after the events `es`. A status returns to `BLS_DOWNLOADING` only with
a write of the status, and after a rollback. -/
structure Keeps (es : List Event) (p : Partition) (e : Event) (p' : Partition) : Prop where
  metadata : p.stored.metadata ≠ {} → p'.stored.metadata = p.stored.metadata
  status : p.info.status = .downloaded → p'.info.status = .downloading →
    .update .downloading ∈ es ∧ ∃ i w, e = .written i ∧ p.writes[i]? = some w ∧ w.ofStatus = true
  settled : p'.writes = [] → p'.info = p'.stored

/-! ### One write at a time -/

variable (es : List Event)

/-- A write that changes the status, or metadata that are not known yet. Only a rollback writes
`BLS_DOWNLOADING` as a new status. -/
structure Update (info : PartitionInfo) (w : InfoWrite) : Prop where
  metadata : info.metadata ≠ {} → w.info.metadata = info.metadata
  status : w.ofStatus = false → w.info.status = info.status
  rollback : w.ofStatus = true → w.info.status = .downloading → .update .downloading ∈ es

def InStep (p : Partition) : Prop :=
  (p.writes = [] ∧ p.info = p.stored) ∨
    ∃ w, p.writes = [w] ∧ Update es p.info w ∧ (p.stored = p.info ∨ p.stored = w.info) ∧
      (w.applied = true → p.stored = w.info)

/-- The meta server only issues updates of the record as it is. -/
structure Issues (p p' : Partition) : Prop where
  info : p'.info = p.info
  stored : p'.stored = p.stored
  writes : ∃ ws, p'.writes = p.writes ++ ws ∧ ∀ w ∈ ws, w.applied = false ∧ Update es p.info w

variable {es}

theorem Issues.refl (p : Partition) : Issues es p p := ⟨rfl, rfl, [], by simp, by simp⟩

theorem Issues.trans {p q r : Partition} (hpq : Issues es p q) (hqr : Issues es q r) :
    Issues es p r := by
  obtain ⟨ws, hws, hnew⟩ := hpq.writes
  obtain ⟨ws', hws', hnew'⟩ := hqr.writes
  refine ⟨hqr.info.trans hpq.info, hqr.stored.trans hpq.stored, ws ++ ws', ?_, ?_⟩
  · rw [hws', hws, append_assoc]
  · intro w hw
    rcases mem_append.mp hw with hw | hw
    · exact hnew w hw
    · exact hpq.info ▸ hnew' w hw

variable {p p' : Partition} {w : InfoWrite}

theorem issues_issue (p : Partition) (happlied : w.applied = false) (hupdate : Update es p.info w) :
    Issues es p (p.issue w) := by
  refine ⟨rfl, rfl, [w], rfl, ?_⟩
  intro w' hw'
  exact mem_singleton.mp hw' ▸ ⟨happlied, hupdate⟩

theorem metadata_eq_of_notUpdated (h : p.MetadataNotUpdated) : p.info.metadata = {} := by
  obtain ⟨hfiles, hsize⟩ := h
  rw [← hsize, ← length_eq_zero_iff.mp hfiles]

theorem issues_updateMetadata (h : p.MetadataNotUpdated) (metadata : Metadata) :
    Issues es p (p.updateMetadata metadata) :=
  issues_issue p rfl ⟨fun hne => absurd (metadata_eq_of_notUpdated h) hne, fun _ => rfl, nofun⟩

theorem withStatus_spec (newStatus : BulkLoadStatus) (p : Partition) :
    (p.withStatus newStatus).metadata = p.info.metadata ∧
      (p.withStatus newStatus).status = newStatus := by
  unfold withStatus
  split <;> exact ⟨rfl, rfl⟩

theorem issues_updateInfo {newStatus : BulkLoadStatus}
    (hback : newStatus = .downloading → .update .downloading ∈ es) (p : Partition) :
    Issues es p (p.updateInfo newStatus) := by
  unfold updateInfo
  split
  · exact .refl p
  obtain ⟨hmetadata, hstatus⟩ := withStatus_spec newStatus p
  have h : Issues es _ _ := issues_issue { p with pendingSync := true }
    (w := { info := p.withStatus newStatus, ofStatus := true }) rfl
    ⟨fun _ => hmetadata, nofun, fun _ hnew => hback (hstatus.symm.trans hnew)⟩
  exact ⟨h.info, h.stored, h.writes⟩

theorem issues_handleAppDownloading (response : Response) (p : Partition) :
    Issues es p (p.handleAppDownloading response) := by
  unfold handleAppDownloading
  split
  · exact .refl p
  split
  · extract_lets q q'
    have hq : Issues es p q := by
      show Issues es p (match response.metadata with | some _ => _ | none => _)
      split
      · split
        · rename_i hnot
          exact issues_updateMetadata hnot _
        · exact .refl p
      · exact .refl p
    have hq' : Issues es p q' := ⟨hq.info, hq.stored, hq.writes⟩
    split
    · exact hq'.trans (issues_updateInfo (fun h => by cases h) q')
    · exact hq'
  · exact .refl p

theorem onWritten_frame (w : InfoWrite) (p : Partition) : (p.onWritten w).info = w.info ∧
    (p.onWritten w).stored = p.stored ∧ (p.onWritten w).writes = p.writes := by
  unfold onWritten
  grind

theorem length_updateInfo (newStatus : BulkLoadStatus) (p : Partition) :
    (p.updateInfo newStatus).writes.length =
      p.writes.length + if p.Skips newStatus then 0 else 1 := by
  unfold updateInfo
  split
  · rfl
  · exact length_append

theorem length_handleAppDownloading (response : Response) (p : Partition) :
    (p.handleAppDownloading response).writes.length ≤ p.writes.length +
      (if response.metadata ≠ none ∧ p.MetadataNotUpdated then 1 else 0) +
      (if response.finished = true ∧ ¬ p.Skips .downloaded then 1 else 0) := by
  unfold handleAppDownloading
  split
  · omega
  rename_i totalProgress hprogress
  split
  · extract_lets q q'
    have hq : q.writes.length ≤ p.writes.length +
          (if response.metadata ≠ none ∧ p.MetadataNotUpdated then 1 else 0) ∧
        (q'.Skips .downloaded ↔ p.Skips .downloaded) := by
      cases hm : response.metadata with
      | none => simp [q', q, hm, Skips]
      | some metadata =>
        by_cases hnot : p.MetadataNotUpdated <;> simp [q', q, hm, hnot, Skips, updateMetadata, issue]
    have hfinished : response.finished = decide (100 ≤ totalProgress) := by
      simp [Response.finished, hprogress]
    split
    · rename_i hend
      have hlen : q'.writes.length = q.writes.length := rfl
      by_cases hskips : p.Skips .downloaded
      · rw [length_updateInfo, if_pos (hq.2.mpr hskips)]
        omega
      · have hwrites : (if response.finished = true ∧ ¬ p.Skips .downloaded then 1 else 0) = 1 :=
          if_pos ⟨by simp [hfinished, hend], hskips⟩
        rw [length_updateInfo, if_neg (mt hq.2.mp hskips), hwrites]
        omega
    · exact hq.1.trans (Nat.le_add_right _ _)
  · omega

theorem OneWrite.length_le {e : Event} (hone : p.OneWrite e) (hwrites : p.writes.length ≤ 1)
    (hstep : p.step e = some p') : p'.writes.length ≤ 1 := by
  cases e with
  | downloading response =>
    cases hstep
    have hle := length_handleAppDownloading response p
    obtain ⟨hmetadata, hend⟩ := hone
    grind
  | update newStatus =>
    cases hstep
    rw [length_updateInfo]
    rcases hone with hnil | hskips
    · rw [hnil]
      split <;> simp
    · rwa [if_pos hskips]
  | store i =>
    obtain ⟨w, -, rfl⟩ := map_eq_some_iff.mp hstep
    simpa using hwrites
  | written i =>
    simp only [Partition.step] at hstep
    split at hstep
    · obtain ⟨-, rfl⟩ := of_guard hstep
      rw [(onWritten_frame _ _).2.2]
      exact (length_eraseIdx_le _ _).trans hwrites
    · cases hstep

theorem InStep.issues (h : InStep es p) (hissues : Issues es p p') (hone : p'.writes.length ≤ 1) :
    InStep es p' := by
  obtain ⟨ws, hws, hnew⟩ := hissues.writes
  unfold InStep
  rw [hissues.info, hissues.stored, hws]
  rw [hws, length_append] at hone
  rcases h with ⟨hnil, hinfo⟩ | ⟨w, hw, hrest⟩
  · rw [hnil, nil_append]
    match ws, hone with
    | [], _ => exact .inl ⟨rfl, hinfo⟩
    | [w], _ =>
      obtain ⟨happlied, hupdate⟩ := hnew w (mem_singleton_self w)
      exact .inr ⟨w, rfl, hupdate, .inl hinfo.symm, by simp [happlied]⟩
    | _ :: _ :: _, hone => simp at hone; omega
  · obtain rfl : ws = [] := by
      rw [hw, length_singleton] at hone
      exact length_eq_zero_iff.mp (by omega)
    exact .inr ⟨w, by simp [hw], hrest⟩

theorem InStep.of_getElem? (h : InStep es p) {i : Nat} (hw : p.writes[i]? = some w) :
    i = 0 ∧ p.writes = [w] ∧ Update es p.info w ∧ (p.stored = p.info ∨ p.stored = w.info) ∧
      (w.applied = true → p.stored = w.info) := by
  rcases h with ⟨hnil, -⟩ | ⟨w', hw', hrest⟩
  · simp [hnil] at hw
  · rw [hw', getElem?_singleton] at hw
    split at hw
    · rename_i hi
      obtain rfl := some.inj hw
      exact ⟨hi, hw', hrest⟩
    · cases hw

theorem InStep.length_le (h : InStep es p) : p.writes.length ≤ 1 := by
  rcases h with ⟨hnil, -⟩ | ⟨w, hw, -⟩
  · simp [hnil]
  · simp [hw]

/-- **An event that leaves one write at most keeps the record**, and keeps it in step. -/
theorem InStep.step (h : InStep es p) {e : Event} (hmem : e = .update .downloading → e ∈ es)
    (hone : p.OneWrite e) (hstep : p.step e = some p') : Keeps es p e p' ∧ InStep es p' := by
  -- the events of the meta server leave the record and the storage
  have hissued : Issues es p p' → Keeps es p e p' ∧ InStep es p' := by
    intro hissues
    have hin := h.issues hissues (hone.length_le h.length_le hstep)
    refine ⟨⟨fun _ => by rw [hissues.stored], fun hd hd' => ?_, fun hnil => ?_⟩, hin⟩
    · rw [hissues.info, hd] at hd'
      cases hd'
    · rcases hin with hin | ⟨w, hw, -⟩
      · exact hin.2
      · cases hw.symm.trans hnil
  cases e with
  | downloading response => exact hissued (some.inj hstep ▸ issues_handleAppDownloading response p)
  | update newStatus => 
    refine hissued (some.inj hstep ▸ issues_updateInfo ?_ p)
    rintro rfl
    exact hmem rfl
  | store i =>
    obtain ⟨w, hw, rfl⟩ := map_eq_some_iff.mp hstep
    obtain ⟨rfl, hwrites, hupdate, hstored, -⟩ := h.of_getElem? hw
    rw [hwrites]
    refine ⟨⟨fun hne => ?_, fun hd hd' => ?_, nofun⟩, ?_⟩
    · show w.info.metadata = _
      rcases hstored with hstored | hstored
      · rw [hstored] at hne ⊢
        exact hupdate.metadata hne
      · rw [hstored]
    · cases hd.symm.trans hd'
    · exact .inr ⟨_, rfl, ⟨hupdate.metadata, hupdate.status, hupdate.rollback⟩, .inr rfl,
        fun _ => rfl⟩
  | written i =>
    simp only [Partition.step] at hstep
    split at hstep
    · rename_i w hw
      obtain ⟨happlied, rfl⟩ := of_guard hstep
      obtain ⟨rfl, hwrites, hupdate, -, hstored⟩ := h.of_getElem? hw
      obtain ⟨hinfo, hkept, hnil⟩ := onWritten_frame w { p with writes := p.writes.eraseIdx 0 }
      simp only [hwrites, eraseIdx_cons_zero] at hinfo hkept hnil ⊢
      refine ⟨⟨fun _ => by rw [hkept], fun hd hd' => ?_, fun _ => ?_⟩, .inl ⟨hnil, ?_⟩⟩
      · rw [hinfo] at hd'
        have hstatus : w.ofStatus = true := by
          by_contra hmeta
          rw [hupdate.status (by simpa using hmeta), hd] at hd'
          cases hd'
        exact ⟨hupdate.rollback hstatus hd', 0, w, rfl, hw, hstatus⟩
      all_goals rw [hinfo, hkept, hstored happlied]
    · cases hstep

/-- **Memory and storage agree.** In every run whose events let the meta server issue one write at a
time, no event loses metadata or sets a downloaded partition back without a rollback, and without a
write the record is the one in the storage. -/
theorem one_write_keeps_the_record (es : List Event) {e : Event} (hrun : run step {} es = some p)
    (hone : StepsMeet step OneWrite {} es) (hstep : p.step e = some p') (hlast : p.OneWrite e) :
    Keeps (es ++ [e]) p e p' := by
  have hmem : StepsMeet step (fun _ e' => e' ∈ es ++ [e]) {} es :=
    stepsMeet_of_forall (fun _ he _ => mem_append_left _ he) _
  have hin : InStep (es ++ [e]) p := by
    refine run_invariant_of_steps (I := InStep (es ++ [e])) ?_ hrun (stepsMeet_and hmem hone)
      (.inl ⟨rfl, rfl⟩)
    intro q e q' hq hmeet hin
    exact (hin.step (fun _ => hmeet.1) hmeet.2 hq).2
  exact (hin.step (fun _ => mem_append_right _ (mem_singleton_self e)) hlast hstep).1

def someMetadata : Metadata := ⟨[{ name := "1.sst", size := 10 }], 10⟩

def progressResponse (progress : Int) (metadata : Option Metadata) : Response :=
  { totalDownloadProgress := some progress
    groupState := [(1, { downloadProgress := some progress, downloadOk := some true })]
    metadata := metadata }

/-- The metadata arrive first, and the download ends later; then the table is rolled back. -/
def laterEnd : List Event :=
  [.downloading (progressResponse 50 (some someMetadata)), .store 0, .written 0,
    .downloading (progressResponse 100 none), .downloading (progressResponse 100 none), .store 0,
    .written 0, .update .downloading, .store 0]

theorem one_write_keeps_the_record_later :
    ∃ p p', run step {} laterEnd = some p ∧ p.step (.written 0) = some p' ∧
      p.info = ⟨.downloaded, someMetadata, false, []⟩ ∧
      p'.info = ⟨.downloading, someMetadata, false, []⟩ ∧
      Keeps (laterEnd ++ [.written 0]) p (.written 0) p' :=
  ⟨_, _, rfl, rfl, rfl, rfl, one_write_keeps_the_record laterEnd rfl (by decide) rfl (by decide)⟩

def endWithMetadata (es : List Event) : List Event :=
  .downloading (progressResponse 100 (some someMetadata)) :: es

/-- Metadata and full progress in one response: the write of the status stores the record without
the metadata, and in the other order the write of the metadata sets the status back. -/
theorem two_writes_lose_an_update :
    (∃ p p', run step {} (endWithMetadata [.store 0, .written 0]) = some p ∧
      p.step (.store 0) = some p' ∧ p.stored.metadata = someMetadata ∧ p'.stored.metadata = {} ∧
      ¬ Keeps (endWithMetadata [.store 0, .written 0, .store 0]) p (.store 0) p') ∧
    ∃ p p', run step {} (endWithMetadata [.store 1, .written 1, .store 0]) = some p ∧
      p.step (.written 0) = some p' ∧ p.info.status = .downloaded ∧
      p'.info.status = .downloading ∧
      ¬ Keeps (endWithMetadata [.store 1, .written 1, .store 0, .written 0]) p (.written 0) p' := by
  refine ⟨⟨_, _, rfl, rfl, rfl, rfl, ?_⟩, _, _, rfl, rfl, rfl, rfl, ?_⟩
  · intro h
    exact absurd (h.metadata (by decide)) (by decide)
  · intro h
    exact absurd (h.status rfl rfl).1 (by decide)

end Partition

end Pegasus.Meta.BulkLoad
