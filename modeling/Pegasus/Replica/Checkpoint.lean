/-
When a replica releases private log files (`Pegasus.Replica.Checkpoint`), after
`replica::on_checkpoint_timer` of `replica_chkpt.cpp`.

The timer decides whether garbage collection runs at all and up to which decree.
It must not release a log file that some duplication still has to ship, so the
decree it passes on is capped by `minConfirmedDecree`, and while the progress of
a duplication is unknown nothing should be released.

* `onCheckpointTimer_eq_some_iff`: every way in which the timer triggers a
  collection.
* `releasesOnlyConfirmed_iff`: the timer respects every duplication of a primary
  exactly when none is unconfirmed, or the unconfirmed one is last in map order
  and nothing can be released.
-/

import Pegasus.Duplication.Manager

namespace Pegasus.Replica

open Pegasus.Duplication

/-- The flags `log_private_reserve_max_size_mb` and
`log_private_reserve_max_time_seconds`. -/
structure GcFlags where
  logPrivateReserveMaxSizeMb : Int := 1000
  logPrivateReserveMaxTimeSeconds : Int := 36000

structure GcArgs where
  cleanableDecree : Int
  validStartOffset : Int
  reserveMaxSize : Int
  reserveMaxTime : Int
deriving DecidableEq

structure GcRequest where
  cleanableDecree : Int
  validStartOffset : Int
deriving DecidableEq

structure CheckpointView where
  hasPrivateLog : Bool := true
  plogGcEnabled : Bool := true
  duplicationPlogChecking : Bool := false
  status : PartitionStatus
  lastDurableDecree : Int
  initOffsetInPrivateLog : Int
  isDuplicationMaster : Bool
  duplicationMgr : Manager

/-- The three early returns that do not look at any decree. -/
def CheckpointView.gcSuspended (r : CheckpointView) : Bool :=
  !r.hasPrivateLog || !r.plogGcEnabled || r.duplicationPlogChecking

def CheckpointView.minConfirmedDecree (r : CheckpointView) : Int :=
  r.duplicationMgr.minConfirmedDecree r.status

/-- `replica::on_checkpoint_timer` from the point where it turns to the private log. -/
def onCheckpointTimer (r : CheckpointView) : Option GcRequest :=
  if r.gcSuspended then none
  else if r.minConfirmedDecree < 0 ∧ r.isDuplicationMaster then none
  else if 0 ≤ r.minConfirmedDecree then
    -- `valid_start_offset` is not relied on during duplication
    if r.minConfirmedDecree < r.lastDurableDecree then some ⟨r.minConfirmedDecree, 0⟩
    else some ⟨r.lastDurableDecree, 0⟩
  else some ⟨r.lastDurableDecree, r.initOffsetInPrivateLog⟩

/-- The background task: it runs under the status the replica has by then. -/
def garbageCollectionTask (flags : GcFlags) (statusAtRun : PartitionStatus) (req : GcRequest) :
    Option GcArgs :=
  if statusAtRun = .error ∨ statusAtRun = .inactive then none
  else
    some
      { cleanableDecree := req.cleanableDecree
        validStartOffset := req.validStartOffset
        reserveMaxSize := flags.logPrivateReserveMaxSizeMb * 1024 * 1024
        reserveMaxTime := flags.logPrivateReserveMaxTimeSeconds }

/-! ### What the timer does -/

/-- **Inversion of the timer.** A collection is triggered either on behalf of
confirmed duplications, and then up to the smaller of the two decrees, or by a
replica that is no duplication master and knows no confirmed decree. -/
theorem onCheckpointTimer_eq_some_iff {r : CheckpointView} {req : GcRequest} :
    onCheckpointTimer r = some req ↔
      r.gcSuspended = false ∧
        ((0 ≤ r.minConfirmedDecree ∧
            req = ⟨min r.minConfirmedDecree r.lastDurableDecree, 0⟩) ∨
          (r.minConfirmedDecree < 0 ∧ r.isDuplicationMaster = false ∧
            req = ⟨r.lastDurableDecree, r.initOffsetInPrivateLog⟩)) := by
  unfold onCheckpointTimer
  cases r.gcSuspended with
  | true => simp
  | false =>
    by_cases hmin : r.minConfirmedDecree < 0
    · cases r.isDuplicationMaster <;> simp [hmin, not_le.mpr hmin, eq_comm]
    · have hnonneg : 0 ≤ r.minConfirmedDecree := not_lt.mp hmin
      by_cases hlt : r.minConfirmedDecree < r.lastDurableDecree
      · simp only [hmin, hnonneg, hlt, min_eq_left hlt.le]
        simpa using eq_comm
      · simp only [hmin, hnonneg, hlt, min_eq_right (not_lt.mp hlt)]
        simpa using eq_comm

theorem cleanableDecree_of_task {flags : GcFlags} {st : PartitionStatus} {req : GcRequest}
    {args : GcArgs} (h : garbageCollectionTask flags st req = some args) :
    args.cleanableDecree = req.cleanableDecree := by
  unfold garbageCollectionTask at h
  split at h
  · cases h
  · cases h
    rfl

/-! ### What the timer must respect -/

/-- The decree that reaches `garbage_collection`, whatever the status by the time
the task runs, is confirmed by every duplication. -/
def CollectsOnlyConfirmed (r : CheckpointView) : Prop :=
  ∀ req, onCheckpointTimer r = some req →
    ∀ flags st args, garbageCollectionTask flags st req = some args →
      ∀ d ∈ r.duplicationMgr.confirmedDecrees, args.cleanableDecree ≤ d

/-- A duplication master with an unconfirmed duplication triggers no collection. -/
def WaitsForUnconfirmed (r : CheckpointView) : Prop :=
  r.isDuplicationMaster = true → invalidDecree ∈ r.duplicationMgr.confirmedDecrees →
    onCheckpointTimer r = none

structure ReleasesOnlyConfirmed (r : CheckpointView) : Prop where
  collects : CollectsOnlyConfirmed r
  waits : WaitsForUnconfirmed r
  minimum : r.minConfirmedDecree = minConfirmedSpec r.duplicationMgr.confirmedDecrees

/-- No collection can release anything: it is suspended, held back for a
duplication master, or nothing is durable yet. -/
def CheckpointView.nothingReleasable (r : CheckpointView) : Prop :=
  r.isDuplicationMaster = true ∨ r.gcSuspended = true ∨ r.lastDurableDecree < 0

/-- Every duplication is confirmed, or the last one in map order is not and
nothing can be released. -/
def CheckpointView.progressVisible (r : CheckpointView) : Prop :=
  invalidDecree ∉ r.duplicationMgr.confirmedDecrees ∨
    (r.duplicationMgr.confirmedDecrees.getLast? = some invalidDecree ∧ r.nothingReleasable)

section Primary

variable {r : CheckpointView}

variable (hst : r.status = .primary)
include hst

theorem minConfirmedDecree_of_primary :
    r.minConfirmedDecree = r.duplicationMgr.minConfirmedDecree .primary := by
  rw [CheckpointView.minConfirmedDecree, hst]

theorem collectsOnlyConfirmed_of_all_confirmed
    (hall : invalidDecree ∉ r.duplicationMgr.confirmedDecrees) : CollectsOnlyConfirmed r := by
  intro req hreq flags st args hargs d hd
  rw [cleanableDecree_of_task hargs]
  have hle : r.minConfirmedDecree ≤ d := by
    rw [minConfirmedDecree_of_primary hst]
    exact minConfirmedDecree_le r.duplicationMgr hall hd
  rcases onCheckpointTimer_eq_some_iff.mp hreq with ⟨-, ⟨-, rfl⟩ | ⟨hneg, -, -⟩⟩
  · exact le_trans (min_le_left _ _) hle
  · -- a confirmed duplication exists, so the minimum is not negative
    have hspec := minConfirmedDecree_of_primary hst
    rw [hspec, minConfirmedDecree_of_all_confirmed r.duplicationMgr hall] at hneg
    obtain ⟨m, hm⟩ := Option.isSome_iff_exists.mp (List.isSome_min?_of_mem hd)
    have hmem := (List.min?_eq_some_iff.mp hm).1
    have hge := r.duplicationMgr.confirmedDecrees_ge m hmem
    have hne : m ≠ invalidDecree := fun heq => hall (heq ▸ hmem)
    rw [hm, Option.getD_some] at hneg
    unfold invalidDecree at hge hne
    omega

/-- With an unconfirmed duplication last in map order the timer sees no decree, and
respects the duplications exactly when nothing can be released. -/
theorem collectsOnlyConfirmed_of_last_unconfirmed
    (hlast : r.duplicationMgr.confirmedDecrees.getLast? = some invalidDecree) :
    CollectsOnlyConfirmed r ↔ r.nothingReleasable := by
  have hmin : r.minConfirmedDecree = invalidDecree := by
    rw [minConfirmedDecree_of_primary hst]
    exact (minConfirmedDecree_eq_invalid_iff r.duplicationMgr).mpr (Or.inr hlast)
  have hneg : r.minConfirmedDecree < 0 := by rw [hmin]; decide
  have hmem : invalidDecree ∈ r.duplicationMgr.confirmedDecrees := List.mem_of_getLast? hlast
  constructor
  · intro hcollects
    by_contra hnot
    unfold CheckpointView.nothingReleasable at hnot
    push Not at hnot
    obtain ⟨hmaster, hsusp, hdurable⟩ := hnot
    have hreq : onCheckpointTimer r =
        some ⟨r.lastDurableDecree, r.initOffsetInPrivateLog⟩ :=
      onCheckpointTimer_eq_some_iff.mpr
        ⟨by simpa using hsusp, Or.inr ⟨hneg, by simpa using hmaster, rfl⟩⟩
    have hle := hcollects _ hreq {} .primary _ rfl _ hmem
    unfold invalidDecree at hle
    simp only at hle
    omega
  · rintro hnothing req hreq flags st args hargs d hd
    rw [cleanableDecree_of_task hargs]
    rcases onCheckpointTimer_eq_some_iff.mp hreq with ⟨hsusp, ⟨hnonneg, -⟩ | ⟨-, hmaster, rfl⟩⟩
    · omega
    · have hge := r.duplicationMgr.confirmedDecrees_ge d hd
      rcases hnothing with h | h | h
      · simp [hmaster] at h
      · simp [hsusp] at h
      · unfold invalidDecree at hge
        simp only
        omega

omit hst

theorem waitsForUnconfirmed_of_minimum
    (hmin : r.minConfirmedDecree = minConfirmedSpec r.duplicationMgr.confirmedDecrees) :
    WaitsForUnconfirmed r := by
  intro hmaster hmem
  have hneg : r.minConfirmedDecree < 0 := by
    rw [hmin, minConfirmedSpec, if_pos hmem]
    decide
  cases hreq : onCheckpointTimer r with
  | none => rfl
  | some req =>
    rcases onCheckpointTimer_eq_some_iff.mp hreq with ⟨-, ⟨hnonneg, -⟩ | ⟨-, hnot, -⟩⟩
    · omega
    · simp [hmaster] at hnot

/-- **Exactly when the timer of a primary respects its duplications.** -/
theorem releasesOnlyConfirmed_iff (r : CheckpointView) (hst : r.status = .primary) :
    ReleasesOnlyConfirmed r ↔ r.progressVisible := by
  have hspec := minConfirmedDecree_eq_spec_iff r.duplicationMgr
  rw [← minConfirmedDecree_of_primary hst] at hspec
  constructor
  · rintro ⟨hcollects, -, hminimum⟩
    rcases hspec.mp hminimum with hall | hlast
    · exact Or.inl hall
    · exact Or.inr ⟨hlast, (collectsOnlyConfirmed_of_last_unconfirmed hst hlast).mp hcollects⟩
  · rintro (hall | ⟨hlast, hnothing⟩)
    · have hminimum := hspec.mpr (Or.inl hall)
      exact ⟨collectsOnlyConfirmed_of_all_confirmed hst hall,
        waitsForUnconfirmed_of_minimum hminimum, hminimum⟩
    · have hminimum := hspec.mpr (Or.inr hlast)
      exact ⟨(collectsOnlyConfirmed_of_last_unconfirmed hst hlast).mpr hnothing,
        waitsForUnconfirmed_of_minimum hminimum, hminimum⟩

end Primary

/-- A duplication master with ten durable decrees and two duplications, the second
confirmed up to decree 5. -/
def twoDuplications (first : Progress) : CheckpointView where
  status := .primary
  lastDurableDecree := 10
  initOffsetInPrivateLog := 0
  isDuplicationMaster := true
  duplicationMgr :=
    { duplications := [(1, first), (2, { confirmedDecree := 5, lastDecree := 5 })]
      sorted := by simp }

/-- Two confirmed duplications are respected. -/
theorem releasesOnlyConfirmed_two_confirmed :
    (twoDuplications { confirmedDecree := 3, lastDecree := 3 }).status = .primary ∧
      ReleasesOnlyConfirmed (twoDuplications { confirmedDecree := 3, lastDecree := 3 }) :=
  ⟨rfl, (releasesOnlyConfirmed_iff _ rfl).mpr (Or.inl (by decide))⟩

/-- **An unconfirmed duplication is forgotten.** The first duplication has confirmed
nothing, yet the timer of its duplication master collects up to decree 5. -/
theorem unconfirmed_duplication_forgotten :
    (twoDuplications {}).status = .primary ∧
      onCheckpointTimer (twoDuplications {}) = some ⟨5, 0⟩ ∧
        ¬ ReleasesOnlyConfirmed (twoDuplications {}) := by
  have htimer : onCheckpointTimer (twoDuplications {}) = some ⟨5, 0⟩ := by decide
  refine ⟨rfl, htimer, fun hsafe => ?_⟩
  have hnone := hsafe.waits rfl (by decide)
  rw [htimer] at hnone
  cases hnone

end Pegasus.Replica
