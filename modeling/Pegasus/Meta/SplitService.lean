/-
The partition split of a table on the meta server, after `meta_split_service.cpp`.

A split is started by a write of the doubled partition count; the callback of that write doubles
the count in memory and marks every parent as splitting. Each parent then either registers its
child or, once the split is cancelled, reports that it has stopped; the last report writes the
halved count.

- `Accounted`: every parent is splitting, registered or cancelled, and never some of both;
- `split_is_consistent`: the main result, for splits that are started one at a time.
-/

import Pegasus.Meta.AppInfo

namespace Pegasus.Meta

open TransitionSystem List Option

def invalidBallot : Int := -1

inductive SplitStatus where
  | notSplit
  | splitting
  | pausing
  | paused
  | canceling
deriving DecidableEq

/-- `enum_to_string` of a status. -/
def SplitStatus.enumToString : SplitStatus → String
  | .notSplit => "replication::split_status::NOT_SPLIT"
  | .splitting => "replication::split_status::SPLITTING"
  | .pausing => "replication::split_status::PAUSING"
  | .paused => "replication::split_status::PAUSED"
  | .canceling => "replication::split_status::CANCELING"

inductive SplitControlType where
  | pause
  | restart
  | cancel
deriving DecidableEq

inductive SplitError where
  | ok
  | ioPending
  | appDropped
  | invalidParameters
  | busy
  | invalidVersion
  | invalidState
  | childRegistered
deriving DecidableEq

/-- A response: the error, the hint for the user and the ballot of the parent's configuration. -/
structure SplitReply where
  err : SplitError
  hint : String := ""
  parentBallot : Option Int := none
deriving DecidableEq

/-- `register_child_request`: the two partitions and the ballots of their configurations. The
child's ballot is the parent's plus one. -/
structure RegisterChild where
  parent : Nat
  child : Nat
  parentBallot : Int
  childBallot : Int
  childBallot_pos : 0 < childBallot
deriving DecidableEq

/-- What a write of the table's `app_info` does when it has completed. -/
inductive CountChange where
  | start (newPartitionCount : Int)
  | cancel
deriving DecidableEq

/-- A `set_data` of the table's `app_info`, and whether the storage has it. -/
structure CountWrite where
  change : CountChange
  partitionCount : Nat
  applied : Bool := false
deriving DecidableEq

/-- The split that was started last: what it was asked for and what became of the parents. -/
structure SplitRound where
  oldPartitionCount : Nat
  newPartitionCount : Int
  registered : List Nat := []
  canceled : List Nat := []
deriving DecidableEq

/-- A table of the meta server, with its `split_states`. -/
structure SplitTable where
  appName : String := "temp"
  appStatus : AppStatus := .available
  partitionCount : Nat
  initPartitionCount : Int := 0
  /-- The ballots of `pcs`. -/
  ballots : List Int
  /-- The `stage` of `contexts`: an update of the partition is being written. -/
  syncing : List Bool
  splittingCount : Int := 0
  /-- `split_states.status`. -/
  status : List (Nat × SplitStatus) := []
  /-- The partition count on the storage. -/
  stored : Nat
  pending : List CountWrite := []
  /-- The children that are being added to the storage. -/
  registering : List RegisterChild := []
  /-- The history of the last split; no handler reads it. -/
  round : Option SplitRound := none
deriving DecidableEq

inductive SplitEvent where
  | startPartitionSplit (newPartitionCount : Int)
  | registerChild (request : RegisterChild)
  | controlPartitionSplit (type : SplitControlType) (parentPidx oldPartitionCount : Int)
  | notifyStopSplit (parent : Nat) (metaSplitStatus : SplitStatus) (partitionCount : Nat)
  | apply (i : Nat)
  | timeout (i : Nat)
  | complete (i : Nat)
  | childAdded (i : Nat)
  | configurationSyncing (pidx : Nat)
  | configurationUpdated (pidx : Nat)
deriving DecidableEq

namespace SplitTable

def splitting (t : SplitTable) : Bool := 0 < t.splittingCount

def doStartPartitionSplit (newPartitionCount : Int) (t : SplitTable) : SplitTable :=
  { t with
    initPartitionCount :=
      if t.initPartitionCount ≤ 0 then t.partitionCount else t.initPartitionCount
    pending := t.pending ++
      [{ change := .start newPartitionCount, partitionCount := t.partitionCount * 2 }] }

def startPartitionSplit (newPartitionCount : Int) (t : SplitTable) : SplitReply × SplitTable :=
  if t.appStatus ≠ .available then ({ err := .appDropped, hint := "app dropped" }, t)
  else if newPartitionCount ≠ t.partitionCount * 2 then
    let expected := t.partitionCount * 2
    ({ err := .invalidParameters, hint := s!"wrong partition_count, should be {expected}" }, t)
  else if t.splitting then
    let name := t.appName
    ({ err := .busy, hint := s!"app({name}) is already executing partition split" }, t)
  else ({ err := .ok }, t.doStartPartitionSplit newPartitionCount)

/-- The callback of `do_start_partition_split`: the count is doubled, the children have no
configuration yet and every parent is splitting. -/
def onStarted (newPartitionCount : Int) (t : SplitTable) : SplitTable :=
  { t with
    splittingCount := t.partitionCount
    partitionCount := t.partitionCount * 2
    ballots := t.ballots ++ List.replicate t.partitionCount invalidBallot
    syncing := t.syncing ++ List.replicate t.partitionCount false
    status := (List.range t.partitionCount).map (fun i => (i, SplitStatus.splitting)) ++
      t.status.filter fun entry => t.partitionCount ≤ entry.1
    round := some
      { oldPartitionCount := t.partitionCount, newPartitionCount := newPartitionCount } }

/-- The status of a parent is erased and `splitting_count` goes down. -/
def eraseParent (parent : Nat) (t : SplitTable) : SplitTable :=
  { t with
    status := t.status.filter fun entry => entry.1 ≠ parent
    splittingCount := t.splittingCount - 1 }

/-- The end of `register_child_on_meta`: the child is going to be added to the storage. -/
def acceptChild (request : RegisterChild) (t : SplitTable) : SplitTable :=
  { t.eraseParent request.parent with
    syncing := t.syncing.set request.parent true
    registering := t.registering ++ [request]
    round := t.round.map fun r => { r with registered := request.parent :: r.registered } }

/-- `register_child_on_meta`. A child that is not splitting must have been registered, or the meta
server aborts. -/
def registerChildOnMeta (request : RegisterChild) (t : SplitTable) :
    Option (SplitReply × SplitTable) :=
  (t.ballots[request.parent]?).bind fun ballot =>
    (t.syncing[request.parent]?).bind fun syncing =>
      if request.parentBallot ≠ ballot then
        some ({ err := .invalidVersion, parentBallot := some ballot }, t)
      else if syncing = true then some ({ err := .ioPending }, t)
      else if t.partitionCount ≤ request.child then
        some ({ err := .invalidState, parentBallot := some ballot }, t)
      else match t.status.lookup request.parent with
        | none =>
          (t.ballots[request.child]?).bind fun childBallot =>
            if 0 < childBallot then
              some ({ err := .childRegistered, parentBallot := some ballot }, t)
            else none
        | some .splitting => some ({ err := .ioPending }, t.acceptChild request)
        | some _ => some ({ err := .invalidState }, t)

/-- `on_add_child_on_remote_storage_reply`, when the child has been added. The new ballot has to
follow the old one, or `update_configuration_locally` aborts. -/
def onAddChild (i : Nat) (t : SplitTable) : Option SplitTable :=
  (t.registering[i]?).bind fun request =>
    (t.ballots[request.child]?).bind fun old =>
      if old = invalidBallot ∨ old + 1 = request.childBallot then
        some { t with
          ballots := t.ballots.set request.child request.childBallot
          syncing := t.syncing.set request.parent false
          registering := t.registering.eraseIdx i }
      else none

/-- The status that a control looks for, and the one it sets. -/
def controlStatus : SplitControlType → SplitStatus × SplitStatus
  | .pause => (.splitting, .pausing)
  | _ => (.paused, .splitting)

/-- `iter->second = target` for the parents that are picked. -/
def setStatus (pick : Nat × SplitStatus → Bool) (target : SplitStatus) (t : SplitTable) :
    SplitTable :=
  { t with status := t.status.map fun entry => if pick entry then (entry.1, target) else entry }

def doControlSingle (type : SplitControlType) (parentPidx : Nat) (t : SplitTable) :
    SplitReply × SplitTable :=
  if t.partitionCount / 2 ≤ parentPidx then
    ({ err := .invalidParameters, hint := s!"invalid parent partition index({parentPidx})" }, t)
  else match t.status.lookup parentPidx with
    | none =>
      ({ err := if type = .pause then .childRegistered else .invalidState,
         hint := s!"partition[{parentPidx}] is not splitting" }, t)
    | some status =>
      if status = (controlStatus type).1 then
        ({ err := .ok }, t.setStatus (fun entry => entry.1 == parentPidx) (controlStatus type).2)
      else
        let current := status.enumToString
        ({ err := .invalidState,
           hint := s!"partition[{parentPidx}] wrong split_status({current})" }, t)

/-- `do_control_all`. A cancel is refused once a child has been registered. -/
def doControlAll (type : SplitControlType) (oldPartitionCount : Int) (t : SplitTable) :
    SplitReply × SplitTable :=
  let half := t.partitionCount / 2
  if type = .cancel then
    if oldPartitionCount ≠ half then
      ({ err := .invalidParameters, hint := s!"wrong partition_count, should be {half}" }, t)
    else if t.splittingCount ≠ oldPartitionCount then
      ({ err := .childRegistered, hint := "some partitions have already finished split" }, t)
    else ({ err := .ok }, t.setStatus (fun _ => true) .canceling)
  else
    ({ err := .ok },
      t.setStatus (fun entry => entry.2 == (controlStatus type).1) (controlStatus type).2)

def controlPartitionSplit (type : SplitControlType) (parentPidx oldPartitionCount : Int)
    (t : SplitTable) : SplitReply × SplitTable :=
  if t.appStatus ≠ .available then ({ err := .appDropped, hint := "app dropped" }, t)
  else if t.splitting = false then
    let name := t.appName
    ({ err := .invalidState, hint := s!"app({name}) is not splitting" }, t)
  else if 0 ≤ parentPidx ∧ type ≠ .cancel then t.doControlSingle type parentPidx.toNat
  else t.doControlAll type oldPartitionCount

def doCancelPartitionSplit (partitionCount : Nat) (t : SplitTable) : SplitTable :=
  { t with pending := t.pending ++ [{ change := .cancel, partitionCount := partitionCount }] }

def onCanceled (t : SplitTable) : SplitTable :=
  { t with
    partitionCount := t.partitionCount / 2
    ballots := t.ballots.take (t.partitionCount / 2)
    syncing := t.syncing.take (t.partitionCount / 2) }

/-- The end of `notify_stop_split` for a parent that is cancelled. -/
def stopParent (parent partitionCount : Nat) (t : SplitTable) : SplitTable :=
  let t := { t.eraseParent parent with
    round := t.round.map fun r => { r with canceled := parent :: r.canceled } }
  if t.splittingCount = 0 then t.doCancelPartitionSplit partitionCount else t

def notifyStopSplit (parent : Nat) (metaSplitStatus : SplitStatus) (partitionCount : Nat)
    (t : SplitTable) : Option (SplitReply × SplitTable) :=
  if metaSplitStatus ≠ .pausing ∧ metaSplitStatus ≠ .canceling then none
  else if t.status.lookup parent ≠ some metaSplitStatus then some ({ err := .invalidVersion }, t)
  else if metaSplitStatus = .pausing then
    some ({ err := .ok }, t.setStatus (fun entry => entry.1 == parent) .paused)
  else if partitionCount * 2 = t.partitionCount then
    some ({ err := .ok }, t.stopParent parent partitionCount)
  else none

/-- One event. A failed `CHECK` aborts. A write that times out is issued again; so is that of a
child, which changes nothing until it succeeds. The other updates of a partition's configuration
take their turn, one at a time. -/
def step (t : SplitTable) : SplitEvent → Option SplitTable
  | .startPartitionSplit newPartitionCount => some (t.startPartitionSplit newPartitionCount).2
  | .registerChild request => (t.registerChildOnMeta request).map Prod.snd
  | .controlPartitionSplit type parentPidx oldPartitionCount =>
    some (t.controlPartitionSplit type parentPidx oldPartitionCount).2
  | .notifyStopSplit parent metaSplitStatus partitionCount =>
    (t.notifyStopSplit parent metaSplitStatus partitionCount).map Prod.snd
  | .apply i =>
    (t.pending[i]?).map fun w =>
      { t with stored := w.partitionCount, pending := t.pending.set i { w with applied := true } }
  | .timeout i =>
    (t.pending[i]?).map fun w => { t with pending := t.pending.set i { w with applied := false } }
  | .complete i =>
    (t.pending[i]?).bind fun w =>
      if w.applied = true then
        match w.change with
        | .start newPartitionCount =>
          some ({ t with pending := t.pending.eraseIdx i }.onStarted newPartitionCount)
        | .cancel => some { t with pending := t.pending.eraseIdx i }.onCanceled
      else none
  | .childAdded i => t.onAddChild i
  | .configurationSyncing pidx =>
    if t.syncing[pidx]? = some false then some { t with syncing := t.syncing.set pidx true }
    else none
  | .configurationUpdated pidx =>
    (t.ballots[pidx]?).bind fun ballot =>
      if t.syncing[pidx]? = some true ∧ 0 ≤ ballot ∧ ∀ r ∈ t.registering, r.parent ≠ pidx then
        some { t with
          ballots := t.ballots.set pidx (ballot + 1)
          syncing := t.syncing.set pidx false }
      else none

/-! ### What the handlers do -/

variable {t t' : SplitTable}
variable {request : RegisterChild} {reply : SplitReply} {parent partitionCount i : Nat}
  {value target : SplitStatus} {pending : List CountWrite} {status : List (Nat × SplitStatus)}

theorem registerChildOnMeta_cases (h : t.registerChildOnMeta request = some (reply, t')) :
    t' = t ∨ (t.status.lookup request.parent = some .splitting ∧
      t.syncing[request.parent]? = some false ∧ t' = t.acceptChild request) := by
  unfold registerChildOnMeta at h
  obtain ⟨ballot, -, h⟩ := bind_eq_some_iff.mp h
  obtain ⟨syncing, hsyncing, h⟩ := bind_eq_some_iff.mp h
  split_ifs at h with h1 h2 h3
  · cases h; exact .inl rfl
  · cases h; exact .inl rfl
  · cases h; exact .inl rfl
  · cases hstatus : t.status.lookup request.parent with
    | none =>
      simp only [hstatus] at h
      obtain ⟨childBallot, -, h⟩ := bind_eq_some_iff.mp h
      split_ifs at h
      cases h
      exact .inl rfl
    | some status =>
      cases status with
      | splitting =>
        simp only [hstatus] at h
        cases h
        exact .inr ⟨rfl, Bool.eq_false_of_not_eq_true h2 ▸ hsyncing, rfl⟩
      | notSplit | pausing | paused | canceling =>
        simp only [hstatus] at h
        cases h
        exact .inl rfl

variable (type : SplitControlType)

theorem controlStatus_ne :
    (controlStatus type).1 ≠ .canceling ∧ (controlStatus type).2 ≠ .canceling := by
  cases type <;> simp [controlStatus]

theorem doControlSingle_cases (parent : Nat) (t : SplitTable) :
    (t.doControlSingle type parent).2 = t ∨
    (t.status.lookup parent = some (controlStatus type).1 ∧
      (t.doControlSingle type parent).2 =
        t.setStatus (fun entry => entry.1 == parent) (controlStatus type).2) := by
  unfold doControlSingle
  by_cases hpidx : t.partitionCount / 2 ≤ parent
  · rw [if_pos hpidx]
    exact .inl rfl
  · rw [if_neg hpidx]
    cases hlookup : t.status.lookup parent with
    | none => exact .inl rfl
    | some status =>
      by_cases hold : status = (controlStatus type).1
      · exact .inr ⟨congrArg some hold, by simp only [if_pos hold]⟩
      · exact .inl (by simp only [if_neg hold])

/-- What a control may do: nothing, move one parent or all that are in some status, or cancel
a split that has all its parents. -/
theorem controlPartitionSplit_cases (parentPidx oldPartitionCount : Int) (t : SplitTable) :
    (t.controlPartitionSplit type parentPidx oldPartitionCount).2 = t ∨
    (∃ parent, t.status.lookup parent = some (controlStatus type).1 ∧
      (t.controlPartitionSplit type parentPidx oldPartitionCount).2 =
        t.setStatus (fun entry => entry.1 == parent) (controlStatus type).2) ∨
    (t.controlPartitionSplit type parentPidx oldPartitionCount).2 =
      t.setStatus (fun entry => entry.2 == (controlStatus type).1) (controlStatus type).2 ∨
    (0 < t.splittingCount ∧ t.splittingCount = (t.partitionCount / 2 : Nat) ∧
      (t.controlPartitionSplit type parentPidx oldPartitionCount).2 =
        t.setStatus (fun _ => true) .canceling) := by
  unfold controlPartitionSplit
  split_ifs with hstatus hsplitting hsingle
  · exact .inl rfl
  · exact .inl rfl
  · exact (doControlSingle_cases type parentPidx.toNat t).imp_right fun h => .inl ⟨_, h⟩
  · unfold doControlAll
    simp only
    split_ifs with hcancel hcount hregistered
    · exact .inl rfl
    · exact .inl rfl
    · refine .inr (.inr (.inr ⟨?_, ?_, rfl⟩))
      · simpa [splitting] using hsplitting
      · rw [not_not.mp hregistered, not_not.mp hcount]
    · exact .inr (.inr (.inl rfl))

theorem notifyStopSplit_cases {metaSplitStatus : SplitStatus}
    (h : t.notifyStopSplit parent metaSplitStatus partitionCount = some (reply, t')) :
    t' = t ∨
    (t.status.lookup parent = some .pausing ∧
      t' = t.setStatus (fun entry => entry.1 == parent) .paused) ∨
    (t.status.lookup parent = some .canceling ∧ partitionCount * 2 = t.partitionCount ∧
      t' = t.stopParent parent partitionCount) := by
  unfold notifyStopSplit at h
  split_ifs at h with hstop hlookup hpausing hcount
  · cases h; exact .inl rfl
  · cases h
    exact .inr (.inl ⟨hpausing ▸ not_not.mp hlookup, rfl⟩)
  · cases h
    have hcanceling : metaSplitStatus = .canceling := by
      by_contra hne
      exact hstop ⟨hpausing, hne⟩
    exact .inr (.inr ⟨hcanceling ▸ not_not.mp hlookup, hcount, rfl⟩)

/-! ### The parents of a split -/

def parents (status : List (Nat × SplitStatus)) : List Nat := status.map Prod.fst

theorem parents_map (status : List (Nat × SplitStatus)) (pick : Nat × SplitStatus → Bool)
    (target : SplitStatus) :
    parents (status.map fun entry => if pick entry then (entry.1, target) else entry) =
      parents status := by
  rw [parents, parents, List.map_map]
  refine map_congr_left fun entry _ => ?_
  simp only [Function.comp]
  split <;> rfl

theorem lookup_of_mem (hnodup : (parents status).Nodup)
    {entry : Nat × SplitStatus} (hmem : entry ∈ status) :
    status.lookup entry.1 = some entry.2 := by
  induction status with
  | nil => cases hmem
  | cons first rest ih =>
    obtain ⟨hfirst, hrest⟩ := nodup_cons.mp hnodup
    rcases mem_cons.mp hmem with rfl | hmem
    · exact lookup_cons_self
    · have hne : entry.1 ≠ first.1 := fun heq => hfirst (heq ▸ List.mem_map_of_mem hmem)
      rw [lookup_cons, beq_false_of_ne hne]
      exact ih hrest hmem

theorem mem_of_lookup (h : status.lookup parent = some value) : (parent, value) ∈ status := by
  obtain ⟨before, after, rfl, -⟩ := lookup_eq_some_iff.mp h
  simp

theorem parents_perm_erase (hnodup : (parents status).Nodup)
    (h : status.lookup parent = some value) :
    (parents status).Perm (parent :: parents (status.filter fun entry => entry.1 ≠ parent)) := by
  have hmem : parent ∈ parents status := List.mem_map_of_mem (mem_of_lookup h)
  have hfilter : parents (status.filter fun entry => entry.1 ≠ parent) =
      (parents status).erase parent := by
    rw [hnodup.erase_eq_filter, parents, parents, List.filter_map]
    congr 1
    refine filter_congr fun entry _ => ?_
    by_cases hparent : entry.1 = parent <;> simp [hparent]
  rw [hfilter]
  exact perm_cons_erase hmem

/-- **Every parent is accounted for**: it is splitting, registered or cancelled, and no split has
both registered and cancelled parents. -/
structure Accounted (status : List (Nat × SplitStatus)) (r : SplitRound) : Prop where
  doubled : r.newPartitionCount = r.oldPartitionCount * 2
  all : (parents status ++ (r.registered ++ r.canceled)).Perm (List.range r.oldPartitionCount)
  uniform : (r.canceled = [] ∧ ∀ entry ∈ status, entry.2 ≠ .canceling) ∨
    (r.registered = [] ∧ ∀ entry ∈ status, entry.2 = .canceling)

namespace Accounted

variable {r : SplitRound}

variable (h : Accounted status r)
include h

theorem nodup : (parents status).Nodup := (nodup_append.mp (h.all.nodup_iff.mpr nodup_range)).1

theorem register (hlookup : status.lookup parent = some .splitting) :
    Accounted (status.filter fun entry => entry.1 ≠ parent)
      { r with registered := parent :: r.registered } := by
  have herase := parents_perm_erase h.nodup hlookup
  refine ⟨h.doubled, ?_, ?_⟩
  · refine List.Perm.trans ?_ h.all
    refine perm_middle.trans ?_
    exact (herase.append_right _).symm
  · rcases h.uniform with ⟨hcanceled, hstatus⟩ | ⟨-, hstatus⟩
    · exact .inl ⟨hcanceled, fun entry hentry => hstatus entry (mem_of_mem_filter hentry)⟩
    · cases hstatus _ (mem_of_lookup hlookup)

theorem cancel (hlookup : status.lookup parent = some .canceling) :
    Accounted (status.filter fun entry => entry.1 ≠ parent)
      { r with canceled := parent :: r.canceled } := by
  have herase := parents_perm_erase h.nodup hlookup
  refine ⟨h.doubled, ?_, ?_⟩
  · refine List.Perm.trans ?_ h.all
    refine (perm_middle.append_left _).trans ?_
    refine perm_middle.trans ?_
    exact (herase.append_right _).symm
  · rcases h.uniform with ⟨-, hstatus⟩ | ⟨hregistered, hstatus⟩
    · exact absurd rfl (hstatus _ (mem_of_lookup hlookup))
    · exact .inr
        ⟨hregistered, fun entry hentry => hstatus entry (mem_of_mem_filter hentry)⟩

theorem move {pick : Nat × SplitStatus → Bool} {target : SplitStatus}
    (hpick : ∀ entry ∈ status, pick entry = true → entry.2 ≠ .canceling)
    (htarget : target ≠ .canceling) :
    Accounted (status.map fun entry => if pick entry then (entry.1, target) else entry) r := by
  refine ⟨h.doubled, ?_, ?_⟩
  · rw [parents_map]
    exact h.all
  · rcases h.uniform with ⟨hcanceled, hstatus⟩ | ⟨hregistered, hstatus⟩
    · refine .inl ⟨hcanceled, fun entry hentry => ?_⟩
      obtain ⟨before, hbefore, rfl⟩ := List.mem_map.mp hentry
      split
      · exact htarget
      · exact hstatus before hbefore
    · refine .inr ⟨hregistered, fun entry hentry => ?_⟩
      obtain ⟨before, hbefore, rfl⟩ := List.mem_map.mp hentry
      split
      · rename_i hpicked
        exact absurd (hstatus before hbefore) (hpick before hbefore hpicked)
      · exact hstatus before hbefore

theorem cancelAll (hall : status.length = r.oldPartitionCount) :
    Accounted (status.map fun entry => if true then (entry.1, SplitStatus.canceling) else entry)
      r := by
  have hlength := h.all.length_eq
  simp only [parents, length_append, length_map, length_range] at hlength
  have hregistered : r.registered = [] := eq_nil_of_length_eq_zero (by omega)
  refine ⟨h.doubled, ?_, .inr ⟨hregistered, fun entry hentry => ?_⟩⟩
  · rw [parents_map]
    exact h.all
  · obtain ⟨before, -, rfl⟩ := List.mem_map.mp hentry
    rfl

omit h

/-- A split that has no parents left has registered all of them or cancelled all of them. -/
theorem finished (h : Accounted [] r) :
    (r.registered.Perm (List.range r.oldPartitionCount) ∧ r.canceled = []) ∨
    (r.canceled.Perm (List.range r.oldPartitionCount) ∧ r.registered = []) := by
  have hall := h.all
  rcases h.uniform with ⟨hcanceled, -⟩ | ⟨hregistered, -⟩
  · rw [hcanceled] at hall
    exact .inl ⟨by simpa [parents] using hall, hcanceled⟩
  · rw [hregistered] at hall
    exact .inr ⟨by simpa [parents] using hall, hregistered⟩

end Accounted

/-! ### The invariant -/

/-- A partition that has no configuration yet: its registration is under way, or its parent is
splitting or cancelled. -/
def Awaits (t : SplitTable) (pidx : Nat) : Prop :=
  (∃ request ∈ t.registering, request.child = pidx) ∨
    ∃ r, t.round = some r ∧ ∃ i, pidx = r.oldPartitionCount + i ∧
      (i ∈ parents t.status ∨ i ∈ r.canceled)

/-- The count in memory: that of the last split, unless all of it has been cancelled. -/
def CountFits (t : SplitTable) (r : SplitRound) : Prop :=
  (t.partitionCount = r.oldPartitionCount * 2 ∧ (t.status = [] → r.canceled = [])) ∨
    (t.partitionCount = r.oldPartitionCount ∧ t.status = [] ∧ r.registered = [])

/-- At most one write of the count is under way, and only while no parent is splitting. -/
inductive Phase (t : SplitTable) : Prop where
  | resting (hpending : t.pending = []) (hstored : t.stored = t.partitionCount)
      (hcount : ∀ r, t.round = some r → t.CountFits r)
  | starting (w : CountWrite) (hpending : t.pending = [w])
      (hchange : w.change = .start (t.partitionCount * 2 : Nat))
      (hpayload : w.partitionCount = t.partitionCount * 2)
      (happlied : w.applied = true → t.stored = w.partitionCount) (hstatus : t.status = [])
      (hcount : ∀ r, t.round = some r → t.CountFits r)
  | canceling (w : CountWrite) (r : SplitRound) (hpending : t.pending = [w])
      (hchange : w.change = .cancel) (hpayload : w.partitionCount = r.oldPartitionCount)
      (happlied : w.applied = true → t.stored = w.partitionCount) (hstatus : t.status = [])
      (hround : t.round = some r) (hregistered : r.registered = [])
      (hcount : t.partitionCount = r.oldPartitionCount * 2)

theorem Phase.of_same (h : t.Phase) (ballots : List Int) (syncing : List Bool)
    (registering : List RegisterChild) :
    ({ t with ballots := ballots, syncing := syncing, registering := registering } :
      SplitTable).Phase := by
  cases h with
  | resting hpending hstored hcount => exact .resting hpending hstored hcount
  | starting w hpending hchange hpayload happlied hstatus hcount =>
    exact .starting w hpending hchange hpayload happlied hstatus hcount
  | canceling w r hpending hchange hpayload happlied hstatus hround hregistered hcount =>
    exact .canceling w r hpending hchange hpayload happlied hstatus hround hregistered hcount

/-- What holds along the runs in which splits are started one at a time. -/
structure Tracked (t : SplitTable) : Prop where
  size : t.splittingCount = t.status.length
  length : t.ballots.length = t.partitionCount
  rounds : ∀ r, t.round = some r → Accounted t.status r
  unsplit : t.round = none → t.status = []
  configured : ∀ pidx ballot, t.ballots[pidx]? = some ballot → 0 ≤ ballot ∨ t.Awaits pidx
  phase : t.Phase

variable (h : t.Tracked)
include h

/-- While a parent is splitting, no write is under way and the count is the doubled one. -/
theorem Tracked.active (hstatus : t.status ≠ []) :
    ∃ r, t.round = some r ∧ t.pending = [] ∧ t.stored = t.partitionCount ∧
      t.partitionCount = r.oldPartitionCount * 2 := by
  cases hround : t.round with
  | none => exact absurd (h.unsplit hround) hstatus
  | some r =>
    refine ⟨r, rfl, ?_⟩
    cases h.phase with
    | resting hpending hstored hcount =>
      rcases hcount r hround with ⟨hdoubled, -⟩ | ⟨-, hempty, -⟩
      · exact ⟨hpending, hstored, hdoubled⟩
      · exact absurd hempty hstatus
    | starting _ _ _ _ _ hempty | canceling _ _ _ _ _ _ hempty => exact absurd hempty hstatus

omit h in
theorem ne_nil_of_lookup (h : status.lookup parent = some value) : status ≠ [] := by
  rintro rfl
  cases h

theorem Tracked.startPartitionSplit {newPartitionCount : Int}
    (halone : (t.startPartitionSplit newPartitionCount).1.err = .ok → t.pending = []) :
    (t.startPartitionSplit newPartitionCount).2.Tracked := by
  unfold SplitTable.startPartitionSplit at halone ⊢
  split_ifs at halone ⊢ with havailable hcount hsplitting
  · exact h
  · exact h
  · exact h
  · have halone : t.pending = [] := halone rfl
    have hempty : t.status = [] := by
      have hsize := h.size
      simp only [splitting, decide_eq_true_eq] at hsplitting
      exact eq_nil_of_length_eq_zero (by omega)
    have hfits : ∀ r, t.round = some r → t.CountFits r := by
      cases h.phase with
      | resting _ _ hfits => exact hfits
      | starting w hpending | canceling w r hpending => simp [halone] at hpending
    have hnew : newPartitionCount = (t.partitionCount * 2 : Nat) := by
      push_cast
      exact not_not.mp hcount
    refine ⟨h.size, h.length, h.rounds, h.unsplit, h.configured, ?_⟩
    exact .starting { change := .start newPartitionCount, partitionCount := t.partitionCount * 2 }
      (congrArg (· ++ _) halone) (congrArg CountChange.start hnew) rfl (by simp) hempty hfits

theorem Tracked.setStatus {pick : Nat × SplitStatus → Bool}
    (hrounds : ∀ r, t.round = some r → Accounted (t.setStatus pick target).status r) :
    (t.setStatus pick target).Tracked := by
  have hempty : (t.setStatus pick target).status = [] ↔ t.status = [] := map_eq_nil_iff
  have hfits : ∀ r, t.CountFits r → (t.setStatus pick target).CountFits r := by
    rintro r (⟨hdoubled, hcanceled⟩ | ⟨hold, hstatus, hregistered⟩)
    · exact .inl ⟨hdoubled, fun hstatus => hcanceled (hempty.mp hstatus)⟩
    · exact .inr ⟨hold, hempty.mpr hstatus, hregistered⟩
  refine ⟨?_, h.length, hrounds, fun hround => hempty.mpr (h.unsplit hround), ?_, ?_⟩
  · exact h.size.trans (congrArg Nat.cast (length_map _).symm)
  · intro pidx ballot hballot
    refine (h.configured pidx ballot hballot).imp_right ?_
    rintro (hrequest | ⟨r, hround, i, hpidx, hi⟩)
    · exact .inl hrequest
    · refine .inr ⟨r, hround, i, hpidx, hi.imp_left fun hmem => ?_⟩
      exact (parents_map t.status pick target).symm ▸ hmem
  · cases h.phase with
    | resting hpending hstored hcount =>
      exact .resting hpending hstored fun r hround => hfits r (hcount r hround)
    | starting w hpending hchange hpayload happlied hstatus hcount =>
      exact .starting w hpending hchange hpayload happlied (hempty.mpr hstatus)
        fun r hround => hfits r (hcount r hround)
    | canceling w r hpending hchange hpayload happlied hstatus hround hregistered hcount =>
      exact .canceling w r hpending hchange hpayload happlied (hempty.mpr hstatus) hround
        hregistered hcount

theorem Tracked.moveParent {old target : SplitStatus} (hlookup : t.status.lookup parent = some old)
    (hold : old ≠ .canceling) (htarget : target ≠ .canceling) :
    (t.setStatus (fun entry => entry.1 == parent) target).Tracked := by
  refine h.setStatus fun r hround => (h.rounds r hround).move (fun entry hentry hpick => ?_) htarget
  have hfound := lookup_of_mem (h.rounds r hround).nodup hentry
  rw [eq_of_beq hpick, hlookup] at hfound
  exact some.inj hfound ▸ hold

theorem Tracked.controlPartitionSplit (type : SplitControlType)
    (parentPidx oldPartitionCount : Int) :
    (t.controlPartitionSplit type parentPidx oldPartitionCount).2.Tracked := by
  have hne := controlStatus_ne type
  rcases controlPartitionSplit_cases type parentPidx oldPartitionCount t with
    heq | ⟨parent, hlookup, heq⟩ | heq | ⟨hpos, hcount, heq⟩
  · rw [heq]
    exact h
  · rw [heq]
    exact h.moveParent hlookup hne.1 hne.2
  · rw [heq]
    refine h.setStatus fun r hround => (h.rounds r hround).move (fun entry _ hpick => ?_) hne.2
    exact eq_of_beq hpick ▸ hne.1
  · rw [heq]
    have hstatus : t.status ≠ [] := by
      intro hempty
      simp [h.size, hempty] at hpos
    refine h.setStatus fun r hround => (h.rounds r hround).cancelAll ?_
    obtain ⟨r', hround', -, -, hdoubled⟩ := h.active hstatus
    obtain rfl := mem_unique hround hround'
    have hsize := h.size
    omega

theorem Tracked.acceptChild (hlookup : t.status.lookup request.parent = some .splitting)
    (hchild : request.child = request.parent + t.partitionCount / 2) :
    (t.acceptChild request).Tracked := by
  obtain ⟨r, hround, hpending, hstored, hdoubled⟩ := h.active (ne_nil_of_lookup hlookup)
  have hr := h.rounds r hround
  have herase := parents_perm_erase hr.nodup hlookup
  have hround' : (t.acceptChild request).round =
      some { r with registered := request.parent :: r.registered } := by
    rw [SplitTable.acceptChild, hround]
    rfl
  refine ⟨?_, h.length, ?_, ?_, ?_, .resting hpending hstored ?_⟩
  · have hlength := herase.length_eq
    have hsize := h.size
    simp only [parents, length_cons, length_map] at hlength
    change t.splittingCount - 1 = ((t.status.filter _).length : Int)
    omega
  · intro r' hr'
    rw [hround', some.injEq] at hr'
    exact hr' ▸ hr.register hlookup
  · intro hnone
    rw [hround'] at hnone
    cases hnone
  · intro pidx ballot hballot
    refine (h.configured pidx ballot hballot).imp_right ?_
    rintro (⟨other, hother, hpidx⟩ | ⟨r', hr', i, hpidx, hi⟩)
    · exact .inl ⟨other, mem_append_left _ hother, hpidx⟩
    · obtain rfl := mem_unique hround hr'
      rcases hi with hi | hi
      · rcases mem_cons.mp (herase.mem_iff.mp hi) with rfl | hi
        · refine .inl ⟨request, mem_append_right _ mem_cons_self, ?_⟩
          omega
        · exact .inr ⟨_, hround', i, hpidx, .inl hi⟩
      · exact .inr ⟨_, hround', i, hpidx, .inr hi⟩
  · intro r' hr'
    rw [hround', some.injEq] at hr'
    rw [← hr']
    refine .inl ⟨hdoubled, fun _ => ?_⟩
    rcases hr.uniform with ⟨hcanceled, -⟩ | ⟨-, hstatus⟩
    · exact hcanceled
    · cases hstatus _ (mem_of_lookup hlookup)

theorem Tracked.stopParent (hlookup : t.status.lookup parent = some .canceling)
    (hhalf : partitionCount * 2 = t.partitionCount) :
    (t.stopParent parent partitionCount).Tracked := by
  obtain ⟨r, hround, hpending, hstored, hdoubled⟩ := h.active (ne_nil_of_lookup hlookup)
  have hr := (h.rounds r hround).cancel hlookup
  have herase := parents_perm_erase (h.rounds r hround).nodup hlookup
  have hsize : t.splittingCount - 1 =
      ((t.status.filter fun entry => entry.1 ≠ parent).length : Int) := by
    have hlength := herase.length_eq
    have hsize := h.size
    simp only [parents, length_cons, length_map] at hlength
    omega
  have hregistered : r.registered = [] := by
    rcases (h.rounds r hround).uniform with ⟨-, hstatus⟩ | ⟨hregistered, -⟩
    · exact absurd rfl (hstatus _ (mem_of_lookup hlookup))
    · exact hregistered
  have hconfigured : ∀ pidx ballot, t.ballots[pidx]? = some ballot → 0 ≤ ballot ∨
      (∃ request ∈ t.registering, request.child = pidx) ∨
        ∃ r', some { r with canceled := parent :: r.canceled } = some r' ∧
          ∃ i, pidx = r'.oldPartitionCount + i ∧
            (i ∈ parents (t.status.filter fun entry => entry.1 ≠ parent) ∨ i ∈ r'.canceled) := by
    intro pidx ballot hballot
    refine (h.configured pidx ballot hballot).imp_right ?_
    rintro (hrequest | ⟨r', hr', i, hpidx, hi⟩)
    · exact .inl hrequest
    · obtain rfl := mem_unique hround hr'
      refine .inr ⟨_, rfl, i, hpidx, ?_⟩
      rcases hi with hi | hi
      · rcases mem_cons.mp (herase.mem_iff.mp hi) with rfl | hi
        · exact .inr mem_cons_self
        · exact .inl hi
      · exact .inr (mem_cons_of_mem _ hi)
  unfold SplitTable.stopParent
  simp only [hround, map_some, eraseParent]
  split_ifs with hlast
  · have hempty : (t.status.filter fun entry => entry.1 ≠ parent) = [] :=
      eq_nil_of_length_eq_zero (by omega)
    refine ⟨hsize, h.length, ?_, by simp [doCancelPartitionSplit], hconfigured, ?_⟩
    · rintro r' ⟨⟩
      exact hr
    · exact .canceling { change := .cancel, partitionCount := partitionCount } _
        (congrArg (· ++ _) hpending) rfl (by change partitionCount = r.oldPartitionCount; omega)
        (by simp) hempty rfl hregistered hdoubled
  · refine ⟨hsize, h.length, ?_, by simp, hconfigured, .resting hpending hstored ?_⟩
    · rintro r' ⟨⟩
      exact hr
    · rintro r' ⟨⟩
      refine .inl ⟨hdoubled, fun hempty => absurd ?_ hlast⟩
      rw [hsize]
      exact congrArg (fun status => (List.length status : Int)) hempty

theorem onStarted_tracked (hstatus : t.status = []) (hfits : ∀ r, t.round = some r → t.CountFits r)
    (hpending : pending = []) (hstored : t.stored = t.partitionCount * 2) :
    ({ t with pending := pending }.onStarted (t.partitionCount * 2 : Nat)).Tracked := by
  have hparents : parents
      ({ t with pending := pending }.onStarted (t.partitionCount * 2 : Nat)).status =
      List.range t.partitionCount := by
    simp [SplitTable.onStarted, parents, hstatus, Function.comp_def]
  refine ⟨?_, ?_, ?_, by simp [SplitTable.onStarted], ?_, .resting hpending hstored ?_⟩
  · simp [SplitTable.onStarted, hstatus]
  · change (t.ballots ++ _).length = _
    rw [length_append, length_replicate, h.length]
    exact (Nat.mul_two _).symm
  · rintro r ⟨⟩
    refine ⟨by simp, ?_, .inl ⟨rfl, ?_⟩⟩
    · rw [hparents]
      simp
    · simp [SplitTable.onStarted, hstatus]
  · intro pidx ballot hballot
    change (t.ballots ++ _)[pidx]? = some ballot at hballot
    rcases Nat.lt_or_ge pidx t.partitionCount with hlt | hge
    · rw [List.getElem?_append_left (by rw [h.length]; exact hlt)] at hballot
      refine (h.configured pidx ballot hballot).imp_right ?_
      rintro (hrequest | ⟨r, hround, i, hpidx, hi⟩)
      · exact .inl hrequest
      · -- an earlier split leaves no partition below the count waiting
        exfalso
        rcases hfits r hround with ⟨-, hcanceled⟩ | ⟨hcount, -, -⟩
        · simp [hstatus, hcanceled hstatus, parents] at hi
        · omega
    · refine .inr (.inr ⟨_, rfl, pidx - t.partitionCount, (Nat.add_sub_of_le hge).symm, .inl ?_⟩)
      have hlt := (List.getElem?_eq_some_iff.mp hballot).1
      rw [length_append, length_replicate, h.length] at hlt
      rw [hparents, mem_range]
      exact Nat.sub_lt_left_of_lt_add hge hlt
  · rintro r ⟨⟩
    exact .inl ⟨rfl, fun _ => rfl⟩

theorem onCanceled_tracked {r : SplitRound} (hround : t.round = some r)
    (hregistered : r.registered = []) (hcount : t.partitionCount = r.oldPartitionCount * 2)
    (hstatus : t.status = []) (hpending : pending = []) (hstored : t.stored = r.oldPartitionCount) :
    { t with pending := pending }.onCanceled.Tracked := by
  have hhalf : t.partitionCount / 2 = r.oldPartitionCount := by omega
  refine ⟨h.size, ?_, h.rounds, h.unsplit, ?_, .resting hpending ?_ ?_⟩
  · change (t.ballots.take _).length = t.partitionCount / 2
    rw [length_take, h.length]
    exact Nat.min_eq_left (Nat.div_le_self _ 2)
  · intro pidx ballot hballot
    have hlt := (List.getElem?_eq_some_iff.mp hballot).1
    change pidx < (t.ballots.take _).length at hlt
    change (t.ballots.take _)[pidx]? = some ballot at hballot
    rw [length_take] at hlt
    rw [List.getElem?_take_of_lt (by omega)] at hballot
    exact h.configured pidx ballot hballot
  · exact hstored.trans hhalf.symm
  · intro r' hr'
    obtain rfl := mem_unique hround hr'
    exact .inr ⟨hhalf, hstatus, hregistered⟩

theorem configured_set {pidx : Nat} {ballot : Int} (hballot : 0 ≤ ballot)
    (hsame : t'.ballots = t.ballots.set pidx ballot)
    (hawaits : ∀ other, other ≠ pidx → t.Awaits other → t'.Awaits other) :
    ∀ other value, t'.ballots[other]? = some value → 0 ≤ value ∨ t'.Awaits other := by
  intro other value hvalue
  rw [hsame] at hvalue
  by_cases hother : other = pidx
  · subst hother
    rw [List.getElem?_set_self'] at hvalue
    obtain ⟨-, -, rfl⟩ := map_eq_some_iff.mp hvalue
    exact .inl hballot
  · rw [List.getElem?_set_ne (Ne.symm hother)] at hvalue
    exact (h.configured other value hvalue).imp_right (hawaits other hother)

theorem Tracked.onAddChild (hstep : t.onAddChild i = some t') : t'.Tracked := by
  obtain ⟨request, hrequest, hstep⟩ := bind_eq_some_iff.mp hstep
  obtain ⟨old, -, hstep⟩ := bind_eq_some_iff.mp hstep
  split_ifs at hstep
  cases hstep
  refine ⟨h.size, (length_set ..).trans h.length, h.rounds, h.unsplit, ?_, ?_⟩
  · refine configured_set h request.childBallot_pos.le rfl fun other hother hawaits => ?_
    refine hawaits.imp_left fun ⟨waiting, hmem, hchild⟩ => ⟨waiting, ?_, hchild⟩
    -- the request that is done is the one for this child
    obtain ⟨j, hj⟩ := mem_iff_getElem?.mp hmem
    refine mem_eraseIdx_iff_getElem?.mpr ⟨j, ?_, hj⟩
    rintro rfl
    rw [hrequest, some.injEq] at hj
    exact hother (hchild.symm.trans (congrArg RegisterChild.child hj.symm))
  · exact h.phase.of_same _ _ _

omit h in
theorem pending_single {w w' : CountWrite} (hw : t.pending[i]? = some w)
    (hpending : t.pending = [w']) : w' = w ∧ i = 0 := by
  rw [hpending] at hw
  cases i with
  | zero => exact ⟨some.inj hw, rfl⟩
  | succ i => simp at hw

theorem Tracked.apply {w : CountWrite} (hw : t.pending[i]? = some w) {applied : Bool} {stored : Nat}
    (hstored : applied = true → stored = w.partitionCount) :
    ({ t with
      stored := stored
      pending := t.pending.set i { w with applied := applied } } : SplitTable).Tracked := by
  refine ⟨h.size, h.length, h.rounds, h.unsplit, h.configured, ?_⟩
  cases h.phase with
  | resting hpending => simp [hpending] at hw
  | starting w' hpending hchange hpayload happlied hstatus hcount =>
    obtain ⟨rfl, rfl⟩ := pending_single hw hpending
    exact .starting { w' with applied := applied } (by rw [hpending]; rfl) hchange hpayload hstored
      hstatus hcount
  | canceling w' r hpending hchange hpayload happlied hstatus hround hregistered hcount =>
    obtain ⟨rfl, rfl⟩ := pending_single hw hpending
    exact .canceling { w' with applied := applied } r (by rw [hpending]; rfl) hchange hpayload
      hstored hstatus hround hregistered hcount

theorem Tracked.complete (hstep : t.step (.complete i) = some t') : t'.Tracked := by
  obtain ⟨w, hw, hstep⟩ := bind_eq_some_iff.mp hstep
  split_ifs at hstep with happlied
  -- with the write taken away, what is left is tracked but for the phase
  cases h.phase with
  | resting hpending => simp [hpending] at hw
  | starting w' hpending hchange hpayload hstored hstatus hcount =>
    obtain ⟨rfl, rfl⟩ := pending_single hw hpending
    rw [hchange] at hstep
    cases hstep
    exact onStarted_tracked h hstatus hcount (by rw [hpending]; rfl)
      ((hstored happlied).trans hpayload)
  | canceling w' r hpending hchange hpayload hstored hstatus hround hregistered hcount =>
    obtain ⟨rfl, rfl⟩ := pending_single hw hpending
    rw [hchange] at hstep
    cases hstep
    exact onCanceled_tracked h hround hregistered hcount hstatus (by rw [hpending]; rfl)
      ((hstored happlied).trans hpayload)

omit h in
/-- Splits are started one at a time: none is accepted while a write of the count is under way. A
child of a parent that is splitting is the one the parent has in the current split. -/
def Orderly (t : SplitTable) : SplitEvent → Prop
  | .startPartitionSplit newPartitionCount =>
    (t.startPartitionSplit newPartitionCount).1.err = .ok → t.pending = []
  | .registerChild request => t.status.lookup request.parent = some .splitting →
      request.child = request.parent + t.partitionCount / 2
  | _ => True

theorem Tracked.step {e : SplitEvent} (horderly : t.Orderly e) (hstep : t.step e = some t') :
    t'.Tracked := by
  cases e with
  | startPartitionSplit newPartitionCount =>
    cases hstep
    exact h.startPartitionSplit horderly
  | registerChild request =>
    obtain ⟨⟨reply, t'⟩, hregister, rfl⟩ := map_eq_some_iff.mp hstep
    rcases registerChildOnMeta_cases hregister with rfl | ⟨hlookup, -, rfl⟩
    · exact h
    · exact h.acceptChild hlookup (horderly hlookup)
  | controlPartitionSplit type parentPidx oldPartitionCount =>
    cases hstep
    exact h.controlPartitionSplit type parentPidx oldPartitionCount
  | notifyStopSplit parent metaSplitStatus partitionCount =>
    obtain ⟨⟨reply, t'⟩, hnotify, rfl⟩ := map_eq_some_iff.mp hstep
    rcases notifyStopSplit_cases hnotify with rfl | ⟨hlookup, rfl⟩ | ⟨hlookup, hhalf, rfl⟩
    · exact h
    · exact h.moveParent hlookup (by simp) (by simp)
    · exact h.stopParent hlookup hhalf
  | apply i =>
    obtain ⟨w, hw, rfl⟩ := map_eq_some_iff.mp hstep
    exact h.apply hw fun _ => rfl
  | timeout i =>
    obtain ⟨w, hw, rfl⟩ := map_eq_some_iff.mp hstep
    exact h.apply hw (by simp)
  | complete i => exact h.complete hstep
  | childAdded i => exact h.onAddChild hstep
  | configurationSyncing pidx =>
    obtain ⟨-, rfl⟩ := of_guard hstep
    exact ⟨h.size, h.length, h.rounds, h.unsplit, h.configured, h.phase.of_same _ _ _⟩
  | configurationUpdated pidx =>
    obtain ⟨ballot, -, hstep⟩ := bind_eq_some_iff.mp hstep
    split_ifs at hstep with hupdate
    cases hstep
    refine ⟨h.size, (length_set ..).trans h.length, h.rounds, h.unsplit, ?_, h.phase.of_same _ _ _⟩
    exact configured_set h (Int.le_add_one hupdate.2.1) rfl fun _ _ hawaits => hawaits

omit h

def created (partitionCount : Nat) : SplitTable where
  partitionCount := partitionCount
  ballots := List.replicate partitionCount 0
  syncing := List.replicate partitionCount false
  stored := partitionCount

theorem created_tracked (partitionCount : Nat) : (created partitionCount).Tracked := by
  refine ⟨rfl, length_replicate, by simp [created], fun _ => rfl, ?_, ?_⟩
  · intro pidx ballot hballot
    exact .inl (eq_of_mem_replicate (mem_of_getElem? hballot)).ge
  · exact .resting rfl rfl (by simp [created])

/-- **The split is consistent**: the storage has the count of memory whenever no write is under
way; a split doubles the count, as it was asked to, unless all of it is cancelled; the counter is
that of the parents that are still splitting; a split that has none left has registered all of its
parents or cancelled all of them, and no partition is left without a configuration. -/
structure Consistent (t : SplitTable) : Prop where
  stored : t.pending = [] → t.stored = t.partitionCount
  doubled : ∀ r, t.round = some r → r.newPartitionCount = r.oldPartitionCount * 2 ∧
    (t.partitionCount = r.oldPartitionCount * 2 ∨
      t.partitionCount = r.oldPartitionCount ∧ r.canceled.Perm (List.range r.oldPartitionCount))
  size : t.splittingCount = t.status.length
  uniform : ∀ r, t.round = some r → t.splittingCount = 0 →
    (r.registered.Perm (List.range r.oldPartitionCount) ∧ r.canceled = []) ∨
    (r.canceled.Perm (List.range r.oldPartitionCount) ∧ r.registered = [])
  configured : t.splittingCount = 0 → t.pending = [] → ∀ pidx < t.partitionCount,
    ∃ ballot, t.ballots[pidx]? = some ballot ∧
      (0 ≤ ballot ∨ ∃ request ∈ t.registering, request.child = pidx)

theorem Tracked.status_eq_nil (h : t.Tracked) (hfinished : t.splittingCount = 0) :
    t.status = [] := by
  have hsize := h.size
  exact eq_nil_of_length_eq_zero (by omega)

theorem Tracked.consistent (h : t.Tracked) : t.Consistent := by
  have hfits : ∀ r, t.round = some r → t.partitionCount = r.oldPartitionCount * 2 ∨
      (t.partitionCount = r.oldPartitionCount ∧ t.status = [] ∧ r.registered = []) := by
    intro r hround
    cases h.phase with
    | resting _ _ hcount | starting _ _ _ _ _ _ hcount => exact (hcount r hround).imp_left And.left
    | canceling _ r' _ _ _ _ _ hround' _ hcount =>
      obtain rfl := mem_unique hround hround'
      exact .inl hcount
  refine ⟨?_, ?_, h.size, ?_, ?_⟩
  · intro hpending
    cases h.phase with
    | resting _ hstored => exact hstored
    | starting w hwriting | canceling w r hwriting => simp [hpending] at hwriting
  · intro r hround
    have hr := h.rounds r hround
    refine ⟨hr.doubled, (hfits r hround).imp_right ?_⟩
    rintro ⟨hcount, hstatus, hregistered⟩
    have hall := hr.all
    rw [hstatus, hregistered] at hall
    exact ⟨hcount, by simpa [parents] using hall⟩
  · intro r hround hfinished
    have hr := h.rounds r hround
    rw [h.status_eq_nil hfinished] at hr
    exact hr.finished
  · intro hfinished hpending pidx hpidx
    have hstatus := h.status_eq_nil hfinished
    have hlt : pidx < t.ballots.length := h.length.symm ▸ hpidx
    refine ⟨t.ballots[pidx], List.getElem?_eq_getElem hlt, ?_⟩
    refine (h.configured pidx _ (List.getElem?_eq_getElem hlt)).imp_right ?_
    rintro (hrequest | ⟨r, hround, i, rfl, hi⟩)
    · exact hrequest
    · exfalso
      cases h.phase with
      | resting _ _ hcount =>
        rcases hcount r hround with ⟨-, hcanceled⟩ | ⟨hcount, -, -⟩
        · simp [hstatus, hcanceled hstatus, parents] at hi
        · omega
      | starting w hwriting | canceling w r hwriting => simp [hpending] at hwriting

/-- **Splits that are started one at a time are consistent**, whatever the order of requests,
reports and replies of the storage. -/
theorem split_is_consistent (partitionCount : Nat) (es : List SplitEvent)
    (hrun : run step (created partitionCount) es = some t)
    (horderly : StepsMeet step Orderly (created partitionCount) es) :
    t.Consistent :=
  (run_invariant_of_steps (fun _ _ _ hstep horderly h => h.step horderly hstep)
    hrun horderly (created_tracked partitionCount)).consistent

/-- A split of two partitions that is paused and restarted; then both children are registered. -/
theorem split_is_consistent_paused : ∃ t : SplitTable,
    t.partitionCount = 4 ∧ t.ballots = [0, 0, 1, 1] ∧ t.Consistent := by
  let register (parent : Nat) : SplitEvent :=
    .registerChild { parent := parent, child := parent + 2, parentBallot := 0, childBallot := 1,
                     childBallot_pos := by decide }
  refine ⟨_, ?_, ?_, split_is_consistent 2
    [.startPartitionSplit 4, .apply 0, .complete 0, register 0, .controlPartitionSplit .pause (-1) 0,
      .childAdded 0, .notifyStopSplit 1 .pausing 2, .controlPartitionSplit .restart 1 0, register 1,
      .childAdded 0]
    rfl ?_⟩
  · rfl
  · rfl
  · iterate 10 refine stepsMeet_cons (by first | trivial | exact fun _ => rfl) rfl ?_
    trivial

/-- Two requests for the same split: both are accepted while the write of the first is under way,
and each doubles the count in memory, while the storage has it doubled once. -/
theorem overlapping_starts_quadruple : ∃ t : SplitTable,
    run step (created 4)
      [.startPartitionSplit 8, .startPartitionSplit 8, .apply 0, .complete 0, .apply 0,
        .complete 0] = some t ∧
    t.pending = [] ∧ t.partitionCount = 16 ∧ t.stored = 8 ∧ ¬ t.Consistent := by
  refine ⟨_, rfl, rfl, rfl, rfl, fun h => ?_⟩
  exact absurd (h.stored rfl) (by decide)

end SplitTable

end Pegasus.Meta
