/-
Changing the replica count of a table (`Pegasus.Meta.MaxReplicaCount`), after `server_state.cpp`.

A change first writes an env that says that it is under way, then a new configuration for every
partition, and then the count of the table, with which the env goes. The write of a partition uses
the slot in which configuration updates are written, and waits until the slot is free. A meta server
that takes over finishes a change whose env it finds in the storage.

- `Table.changes`, `Table.Quiescent`, `Table.Uniform`: what a change is to keep;
- `Table.Orderly`: the events that the meta server can take.
-/

import Pegasus.Meta.SplitService

namespace Pegasus.Meta

namespace ReplicaCount

/-! ### The table -/

/-- `partition_configuration`, its members left open. -/
structure Configuration (Members : Type) where
  ballot : Int
  maxReplicaCount : Int
  members : Members
deriving DecidableEq

/-- What a request keeps: the count it found and the count it asks for. -/
structure Counts where
  old : Int
  new : Int
deriving DecidableEq

/-- `config_context` of a partition. In a pending slot `pending_sync_request` is null if the write
is that of a new count. -/
inductive Slot (Members : Type) where
  | notPending
  | pending (config : Configuration Members) (counts : Option Counts) (applied : Bool)
deriving DecidableEq

structure Partition (Members : Type) where
  config : Configuration Members
  stored : Configuration Members
  slot : Slot Members := .notPending
  /-- The task that tries again when the slot is taken. -/
  retry : Option Counts := none
  /-- The write of a recovery, and whether the storage has it. -/
  recovering : Option (Configuration Members × Bool) := none
deriving DecidableEq

/-- The value of the env `UPDATE_MAX_REPLICA_COUNT`. -/
inductive Env where
  | empty
  | updating (count : Int)
deriving DecidableEq

inductive Mode where
  | serving
  | recoveringPartitions (count : Int)
  | recoveringApp (count : Int) (applied : Bool)
deriving DecidableEq

structure Table (Members : Type) (n : Nat) where
  partitions : Fin n → Partition Members
  maxReplicaCount : Int
  env : Option Env := none
  storedMaxReplicaCount : Int
  storedEnv : Option Env := none
  /-- The pending writes of the env and of the count, and whether the storage has them. -/
  envWrites : List (Counts × Bool) := []
  appWrites : List (Counts × Bool) := []
  partitionsInProgress : Int := 0
  mode : Mode := .serving

inductive Fault where
  /-- A `CHECK` fails. -/
  | check
  /-- `args[0]` of an empty list. -/
  | emptyArguments
  /-- A null `pending_sync_request` is dereferenced. -/
  | nullRequest
deriving DecidableEq

inductive Event (Members : Type) (n : Nat) where
  | setMaxReplicaCount (count : Int)
  | storeEnv
  | envWritten
  | retry (i : Fin n)
  | storePartition (i : Fin n)
  | partitionWritten (i : Fin n)
  | storeApp
  | appWritten
  | updateConfiguration (i : Fin n) (ballot : Int) (members : Members)
  | primaryDead (i : Fin n) (members : Members)
  | timeout
  | failover
  | storeRecovery (i : Fin n)
  | partitionRecovered (i : Fin n)
  | allPartitionsRecovered
  | storeRecoveredApp
  | appRecovered
deriving DecidableEq

namespace Table

variable {Members : Type} {n : Nat}

def setPartition (t : Table Members n) (i : Fin n) (p : Partition Members) : Table Members n :=
  { t with partitions := Function.update t.partitions i p }

def withCount (config : Configuration Members) (count : Int) : Configuration Members :=
  { config with maxReplicaCount := count, ballot := config.ballot + 1 }

/-- `update_partition_max_replica_count`. A partition that has the count already is left out. -/
def updatePartition (counts : Counts) (p : Partition Members) : Partition Members :=
  if counts.new = p.config.maxReplicaCount then { p with retry := none }
  else
    match p.slot with
    | .pending _ _ _ => { p with retry := some counts }
    | .notPending =>
      { p with
        slot := .pending (withCount p.config counts.new) (some counts) false
        retry := none }

/-- `set_max_replica_count` and `set_max_replica_count_env_updating`, for a count that is allowed.
Logging enters an empty env. -/
def setMaxReplicaCount (count : Int) (t : Table Members n) : Except Fault (Table Members n) :=
  -- `check_max_replica_count_consistent`
  if ∃ i, (t.partitions i).config.maxReplicaCount ≠ t.maxReplicaCount then .ok t
  else if count = t.maxReplicaCount then .ok t
  else
    match t.env with
    | some .empty => .error .emptyArguments
    | some (.updating _) => .ok t
    | none =>
      .ok { t with
        env := some .empty
        envWrites := t.envWrites ++ [(⟨t.maxReplicaCount, count⟩, false)] }

/-- The callback of the env, with `do_update_max_replica_count`. -/
def startPartitions (counts : Counts) (t : Table Members n) : Table Members n :=
  { t with
    env := some (.updating counts.new)
    partitionsInProgress := n
    partitions := fun i => updatePartition counts (t.partitions i) }

/-- `on_partition_updated`; the last one starts the write of the count. -/
def onPartitionUpdated (counts : Counts) (t : Table Members n) : Except Fault (Table Members n) :=
  let uncompleted := t.partitionsInProgress - 1
  let t := { t with partitionsInProgress := uncompleted }
  if uncompleted < 0 then .error .check
  else if 0 < uncompleted then .ok t
  else .ok { t with appWrites := t.appWrites ++ [(counts, false)] }

/-- The reply to the write of a partition, of a configuration update or of a count. -/
def partitionWritten (t : Table Members n) (i : Fin n) : Option (Except Fault (Table Members n)) :=
  match (t.partitions i).slot with
  | .pending config counts true =>
    let written := t.setPartition i { t.partitions i with config := config, slot := .notPending }
    match counts with
    | none =>
      if (t.partitions i).config.ballot = invalidBallot ∨
          (t.partitions i).config.ballot + 1 = config.ballot then some (.ok written)
      else some (.error .check)
    | some counts =>
      if (t.partitions i).config.ballot + 1 ≠ config.ballot then some (.error .check)
      else some (written.onPartitionUpdated counts)
  | _ => none

def appWritten (counts : Counts) (t : Table Members n) : Except Fault (Table Members n) :=
  if counts.old ≠ t.maxReplicaCount then .error .check
  else .ok { t with maxReplicaCount := counts.new, env := none }

/-- `on_update_configuration`, for a request that has been built from the configuration with the
ballot before; another one is refused. -/
def updateConfiguration (i : Fin n) (ballot : Int) (members : Members) (t : Table Members n) :
    Table Members n :=
  let p := t.partitions i
  match p.slot with
  | .notPending =>
    if ballot = p.config.ballot + 1 then
      t.setPartition i { p with
        slot := .pending ⟨ballot, p.config.maxReplicaCount, members⟩ none false }
    else t
  | .pending _ _ _ => t

/-- `downgrade_primary_to_inactive`. It looks at the request of a pending slot and cancels it. -/
def primaryDead (i : Fin n) (members : Members) (t : Table Members n) :
    Except Fault (Table Members n) :=
  let p := t.partitions i
  match p.slot with
  | .pending _ (some _) _ => .error .nullRequest
  | _ =>
    .ok (t.setPartition i { p with
      slot := .pending ⟨p.config.ballot + 1, p.config.maxReplicaCount, members⟩ none false })

def loadPartition (p : Partition Members) : Partition Members :=
  { config := p.stored, stored := p.stored }

/-- The partition when `recover_all_partitions_max_replica_count` has passed it. -/
def recoverPartition (count : Int) (p : Partition Members) : Partition Members :=
  { loadPartition p with
    recovering :=
      if p.stored.maxReplicaCount = count then none
      else some (withCount p.stored count, false) }

/-- A new meta server loads the table and starts `recover_from_max_replica_count_env`. -/
def failover (t : Table Members n) : Table Members n :=
  match t.storedEnv with
  | some (.updating count) =>
    { partitions := fun i => recoverPartition count (t.partitions i)
      maxReplicaCount := t.storedMaxReplicaCount
      env := t.storedEnv
      storedMaxReplicaCount := t.storedMaxReplicaCount
      storedEnv := t.storedEnv
      mode := .recoveringPartitions count }
  | _ =>
    { partitions := fun i => loadPartition (t.partitions i)
      maxReplicaCount := t.storedMaxReplicaCount
      env := t.storedEnv
      storedMaxReplicaCount := t.storedMaxReplicaCount
      storedEnv := t.storedEnv }

/-- The storage takes the first pending write of the env. -/
def storeEnv (t : Table Members n) : Option (Table Members n) :=
  match t.envWrites with
  | (counts, _) :: rest =>
    some { t with
      storedMaxReplicaCount := counts.old
      storedEnv := some (.updating counts.new)
      envWrites := (counts, true) :: rest }
  | [] => none

/-- The storage takes the first pending write of the count. -/
def storeApp (t : Table Members n) : Option (Table Members n) :=
  match t.appWrites with
  | (counts, _) :: rest =>
    some { t with
      storedMaxReplicaCount := counts.new
      storedEnv := none
      appWrites := (counts, true) :: rest }
  | [] => none

/-- The storage takes the write in the slot of a partition. -/
def storePartition (t : Table Members n) (i : Fin n) : Option (Table Members n) :=
  match (t.partitions i).slot with
  | .pending config counts _ =>
    some (t.setPartition i { t.partitions i with
      stored := config
      slot := .pending config counts true })
  | .notPending => none

def stepServing (t : Table Members n) : Event Members n → Option (Except Fault (Table Members n))
  | .setMaxReplicaCount count => some (t.setMaxReplicaCount count)
  | .storeEnv => t.storeEnv.map .ok
  | .envWritten =>
    match t.envWrites with
    | (counts, true) :: rest => some (.ok ({ t with envWrites := rest }.startPartitions counts))
    | _ => none
  | .retry i =>
    (t.partitions i).retry.map fun counts =>
      .ok (t.setPartition i (updatePartition counts (t.partitions i)))
  | .storePartition i => (t.storePartition i).map .ok
  | .partitionWritten i => t.partitionWritten i
  | .storeApp => t.storeApp.map .ok
  | .appWritten =>
    match t.appWrites with
    | (counts, true) :: rest => some ({ t with appWrites := rest }.appWritten counts)
    | _ => none
  | .updateConfiguration i ballot members => some (.ok (t.updateConfiguration i ballot members))
  | .primaryDead i members => some (t.primaryDead i members)
  -- the write is made again
  | .timeout => some (.ok t)
  | .failover => some (.ok t.failover)
  | _ => none

def stepRecoveringPartitions (t : Table Members n) (count : Int) :
    Event Members n → Option (Except Fault (Table Members n))
  | .storeRecovery i =>
    (t.partitions i).recovering.map fun write =>
      .ok (t.setPartition i { t.partitions i with
        stored := write.1
        recovering := some (write.1, true) })
  | .partitionRecovered i =>
    match (t.partitions i).recovering with
    | some (config, true) =>
      if (t.partitions i).config.ballot + 1 ≠ config.ballot then some (.error .check)
      else
        some (.ok (t.setPartition i { t.partitions i with config := config, recovering := none }))
    | _ => none
  | .allPartitionsRecovered =>
    if ∀ i, (t.partitions i).recovering = none then
      some (.ok { t with mode := .recoveringApp count false })
    else none
  | .timeout => if ∃ i, (t.partitions i).recovering ≠ none then some (.error .check) else none
  | .failover => some (.ok t.failover)
  | _ => none

def stepRecoveringApp (t : Table Members n) (count : Int) (applied : Bool) :
    Event Members n → Option (Except Fault (Table Members n))
  | .storeRecoveredApp =>
    some (.ok { t with
      storedMaxReplicaCount := count
      storedEnv := none
      mode := .recoveringApp count true })
  | .appRecovered =>
    if applied then some (.ok { t with maxReplicaCount := count, env := none, mode := .serving })
    else none
  | .timeout => some (.error .check)
  | .failover => some (.ok t.failover)
  | _ => none

def step (s : Except Fault (Table Members n)) (e : Event Members n) :
    Option (Except Fault (Table Members n)) :=
  match s with
  | .error _ => none
  | .ok t =>
    match t.mode with
    | .serving => t.stepServing e
    | .recoveringPartitions count => t.stepRecoveringPartitions count e
    | .recoveringApp count applied => t.stepRecoveringApp count applied e

/-- A table with one count, in memory and in the storage, and nothing under way. -/
structure Initial (t : Table Members n) : Prop where
  configs : ∀ i, (t.partitions i).config.maxReplicaCount = t.maxReplicaCount
  stored : ∀ i, (t.partitions i).stored.maxReplicaCount = t.maxReplicaCount
  slots : ∀ i, (t.partitions i).slot = .notPending ∧ (t.partitions i).retry = none ∧
    (t.partitions i).recovering = none
  env : t.env = none ∧ t.storedEnv = none
  storedMaxReplicaCount : t.storedMaxReplicaCount = t.maxReplicaCount
  writes : t.envWrites = [] ∧ t.appWrites = [] ∧ t.partitionsInProgress = 0
  mode : t.mode = .serving

def changes (t : Table Members n) : Nat :=
  t.envWrites.length + t.appWrites.length + if 0 < t.partitionsInProgress then 1 else 0

structure Quiescent (t : Table Members n) : Prop where
  mode : t.mode = .serving
  writes : t.envWrites = [] ∧ t.appWrites = []
  slots : ∀ i, (t.partitions i).slot = .notPending ∧ (t.partitions i).retry = none

structure Uniform (t : Table Members n) : Prop where
  configs : ∀ i, (t.partitions i).config.maxReplicaCount = t.maxReplicaCount
  stored : ∀ i, (t.partitions i).stored.maxReplicaCount = t.maxReplicaCount
  storedMaxReplicaCount : t.storedMaxReplicaCount = t.maxReplicaCount
  env : t.env = none ∧ t.storedEnv = none

/-- No request for another count comes before the env of one has been written, no primary dies while
the count of its partition is being written, and no write of a recovery times out. -/
def Orderly (t : Table Members n) : Event Members n → Prop
  | .setMaxReplicaCount count => t.envWrites = [] ∨ count = t.maxReplicaCount
  | .primaryDead i _ => ∀ config counts applied,
    (t.partitions i).slot ≠ .pending config (some counts) applied
  | .timeout => t.mode = .serving
  | _ => True

end Table

end ReplicaCount

end Pegasus.Meta
