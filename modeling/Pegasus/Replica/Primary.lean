/-
The primary's side of the two-phase commit (`Pegasus.Replica.Primary`), after
`replica_2pc.cpp` (`make_idempotent`, `init_prepare`) and `replay_prepare_list` of
`replica_config.cpp`.

`initPrepare` takes a mutation from the write queue, or a copy of one in the prepare
list, gives it its decree and puts it into the prepare list. The application only
appears through `translate`, which is `_app->make_idempotent`: the idempotent requests
an atomic request becomes and the writer that answers its client, or an error that has
been answered already.

Replicas are named by numbers, which stand for their `host_port`.
-/

import Pegasus.Replica.PrepareList
import Pegasus.Replica.MutationQueue

namespace Pegasus.Replica

structure ReplicaOptions where
  /-- `FLAGS_staleness_for_commit`. -/
  stalenessForCommit : Int := 20
  /-- `FLAGS_row_lock_map_capacity`. -/
  rowLockMapCapacity : Nat := 1024
  /-- `FLAGS_mutation_2pc_min_replica_count`; zero leaves it to the replica count of the
  table. -/
  mutation2pcMinReplicaCount : Nat := 0

def ReplicaOptions.appMutation2pcMinReplicaCount (opts : ReplicaOptions)
    (appMaxReplicaCount : Nat) : Nat :=
  if 0 < opts.mutation2pcMinReplicaCount then opts.mutation2pcMinReplicaCount
  else if appMaxReplicaCount ≤ 2 then 1
  else appMaxReplicaCount / 2 + 1

/-- `remote_learner_state`, with the learner it is about. -/
structure Learner where
  node : Nat
  signature : Nat
  prepareStartDecree : Int := invalidDecree
deriving DecidableEq

/-- Whether a mutation with the given decree is sent to the learner. -/
def Learner.prepares (learner : Learner) (decree : Int) : Bool :=
  learner.prepareStartDecree != invalidDecree && decide (learner.prepareStartDecree ≤ decree)

/-- The state of a replica that its two-phase commit reads and writes. -/
structure ReplicaState (P W : Type) where
  status : PartitionStatus
  ballot : Int
  prepareList : PrepareList P W
  /-- `_app->last_committed_decree()`. -/
  lastAppliedDecree : Int
  writeQueue : MutationQueue P W
  /-- `_app_info.atomic_idempotent`. -/
  atomicIdempotent : Bool
  /-- `_app_info.max_replica_count`. -/
  appMaxReplicaCount : Nat
  /-- `_primary_states.pc.max_replica_count`. -/
  maxReplicaCount : Nat
  /-- `_primary_states.pc.hp_secondaries`. -/
  secondaries : List Nat
  /-- `_primary_states.learners`. -/
  learners : List Learner
  /-- The id of the next mutation that enters the prepare list. -/
  nextTid : Nat

namespace ReplicaState

variable {P W : Type}

/-- `replica::need_make_idempotent`, for a client request that may be null. -/
def needMakeIdempotent (s : ReplicaState P W) (request : Option (Message P)) : Bool :=
  s.atomicIdempotent && request.any fun m => !m.code.isIdempotent

/-- The mutation `replica::make_idempotent` puts in the place of an atomic one. -/
def idempotentMutation (size : P → Nat) (s : ReplicaState P W) (requests : List (Message P))
    (writer : W) : Mutation P W :=
  (requests.map some).foldl (Mutation.addClientRequest size)
    { (Mutation.new s.ballot invalidDecree : Mutation P W) with idemWriter := some writer }

/-- `replica::make_idempotent`. An error (`some none`) has been answered; a failed `CHECK` is
`none`. -/
def makeIdempotent (size : P → Nat) (translate : Message P → Option (List (Message P) × W))
    (s : ReplicaState P W) (mu : Mutation P W) : Option (Option (Mutation P W)) :=
  match mu.clientRequests with
  | [] => none
  | request :: rest =>
    if s.needMakeIdempotent request then
      match rest, request.bind translate with
      | _ :: _, _ => none
      | [], none => some none
      | [], some (requests, writer) =>
        if requests.isEmpty || mu.header.decree != invalidDecree then none
        else some (some (s.idempotentMutation size requests writer))
    else some (some mu)

/-- The header `init_prepare` gives a mutation: only a mutation without a decree gets a
timestamp. -/
def assignId (s : ReplicaState P W) (timestamp : Int) (mu : Mutation P W) : Mutation P W :=
  let mu := { mu with
    header := { mu.header with lastCommittedDecree := s.prepareList.lastCommittedDecree } }
  if mu.header.decree = invalidDecree then
    (mu.setId s.ballot (s.prepareList.maxDecree + 1)).setTimestamp timestamp
  else mu.setId s.ballot mu.header.decree

def enoughMembers (opts : ReplicaOptions) (s : ReplicaState P W) : Bool :=
  decide (opts.appMutation2pcMinReplicaCount s.appMaxReplicaCount ≤ s.secondaries.length + 1)

/-- The checks of `init_prepare` that answer the client with an error: bounded staleness, all
members for a bulk load, and enough members unless it is a reconciliation. -/
def admits (opts : ReplicaOptions) (reconciliation : Bool) (s : ReplicaState P W)
    (mu : Mutation P W) : Bool :=
  decide (mu.header.decree ≤ s.prepareList.lastCommittedDecree + opts.stalenessForCommit) &&
    !(mu.updates.head?.any (fun update => update.code == .bulkLoad) &&
      decide (s.secondaries.length + 1 < s.maxReplicaCount)) &&
    (s.enoughMembers opts || reconciliation)

def learnersOf (s : ReplicaState P W) (mu : Mutation P W) : List Learner :=
  s.learners.filter fun learner => learner.prepares mu.header.decree

/-- The acknowledgements a mutation of the primary waits for. The count of the secondaries has 15
bits; the learners are counted in a `uint8_t`. -/
def withAckCounts (s : ReplicaState P W) (mu : Mutation P W) : Mutation P W :=
  { mu with
    leftSecondaryAckCount := s.secondaries.length % 2 ^ 15
    leftPotentialSecondaryAckCount := (s.learnersOf mu).length % 2 ^ 8
    tid := s.nextTid }

/-- The part of `init_prepare` after the mutation is made idempotent. Returns the state after it
and the mutation that is sent to the other members, if it is. -/
def propose (opts : ReplicaOptions) (reconciliation popAll : Bool) (s : ReplicaState P W)
    (mu : Mutation P W) : Option (ReplicaState P W × Option (Mutation P W)) :=
  if s.admits opts reconciliation mu then
    if mu.header.decree ≤ s.prepareList.lastCommittedDecree then none
    else
      match s.prepareList.popAndPut popAll (s.withAckCounts mu) with
      | none => none
      | some (popped, some _) => some ({ s with prepareList := popped }, none)
      | some (prepared, none) =>
        some ({ s with
          prepareList := prepared
          writeQueue := s.writeQueue.enter2pc opts.rowLockMapCapacity s.lastAppliedDecree mu
          nextTid := s.nextTid + 1 }, some (s.withAckCounts mu))
  else some (s, none)

def initPrepare (opts : ReplicaOptions) (size : P → Nat)
    (translate : Message P → Option (List (Message P) × W)) (reconciliation popAll : Bool)
    (timestamp : Int) (s : ReplicaState P W) (mu : Mutation P W) :
    Option (ReplicaState P W × Option (Mutation P W)) :=
  match s.makeIdempotent size translate mu with
  | none => none
  | some none => some (s, none)
  | some (some mu) => s.propose opts reconciliation popAll (s.assignId timestamp mu)

/-- The mutation `replay_prepare_list` makes of what the prepare list holds at a decree. -/
def replayed (size : P → Nat) (s : ReplicaState P W) (decree : Int) : Mutation P W :=
  let mu : Mutation P W := .new s.ballot decree
  match s.prepareList.getMutationByDecree decree with
  | some old => mu.copyFrom old
  | none => mu.addClientRequest size none

/-- The loop of `replay_prepare_list`, over `n` decrees from `decree` on. Returns the mutations
that were proposed. No mutation replayed has a decree to be given, so none gets a timestamp. -/
def replayFrom (opts : ReplicaOptions) (size : P → Nat)
    (translate : Message P → Option (List (Message P) × W)) :
    Nat → Int → ReplicaState P W → Option (ReplicaState P W × List (Mutation P W))
  | 0, _, s => some (s, [])
  | n + 1, decree, s => do
    let (next, proposed) ← s.initPrepare opts size translate true false 0 (s.replayed size decree)
    let (last, rest) ← replayFrom opts size translate n (decree + 1) next
    some (last, proposed.toList ++ rest)

def replayPrepareList (opts : ReplicaOptions) (size : P → Nat)
    (translate : Message P → Option (List (Message P) × W)) (s : ReplicaState P W) :
    Option (ReplicaState P W × List (Mutation P W)) :=
  replayFrom opts size translate (s.prepareList.maxDecree - s.prepareList.lastCommittedDecree).toNat
    (s.prepareList.lastCommittedDecree + 1) s

end ReplicaState

end Pegasus.Replica
