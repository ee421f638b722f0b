/-
Mutations (`Pegasus.Replica.Mutation`), after `mutation.h` and `mutation.cpp`.

A mutation is the unit of the two-phase commit: a header with the ballot and the
decree, the updates that are logged and sent to the other replicas, and on the
primary the client requests and the idempotent writer that answer the clients.
The replication layer never looks inside a payload or a writer, so both are type
parameters: `P` for the body of a message, `W` for `idempotent_writer`.

The bit field `_private0` that holds the acknowledgements a primary waits for is
kept as the five fields it is made of; `isReadyForCommit` is `_private0 == 0`.
-/

import Pegasus.Common

namespace Pegasus.Replica

/-- The part of a `message_ex` that the replication layer reads. -/
structure Message (P : Type) where
  code : WriteCode
  threadHash : Int := 0
  partitionHash : UInt64 := 0
  serializeFormat : SerializeFormat := .thriftBinary
  body : P
deriving DecidableEq

/-- `mutation_update`. An empty write has no payload. -/
structure MutationUpdate (P : Type) where
  code : WriteCode
  serializationType : SerializeFormat
  data : Option P
deriving DecidableEq

/-- `mutation_header` without the partition id. The timestamp of a header that
nobody has set is zero. -/
structure MutationHeader where
  ballot : Int
  decree : Int
  logOffset : Int := -1
  lastCommittedDecree : Int := 0
  timestamp : Int := 0
deriving DecidableEq

structure Mutation (P W : Type) where
  header : MutationHeader
  updates : List (MutationUpdate P) := []
  /-- `client_requests`; a null pointer stands for a request of another replica. -/
  clientRequests : List (Option (Message P)) := []
  isBlockingCandidate : Bool := false
  idemWriter : Option W := none
  notLogged : Bool := true
  leftSecondaryAckCount : Nat := 0
  leftPotentialSecondaryAckCount : Nat := 0
  waitChild : Bool := false
  isErrorAcked : Bool := false
  /-- Starts at `sizeof(mutation_header)`. -/
  approDataBytes : Nat := 64
  /-- `_tid`, unique in the process: callbacks hold the mutation, not its decree. -/
  tid : Nat := 0
deriving DecidableEq

namespace Mutation

variable {P W : Type}

def isLogged (mu : Mutation P W) : Bool := !mu.notLogged

def isReadyForCommit (mu : Mutation P W) : Bool :=
  !mu.notLogged && mu.leftSecondaryAckCount == 0 && mu.leftPotentialSecondaryAckCount == 0 &&
    !mu.waitChild && !mu.isErrorAcked

def isFull (mu : Mutation P W) : Bool := decide (1024 * 1024 ≤ mu.approDataBytes)

def setId (mu : Mutation P W) (ballot decree : Int) : Mutation P W :=
  { mu with header := { mu.header with ballot := ballot, decree := decree } }

def setTimestamp (mu : Mutation P W) (timestamp : Int) : Mutation P W :=
  { mu with header := { mu.header with timestamp := timestamp } }

/-- `replica::new_mutation(decree)` on a replica with the given ballot. -/
def new (ballot decree : Int) : Mutation P W where
  header := { ballot := ballot, decree := decree }

/-- The update that `mutation::add_client_request` records for a request. -/
def updateOf : Option (Message P) → MutationUpdate P
  | some request => ⟨request.code, request.serializeFormat, some request.body⟩
  | none => ⟨.writeEmpty, .invalid, none⟩

/-- `mutation::add_client_request`; `size` measures the payload. -/
def addClientRequest (size : P → Nat) (mu : Mutation P W) (request : Option (Message P)) :
    Mutation P W :=
  { mu with
    updates := mu.updates ++ [updateOf request]
    clientRequests := mu.clientRequests ++ [request]
    approDataBytes := mu.approDataBytes + 32 + 4 + (request.map fun m => size m.body).getD 0 }

/-- `mutation::copy_from`: the updates, the client requests and the size, and nothing
of the header. -/
def copyFrom (mu old : Mutation P W) : Mutation P W :=
  { mu with
    updates := old.updates
    clientRequests := old.clientRequests
    approDataBytes := old.approDataBytes }

/-- What a secondary, or a log replay, reads back of a mutation (`mutation::read_from`):
the header and the updates, with a null client request for each. -/
def received (mu : Mutation P W) : Mutation P W where
  header := mu.header
  updates := mu.updates
  clientRequests := mu.updates.map fun _ => none

/-- `message_ex::create_received_request`, for an update without a client request. -/
def createReceivedRequest (update : MutationUpdate P) : Option (Message P) :=
  update.data.map fun body =>
    { code := update.code, serializeFormat := update.serializationType, body := body }

/-- The requests `apply_mutation` hands to the application: empty writes are left out,
and a missing client request is recreated from its update. -/
def batchedRequests (mu : Mutation P W) : List (Message P) :=
  (mu.updates.zip mu.clientRequests).filterMap fun (update, request) =>
    if update.code = .writeEmpty then none
    else request <|> createReceivedRequest update

@[simp] theorem copyFrom_header (mu old : Mutation P W) :
    (mu.copyFrom old).header = mu.header := rfl

@[simp] theorem copyFrom_updates (mu old : Mutation P W) :
    (mu.copyFrom old).updates = old.updates := rfl

@[simp] theorem copyFrom_clientRequests (mu old : Mutation P W) :
    (mu.copyFrom old).clientRequests = old.clientRequests := rfl

@[simp] theorem copyFrom_idemWriter (mu old : Mutation P W) :
    (mu.copyFrom old).idemWriter = mu.idemWriter := rfl

variable (size : P → Nat)

variable (mu : Mutation P W)

@[simp] theorem addClientRequest_header (request : Option (Message P)) :
    (mu.addClientRequest size request).header = mu.header := rfl

variable (requests : List (Option (Message P)))

theorem foldl_addClientRequest_updates :
    (requests.foldl (addClientRequest size) mu).updates = mu.updates ++ requests.map updateOf := by
  induction requests generalizing mu with
  | nil => simp
  | cons request rest ih => simp [ih, addClientRequest]

theorem foldl_addClientRequest_idemWriter :
    (requests.foldl (addClientRequest size) mu).idemWriter = mu.idemWriter := by
  induction requests generalizing mu with
  | nil => rfl
  | cons request rest ih => exact ih _

theorem foldl_addClientRequest_header :
    (requests.foldl (addClientRequest size) mu).header = mu.header := by
  induction requests generalizing mu with
  | nil => rfl
  | cons request rest ih => exact ih _

theorem received_batchedRequests :
    mu.received.batchedRequests =
      mu.updates.filterMap fun update =>
        if update.code = .writeEmpty then none else createReceivedRequest update := by
  unfold batchedRequests received
  induction mu.updates with
  | nil => rfl
  | cons update rest ih =>
    simp only [List.map_cons, List.zip_cons_cons, List.filterMap_cons, ih]
    rfl

end Mutation

end Pegasus.Replica
