/-
Shipping mutations to a remote cluster (`Pegasus.Duplication.Duplicator`), after
`pegasus_mutation_duplicator.cpp` and `mutation_duplicator.h`.

`duplicate` packs the mutations of one set into requests, queues every request
under the hash of its last mutation, and sends the first request of each queue.
From then on replies and scheduled retries drive it: a failed request goes back to
the front of its queue and is sent again, a successful one makes room for the next,
and when the last queue is exhausted the callback is called.

The environment decides when a reply arrives and when a scheduled task runs, so
what is outstanding and what is scheduled is part of the state.
-/

import Pegasus.Common
import Pegasus.Lib.Run
import Pegasus.Lib.Queues

namespace Pegasus.Duplication

/-- `mutation_tuple`. The address is the data pointer of the blob, which only the order
of a set looks at. `add_mutation_if_valid` loads idempotent writes only. -/
structure MutationTuple (P : Type) where
  timestamp : Nat
  code : WriteCode
  address : Nat
  message : P
  idempotent : code.isIdempotent = true := by decide

/-- `duplicate_entry`. The sender leaves `verify_timetag` unset. -/
structure DuplicateEntry (P : Type) where
  rawMessage : P
  taskCode : WriteCode
  timestamp : Nat
  clusterId : Nat
  verifyTimetag : Bool := false
deriving DecidableEq

/-- `duplicate_request`. -/
abbrev Request (P : Type) := List (DuplicateEntry P)

/-- What the duplicator takes from its surroundings: the length of a blob, the hash of a
write, the id of the local cluster, the flags and the length of a request on the wire. -/
structure Config (P : Type) where
  size : P → Nat
  /-- `get_hash_from_request`. -/
  hash : WriteCode → P → UInt64
  clusterId : Nat
  duplicateLogBatchBytes : Nat := 4096
  dupMaxAllowedWriteSize : Nat := 1 <<< 20
  wireSize : Request P → Nat

/-- `ingnored_rpc_code`. -/
def ignoredRpcCode : WriteCode → Bool
  | .duplicate | .bulkLoad => true
  | _ => false

/-- `_inflights`: hash to queue of requests. -/
abbrev Inflights (P : Type) := AList fun _ : UInt64 => List (Request P)

section

variable {P : Type} (cfg : Config P)

def entryOf (m : MutationTuple P) : DuplicateEntry P where
  rawMessage := m.message
  taskCode := m.code
  timestamp := m.timestamp
  clusterId := cfg.clusterId

/-! ### Packing -/

structure Packing (P : Type) where
  batchCount : Nat := 0
  batchBytes : Nat := 0
  batchRequest : Request P := []
  inflights : Inflights P := ∅

/-- `_inflights[hash].push_back(rpc)`. -/
def pushBack (inflights : Inflights P) (hash : UInt64) (request : Request P) : Inflights P :=
  inflights.insert hash (Queues.queue inflights hash ++ [request])

/-- The body of the loop over a set of `total` mutations. `batch_bytes` is 32 bits wide. -/
def packOne (total : Nat) (p : Packing P) (m : MutationTuple P) : Packing P :=
  if ignoredRpcCode m.code then
    { p with batchCount := p.batchCount + 1 }
  else
    let batch := p.batchRequest ++ [entryOf cfg m]
    let bytes := (p.batchBytes + cfg.size m.message) % 2 ^ 32
    if p.batchCount + 1 = total ∨ cfg.duplicateLogBatchBytes ≤ bytes ∨
        cfg.dupMaxAllowedWriteSize ≤ bytes then
      { batchCount := p.batchCount + 1
        inflights := pushBack p.inflights (cfg.hash m.code m.message) batch }
    else
      { batchCount := p.batchCount + 1
        batchBytes := bytes
        batchRequest := batch
        inflights := p.inflights }

def pack (muts : List (MutationTuple P)) : Packing P := muts.foldl (packOne cfg muts.length) {}

/-! ### Sending -/

structure State (P : Type) where
  inflights : Inflights P
  /-- Requests sent whose reply has not arrived. -/
  outstanding : List (UInt64 × Request P) := []
  /-- Hashes for which a call of `send` is scheduled. -/
  scheduled : List UInt64 := []
  /-- Requests the remote cluster has acknowledged, in the order of the replies. -/
  acknowledged : List (Request P) := []
  /-- The sizes with which the callback was called. -/
  callbacks : List Nat := []
  totalShippedSize : Nat := 0

/-- `pegasus_mutation_duplicator::send`. Taking the front of a missing or empty queue is
undefined. -/
def send (s : State P) (hash : UInt64) : Option (State P) :=
  match s.inflights.lookup hash with
  | some (request :: queue) =>
    some
      { s with
        inflights := s.inflights.insert hash queue
        outstanding := s.outstanding ++ [(hash, request)] }
  | _ => none

def duplicate (muts : List (MutationTuple P)) : Option (State P) :=
  let inflights := (pack cfg muts).inflights
  if inflights.keys = [] then some { inflights := inflights, callbacks := [0] }
  else inflights.keys.foldlM send { inflights := inflights }

variable [DecidableEq P]

/-- `on_duplicate_reply`: the request is retried after an error. -/
def onDuplicateReply (s : State P) (hash : UInt64) (request : Request P) (ok : Bool) : State P :=
  let s := { s with outstanding := s.outstanding.erase (hash, request) }
  let queue := Queues.queue s.inflights hash
  if ok then
    let s :=
      { s with
        acknowledged := s.acknowledged ++ [request]
        totalShippedSize := s.totalShippedSize + cfg.wireSize request }
    if queue = [] then
      let s := { s with inflights := s.inflights.erase hash }
      if s.inflights.keys = [] then
        { s with callbacks := s.callbacks ++ [s.totalShippedSize] }
      else s
    else
      { s with scheduled := s.scheduled ++ [hash] }
  else
    { s with
      inflights := s.inflights.insert hash (request :: queue)
      scheduled := s.scheduled ++ [hash] }

/-- What can happen to a duplicator: a reply arrives, or a scheduled task runs. A reply
`PERR_INVALID_ARGUMENT` is `fatal`: `on_duplicate_reply` checks that there is none. -/
inductive Event (P : Type) where
  | reply (hash : UInt64) (request : Request P) (ok : Bool)
  | fatal (hash : UInt64) (request : Request P)
  | runScheduled (hash : UInt64)

/-- One event; a reply needs an outstanding request, a task must have been scheduled. The
process ends with a fatal reply. -/
def step (s : State P) : Event P → Option (State P)
  | .reply hash request ok =>
    if (hash, request) ∈ s.outstanding then some (onDuplicateReply cfg s hash request ok) else none
  | .fatal _ _ => none
  | .runScheduled hash =>
    if hash ∈ s.scheduled then send { s with scheduled := s.scheduled.erase hash } hash else none

def Event.failures : Event P → Nat
  | .reply _ _ false => 1
  | _ => 0

end

end Pegasus.Duplication
