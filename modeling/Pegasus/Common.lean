/-
Vocabulary shared by every part of the replication layer (`Pegasus.Common`):
decrees and ballots, the status of a replica, and the codes and serialization
formats of write requests, as `replication_other_types.h`, `metadata.thrift`,
`rrdb.code.definition.h` and `replication.codes.h` declare them.

Decrees and ballots are `int64_t` in the source. They only ever grow by one
from zero, so the model takes them as unbounded `Int`s; `invalidDecree` is
the literal `-1` the source uses both as "no decree yet" and as a legal value
of some fields.
-/

import Mathlib

namespace Pegasus

theorem forall_mem_concat {α : Type} {p : α → Prop} {l : List α} {a : α} (hinit : ∀ x ∈ l, p x)
    (hlast : p a) : ∀ x ∈ l ++ [a], p x :=
  List.forall_mem_append.mpr ⟨hinit, List.forall_mem_singleton.mpr hlast⟩

theorem mem_concat_iff {α : Type} {l : List α} {a b : α} : a ∈ l ++ [b] ↔ a ∈ l ∨ a = b := by simp

def invalidDecree : Int := -1

/-- `partition_status::type`. -/
inductive PartitionStatus where
  | inactive
  | error
  | primary
  | secondary
  | potentialSecondary
  | partitionSplit
deriving DecidableEq

/-- The codes of write requests: `RPC_RRDB_RRDB_*` and, for a mutation without a
request, `RPC_REPLICATION_WRITE_EMPTY`. -/
inductive WriteCode where
  | writeEmpty
  | put
  | multiPut
  | remove
  | multiRemove
  | incr
  | checkAndSet
  | checkAndMutate
  | duplicate
  | bulkLoad
deriving DecidableEq

namespace WriteCode

/-- `rpc_request_is_write_allow_batch` of the task spec. -/
def allowBatch : WriteCode → Bool
  | .put | .remove => true
  | _ => false

/-- `rpc_request_is_write_idempotent` of the task spec. -/
def isIdempotent : WriteCode → Bool
  | .incr | .checkAndSet | .checkAndMutate | .writeEmpty => false
  | _ => true

end WriteCode

/-- `dsn_msg_serialize_format`. -/
inductive SerializeFormat where
  | invalid
  | thriftBinary
  | thriftJson
deriving DecidableEq

end Pegasus
