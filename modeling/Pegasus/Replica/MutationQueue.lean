/-
The write queue of a primary (`Pegasus.Replica.MutationQueue`), after the class
`mutation_queue` of `mutation.h` and `mutation.cpp`.

Client writes wait in `_blocking_mutations + _queue + _pending_mutation`. A mutation
whose atomic write is to be made idempotent reads the storage engine before it gets
its decree, so it is blocked while one of its rows is locked: a row is locked while a
mutation with a write to it is in the two-phase commit and not yet applied.

The row locks are the map `_row_locks` from a partition hash to a node of the list
`_lru_rows`. They are modelled by the list alone, with a mark on the nodes the map
points to: after `clear` the map is empty and the list still holds its nodes.
-/

import Pegasus.Replica.Mutation

namespace Pegasus.Replica

/-- A node of `_lru_rows`; `mapped` says that `_row_locks` points to it. -/
structure LruRow where
  partitionHash : UInt64
  decree : Int
  mapped : Bool := true
deriving DecidableEq

/-- `_row_locks` and `_lru_rows`, the latest row first. -/
abbrev RowLocks := List LruRow

namespace RowLocks

/-- Whether a node is the one `_row_locks` has for the hash. -/
def holds (hash : UInt64) (row : LruRow) : Bool := row.mapped && row.partitionHash == hash

/-- `_row_locks.find`: the highest decree in the two-phase commit with a write to the row. -/
def find (rows : RowLocks) (hash : UInt64) : Option Int :=
  (List.find? (holds hash) rows).map LruRow.decree

def size (rows : RowLocks) : Nat := rows.countP LruRow.mapped

def enterRow (decree : Int) (rows : RowLocks) (hash : UInt64) : RowLocks :=
  match List.find? (holds hash) rows with
  | some row => { row with decree := max row.decree decree } :: rows.eraseP (holds hash)
  | none => { partitionHash := hash, decree := decree } :: rows

/-- `_row_locks.erase(hash)`. -/
def unmap (hash : UInt64) (rows : RowLocks) : RowLocks :=
  rows.map fun row => if row.partitionHash = hash then { row with mapped := false } else row

/-- The loop of `enter_2pc` that makes room: it discards the oldest row while the map is too
large and the row has been applied. Every round takes a node, so their number is fuel enough. -/
def evictLoop (capacity : Nat) (lastApplied : Int) : Nat → RowLocks → RowLocks
  | 0, rows => rows
  | fuel + 1, rows =>
    match rows.getLast? with
    | none => rows
    | some back =>
      if capacity < rows.size ∧ back.decree ≤ lastApplied then
        evictLoop capacity lastApplied fuel (unmap back.partitionHash rows.dropLast)
      else rows

def evict (capacity : Nat) (lastApplied : Int) (rows : RowLocks) : RowLocks :=
  evictLoop capacity lastApplied rows.length rows

/-- `_row_locks.clear()`: the list keeps its nodes. -/
def clear (rows : RowLocks) : RowLocks := rows.map fun row => { row with mapped := false }

end RowLocks

structure MutationQueue (P W : Type) where
  pending : Option (Mutation P W) := none
  queue : List (Mutation P W) := []
  blocking : List (Mutation P W) := []
  rowLocks : RowLocks := []
  currentOpCount : Int := 0
  /-- `FLAGS_staleness_for_commit`. -/
  maxConcurrentOp : Int := 20
  batchWriteDisabled : Bool := false

namespace MutationQueue

variable {P W : Type}

/-- The partition hashes of the client requests of a mutation that are not null. -/
def requestHashes (mu : Mutation P W) : List UInt64 :=
  mu.clientRequests.filterMap fun request => request.map Message.partitionHash

def enter2pc (capacity : Nat) (lastApplied : Int) (q : MutationQueue P W) (mu : Mutation P W) :
    MutationQueue P W :=
  { q with
    rowLocks := RowLocks.evict capacity lastApplied
      ((requestHashes mu).foldl (RowLocks.enterRow mu.header.decree) q.rowLocks) }

def rowLocked (lastApplied : Int) (q : MutationQueue P W) (mu : Mutation P W) : Bool :=
  (requestHashes mu).any fun hash => (q.rowLocks.find hash).any fun d => decide (lastApplied < d)

def tryUnblock (lastApplied : Int) (q : MutationQueue P W) :
    Option (MutationQueue P W × Mutation P W) :=
  (q.blocking.find? fun mu => !q.rowLocked lastApplied mu).map fun mu =>
    ({ q with
      blocking := q.blocking.eraseP fun mu => !q.rowLocked lastApplied mu
      currentOpCount := q.currentOpCount + 1 }, mu)

/-- `mutation_queue::try_block`: whether the mutation is blocked. -/
def blocks (lastApplied : Int) (q : MutationQueue P W) (mu : Mutation P W) : Bool :=
  mu.isBlockingCandidate && q.rowLocked lastApplied mu

def popOrBlockQueue (lastApplied : Int) (q : MutationQueue P W) :
    MutationQueue P W × Option (Mutation P W) :=
  go q.queue q.blocking
where
  /-- Pops from the mutations left, with those blocked so far. -/
  go : List (Mutation P W) → List (Mutation P W) → MutationQueue P W × Option (Mutation P W)
    | [], blocking => ({ q with queue := [], blocking := blocking }, none)
    | mu :: rest, blocking =>
      if q.blocks lastApplied mu then go rest (blocking ++ [mu])
      else
        ({ q with
          queue := rest
          blocking := blocking
          currentOpCount := q.currentOpCount + 1 }, some mu)

def popOrBlockPending (lastApplied : Int) (q : MutationQueue P W) :
    MutationQueue P W × Option (Mutation P W) :=
  match q.pending with
  | none => (q, none)
  | some mu =>
    if q.blocks lastApplied mu then
      ({ q with pending := none, blocking := q.blocking ++ [mu] }, none)
    else ({ q with pending := none, currentOpCount := q.currentOpCount + 1 }, some mu)

def promotePending (q : MutationQueue P W) : MutationQueue P W :=
  { q with pending := none, queue := q.queue ++ q.pending.toList }

def tryPromotePending (code : WriteCode) (q : MutationQueue P W) : MutationQueue P W :=
  if code.allowBatch && !q.pending.any Mutation.isFull && !q.batchWriteDisabled then q
  else q.promotePending

/-- The first half of `mutation_queue::add_work`: the request goes to the pending mutation, or
to a new one, which is a blocking candidate if its request is to be made idempotent. -/
def appendRequest (size : P → Nat) (ballot : Int) (makeIdempotent : Bool)
    (q : MutationQueue P W) (request : Message P) : MutationQueue P W :=
  let q := if q.pending.isSome && !request.code.allowBatch then q.promotePending else q
  let pending := q.pending.getD
    { (Mutation.new ballot invalidDecree : Mutation P W) with
      isBlockingCandidate := makeIdempotent }
  { q with pending := some (pending.addClientRequest size (some request)) }

/-- `mutation_queue::add_work`, from the throttling check on. -/
def nextAfterAppend (lastApplied : Int) (code : WriteCode) (q : MutationQueue P W) :
    MutationQueue P W × Option (Mutation P W) :=
  if q.maxConcurrentOp ≤ q.currentOpCount then (q.tryPromotePending code, none)
  else
    match q.tryUnblock lastApplied with
    | some (q, mu) => (q.tryPromotePending code, some mu)
    | none =>
      if q.queue.isEmpty then q.popOrBlockPending lastApplied
      else (q.tryPromotePending code).popOrBlockQueue lastApplied

def addWork (size : P → Nat) (ballot lastApplied : Int) (makeIdempotent : Bool)
    (q : MutationQueue P W) (request : Message P) : MutationQueue P W × Option (Mutation P W) :=
  (q.appendRequest size ballot makeIdempotent request).nextAfterAppend lastApplied request.code

def nextWork (lastApplied currentRunningCount : Int) (q : MutationQueue P W) :
    MutationQueue P W × Option (Mutation P W) :=
  let q := { q with currentOpCount := currentRunningCount }
  if q.maxConcurrentOp ≤ q.currentOpCount then (q, none)
  else
    match q.tryUnblock lastApplied with
    | some (q, mu) => (q, some mu)
    | none =>
      if q.queue.isEmpty then q.popOrBlockPending lastApplied
      else q.popOrBlockQueue lastApplied

def clear (q : MutationQueue P W) : MutationQueue P W :=
  { q with pending := none, queue := [], blocking := [], rowLocks := RowLocks.clear q.rowLocks }

end MutationQueue

end Pegasus.Replica
