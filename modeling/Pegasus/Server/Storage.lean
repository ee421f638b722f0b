/-
The storage engine seen by the write path (`Pegasus.Server.Storage`), after
`rocksdb_wrapper.cpp`, `pegasus_key_schema.h` and `pegasus_value_schema.h`.

A write never touches the database directly: it fills one write batch and hands
the batch to `rocksdb_wrapper::write`, which adds the decree to the meta column
family. The model keeps the batch as a list of operations and the database as a
map from raw keys to decoded values; the byte layout of a value is left out, so
the three things a value carries (expire timestamp, timetag, user data) are the
fields of `Value`.

A failed `CHECK` aborts the process; functions that can abort return `none`.
-/

import Pegasus.Common

namespace Pegasus.Server

/-- The contents of a `dsn::blob`. -/
abbrev Bytes := List UInt8

/-- `rocksdb::Status::Code`, with the codes the write path names. -/
inductive Status where
  | ok
  | corruption
  | invalidArgument
  | tryAgain
  | other (code : Nat)
deriving DecidableEq

/-- The value schema versions the write path supports. -/
inductive DataVersion where
  | v0
  | v1
deriving DecidableEq

/-- A raw value of the data column family. Version 0 stores no timetag. -/
structure Value where
  expireTs : UInt32
  timetag : Option UInt64
  userData : Bytes
deriving DecidableEq

/-- `pegasus_generate_key`: the big-endian length of the hash key, the hash key and
the sort key. It aborts on a hash key of 65535 bytes or more. -/
def generateKey (hashKey sortKey : Bytes) : Option Bytes :=
  if hashKey.length < 65535 then
    some (UInt8.ofNat (hashKey.length / 256) :: UInt8.ofNat (hashKey.length % 256) ::
      (hashKey ++ sortKey))
  else none

/-- `generate_timetag`: 56 bits of timestamp, 7 bits of cluster id, the deleted tag. -/
def generateTimetag (timestamp : UInt64) (clusterId : UInt8) (deletedTag : Bool) : UInt64 :=
  (timestamp <<< 8) ||| (clusterId.toUInt64 <<< 1) ||| (if deletedTag then 1 else 0)

def checkIfTsExpired (epochNow expireTs : UInt32) : Bool :=
  decide (0 < expireTs) && decide (expireTs ≤ epochNow)

/-- `db_write_context`. -/
structure WriteContext where
  decree : Int
  timestamp : UInt64 := 0
  remoteTimetag : UInt64 := 0
  verifyTimetag : Bool := false
deriving DecidableEq

def WriteContext.create (decree : Int) (timestamp : UInt64) : WriteContext :=
  { decree, timestamp }

@[simp] theorem WriteContext.create_decree (decree : Int) (timestamp : UInt64) :
    (WriteContext.create decree timestamp).decree = decree := rfl

def WriteContext.empty (decree : Int) : WriteContext := WriteContext.create decree 0

def WriteContext.isDuplicatedWrite (ctx : WriteContext) : Bool := decide (0 < ctx.remoteTimetag)

/-- `db_get_context`. -/
structure GetContext where
  value : Option Value
  expired : Bool
deriving DecidableEq

/-- A record counts as existing when it is found and has not expired. -/
def GetContext.existing (ctx : GetContext) : Option Value := if ctx.expired then none else ctx.value

inductive WriteOp where
  | put (key : Bytes) (value : Value)
  | delete (key : Bytes)
  | putLastFlushedDecree (decree : Int)
deriving DecidableEq

/-- `rocksdb_wrapper` of one replica, with everything it reads: the database, the
clock, the cluster id and the default TTL of the table. -/
structure Engine where
  /-- `_db->Get` on the data column family: an error, nothing, or a value. -/
  read : Bytes → Except Status (Option Value)
  epochNow : UInt32
  /-- `get_current_dup_cluster_id_or_default`. -/
  clusterId : UInt8
  dataVersion : DataVersion
  defaultTtl : UInt32

namespace Engine

variable (db : Engine)

def get (rawKey : Bytes) : Except Status GetContext :=
  match db.read rawKey with
  | .ok (some v) => .ok ⟨some v, checkIfTsExpired db.epochNow v.expireTs⟩
  | .ok none => .ok ⟨none, false⟩
  | .error s => .error s

def dbExpireTs (expireTs : UInt32) : UInt32 :=
  if db.defaultTtl ≠ 0 ∧ expireTs = 0 then db.epochNow + db.defaultTtl else expireTs

def generateValue (userData : Bytes) (expireTs : UInt32) (timetag : UInt64) : Value where
  expireTs := expireTs
  timetag :=
    match db.dataVersion with
    | .v0 => none
    | .v1 => some timetag
  userData := userData

/-- The timetag under which a write is stored: its own for a duplicated write, a
new one otherwise. -/
def newTimetag (ctx : WriteContext) : UInt64 :=
  if ctx.isDuplicatedWrite then ctx.remoteTimetag
  else generateTimetag ctx.timestamp db.clusterId false

/-- Whether `write_batch_put_ctx` finds a record with a timetag at least as large and
so drops the write. Only a context with `verify_timetag` reads the database. -/
def isStale (ctx : WriteContext) (rawKey : Bytes) : Except Status Bool :=
  if ctx.verifyTimetag ∧ db.dataVersion = .v1 ∧ rawKey ≠ [] then
    match db.get rawKey with
    | .error s => .error s
    | .ok g =>
      match g.existing with
      | some v => .ok (decide (db.newTimetag ctx ≤ v.timetag.getD 0))
      | none => .ok false
  else .ok false

/-- `rocksdb_wrapper::write_batch_put_ctx`; a stale update becomes an empty record. -/
def writeBatchPutCtx (ctx : WriteContext) (rawKey value : Bytes) (expireSec : UInt32) :
    Except Status WriteOp :=
  match db.isStale ctx rawKey with
  | .error s => .error s
  | .ok true => .ok (.put [] (db.generateValue [] (db.dbExpireTs expireSec) (db.newTimetag ctx)))
  | .ok false =>
    .ok (.put rawKey (db.generateValue value (db.dbExpireTs expireSec) (db.newTimetag ctx)))

def writeBatchPut (decree : Int) (rawKey value : Bytes) (expireSec : UInt32) :
    Except Status WriteOp :=
  db.writeBatchPutCtx (.empty decree) rawKey value expireSec

def writeBatchDelete (rawKey : Bytes) : WriteOp := .delete rawKey

/-- The batch `rocksdb_wrapper::write` hands to the database. It aborts when nothing
has been put into the batch. -/
def write (batch : List WriteOp) (decree : Int) : Option (List WriteOp) :=
  if batch = [] then none else some (batch ++ [.putLastFlushedDecree decree])

theorem writeBatchPutCtx_create (decree : Int) (timestamp : UInt64) (rawKey value : Bytes)
    (expireSec : UInt32) :
    db.writeBatchPutCtx (.create decree timestamp) rawKey value expireSec =
      .ok (.put rawKey (db.generateValue value (db.dbExpireTs expireSec)
        (generateTimetag timestamp db.clusterId false))) := rfl

end Engine

abbrev Records := Bytes → Option Value

def WriteOp.apply : WriteOp → Records → Records
  | .put k v, rs => fun k' => if k' = k then some v else rs k'
  | .delete k, rs => fun k' => if k' = k then none else rs k'
  | .putLastFlushedDecree _, rs => rs

def applyBatch (batch : List WriteOp) (rs : Records) : Records :=
  batch.foldl (fun rs op => op.apply rs) rs

end Pegasus.Server
