/-
The requests of a mutation on their way to the database (`Pegasus.Server.WriteRequests`), after
`pegasus_server_write.cpp`, `pegasus_write_service.cpp`, `pegasus_write_service_impl.h` and
`rocksdb_wrapper.cpp`.

`on_batched_write_requests` has a handler for each code that is not batched, a batch for single
puts and removes, and the idempotent writer of a primary. Here all of them are modelled, with
bodies that do not parse and with reads and writes that fail. A body that does not parse throws,
and what is thrown is caught and answered with `kOk`.
-/

import Pegasus.Server.ServerWrite
import Pegasus.Server.Duplicate

namespace Pegasus.Server

open Pegasus.Duplication (DuplicateEntry)

/-! ### Requests -/

/-- An entry of a `duplicate_request`. The raw message is read under the task code of the entry;
`none` stands for bytes that do not parse. -/
abbrev DuplicatedEntry := DuplicateEntry (Option ClientWrite)

/-- A write request by its code; `none` stands for a body that does not parse, for which the
unmarshalling throws `TTransportException`. -/
inductive WriteRequest where
  | put (body : Option UpdateRequest)
  | remove (body : Option Bytes)
  | multiPut (body : Option MultiPutRequest)
  | multiRemove (body : Option MultiRemoveRequest)
  | incr (body : Option IncrRequest)
  | checkAndSet (body : Option CheckAndSetRequest)
  | checkAndMutate (body : Option CheckAndMutateRequest)
  | duplicate (body : Option (List DuplicatedEntry))
  | bulkLoad (body : Option Unit)
deriving DecidableEq

/-- A received request with the fields of its header that `request_key_check` reads. -/
structure ReceivedRequest where
  request : WriteRequest
  partitionHash : UInt64 := 0
  threadHash : Int := 0
deriving DecidableEq

/-- What `apply_mutation` hands to `on_batched_write_requests`. -/
structure AppliedMutation where
  decree : Int
  timestamp : UInt64 := 0
  requests : List ReceivedRequest
  idemWriter : Option IdempotentWriter := none

/-- A status other than `kOk`. -/
abbrev Failure := { status : Status // status ≠ .ok }

/-- What a call finds around it: the clock, the configuration, the reads that fail, and the
statuses its writes return, in order; where they end, writes succeed. -/
structure Surroundings where
  readError : Bytes → Option Failure := fun _ => none
  writeStatus : List Status := []
  epochNow : UInt32 := 0
  clusterId : UInt8 := 0
  dataVersion : DataVersion := .v1
  defaultTtl : UInt32 := 0
  isDupClusterIdConfigured : Nat → Bool := fun _ => false
  keyHash : Bytes → UInt64 := fun _ => 0
  threadHash : Int := 0
  appId : Int := 0
  partitionIndex : Int := 0
  primaryHostPort : String := ""

structure Database where
  records : Records
  lastFlushedDecree : Int

/-- A database during a call, with the statuses of the writes to come. -/
structure Session where
  db : Database
  writeStatus : List Status

/-! ### Handlers -/

namespace Engine

variable (engine : Engine)

/-- The operations of a mutate list; the keys are generated one by one. -/
def mutates (decree : Int) (hashKey : Bytes) :
    List Mutate → Option (Except Status (List WriteOp))
  | [] => some (.ok [])
  | m :: rest => do
    let key ← generateKey hashKey m.sortKey
    let op :=
      if m.operation = .put then
        engine.writeBatchPut decree key m.value m.setExpireTsSeconds.toUInt32
      else .ok (writeBatchDelete key)
    match op with
    | .error s => some (.error s)
    | .ok op => (mutates decree hashKey rest).map fun ops => ops.map (op :: ·)

/-- A read that fails does not return `kOk`. -/
def Honest : Prop := ∀ key status, engine.read key = .error status → status ≠ .ok

end Engine

/-- What a direct write amounts to: the batch it hands to the database, or the status with which it
ends before, and the response by the status of the write. -/
structure Performed (Response : Type) where
  batch : Except Status (List WriteOp)
  respond : Status → Response

def perform {R : Type} (batch : Option (Except Status (List WriteOp))) (respond : Status → R) :
    Option (Performed R) :=
  batch.map fun batch => ⟨batch, respond⟩

@[simp]
theorem map_batch_perform {R : Type} (batch : Option (Except Status (List WriteOp)))
    (respond : Status → R) : (perform batch respond).map Performed.batch = batch := by
  cases batch <;> rfl

namespace WriteService

variable (svc : WriteService)

def incr (decree : Int) (update : IncrRequest) : Option (Performed IncrResponse) :=
  match svc.engine.get update.key with
  | .error s => some ⟨.error s, fun _ => { svc.basicIncrResponse decree with error := s }⟩
  | .ok g =>
    match g.existing with
    | none => putNew update.increment (calcExpireOnNonExistent update.expireTsSeconds)
    | some v =>
      let expire := calcExpireOnExisting update.expireTsSeconds v.expireTs
      if v.userData = [] then putNew update.increment expire
      else
        match buf2int64 v.userData with
        | none => refuse 0
        | some old =>
          match safeAdd old update.increment with
          | none => refuse old
          | some new => putNew new expire
where
  /-- The put of the new value. -/
  putNew (value : Int) (expire : Int32) : Option (Performed IncrResponse) :=
    perform (Engine.writeFilled ((svc.engine.writeBatchPut decree update.key
        (createFromNumeric value) expire.toUInt32).map fun op => [op]) decree) fun s =>
      if s = .ok then { svc.basicIncrResponse decree with newValue := value }
      else { svc.basicIncrResponse decree with error := s }
  /-- The empty record for a value that cannot be incremented. -/
  refuse (newValue : Int) : Option (Performed IncrResponse) :=
    perform (svc.engine.emptyPut decree) fun _ =>
      { svc.basicIncrResponse decree with error := .invalidArgument, newValue := newValue }

/-- The response of a direct checked write, with the check value. -/
def directCheckResponse (decree : Int) (cv : CheckValue) (err : Status) : CheckResponse :=
  { svc.basicCheckResponse decree with
    error := err
    checkValueReturned := cv.returned
    checkValueExist := cv.exist
    checkValue := cv.value }

/-- The empty record for a checked write that is not well formed. -/
def refuseCheck (decree : Int) : Option (Performed CheckResponse) :=
  perform (svc.engine.emptyPut decree) fun _ =>
    { svc.basicCheckResponse decree with error := .invalidArgument }

/-- A checked write from the check of its type on: the operations of the write if the check passes,
an empty record otherwise. -/
def checked (decree : Int) (hashKey checkSortKey : Bytes) (checkType : CasCheckType)
    (operand : Bytes) (returnCheckValue : Bool)
    (passed : Bytes → Option (Except Status (List WriteOp))) : Option (Performed CheckResponse) :=
  if checkType.isSupported = false then svc.refuseCheck decree
  else
    (generateKey hashKey checkSortKey).bind fun checkKey =>
      match svc.engine.get checkKey with
      | .error s => some ⟨.error s, fun _ => { svc.basicCheckResponse decree with error := s }⟩
      | .ok g =>
        let checkValue := g.existing.map Value.userData
        let cv := makeCheckValue returnCheckValue checkValue
        if (validateCheck checkType operand checkValue).1 then
          (passed checkKey).bind fun ops =>
            perform (Engine.writeFilled ops decree) (svc.directCheckResponse decree cv)
        else
          perform (svc.engine.emptyPut decree) fun s => svc.directCheckResponse decree cv
            (if s ≠ .ok then s
              else if (validateCheck checkType operand checkValue).2 then .invalidArgument
              else .tryAgain)

def checkAndSet (decree : Int) (update : CheckAndSetRequest) : Option (Performed CheckResponse) :=
  svc.checked decree update.hashKey update.checkSortKey update.checkType update.checkOperand
    update.returnCheckValue fun checkKey => (setKey update checkKey).map fun key =>
      (svc.engine.writeBatchPut decree key update.setValue
        update.setExpireTsSeconds.toUInt32).map fun op => [op]

def checkAndMutate (decree : Int) (update : CheckAndMutateRequest) :
    Option (Performed CheckResponse) :=
  if update.mutateList = [] then svc.refuseCheck decree
  else if update.mutateList.any fun m => m.operation ≠ .put ∧ m.operation ≠ .delete then
    svc.refuseCheck decree
  else
    svc.checked decree update.hashKey update.checkSortKey update.checkType update.checkOperand
      update.returnCheckValue fun _ => svc.engine.mutates decree update.hashKey update.mutateList

end WriteService

namespace Surroundings

variable (env : Surroundings)

def engine (db : Database) : Engine where
  read key :=
    match env.readError key with
    | some failure => .error failure.val
    | none => .ok (db.records key)
  epochNow := env.epochNow
  clusterId := env.clusterId
  dataVersion := env.dataVersion
  defaultTtl := env.defaultTtl

def svc (db : Database) : WriteService where
  engine := env.engine db
  appId := env.appId
  partitionIndex := env.partitionIndex
  primaryHostPort := env.primaryHostPort

end Surroundings

namespace Database

def commit (db : Database) (batch : List WriteOp) : Database where
  records := applyBatch batch db.records
  lastFlushedDecree := batch.foldl
    (fun decree op => match op with
      | .putLastFlushedDecree d => d
      | _ => decree) db.lastFlushedDecree

end Database

namespace Session

/-- `_db->Write` of a batch. -/
def write (s : Session) (batch : List WriteOp) : Status × Session :=
  match s.writeStatus with
  | [] => (.ok, { s with db := s.db.commit batch })
  | status :: rest =>
    if status = .ok then (.ok, ⟨s.db.commit batch, rest⟩) else (status, ⟨s.db, rest⟩)

/-- Handing the batch of a handler to the database, unless filling it has failed. -/
def submit (s : Session) : Option (Except Status (List WriteOp)) → Option (Status × Session)
  | none => none
  | some (.error status) => some (status, s)
  | some (.ok batch) => some (s.write batch)

end Session

/-- How a handler ends: it returns a status, or unmarshalling throws. -/
inductive HandlerEnd where
  | returned (status : Status)
  | threw
deriving DecidableEq

namespace Surroundings

variable (env : Surroundings)

/-- Whether an entry of a `duplicate_request` is refused, with an empty record. -/
def refuses (e : DuplicatedEntry) : Bool :=
  !env.isDupClusterIdConfigured e.clusterId || e.clusterId == env.clusterId.toNat ||
    !(e.taskCode == .put || e.taskCode == .remove || e.taskCode == .multiPut ||
      e.taskCode == .multiRemove)

def parsed (e : DuplicatedEntry) : Option ClientWrite :=
  e.rawMessage.filter fun w => w.code == e.taskCode

/-- `pegasus_write_service::duplicate`: every entry is written on its own. -/
def duplicate (decree : Int) : List DuplicatedEntry → Session → Option (HandlerEnd × Session)
  | [], s => some (.returned .ok, s)
  | e :: entries, s =>
    if env.refuses e then
      (s.submit ((env.engine s.db).emptyPut decree)).map fun (status, s) => (.returned status, s)
    else
      match parsed e with
      | none => some (.threw, s)
      | some w =>
        match s.submit ((env.engine s.db).duplicatedWrite (Table.duplicateContext decree e) w) with
        | none => none
        | some (status, s) =>
          if status = .ok then duplicate decree entries s else some (.returned status, s)

/-- The handler of a request that is not batched, if its code has one. -/
def nonBatchWriteHandler (ctx : WriteContext) (request : WriteRequest) :
    Option (Session → Option (HandlerEnd × Session)) :=
  match request with
  | .multiPut body => some (handle body fun db update => (env.engine db).multiPut ctx update)
  | .multiRemove body =>
    some (handle body fun db update => (env.engine db).multiRemove ctx.decree update)
  | .incr body =>
    some (handle body fun db update => ((env.svc db).incr ctx.decree update).map Performed.batch)
  | .checkAndSet body =>
    some (handle body fun db update =>
      ((env.svc db).checkAndSet ctx.decree update).map Performed.batch)
  | .checkAndMutate body =>
    some (handle body fun db update =>
      ((env.svc db).checkAndMutate ctx.decree update).map Performed.batch)
  -- the files are ingested by another task, after the empty record
  | .bulkLoad body => some (handle body fun db _ => (env.engine db).emptyPut ctx.decree)
  | .duplicate none => some fun s => some (.threw, s)
  | .duplicate (some entries) => some (env.duplicate ctx.decree entries)
  | .put _ | .remove _ => none
where
  /-- Unmarshalling the request, and its one write. -/
  handle {α : Type} (body : Option α)
      (batch : Database → α → Option (Except Status (List WriteOp))) (s : Session) :
      Option (HandlerEnd × Session) :=
    match body with
    | none => some (.threw, s)
    | some update => (s.submit (batch s.db update)).map fun (status, s) => (.returned status, s)

def requestKeyCheck (m : ReceivedRequest) (key : Bytes) : Option Unit :=
  if m.partitionHash ≠ 0 ∧ (m.partitionHash ≠ env.keyHash key ∨ m.threadHash ≠ env.threadHash) then
    none
  else some ()

/-- One iteration of `on_batched_writes`: a request that does not parse is skipped, and a code
that is not batched is fatal. -/
def onSingleWrite (ctx : WriteContext) (db : Database) (m : ReceivedRequest) :
    Option (Option (Except Status WriteOp)) :=
  match m.request with
  | .put none | .remove none => some none
  | .put (some update) =>
    (env.requestKeyCheck m update.key).map fun _ => some ((env.svc db).putUpdate ctx update)
  | .remove (some key) =>
    (env.requestKeyCheck m key).map fun _ => some (.ok (Engine.writeBatchDelete key))
  | _ => none

/-- `pegasus_server_write::on_batched_writes`. A batch without a single request that parses is
aborted, and the error is still `kOk`. -/
def onBatchedWrites (ctx : WriteContext) (requests : List ReceivedRequest) (s : Session) :
    Option (Status × Session) := do
  let writes ← requests.mapM (env.onSingleWrite ctx s.db)
  match ServerWrite.collect (writes.filterMap id) with
  | .error status => some (status, s)
  | .ok [] => some (.ok, s)
  | .ok ops => s.submit (Engine.writeFilled (.ok ops) ctx.decree)

/-- `idempotent_writer::apply`. After the write, an `incr` checks that its value is a number. -/
def applyWriter (ctx : WriteContext) (writer : IdempotentWriter) (s : Session) :
    Option (Status × Session) :=
  match writer.request with
  | .incr _ => apply (fun resp => resp.error) ((env.svc s.db).putIncr ctx writer.updates)
  | .checkAndSet _ =>
    apply (fun resp => resp.error) ((env.svc s.db).putCheckAndSet ctx writer.updates)
  | .checkAndMutate _ =>
    apply (fun resp => resp.error) ((env.svc s.db).putCheckAndMutate ctx writer.updates)
where
  /-- Writing the batch and building the response. -/
  apply {R : Type} (error : R → Status) :
      Option (Except R (WriteService.Applied R)) → Option (Status × Session)
    | none => none
    | some (.error resp) => some (error resp, s)
    | some (.ok applied) =>
      let (status, s) := s.write applied.batch
      (applied.respond status).map fun _ => (status, s)

/-- `pegasus_server_write::on_batched_write_requests`. An exception of a handler is answered with
`kOk`. -/
def onBatchedWriteRequests (mu : AppliedMutation) (s : Session) : Option (Status × Session) :=
  let ctx := WriteContext.create mu.decree mu.timestamp
  match mu.requests with
  | [] => s.submit ((env.engine s.db).emptyPut mu.decree)
  | m :: rest =>
    match env.nonBatchWriteHandler ctx m.request with
    | some handler =>
      if rest ≠ [] then none
      else
        (handler s).map fun
          | (.returned status, s) => (status, s)
          | (.threw, s) => (.ok, s)
    | none =>
      match mu.idemWriter with
      | some writer => env.applyWriter ctx writer s
      | none => env.onBatchedWrites ctx (m :: rest) s

end Surroundings

end Pegasus.Server
