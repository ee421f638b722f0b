/-
Atomic writes and their idempotent form (`Pegasus.Server.WriteService`), after
`pegasus_write_service_impl.h` and `rrdb.thrift`.

On a table with `atomic_idempotent`, a primary does not replicate `incr`,
`check_and_set` or `check_and_mutate` as such. `makeIdempotent…` evaluates the
request against the storage and turns it into single updates; later, once the
mutation is committed, `put…` applies these updates and builds the response to
the client. The three operations share the evaluation of the condition
(`evaluateCheck`) and the put of one update.
-/

import Pegasus.Server.Convert

namespace Pegasus.Server

/-! ### Requests and responses -/

/-- `cas_check_type`; a wire value outside the enumeration is `unknown`. -/
inductive CasCheckType where
  | noCheck
  | valueNotExist
  | valueNotExistOrEmpty
  | valueExist
  | valueNotEmpty
  | valueMatchAnywhere
  | valueMatchPrefix
  | valueMatchPostfix
  | valueBytesLess
  | valueBytesLessOrEqual
  | valueBytesEqual
  | valueBytesGreaterOrEqual
  | valueBytesGreater
  | valueIntLess
  | valueIntLessOrEqual
  | valueIntEqual
  | valueIntGreaterOrEqual
  | valueIntGreater
  | unknown (code : Int)
deriving DecidableEq

/-- `is_check_type_supported`. -/
def CasCheckType.isSupported : CasCheckType → Bool
  | .unknown _ => false
  | _ => true

inductive MutateOperation where
  | put
  | delete
  | unknown (code : Int)
deriving DecidableEq

structure IncrRequest where
  key : Bytes
  increment : Int
  expireTsSeconds : Int32
deriving DecidableEq

structure CheckAndSetRequest where
  hashKey : Bytes
  checkSortKey : Bytes
  checkType : CasCheckType
  checkOperand : Bytes
  setDiffSortKey : Bool
  setSortKey : Bytes
  setValue : Bytes
  setExpireTsSeconds : Int32
  returnCheckValue : Bool
deriving DecidableEq

structure Mutate where
  operation : MutateOperation
  sortKey : Bytes
  value : Bytes
  setExpireTsSeconds : Int32
deriving DecidableEq

structure CheckAndMutateRequest where
  hashKey : Bytes
  checkSortKey : Bytes
  checkType : CasCheckType
  checkOperand : Bytes
  mutateList : List Mutate
  returnCheckValue : Bool
deriving DecidableEq

inductive UpdateType where
  | put
  | incr
  | checkAndSet
  | checkAndMutatePut
  | checkAndMutateRemove
deriving DecidableEq

/-- `update_request`; `type` is an optional field. -/
structure UpdateRequest where
  key : Bytes
  value : Bytes := []
  expireTsSeconds : Int32 := 0
  type : Option UpdateType := none
  checkValueReturned : Bool := false
  checkValueExist : Bool := false
  checkValue : Bytes := []
deriving DecidableEq

structure IncrResponse where
  error : Status := .ok
  newValue : Int := 0
  appId : Int
  partitionIndex : Int
  decree : Int
  server : String
deriving DecidableEq

/-- `check_and_set_response` and `check_and_mutate_response`, which have the same
fields. -/
structure CheckResponse where
  error : Status := .ok
  checkValueReturned : Bool := false
  checkValueExist : Bool := false
  checkValue : Bytes := []
  appId : Int
  partitionIndex : Int
  decree : Int
  server : String
deriving DecidableEq

/-- `pegasus_write_service::impl`. -/
structure WriteService where
  engine : Engine
  appId : Int
  partitionIndex : Int
  primaryHostPort : String

/-! ### Conditions -/

/-- How a comparison type treats the three outcomes of a comparison. -/
structure Comparison where
  onLess : Bool
  onEqual : Bool
  onGreater : Bool

/-- `validate_check`: whether the check passes, and whether an argument was not an
integer. `none` stands for a value that does not exist. An unsupported type aborts
there; both callers have refused it before. -/
def validateCheck (checkType : CasCheckType) (operand : Bytes) (value : Option Bytes) :
    Bool × Bool :=
  match checkType, value with
  | .noCheck, _ => (true, false)
  | .valueNotExist, v => (v.isNone, false)
  | .valueNotExistOrEmpty, v => (v.isNone || v == some [], false)
  | .valueExist, v => (v.isSome, false)
  | .valueNotEmpty, v => (v.isSome && v != some [], false)
  | .valueMatchAnywhere, some v => (decide (operand <:+: v), false)
  | .valueMatchPrefix, some v => (operand.isPrefixOf v, false)
  | .valueMatchPostfix, some v => (operand.isSuffixOf v, false)
  | .valueBytesLess, some v => bytes ⟨true, false, false⟩ v
  | .valueBytesLessOrEqual, some v => bytes ⟨true, true, false⟩ v
  | .valueBytesEqual, some v => bytes ⟨false, true, false⟩ v
  | .valueBytesGreaterOrEqual, some v => bytes ⟨false, true, true⟩ v
  | .valueBytesGreater, some v => bytes ⟨false, false, true⟩ v
  | .valueIntLess, some v => int ⟨true, false, false⟩ v
  | .valueIntLessOrEqual, some v => int ⟨true, true, false⟩ v
  | .valueIntEqual, some v => int ⟨false, true, false⟩ v
  | .valueIntGreaterOrEqual, some v => int ⟨false, true, true⟩ v
  | .valueIntGreater, some v => int ⟨false, false, true⟩ v
  | _, _ => (false, false)
where
  accept (c : Comparison) : Ordering → Bool
    | .lt => c.onLess
    | .eq => c.onEqual
    | .gt => c.onGreater
  bytes (c : Comparison) (v : Bytes) : Bool × Bool := (accept c (compareBytes v operand), false)
  int (c : Comparison) (v : Bytes) : Bool × Bool :=
    match buf2int64 v, buf2int64 operand with
    | some a, some b => (accept c (compare a b), false)
    | _, _ => (false, true)

def calcExpireOnNonExistent (requested : Int32) : Int32 := if 0 < requested then requested else 0

/-- `calc_expire_on_existing`: zero keeps the current expire timestamp. -/
def calcExpireOnExisting (requested : Int32) (current : UInt32) : Int32 :=
  if requested = 0 then current.toInt32 else if requested < 0 then 0 else requested

/-- `make_check_value`, for a response as well as for an update. -/
structure CheckValue where
  returned : Bool
  exist : Bool
  value : Bytes

def makeCheckValue (returnCheckValue : Bool) (checkValue : Option Bytes) : CheckValue where
  returned := returnCheckValue
  exist := returnCheckValue && checkValue.isSome
  value := if returnCheckValue then checkValue.getD [] else []

/-! ### Single updates -/

def makeIdempotentRequestForIncr (key : Bytes) (value : Int) (expire : Int32) : UpdateRequest where
  key := key
  value := createFromNumeric value
  expireTsSeconds := expire
  type := some .incr

/-- `make_idempotent_request_for_check_and_set`, after `make_check_value`. -/
def makeIdempotentRequestForCheckAndSet (key value : Bytes) (expire : Int32) (cv : CheckValue) :
    UpdateRequest where
  key := key
  value := value
  expireTsSeconds := expire
  type := some .checkAndSet
  checkValueReturned := cv.returned
  checkValueExist := cv.exist
  checkValue := cv.value

def makeIdempotentRequestForCheckAndMutatePut (key value : Bytes) (expire : Int32) :
    UpdateRequest where
  key := key
  value := value
  expireTsSeconds := expire
  type := some .checkAndMutatePut

/-- `make_idempotent_request_for_check_and_mutate_remove`: only the key is set. -/
def makeIdempotentRequestForCheckAndMutateRemove (key : Bytes) : UpdateRequest where
  key := key
  type := some .checkAndMutateRemove

/-- `make_check_value` on the first update, for the response to the client. -/
def addCheckValue (cv : CheckValue) : List UpdateRequest → List UpdateRequest
  | [] => []
  | u :: us =>
    { u with
      checkValueReturned := cv.returned
      checkValueExist := cv.exist
      checkValue := cv.value } :: us

namespace WriteService

variable (svc : WriteService)

/-- `make_basic_response` for `incr`. -/
def basicIncrResponse (decree : Int) : IncrResponse where
  appId := svc.appId
  partitionIndex := svc.partitionIndex
  decree := decree
  server := svc.primaryHostPort

/-- `make_basic_response` for the two checked writes. -/
def basicCheckResponse (decree : Int) : CheckResponse where
  appId := svc.appId
  partitionIndex := svc.partitionIndex
  decree := decree
  server := svc.primaryHostPort

/-- `make_error_response` for `incr`: no decree has been assigned yet. -/
def incrError (err : Status) (newValue : Int) : IncrResponse :=
  { svc.basicIncrResponse (-1) with error := err, newValue := newValue }

/-- `make_error_response` for the two checked writes. -/
def checkError (err : Status) : CheckResponse :=
  { svc.basicCheckResponse (-1) with error := err }

/-! ### `make_idempotent` -/

def makeIdempotentIncr (req : IncrRequest) : Except IncrResponse (List UpdateRequest) :=
  match svc.engine.get req.key with
  | .error s => .error (svc.incrError s 0)
  | .ok g =>
    match g.existing with
    | none =>
      .ok [makeIdempotentRequestForIncr req.key req.increment
        (calcExpireOnNonExistent req.expireTsSeconds)]
    | some v =>
      let expire := calcExpireOnExisting req.expireTsSeconds v.expireTs
      if v.userData = [] then .ok [makeIdempotentRequestForIncr req.key req.increment expire]
      else
        match buf2int64 v.userData with
        | none => .error (svc.incrError .invalidArgument 0)
        | some base =>
          match safeAdd base req.increment with
          | none => .error (svc.incrError .invalidArgument base)
          | some new => .ok [makeIdempotentRequestForIncr req.key new expire]

/-- The condition of a checked write: its check key and the value found there once the
check has passed, or the response that refuses the write. -/
def evaluateCheck (hashKey checkSortKey : Bytes) (checkType : CasCheckType) (operand : Bytes)
    (returnCheckValue : Bool) : Option (Except CheckResponse (Bytes × Option Bytes)) :=
  if checkType.isSupported = false then some (.error (svc.checkError .invalidArgument))
  else
    (generateKey hashKey checkSortKey).map fun checkKey =>
      match svc.engine.get checkKey with
      | .error s => .error (svc.checkError s)
      | .ok g =>
        let checkValue := g.existing.map Value.userData
        match validateCheck checkType operand checkValue with
        | (true, _) => .ok (checkKey, checkValue)
        | (false, invalidArgument) =>
          let cv := makeCheckValue returnCheckValue checkValue
          .error { svc.checkError (if invalidArgument then .invalidArgument else .tryAgain) with
            checkValueReturned := cv.returned
            checkValueExist := cv.exist
            checkValue := cv.value }

/-- The key a `check_and_set` writes once its check at `checkKey` has passed. -/
def setKey (req : CheckAndSetRequest) (checkKey : Bytes) : Option Bytes :=
  if req.setDiffSortKey then generateKey req.hashKey req.setSortKey else some checkKey

def makeIdempotentCheckAndSet (req : CheckAndSetRequest) :
    Option (Except CheckResponse (List UpdateRequest)) := do
  match ← svc.evaluateCheck req.hashKey req.checkSortKey req.checkType req.checkOperand
      req.returnCheckValue with
  | .error resp => return .error resp
  | .ok (checkKey, checkValue) =>
    let key ← setKey req checkKey
    return .ok [makeIdempotentRequestForCheckAndSet key req.setValue req.setExpireTsSeconds
      (makeCheckValue req.returnCheckValue checkValue)]

/-- The update for one element of a mutate list. An unknown operation is fatal here;
`makeIdempotentCheckAndMutate` has refused it before. -/
def makeIdempotentMutate (hashKey : Bytes) (mu : Mutate) : Option UpdateRequest := do
  let setKey ← generateKey hashKey mu.sortKey
  match mu.operation with
  | .put => return makeIdempotentRequestForCheckAndMutatePut setKey mu.value mu.setExpireTsSeconds
  | .delete => return makeIdempotentRequestForCheckAndMutateRemove setKey
  | .unknown _ => none

def makeIdempotentCheckAndMutate (req : CheckAndMutateRequest) :
    Option (Except CheckResponse (List UpdateRequest)) :=
  if req.mutateList = [] then some (.error (svc.checkError .invalidArgument))
  else if req.mutateList.any fun mu => mu.operation ≠ .put ∧ mu.operation ≠ .delete then
    some (.error (svc.checkError .invalidArgument))
  else do
    match ← svc.evaluateCheck req.hashKey req.checkSortKey req.checkType req.checkOperand
        req.returnCheckValue with
    | .error resp => return .error resp
    | .ok (_, checkValue) =>
      let updates ← req.mutateList.mapM (makeIdempotentMutate req.hashKey)
      return .ok (addCheckValue (makeCheckValue req.returnCheckValue checkValue) updates)

/-! ### `put` -/

/-- What applying a committed atomic write amounts to: the batch handed to the
database, and the response as a function of the status the database returns.
A `none` response is a `CHECK` failing after the write. -/
structure Applied (Response : Type) where
  batch : List WriteOp
  respond : Status → Option Response

/-- `write_batch_put_ctx` of the fields of one update. -/
def putUpdate (ctx : WriteContext) (update : UpdateRequest) : Except Status WriteOp :=
  svc.engine.writeBatchPutCtx ctx update.key update.value update.expireTsSeconds.toUInt32

def putIncr (ctx : WriteContext) (updates : List UpdateRequest) :
    Option (Except IncrResponse (Applied IncrResponse)) :=
  match updates with
  | [update] =>
    match svc.putUpdate ctx update with
    | .error s => some (.error { svc.basicIncrResponse ctx.decree with error := s })
    | .ok op =>
      (Engine.write [op] ctx.decree).map fun batch =>
        .ok ⟨batch, fun s =>
          if s = .ok then
            (buf2int64 update.value).map fun new =>
              { svc.basicIncrResponse ctx.decree with newValue := new }
          else some { svc.basicIncrResponse ctx.decree with error := s }⟩
  | _ => none

/-- The response of a checked write, with the check value kept in its first update. -/
def checkResponse (ctx : WriteContext) (update : UpdateRequest) (err : Status) : CheckResponse :=
  { svc.basicCheckResponse ctx.decree with
    error := err
    checkValueReturned := update.checkValueReturned
    checkValueExist := update.checkValueExist
    checkValue := update.checkValue }

def putCheckAndSet (ctx : WriteContext) (updates : List UpdateRequest) :
    Option (Except CheckResponse (Applied CheckResponse)) :=
  match updates with
  | [update] =>
    match svc.putUpdate ctx update with
    | .error s => some (.error (svc.checkResponse ctx update s))
    | .ok op =>
      (Engine.write [op] ctx.decree).map fun batch =>
        .ok ⟨batch, fun s => some (svc.checkResponse ctx update s)⟩
  | _ => none

/-- The operation for one update of a `check_and_mutate`; any other type is fatal. -/
def putMutate (ctx : WriteContext) (update : UpdateRequest) : Option (Except Status WriteOp) :=
  match update.type with
  | some .checkAndMutatePut => some (svc.putUpdate ctx update)
  | some .checkAndMutateRemove => some (.ok (Engine.writeBatchDelete update.key))
  | _ => none

/-- The loop of `put` for `check_and_mutate`. -/
def putMutates (ctx : WriteContext) : List UpdateRequest → Option (Except Status (List WriteOp))
  | [] => some (.ok [])
  | update :: rest => do
    match ← svc.putMutate ctx update with
    | .error s => return .error s
    | .ok op =>
      match ← putMutates ctx rest with
      | .error s => return .error s
      | .ok ops => return .ok (op :: ops)

def putCheckAndMutate (ctx : WriteContext) (updates : List UpdateRequest) :
    Option (Except CheckResponse (Applied CheckResponse)) :=
  match updates with
  | [] => none
  | first :: rest => do
    match ← svc.putMutates ctx (first :: rest) with
    | .error s => return .error (svc.checkResponse ctx first s)
    | .ok ops =>
      let batch ← Engine.write ops ctx.decree
      return .ok ⟨batch, fun s => some (svc.checkResponse ctx first s)⟩

end WriteService

end Pegasus.Server
