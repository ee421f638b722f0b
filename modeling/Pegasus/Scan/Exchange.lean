/-
A client scan and the servers that answer it (`Pegasus.Scan.Exchange`), after
`pegasus_scanner_impl.cpp`, `pegasus_server_impl.cpp` and `pegasus_scan_context.h`.

The scanner goes through partitions one by one. It opens a scan with `get_scanner` and goes on with
`scan` under the context id of the last answer. The server keeps the iterator of an unfinished scan
in a context, which it drops after a while; then it answers `kNotFound`, and the scanner opens the
scan again, after the last key of the answer it holds. Keys are compared only, so they are any
linear order here.

- `scanLoop`, `onGetScanner`, `onScan`: the server;
- `Exchange.turn`, `Exchange.receive`: the scanner;
- `Exchange.step`: both, with calls that fail and contexts that are lost.
-/

import Pegasus.Common
import Pegasus.Lib.Run

namespace Pegasus.Scan

variable {Key Value Partition : Type} [LinearOrder Key]

/-! ### The server -/

/-- `range_iteration_state`, as `validate_key_value_for_scan` returns it. -/
inductive RangeIterationState where
  | normal
  | expired
  | filtered
  | hashInvalid
deriving DecidableEq

structure Query (Key Value Partition : Type) [LinearOrder Key] where
  startKey : Key
  startInclusive : Bool
  stopKey : Key
  stopInclusive : Bool
  batchSize : Int
  onlyReturnCount : Bool
  /-- `validate_key_value_for_scan` of a partition, under the filters of the scan. -/
  validate : Partition → Key × Value → RangeIterationState
  /-- The least key under the prefix that the hash key filter asks for, if it does. -/
  prefixStartKey : Option Key
  /-- Whether the iterators seek in total order, for a full scan or a start key without a hash key, or
  there is no prefix extractor. -/
  seeksAnywhere : Bool
  /-- A key that passes the filter is not below its least key. -/
  prefixStartKey_le : ∀ h record, validate h record = .normal →
    ∀ least ∈ prefixStartKey, least ≤ record.1

/-- The data of a partition, in the order of the keys. -/
structure Data (Key Value : Type) [LinearOrder Key] where
  records : List (Key × Value)
  sorted : records.Pairwise fun r r' => r.1 < r'.1

/-- `pegasus_scan_context`: where the iterator stands; the rest is the query. -/
structure ScanContext (Key Value : Type) where
  iterator : List (Key × Value)
  batchSize : Int

/-- `pegasus_context_cache` of the replica that serves a partition. -/
structure ContextCache (Key Value : Type) where
  counter : Nat
  contexts : Nat → Option (ScanContext Key Value) := fun _ => none

namespace ContextCache

def put (cache : ContextCache Key Value) (context : ScanContext Key Value) :
    Nat × ContextCache Key Value :=
  (cache.counter, ⟨cache.counter + 1, Function.update cache.contexts cache.counter (some context)⟩)

def erase (cache : ContextCache Key Value) (handle : Nat) : ContextCache Key Value :=
  { cache with contexts := Function.update cache.contexts handle none }

end ContextCache

/-- `context_id`: a handle, or one of the two ids with a meaning of their own. -/
inductive ContextId where
  | completed
  | notExist
  | valid (handle : Nat)
deriving DecidableEq

/-- `scan_response` without an error. -/
structure ScanResponse (Key Value : Type) where
  kvs : List (Key × Value)
  contextId : ContextId
  kvCount : Option Nat

structure LoopEnd (Key Value : Type) where
  /-- The records that were normal; `count` is their number. -/
  found : List (Key × Value)
  complete : Bool
  iterator : List (Key × Value)

def LoopEnd.after (e : LoopEnd Key Value) (found : List (Key × Value)) : LoopEnd Key Value :=
  { e with found := found ++ e.found }

section Server

variable (q : Query Key Value Partition) (h : Partition) (maxIterationCount : Nat)

def Query.isBehind (record : Key × Value) : Bool :=
  decide (q.stopKey < record.1 ∨ (record.1 = q.stopKey ∧ q.stopInclusive = false))

def Query.pick (record : Key × Value) : List (Key × Value) :=
  if q.validate h record = .normal then [record] else []

/-- The loop of `on_scan`, `count` records found and `iterated` records seen before. -/
def scanLoop (batchCount maxCount : Nat) : (count iterated : Nat) → List (Key × Value) →
    LoopEnd Key Value
  | _, _, [] => ⟨[], false, []⟩
  | count, iterated, record :: rest =>
    if count < batchCount ∧ iterated < maxCount then
      if q.isBehind record then ⟨[], true, record :: rest⟩
      else if record.1 = q.stopKey then ⟨q.pick h record, true, record :: rest⟩
      else
        (scanLoop batchCount maxCount (count + (q.pick h record).length) (iterated + 1) rest).after
          (q.pick h record)
    else ⟨[], false, record :: rest⟩

/-- The loop of `on_get_scanner`: a first record with the key that is to be left out is skipped. -/
def getScannerLoop (batchCount maxCount : Nat) (excluded : Option Key)
    (iterator : List (Key × Value)) : LoopEnd Key Value :=
  match iterator with
  | [] => ⟨[], false, []⟩
  | record :: rest =>
    if 0 < batchCount ∧ 0 < maxCount ∧ q.isBehind record = false ∧ excluded = some record.1 then
      scanLoop q h batchCount maxCount 0 0 rest
    else scanLoop q h batchCount maxCount 0 0 (record :: rest)

def batchCount (batchSize : Int) : Nat :=
  if 0 < batchSize ∧ batchSize < maxIterationCount then batchSize.toNat else maxIterationCount

structure Served (Key Value : Type) where
  /-- Nothing stands for `kNotFound`. -/
  response : Option (ScanResponse Key Value)
  cache : ContextCache Key Value
  /-- The records found, also when only their number is returned. -/
  found : List (Key × Value)

/-- The end of both handlers: an unfinished iterator goes into a context. -/
def finish (cache : ContextCache Key Value) (batchSize : Int) (e : LoopEnd Key Value) :
    Served Key Value :=
  let kvs := if q.onlyReturnCount then [] else e.found
  let kvCount := if q.onlyReturnCount then some e.found.length else none
  if e.iterator ≠ [] ∧ e.complete = false then
    let put := cache.put ⟨e.iterator, batchSize⟩
    ⟨some ⟨kvs, .valid put.1, kvCount⟩, put.2, e.found⟩
  else ⟨some ⟨kvs, .completed, kvCount⟩, cache, e.found⟩

/-- The start of the iterator: the prefix of the hash key filter may lie higher. -/
def Query.seekStart (startKey : Key) (startInclusive : Bool) : Key × Bool :=
  match q.prefixStartKey with
  | some least => if startKey < least then (least, true) else (startKey, startInclusive)
  | none => (startKey, startInclusive)

/-- `on_get_scanner`. It aborts when the filter moves the start of an iterator that is bound to a
hash key. The answer for an empty range leaves the context id at its default. -/
def onGetScanner (data : Data Key Value) (cache : ContextCache Key Value) (startKey : Key)
    (startInclusive : Bool) : Option (Served Key Value) :=
  let start := q.seekStart startKey startInclusive
  if start.1 ≠ startKey ∧ q.seeksAnywhere = false then none
  else if q.stopKey < start.1 ∨
      (start.1 = q.stopKey ∧ (start.2 = false ∨ q.stopInclusive = false)) then
    some ⟨some ⟨[], .valid 0, none⟩, cache, []⟩
  else
    let count := batchCount maxIterationCount q.batchSize
    let iterator := data.records.dropWhile fun record => record.1 < start.1
    some (finish q cache count (getScannerLoop q h count maxIterationCount
      (if start.2 then none else some start.1) iterator))

def onScan (cache : ContextCache Key Value) (handle : Nat) : Served Key Value :=
  match cache.contexts handle with
  | none => ⟨none, cache, []⟩
  | some context =>
    let count := batchCount maxIterationCount context.batchSize
    finish q (cache.erase handle) context.batchSize (scanLoop q h count count 0 0 context.iterator)

end Server

/-! ### The scanner -/

inductive AsyncScanType where
  | normal
  | countOnly
  | countOnlyFinished
deriving DecidableEq

inductive Output (Key Value : Type) where
  | record (kv : Key × Value)
  | count (kvCount : Nat)
  | complete
  | failed

inductive Call (Key : Type) where
  | getScanner (startKey : Key) (startInclusive : Bool)
  | scan (handle : Nat)

/-- The scanner, the caches of the servers, and the call between them. -/
structure Exchange (Key Value Partition : Type) where
  /-- `_splits_hash`, the next partition last. -/
  splits : List Partition
  /-- `_hash`. -/
  hash : Option Partition := none
  kvs : List (Key × Value) := []
  /-- `_p + 1`. -/
  position : Nat := 0
  context : ContextId := .completed
  type : AsyncScanType := .normal
  kvCount : Nat := 0
  call : Option (Call Key) := none
  caches : Partition → ContextCache Key Value
  outputs : List (Output Key Value) := []
  finished : Bool := false
  /-- The records of the partition that the answers so far stand for. -/
  taken : List (Key × Value) := []

/-- What may happen: the scanner goes on, a call is answered, a call fails on its way to the server
or back, a server drops a context. -/
inductive Event (Partition : Type) where
  | turn
  | serve
  | fail (answered : Bool)
  | lose (h : Partition) (handle : Nat)
deriving DecidableEq

structure Servers (Key Value Partition : Type) [LinearOrder Key] where
  data : Partition → Data Key Value
  /-- `rocksdb_max_iteration_count`. -/
  maxIterationCount : Nat

namespace Exchange

variable [DecidableEq Partition] (q : Query Key Value Partition)
  (servers : Servers Key Value Partition)

/-- The request of `_start_scan`. -/
def startScan (s : Exchange Key Value Partition) : Call Key :=
  match s.kvs.getLast? with
  | none => .getScanner q.startKey q.startInclusive
  | some last => .getScanner last.1 false

/-- `_split_reset`, for the partition `h`. -/
def splitReset (s : Exchange Key Value Partition) (h : Partition) : Exchange Key Value Partition :=
  { s with hash := some h, kvs := [], position := 0, context := .notExist, taken := [] }

/-- One turn of the loops of `_async_next_internal`, for a callback that waits. -/
def turn (s : Exchange Key Value Partition) : Exchange Key Value Partition :=
  let position := s.position + 1
  if s.kvs.length ≤ s.position ∧ s.type ≠ .countOnly then
    match s.context with
    | .completed =>
      match s.splits.getLast? with
      | none => { s with outputs := s.outputs ++ [.complete], finished := true }
      | some h => { s.splitReset h with splits := s.splits.dropLast }
    | .notExist => { s with position := position, call := some (s.startScan q) }
    | .valid handle => { s with position := position, call := some (.scan handle) }
  else if q.onlyReturnCount then
    { s with
      position := position
      outputs := s.outputs ++ [.count s.kvCount]
      type := .countOnlyFinished }
  else
    match s.kvs[s.position]? with
    | some kv => { s with position := position, outputs := s.outputs ++ [.record kv] }
    | none => s

def answer (s : Exchange Key Value Partition) (h : Partition) : Call Key → Option (Served Key Value)
  | .getScanner startKey startInclusive =>
    onGetScanner q h servers.maxIterationCount (servers.data h) (s.caches h) startKey startInclusive
  | .scan handle => some (onScan q h servers.maxIterationCount (s.caches h) handle)

def withCache (s : Exchange Key Value Partition) (h : Partition) (cache : ContextCache Key Value) :
    Exchange Key Value Partition :=
  { s with call := none, caches := Function.update s.caches h cache }

/-- `_on_scan_response` without an error. -/
def receive (s : Exchange Key Value Partition) (served : Served Key Value) :
    Exchange Key Value Partition :=
  match served.response with
  | none => { s with context := .notExist }
  | some response =>
    { s with
      kvs := response.kvs
      position := 0
      context := response.contextId
      type := if response.kvCount.isSome then .countOnly else s.type
      kvCount := response.kvCount.getD s.kvCount
      taken := s.taken ++ served.found }

def step (s : Exchange Key Value Partition) :
    Event Partition → Option (Exchange Key Value Partition)
  | .turn => if s.call.isNone ∧ s.finished = false then some (s.turn q) else none
  | .serve => do
    let served ← s.answer q servers (← s.hash) (← s.call)
    return (s.withCache (← s.hash) served.cache).receive served
  | .fail answered => do
    let call ← s.call
    let failed := { s with call := none, outputs := s.outputs ++ [.failed] }
    if answered then
      let served ← s.answer q servers (← s.hash) call
      return failed.withCache (← s.hash) served.cache
    else return failed
  | .lose h handle =>
    some { s with caches := Function.update s.caches h ((s.caches h).erase handle) }

/-- A new scanner, and servers that keep no context. -/
structure Initial (s : Exchange Key Value Partition) : Prop where
  hash : s.hash = none
  kvs : s.kvs = []
  context : s.context = .completed
  type : s.type = .normal
  call : s.call = none
  contexts : ∀ h handle, (s.caches h).contexts handle = none
  outputs : s.outputs = []
  finished : s.finished = false
  taken : s.taken = []

end Exchange

end Pegasus.Scan
