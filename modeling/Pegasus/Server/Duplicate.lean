/-
Plain writes, and the writes a remote cluster duplicates (`Pegasus.Server.Duplicate`),
after `pegasus_write_service.cpp` and `pegasus_write_service_impl.h`.

`put`, `remove`, `multi_put` and `multi_remove` assign values to raw keys without reading
them. `duplicate` applies the entries of a request one after the other, each as a write
of its own, under the timestamp and the cluster id of the sender.

* `apply_spec`: an unverified write is a blind write: it assigns user data to its keys.
* `duplicate_spec`: a request of a foreign, configured cluster is applied as a whole; any
  other request only updates the empty record.
-/

import Pegasus.Server.WriteService
import Pegasus.Duplication.Duplicator
import Pegasus.Lib.BlindWrites

namespace Pegasus.Server

open List WriteOp
open Pegasus.Duplication (DuplicateEntry Request)

open BlindWrites

/-! ### Requests -/

abbrev HashKey := { hashKey : Bytes // hashKey.length < 65535 }

def compositeRawKey (hashKey : HashKey) (sortKey : Bytes) : Bytes :=
  (generateKey hashKey.1 sortKey).get (by simp [generateKey, hashKey.2])

structure KeyValue where
  key : Bytes
  value : Bytes
deriving DecidableEq

structure MultiPutRequest where
  hashKey : HashKey
  kvs : List KeyValue
  expireTsSeconds : Int32
deriving DecidableEq

structure MultiRemoveRequest where
  hashKey : HashKey
  sortKeys : List Bytes
deriving DecidableEq

inductive ClientWrite where
  | put (update : UpdateRequest)
  | remove (key : Bytes)
  | multiPut (update : MultiPutRequest)
  | multiRemove (update : MultiRemoveRequest)
deriving DecidableEq

def ClientWrite.code : ClientWrite → WriteCode
  | .put _ => .put
  | .remove _ => .remove
  | .multiPut _ => .multiPut
  | .multiRemove _ => .multiRemove

/-- A write together with its place in the log it is read from. The position is not part of
the message: no function below reads it. -/
structure LoggedWrite where
  position : Nat
  write : ClientWrite
deriving DecidableEq

/-- The raw keys a write assigns to, with the user data; `none` removes the key. -/
def ClientWrite.assigns : ClientWrite → List (Bytes × Option Bytes)
  | .put update => [(update.key, some update.value)]
  | .remove key => [(key, none)]
  | .multiPut update =>
    update.kvs.map fun kv => (compositeRawKey update.hashKey kv.key, some kv.value)
  | .multiRemove update =>
    update.sortKeys.map fun sortKey => (compositeRawKey update.hashKey sortKey, none)

def LoggedWrite.blind (w : LoggedWrite) : BlindWrites.Write Bytes (Option Bytes) :=
  ⟨w.position, w.write.assigns⟩

/-! ### Writing -/

namespace Engine

variable (db : Engine)

def writeFilled (ops : Except Status (List WriteOp)) (decree : Int) :
    Option (Except Status (List WriteOp)) :=
  match ops with
  | .error s => some (.error s)
  | .ok ops => (write ops decree).map .ok

/-- `empty_put`: an empty record, to advance the decree of the database. -/
def emptyPut (decree : Int) : Option (Except Status (List WriteOp)) :=
  writeFilled ((db.writeBatchPut decree [] [] 0).map fun op => [op]) decree

/-- `multi_put`. A request without values is answered with an error, but the write of the
empty record succeeds. -/
def multiPut (ctx : WriteContext) (update : MultiPutRequest) :
    Option (Except Status (List WriteOp)) :=
  if update.kvs = [] then db.emptyPut ctx.decree
  else
    writeFilled
      (update.kvs.mapM fun kv =>
        db.writeBatchPutCtx ctx (compositeRawKey update.hashKey kv.key) kv.value
          update.expireTsSeconds.toUInt32)
      ctx.decree

def multiRemove (decree : Int) (update : MultiRemoveRequest) :
    Option (Except Status (List WriteOp)) :=
  if update.sortKeys = [] then db.emptyPut decree
  else
    writeFilled
      (.ok (update.sortKeys.map fun sortKey =>
        writeBatchDelete (compositeRawKey update.hashKey sortKey)))
      decree

/-- `batch_put` of a single request, and `batch_commit`. -/
def batchPut (ctx : WriteContext) (update : UpdateRequest) :
    Option (Except Status (List WriteOp)) :=
  writeFilled
    ((db.writeBatchPutCtx ctx update.key update.value update.expireTsSeconds.toUInt32).map
      fun op => [op])
    ctx.decree

/-- `batch_remove` of a single request, and `batch_commit`. -/
def batchRemove (decree : Int) (key : Bytes) : Option (Except Status (List WriteOp)) :=
  writeFilled (.ok [writeBatchDelete key]) decree

/-- The write of an entry of a `duplicate_request`. -/
def duplicatedWrite (ctx : WriteContext) : ClientWrite → Option (Except Status (List WriteOp))
  | .put update => db.batchPut ctx update
  | .remove key => batchRemove ctx.decree key
  | .multiPut update => db.multiPut ctx update
  | .multiRemove update => db.multiRemove ctx.decree update

end Engine

/-- The storage of one replica, with what its writes read. -/
structure Table where
  records : Records
  epochNow : UInt32 := 0
  /-- `get_current_dup_cluster_id`. -/
  clusterId : UInt8
  dataVersion : DataVersion := .v1
  defaultTtl : UInt32 := 0
  /-- `is_dup_cluster_id_configured`. -/
  isDupClusterIdConfigured : Nat → Bool

namespace Table

/-- The engine of a table. Reading a record does not fail. -/
def engine (t : Table) : Engine where
  read key := .ok (t.records key)
  epochNow := t.epochNow
  clusterId := t.clusterId
  dataVersion := t.dataVersion
  defaultTtl := t.defaultTtl

def value (t : Table) (key : Bytes) : Option Bytes := (t.records key).map (·.userData)

def commit (t : Table) (batch : List WriteOp) : Table :=
  { t with records := applyBatch batch t.records }

def apply (t : Table) (ctx : WriteContext) (w : ClientWrite) : Option (Except Status Table) :=
  (t.engine.duplicatedWrite ctx w).map fun batch => batch.map t.commit

def refuse (t : Table) (decree : Int) : Option (Status × Table) :=
  (t.engine.emptyPut decree).map fun batch =>
    match batch with
    | .ok ops => (.invalidArgument, t.commit ops)
    | .error _ => (.invalidArgument, t)

def duplicateContext {P : Type} (decree : Int) (e : DuplicateEntry P) : WriteContext where
  decree := decree
  remoteTimetag := generateTimetag (UInt64.ofNat e.timestamp) (UInt8.ofNat e.clusterId)
    (e.taskCode == .multiRemove || e.taskCode == .remove)
  verifyTimetag := e.verifyTimetag

/-- `pegasus_write_service::duplicate`: the error of the response, and the table. A request
whose code is none of the four plain writes is refused. -/
def duplicate (decree : Int) : Request LoggedWrite → Table → Option (Status × Table)
  | [], t => some (.ok, t)
  | e :: entries, t =>
    if t.isDupClusterIdConfigured e.clusterId = false then t.refuse decree
    else if e.clusterId = t.clusterId.toNat then t.refuse decree
    else if e.rawMessage.write.code = e.taskCode then
      match t.apply (duplicateContext decree e) e.rawMessage.write with
      | none => none
      | some (.error s) => some (s, t)
      | some (.ok t) => duplicate decree entries t
    else t.refuse decree

end Table

/-! ### The effect on the user data -/

def WriteOp.assigns : WriteOp → List (Bytes × Option Bytes)
  | .put key value => [(key, some value.userData)]
  | .delete key => [(key, none)]
  | .putLastFlushedDecree _ => []

/-- The table `t'` is `t` after the assignments, the empty record apart. -/
structure Wrote (t t' : Table) (assigns : List (Bytes × Option Bytes)) : Prop where
  clusterId : t'.clusterId = t.clusterId
  configured : t'.isDupClusterIdConfigured = t.isDupClusterIdConfigured
  value : ∀ key, key ≠ [] → t'.value key = assigns.foldl BlindWrites.assign t.value key

theorem Wrote.refl (t : Table) : Wrote t t [] := ⟨rfl, rfl, fun _ _ => rfl⟩

theorem Wrote.trans {t t' t'' : Table} {assigns assigns' : List (Bytes × Option Bytes)}
    (h : Wrote t t' assigns) (h' : Wrote t' t'' assigns') : Wrote t t'' (assigns ++ assigns') where
  clusterId := h'.clusterId.trans h.clusterId
  configured := h'.configured.trans h.configured
  value key hkey := by
    rw [h'.value key hkey, foldl_append]
    exact foldl_assign_congr assigns' (h.value key hkey)

variable {t t' : Table} {ctx : WriteContext} {clusterId : Nat} {request : Request LoggedWrite}

theorem Wrote.of_empty {value : Option Bytes} (h : Wrote t t' [([], value)]) : Wrote t t' [] where
  clusterId := h.clusterId
  configured := h.configured
  value key hkey := by
    rw [h.value key hkey]
    exact foldl_assign_of_notMem (by simpa using hkey) _

theorem value_apply (t : Table) (op : WriteOp) :
    ({ t with records := op.apply t.records } : Table).value =
      op.assigns.foldl assign t.value := by
  funext key
  cases op with
  | put k v =>
    by_cases hkey : key = k
    · simp [Table.value, apply, assigns, assign, hkey]
    · simp [Table.value, apply, assigns, assign, hkey]
  | delete k =>
    by_cases hkey : key = k
    · simp [Table.value, apply, assigns, assign, hkey]
    · simp [Table.value, apply, assigns, assign, hkey]
  | putLastFlushedDecree decree => rfl

theorem wrote_commit (t : Table) (batch : List WriteOp) :
    Wrote t (t.commit batch) (batch.flatMap assigns) := by
  refine ⟨rfl, rfl, fun key _ => ?_⟩
  induction batch generalizing t with
  | nil => rfl
  | cons op batch ih =>
    have hrest := ih { t with records := op.apply t.records }
    rw [value_apply] at hrest
    rw [flatMap_cons, foldl_append]
    exact hrest

namespace Engine

theorem writeFilled_ok {ops : List WriteOp} (h : ops ≠ []) (decree : Int) :
    writeFilled (.ok ops) decree = some (.ok (ops ++ [.putLastFlushedDecree decree])) := by
  simp [writeFilled, write, h]

variable (db : Engine) {ctx : WriteContext}

theorem writeBatchPutCtx_unverified (h : ctx.verifyTimetag = false)
    (rawKey value : Bytes) (expireSec : UInt32) :
    ∃ v : Value, v.userData = value ∧
      db.writeBatchPutCtx ctx rawKey value expireSec = .ok (.put rawKey v) :=
  ⟨db.generateValue value (db.dbExpireTs expireSec) (db.newTimetag ctx), rfl,
    by simp [writeBatchPutCtx, isStale, h]⟩

theorem emptyPut_eq (decree : Int) : ∃ v : Value, db.emptyPut decree =
    some (.ok [.put [] v, .putLastFlushedDecree decree]) := ⟨_, rfl⟩

theorem mapM_writeBatchPutCtx (h : ctx.verifyTimetag = false)
    (hashKey : HashKey) (expireSec : UInt32) (kvs : List KeyValue) :
    ∃ ops, (kvs.mapM fun kv => db.writeBatchPutCtx ctx (compositeRawKey hashKey kv.key) kv.value
        expireSec) = .ok ops ∧ ops.length = kvs.length ∧
      ops.flatMap assigns = kvs.map fun kv => (compositeRawKey hashKey kv.key, some kv.value) := by
  induction kvs with
  | nil => exact ⟨[], rfl, rfl, rfl⟩
  | cons kv kvs ih =>
    obtain ⟨ops, hops, hlength, hassigns⟩ := ih
    obtain ⟨v, hv, hput⟩ := db.writeBatchPutCtx_unverified h (compositeRawKey hashKey kv.key)
      kv.value expireSec
    refine ⟨.put (compositeRawKey hashKey kv.key) v :: ops, ?_, ?_, ?_⟩
    · rw [mapM_cons, hput, hops]
      rfl
    · simp [hlength]
    · simp [assigns, hv, hassigns]

end Engine

variable (t : Table)

theorem wrote_of_writeFilled (ops : List WriteOp) (h : ops ≠ []) (decree : Int) :
    ∃ batch, Engine.writeFilled (.ok ops) decree = some (.ok batch) ∧
      Wrote t (t.commit batch) (ops.flatMap assigns) := by
  refine ⟨_, Engine.writeFilled_ok h decree, ?_⟩
  have hflat : (ops ++ [putLastFlushedDecree decree]).flatMap assigns = ops.flatMap assigns := by
    simp [assigns]
  rw [← hflat]
  exact wrote_commit t _

theorem wrote_of_emptyPut (decree : Int) :
    ∃ batch, t.engine.emptyPut decree = some (.ok batch) ∧ Wrote t (t.commit batch) [] := by
  obtain ⟨v, hv⟩ := t.engine.emptyPut_eq decree
  have hwrote : Wrote t (t.commit [.put [] v, .putLastFlushedDecree decree])
      [([], some v.userData)] := wrote_commit t _
  exact ⟨_, hv, hwrote.of_empty⟩

theorem duplicatedWrite_spec (h : ctx.verifyTimetag = false) (w : ClientWrite) :
    ∃ batch, t.engine.duplicatedWrite ctx w = some (.ok batch) ∧
      Wrote t (t.commit batch) w.assigns := by
  cases w with
  | put update =>
    obtain ⟨v, hv, hput⟩ := t.engine.writeBatchPutCtx_unverified h update.key update.value
      update.expireTsSeconds.toUInt32
    obtain ⟨batch, hbatch, hwrote⟩ := wrote_of_writeFilled t [.put update.key v] (by simp)
      ctx.decree
    refine ⟨batch, ?_, ?_⟩
    · rw [Engine.duplicatedWrite, Engine.batchPut, hput]
      exact hbatch
    · simpa [assigns, ClientWrite.assigns, hv] using hwrote
  | remove key => exact wrote_of_writeFilled t [Engine.writeBatchDelete key] (by simp) ctx.decree
  | multiPut update =>
    by_cases hempty : update.kvs = []
    · simpa [Engine.duplicatedWrite, Engine.multiPut, hempty, ClientWrite.assigns] using
        wrote_of_emptyPut t ctx.decree
    · obtain ⟨ops, hops, hlength, hassigns⟩ := t.engine.mapM_writeBatchPutCtx h update.hashKey
        update.expireTsSeconds.toUInt32 update.kvs
      have hne : ops ≠ [] := by
        intro hnil
        rw [hnil] at hlength
        exact hempty (length_eq_zero_iff.mp hlength.symm)
      obtain ⟨batch, hbatch, hwrote⟩ := wrote_of_writeFilled t ops hne ctx.decree
      refine ⟨batch, ?_, ?_⟩
      · rw [Engine.duplicatedWrite, Engine.multiPut, if_neg hempty, hops]
        exact hbatch
      · rw [hassigns] at hwrote
        exact hwrote
  | multiRemove update =>
    by_cases hempty : update.sortKeys = []
    · simpa [Engine.duplicatedWrite, Engine.multiRemove, hempty, ClientWrite.assigns] using
        wrote_of_emptyPut t ctx.decree
    · obtain ⟨batch, hbatch, hwrote⟩ := wrote_of_writeFilled t (update.sortKeys.map
        fun sortKey => Engine.writeBatchDelete (compositeRawKey update.hashKey sortKey))
        (by simpa using hempty) ctx.decree
      refine ⟨batch, ?_, ?_⟩
      · rw [Engine.duplicatedWrite, Engine.multiRemove, if_neg hempty]
        exact hbatch
      · rw [flatMap_map] at hwrote
        rw [ClientWrite.assigns, map_eq_flatMap]
        exact hwrote

theorem apply_spec (h : ctx.verifyTimetag = false) (w : ClientWrite) :
    ∃ t', t.apply ctx w = some (.ok t') ∧ Wrote t t' w.assigns := by
  obtain ⟨batch, hbatch, hwrote⟩ := duplicatedWrite_spec t h w
  exact ⟨t.commit batch, by simp [Table.apply, hbatch, Except.map], hwrote⟩

theorem refuse_spec (decree : Int) :
    ∃ t', t.refuse decree = some (.invalidArgument, t') ∧ Wrote t t' [] := by
  obtain ⟨batch, hbatch, hwrote⟩ := wrote_of_emptyPut t decree
  exact ⟨t.commit batch, by simp [Table.refuse, hbatch], hwrote⟩

variable {t}

/-- An entry as the duplicator of the given cluster builds it. -/
structure FromCluster (clusterId : Nat) (e : DuplicateEntry LoggedWrite) : Prop where
  cluster : e.clusterId = clusterId
  code : e.rawMessage.write.code = e.taskCode
  unverified : e.verifyTimetag = false

def Table.Accepts (t : Table) (clusterId : Nat) : Prop :=
  t.isDupClusterIdConfigured clusterId = true ∧ clusterId ≠ t.clusterId.toNat

theorem Wrote.accepts_iff {assigns : List (Bytes × Option Bytes)} (h : Wrote t t' assigns)
    (clusterId : Nat) : t'.Accepts clusterId ↔ t.Accepts clusterId := by
  simp [Table.Accepts, h.clusterId, h.configured]

def requestAssigns (request : Request LoggedWrite) : List (Bytes × Option Bytes) :=
  request.flatMap fun e => e.rawMessage.write.assigns

theorem duplicate_accepted (haccepts : t.Accepts clusterId)
    (hrequest : ∀ e ∈ request, FromCluster clusterId e) (decree : Int) :
    ∃ t', Table.duplicate decree request t = some (.ok, t') ∧
      Wrote t t' (requestAssigns request) := by
  induction request generalizing t with
  | nil => exact ⟨t, rfl, Wrote.refl t⟩
  | cons e entries ih =>
    have he := hrequest e mem_cons_self
    obtain ⟨t', happly, hwrote⟩ := apply_spec t
      (show (Table.duplicateContext decree e).verifyTimetag = false from he.unverified)
      e.rawMessage.write
    obtain ⟨t'', hrest, hwrote'⟩ := ih ((hwrote.accepts_iff clusterId).mpr haccepts)
      (fun e' he' => hrequest e' (mem_cons_of_mem _ he'))
    refine ⟨t'', ?_, ?_⟩
    · rw [Table.duplicate, he.cluster, if_neg (by simp [haccepts.1]), if_neg haccepts.2,
        if_pos he.code, happly]
      exact hrest
    · simpa [requestAssigns] using hwrote.trans hwrote'

/-- **A request is applied as a whole or refused.** -/
theorem duplicate_spec (hne : request ≠ []) (hrequest : ∀ e ∈ request, FromCluster clusterId e)
    (t : Table) (decree : Int) :
    (∃ t', Table.duplicate decree request t = some (.ok, t') ∧
        Wrote t t' (requestAssigns request)) ∨
      ∃ t', Table.duplicate decree request t = some (.invalidArgument, t') ∧ Wrote t t' [] := by
  by_cases haccepts : t.Accepts clusterId
  · exact Or.inl (duplicate_accepted haccepts hrequest decree)
  · refine Or.inr ?_
    obtain ⟨e, entries, rfl⟩ := exists_cons_of_ne_nil hne
    have he := hrequest e mem_cons_self
    obtain ⟨t', hrefuse, hwrote⟩ := refuse_spec t decree
    refine ⟨t', ?_, hwrote⟩
    rw [Table.duplicate, he.cluster]
    by_cases hconfigured : t.isDupClusterIdConfigured clusterId = false
    · rw [if_pos hconfigured, hrefuse]
    · have hself : clusterId = t.clusterId.toNat := by
        by_contra hother
        exact haccepts ⟨by simpa using hconfigured, hother⟩
      rw [if_neg hconfigured, if_pos hself, hrefuse]

end Pegasus.Server
