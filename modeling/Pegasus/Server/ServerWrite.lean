/-
Applying a replicated write (`Pegasus.Server.ServerWrite`), after
`pegasus_server_write.h` and `pegasus_server_write.cpp`.

The primary of a table with `atomic_idempotent` replicates the single updates of
an atomic write as `put` messages. It applies them itself through the idempotent
writer, that is through `put` of the write service, while a secondary or a log
replay decodes the messages and runs `on_batched_writes`. Both sides fill a write
batch, and the replicas stay equal only if the two batches are.

* `idempotentWrites_agree_iff`: the batches are equal exactly when the request was
  encoded as Thrift binary and no mutate of it is a deletion.
* `delete_diverges`: a `check_and_mutate` that deletes a key leaves the key behind,
  with an empty value, on every other replica.
-/

import Pegasus.Server.WriteService
import Pegasus.Replica.Mutation

namespace Pegasus.Server

open Pegasus.Replica Option WriteService UpdateRequest

/-! ### Messages -/

inductive AtomicRequest where
  | incr (req : IncrRequest)
  | checkAndSet (req : CheckAndSetRequest)
  | checkAndMutate (req : CheckAndMutateRequest)
deriving DecidableEq

inductive Content where
  | atomic (req : AtomicRequest)
  | update (req : UpdateRequest)
  | key (key : Bytes)
deriving DecidableEq

/-- The bytes of a message body, known by the protocol that wrote them. -/
structure Body where
  encoding : SerializeFormat
  content : Content
deriving DecidableEq

/-- `unmarshall` of a message: the format in the header selects the protocol, and
bytes written by another protocol do not parse. -/
def unmarshall (m : Message Body) : Option Content :=
  if m.serializeFormat = .invalid ∨ m.serializeFormat ≠ m.body.encoding then none
  else some m.body.content

/-- `from_thrift_request_to_received_message`: the body is always written in binary,
while the format in the header is the one of the original request. -/
def fromThriftRequest (update : UpdateRequest) (request : Message Body) : Message Body where
  code := .put
  threadHash := request.threadHash
  partitionHash := request.partitionHash
  serializeFormat := request.serializeFormat
  body := ⟨.thriftBinary, .update update⟩

/-- `pegasus_server_write` of one replica: the write service, and what
`request_key_check` compares a message with. -/
structure ServerWrite where
  svc : WriteService
  /-- `pegasus_key_hash`. -/
  keyHash : Bytes → UInt64
  threadHash : Int

/-! ### The primary -/

/-- `idempotent_writer`: the original request and its updates. -/
structure IdempotentWriter where
  request : AtomicRequest
  updates : List UpdateRequest
deriving DecidableEq

inductive AtomicResponse where
  | incr (resp : IncrResponse)
  | check (resp : CheckResponse)
deriving DecidableEq

namespace ServerWrite

variable (sw : ServerWrite)

/-- `make_idempotent` of the write service, for each atomic write. -/
def translate : AtomicRequest → Option (Except AtomicResponse (List UpdateRequest))
  | .incr req => some ((sw.svc.makeIdempotentIncr req).mapError .incr)
  | .checkAndSet req => (sw.svc.makeIdempotentCheckAndSet req).map (·.mapError .check)
  | .checkAndMutate req => (sw.svc.makeIdempotentCheckAndMutate req).map (·.mapError .check)

/-- `pegasus_server_write::make_idempotent` of a message that carries an atomic write. -/
def makeIdempotent (request : Message Body) :
    Option (Except AtomicResponse (List (Message Body) × IdempotentWriter)) := do
  match ← unmarshall request with
  | .atomic req =>
    match ← sw.translate req with
    | .error resp => return .error resp
    | .ok updates => return .ok (updates.map (fromThriftRequest · request), ⟨req, updates⟩)
  | _ => none

/-- `idempotent_writer::apply`: the batch that the primary hands to the database. -/
def applyWriter (ctx : WriteContext) (writer : IdempotentWriter) : Option (List WriteOp) :=
  match writer.request with
  | .incr _ => batchOf (sw.svc.putIncr ctx writer.updates)
  | .checkAndSet _ => batchOf (sw.svc.putCheckAndSet ctx writer.updates)
  | .checkAndMutate _ => batchOf (sw.svc.putCheckAndMutate ctx writer.updates)
where
  batchOf {R : Type} : Option (Except R (WriteService.Applied R)) → Option (List WriteOp)
    | some (.ok applied) => some applied.batch
    | _ => none

/-! ### A secondary -/

/-- `request_key_check`: a message that carries a partition hash must be for this
partition and thread. -/
def requestKeyCheck (m : Message Body) (key : Bytes) : Option Unit :=
  if m.partitionHash ≠ 0 ∧ (m.partitionHash ≠ sw.keyHash key ∨ m.threadHash ≠ sw.threadHash) then
    none
  else some ()

/-- One iteration of `on_batched_writes`. Any other code is fatal, and so is a format that the body
does not have; a body that does not parse is a matter of `Surroundings.onSingleWrite`. -/
def onSingleWrite (ctx : WriteContext) (m : Message Body) : Option (Except Status WriteOp) := do
  match m.code, ← unmarshall m with
  | .put, .update update =>
    sw.requestKeyCheck m update.key
    return sw.svc.putUpdate ctx update
  | .remove, .key key =>
    sw.requestKeyCheck m key
    return .ok (Engine.writeBatchDelete key)
  | _, _ => none

/-- The operations of a batch, or its first error. All messages are visited. -/
def collect : List (Except Status WriteOp) → Except Status (List WriteOp)
  | [] => .ok []
  | .error s :: _ => .error s
  | .ok op :: rest => (collect rest).map (op :: ·)

/-- `pegasus_server_write::on_batched_writes`: the batch handed to the database. -/
def onBatchedWrites (ctx : WriteContext) (requests : List (Message Body)) :
    Option (List WriteOp) := do
  match collect (← requests.mapM (sw.onSingleWrite ctx)) with
  | .error _ => none
  | .ok ops => Engine.write ops ctx.decree

end ServerWrite

open ServerWrite

/-! ### One mutation on two replicas -/

/-- The mutation `replica::make_idempotent` builds from the generated messages, once
`init_prepare` has given it a decree and a timestamp. -/
def idempotentMutation (size : Body → Nat) (header : MutationHeader)
    (newRequests : List (Message Body)) (writer : IdempotentWriter) :
    Mutation Body IdempotentWriter :=
  (newRequests.map some).foldl (Mutation.addClientRequest size)
    { header := header, idemWriter := some writer }

/-- The context under which `on_batched_write_requests` applies a mutation. -/
def contextOf (mu : Mutation Body IdempotentWriter) : WriteContext :=
  .create mu.header.decree (UInt64.ofInt mu.header.timestamp)

/-- The primary's writer and a secondary hand the same batch to their databases. -/
def WritesAgree (primary secondary : ServerWrite) (mu : Mutation Body IdempotentWriter) : Prop :=
  ∃ writer batch, mu.idemWriter = some writer ∧
    primary.applyWriter (contextOf mu) writer = some batch ∧
      secondary.onBatchedWrites (contextOf mu) mu.received.batchedRequests = some batch

/-- Two replicas of one table, of one cluster, without a default TTL. Their clocks and
their databases may differ. -/
structure SameTable (a b : ServerWrite) : Prop where
  dataVersion : a.svc.engine.dataVersion = b.svc.engine.dataVersion
  clusterId : a.svc.engine.clusterId = b.svc.engine.clusterId
  defaultTtl_left : a.svc.engine.defaultTtl = 0
  defaultTtl_right : b.svc.engine.defaultTtl = 0

def localPut (db : Engine) (timestamp : UInt64) (update : UpdateRequest) : WriteOp :=
  .put update.key (db.generateValue update.value (db.dbExpireTs update.expireTsSeconds.toUInt32)
    (generateTimetag timestamp db.clusterId false))

theorem putUpdate_create (svc : WriteService) (decree : Int) (timestamp : UInt64)
    (update : UpdateRequest) :
    svc.putUpdate (.create decree timestamp) update = .ok (localPut svc.engine timestamp update) :=
  rfl

theorem localPut_eq {a b : ServerWrite} (h : SameTable a b) (timestamp : UInt64)
    (update : UpdateRequest) :
    localPut a.svc.engine timestamp update = localPut b.svc.engine timestamp update := by
  simp [localPut, Engine.generateValue, Engine.dbExpireTs, h.dataVersion, h.clusterId,
    h.defaultTtl_left, h.defaultTtl_right]

def primaryOp (db : Engine) (timestamp : UInt64) (update : UpdateRequest) : WriteOp :=
  if update.type = some .checkAndMutateRemove then .delete update.key
  else localPut db timestamp update

/-! ### What the translation produces -/

def MutateOperation.updateType : MutateOperation → Option UpdateType
  | .put => some .checkAndMutatePut
  | .delete => some .checkAndMutateRemove
  | .unknown _ => none

theorem makeIdempotentMutate_type {hashKey : Bytes} {mu : Mutate} {update : UpdateRequest}
    (h : makeIdempotentMutate hashKey mu = some update) :
    update.type = mu.operation.updateType ∧ update.type.isSome := by
  unfold makeIdempotentMutate at h
  cases hkey : generateKey hashKey mu.sortKey with
  | none => simp [hkey] at h
  | some key =>
    cases hop : mu.operation with
    | put =>
      simp [hkey, hop] at h
      subst h
      exact ⟨rfl, rfl⟩
    | delete =>
      simp [hkey, hop] at h
      subst h
      exact ⟨rfl, rfl⟩
    | unknown code => simp [hkey, hop] at h

variable {updates : List UpdateRequest} {svc : WriteService} {req : AtomicRequest}

theorem mapM_makeIdempotentMutate_type {hashKey : Bytes} {mutates : List Mutate}
    (h : mutates.mapM (makeIdempotentMutate hashKey) = some updates) :
    updates.map type = mutates.map (·.operation.updateType) ∧
      ∀ u ∈ updates, u.type.isSome := by
  induction mutates generalizing updates with
  | nil =>
    simp at h
    subst h
    simp
  | cons mu rest ih =>
    simp only [List.mapM_cons, bind_eq_bind, bind_eq_some_iff, pure_def, some.injEq] at h
    obtain ⟨update, hupdate, updates', hrest, rfl⟩ := h
    obtain ⟨htypes, hsome⟩ := ih hrest
    obtain ⟨htype, hisSome⟩ := makeIdempotentMutate_type hupdate
    refine ⟨by simp [htypes, htype], ?_⟩
    exact List.forall_mem_cons.mpr ⟨hisSome, hsome⟩

theorem addCheckValue_ne_nil {cv : CheckValue} (h : updates ≠ []) :
    addCheckValue cv updates ≠ [] := by
  cases updates with
  | nil => exact absurd rfl h
  | cons u us => simp [addCheckValue]

theorem addCheckValue_type (cv : CheckValue) (updates : List UpdateRequest) :
    (addCheckValue cv updates).map type = updates.map type := by
  cases updates <;> rfl

def AtomicRequest.deletes : AtomicRequest → Bool
  | .checkAndMutate req => req.mutateList.any (·.operation = .delete)
  | _ => false

/-- What the updates of a request look like: one put for the single-key writes, and
one update for each mutate, of the type of its operation. -/
def UpdatesOf : AtomicRequest → List UpdateRequest → Prop
  | .incr _, updates => ∃ u, updates = [u] ∧ u.type = some .incr
  | .checkAndSet _, updates => ∃ u, updates = [u] ∧ u.type = some .checkAndSet
  | .checkAndMutate req, updates =>
    updates ≠ [] ∧ updates.map UpdateRequest.type = req.mutateList.map (·.operation.updateType) ∧
      ∀ t ∈ updates.map UpdateRequest.type, t.isSome

theorem makeIdempotentIncr_updates {req : IncrRequest}
    (h : svc.makeIdempotentIncr req = .ok updates) :
    UpdatesOf (.incr req) updates := by
  unfold makeIdempotentIncr at h
  -- every successful branch returns one `incr` update
  split at h
  · cases h
  · split at h
    · cases h
      exact ⟨_, rfl, rfl⟩
    · dsimp only at h
      split at h
      · cases h
        exact ⟨_, rfl, rfl⟩
      · split at h
        · cases h
        · split at h
          · cases h
          · cases h
            exact ⟨_, rfl, rfl⟩

theorem makeIdempotentCheckAndSet_updates {req : CheckAndSetRequest}
    (h : svc.makeIdempotentCheckAndSet req = some (.ok updates)) :
    UpdatesOf (.checkAndSet req) updates := by
  simp only [makeIdempotentCheckAndSet, bind_eq_bind, bind_eq_some_iff] at h
  obtain ⟨checked, -, h⟩ := h
  cases checked with
  | error resp => simp at h
  | ok found =>
    simp only [bind_eq_some_iff, pure_def, some.injEq, Except.ok.injEq] at h
    obtain ⟨setKey, -, rfl⟩ := h
    exact ⟨_, rfl, rfl⟩

theorem makeIdempotentCheckAndMutate_updates {req : CheckAndMutateRequest}
    (h : svc.makeIdempotentCheckAndMutate req = some (.ok updates)) :
    UpdatesOf (.checkAndMutate req) updates := by
  unfold makeIdempotentCheckAndMutate at h
  split at h
  · simp at h
  · rename_i hne
    split at h
    · simp at h
    · simp only [bind_eq_bind, bind_eq_some_iff] at h
      obtain ⟨checked, -, h⟩ := h
      cases checked with
      | error resp => simp at h
      | ok found =>
        simp only [bind_eq_some_iff, pure_def, some.injEq, Except.ok.injEq] at h
        obtain ⟨raw, hraw, rfl⟩ := h
        obtain ⟨htypes, hsome⟩ := mapM_makeIdempotentMutate_type hraw
        have hraw_ne : raw ≠ [] := by
          intro hnil
          subst hnil
          exact hne (by simpa using htypes.symm)
        refine ⟨addCheckValue_ne_nil hraw_ne, ?_, ?_⟩
        · rw [addCheckValue_type, htypes]
        · rw [addCheckValue_type]
          intro t ht
          obtain ⟨u, hu, rfl⟩ := List.mem_map.mp ht
          exact hsome u hu

theorem eq_ok_of_mapError {ε ε' α : Type} {f : ε → ε'} {a : α} {res : Except ε α}
    (h : res.mapError f = .ok a) : res = .ok a := by
  cases res with
  | error resp => cases h
  | ok us => exact congrArg _ (Except.ok.inj h)

theorem translate_updates {sw : ServerWrite} (h : sw.translate req = some (.ok updates)) :
    UpdatesOf req updates := by
  cases req with
  | incr req => exact makeIdempotentIncr_updates (eq_ok_of_mapError (some.inj h))
  | checkAndSet req =>
    obtain ⟨res, hres, h⟩ := map_eq_some_iff.mp h
    exact makeIdempotentCheckAndSet_updates (eq_ok_of_mapError h ▸ hres)
  | checkAndMutate req =>
    obtain ⟨res, hres, h⟩ := map_eq_some_iff.mp h
    exact makeIdempotentCheckAndMutate_updates (eq_ok_of_mapError h ▸ hres)

theorem UpdatesOf.ne_nil (h : UpdatesOf req updates) : updates ≠ [] := by
  cases req with
  | incr req | checkAndSet req => obtain ⟨u, rfl, -⟩ := h; simp
  | checkAndMutate req => exact h.1

theorem UpdatesOf.remove_mem_iff (h : UpdatesOf req updates) :
    (∃ u ∈ updates, u.type = some .checkAndMutateRemove) ↔ req.deletes = true := by
  cases req with
  | incr req =>
    obtain ⟨u, rfl, htype⟩ := h
    simp [AtomicRequest.deletes, htype]
  | checkAndSet req =>
    obtain ⟨u, rfl, htype⟩ := h
    simp [AtomicRequest.deletes, htype]
  | checkAndMutate req =>
    obtain ⟨-, htypes, -⟩ := h
    have hmem : (∃ u ∈ updates, u.type = some .checkAndMutateRemove) ↔
        some UpdateType.checkAndMutateRemove ∈ updates.map type := by
      simp [List.mem_map]
    rw [hmem, htypes]
    simp only [List.mem_map, AtomicRequest.deletes, List.any_eq_true, decide_eq_true_eq]
    refine exists_congr fun m => and_congr_right fun _ => ?_
    cases m.operation <;> simp [MutateOperation.updateType]

/-! ### The primary's batch -/

section Batches

variable {sw : ServerWrite} {decree : Int} {timestamp : UInt64}

variable {updates : List UpdateRequest}

theorem putMutates_create
    (h : ∀ t ∈ updates.map type, t = some .checkAndMutatePut ∨ t = some .checkAndMutateRemove) :
    sw.svc.putMutates (.create decree timestamp) updates =
      some (.ok (updates.map (primaryOp sw.svc.engine timestamp))) := by
  induction updates with
  | nil => rfl
  | cons u us ih =>
    have hrest := ih fun t ht => h t (List.mem_cons_of_mem _ ht)
    rcases h u.type (by simp) with htype | htype <;>
      simp [putMutates, putMutate, htype, hrest, primaryOp,
        putUpdate_create, Engine.writeBatchDelete]

theorem mutate_types {req : CheckAndMutateRequest} (h : UpdatesOf (.checkAndMutate req) updates) :
    ∀ t ∈ updates.map type,
      t = some .checkAndMutatePut ∨ t = some .checkAndMutateRemove := by
  obtain ⟨-, htypes, hsome⟩ := h
  intro t ht
  have hisSome := hsome t ht
  rw [htypes] at ht
  obtain ⟨m, -, rfl⟩ := List.mem_map.mp ht
  cases hop : m.operation with
  | put => exact Or.inl rfl
  | delete => exact Or.inr rfl
  | unknown code => simp [hop, MutateOperation.updateType] at hisSome

/-- The primary writes one operation for each update, and removes where an update
says so. -/
theorem applyWriter_eq {req : AtomicRequest} (h : UpdatesOf req updates) :
    sw.applyWriter (.create decree timestamp) ⟨req, updates⟩ =
      some (updates.map (primaryOp sw.svc.engine timestamp) ++ [.putLastFlushedDecree decree]) := by
  cases req with
  | incr req =>
    obtain ⟨u, rfl, htype⟩ := h
    simp [applyWriter, applyWriter.batchOf, putIncr,
      putUpdate_create, Engine.write, primaryOp, htype]
  | checkAndSet req =>
    obtain ⟨u, rfl, htype⟩ := h
    simp [applyWriter, applyWriter.batchOf, putCheckAndSet,
      putUpdate_create, Engine.write, primaryOp, htype]
  | checkAndMutate req =>
    have htypes := mutate_types h
    obtain ⟨hne, -, -⟩ := h
    cases updates with
    | nil => exact absurd rfl hne
    | cons u us =>
      simp [applyWriter, applyWriter.batchOf,
        putCheckAndMutate, putMutates_create htypes, Engine.write]

/-! ### A secondary's batch -/

theorem collect_map_ok (ops : List WriteOp) : collect (ops.map .ok) = .ok ops := by
  induction ops with
  | nil => rfl
  | cons op ops ih => simp [collect, ih, Except.map]

/-- The messages a secondary recreates for the updates of a request. -/
def receivedMessages (format : SerializeFormat) (updates : List UpdateRequest) :
    List (Message Body) :=
  updates.map fun u =>
    { code := .put, serializeFormat := format, body := ⟨.thriftBinary, .update u⟩ }

theorem onSingleWrite_received (format : SerializeFormat) (u : UpdateRequest) :
    sw.onSingleWrite (.create decree timestamp)
        { code := .put, serializeFormat := format, body := ⟨.thriftBinary, .update u⟩ } =
      if format = .thriftBinary then some (.ok (localPut sw.svc.engine timestamp u)) else none := by
  cases format <;>
    simp [onSingleWrite, unmarshall, requestKeyCheck, putUpdate_create]

theorem mapM_onSingleWrite_binary (updates : List UpdateRequest) :
    (receivedMessages .thriftBinary updates).mapM
        (sw.onSingleWrite (.create decree timestamp)) =
      some ((updates.map (localPut sw.svc.engine timestamp)).map .ok) := by
  induction updates with
  | nil => rfl
  | cons u us ih =>
    simp only [receivedMessages] at ih
    simp [receivedMessages, onSingleWrite_received, ih]

theorem onBatchedWrites_binary (hne : updates ≠ []) :
    sw.onBatchedWrites (.create decree timestamp) (receivedMessages .thriftBinary updates) =
      some (updates.map (localPut sw.svc.engine timestamp) ++ [.putLastFlushedDecree decree]) := by
  simp only [onBatchedWrites, mapM_onSingleWrite_binary, bind_eq_bind, bind_some, collect_map_ok]
  simp [Engine.write, hne]

theorem onBatchedWrites_other {format : SerializeFormat} (hformat : format ≠ .thriftBinary)
    (hne : updates ≠ []) :
    sw.onBatchedWrites (.create decree timestamp) (receivedMessages format updates) = none := by
  cases updates with
  | nil => exact absurd rfl hne
  | cons u us => simp [onBatchedWrites, receivedMessages, onSingleWrite_received, hformat]

end Batches

theorem idempotentMutation_received (size : Body → Nat) (header : MutationHeader)
    (request : Message Body) (req : AtomicRequest) (updates : List UpdateRequest) :
    (idempotentMutation size header (updates.map (fromThriftRequest · request))
        ⟨req, updates⟩).received.batchedRequests =
      receivedMessages request.serializeFormat updates := by
  rw [Mutation.received_batchedRequests, idempotentMutation,
    Mutation.foldl_addClientRequest_updates]
  simp only [List.nil_append, List.map_map, receivedMessages]
  induction updates with
  | nil => rfl
  | cons u us ih =>
    simp [Mutation.updateOf, Mutation.createReceivedRequest, fromThriftRequest] at ih ⊢
    exact ih

theorem contextOf_idempotentMutation (size : Body → Nat) (header : MutationHeader)
    (newRequests : List (Message Body)) (writer : IdempotentWriter) :
    contextOf (idempotentMutation size header newRequests writer) =
      .create header.decree (UInt64.ofInt header.timestamp) := by
  rw [contextOf, idempotentMutation, Mutation.foldl_addClientRequest_header]

/-! ### Exactly when the batches agree -/

/-- **Inversion of `make_idempotent`.** The messages and the writer hold the same
updates, and these come from the request of the message. -/
theorem makeIdempotent_eq_ok {sw : ServerWrite} {request : Message Body} {req : AtomicRequest}
    {newRequests : List (Message Body)} {writer : IdempotentWriter}
    (hreq : request.body.content = .atomic req)
    (h : sw.makeIdempotent request = some (.ok (newRequests, writer))) :
    UpdatesOf req writer.updates ∧ writer = ⟨req, writer.updates⟩ ∧
      newRequests = writer.updates.map (fromThriftRequest · request) := by
  simp only [makeIdempotent, bind_eq_bind, bind_eq_some_iff] at h
  obtain ⟨content, hcontent, h⟩ := h
  have hatomic : content = .atomic req := by
    obtain ⟨-, hcontent⟩ := ite_none_left_eq_some.mp hcontent
    exact (some.inj hcontent).symm.trans hreq
  subst hatomic
  simp only [bind_eq_some_iff] at h
  obtain ⟨translated, htranslated, h⟩ := h
  cases translated with
  | error resp => simp at h
  | ok updates =>
    simp only [pure_def, some.injEq, Except.ok.injEq, Prod.mk.injEq] at h
    obtain ⟨rfl, rfl⟩ := h
    exact ⟨translate_updates htranslated, rfl, rfl⟩

/-- The primary's operation is the secondary's put unless the update removes. -/
theorem primaryOp_eq_localPut_iff {a b : ServerWrite} (htable : SameTable a b)
    (timestamp : UInt64) (u : UpdateRequest) :
    primaryOp a.svc.engine timestamp u = localPut b.svc.engine timestamp u ↔
      u.type ≠ some .checkAndMutateRemove := by
  unfold primaryOp
  split
  · rename_i htype
    simp [htype, localPut]
  · rename_i htype
    simp [htype, localPut_eq htable]

/-- **Exactly when an atomic write made idempotent is applied alike everywhere.** The
primary makes the request idempotent in one state of its storage and applies it in
another; the secondary may have any storage and any clock. -/
theorem idempotentWrites_agree_iff {primary : ServerWrite} {request : Message Body}
    {req : AtomicRequest} {newRequests : List (Message Body)} {writer : IdempotentWriter}
    (hreq : request.body.content = .atomic req)
    (hok : primary.makeIdempotent request = some (.ok (newRequests, writer)))
    {applier secondary : ServerWrite} (htable : SameTable applier secondary)
    (size : Body → Nat) (header : MutationHeader) :
    WritesAgree applier secondary (idempotentMutation size header newRequests writer) ↔
      request.serializeFormat = .thriftBinary ∧ req.deletes = false := by
  obtain ⟨hupdates, hwriter, hnew⟩ := makeIdempotent_eq_ok hreq hok
  obtain ⟨request', updates⟩ := writer
  obtain ⟨rfl, -⟩ := IdempotentWriter.mk.inj hwriter
  subst hnew
  have hidem : (idempotentMutation size header (updates.map (fromThriftRequest · request))
      ⟨request', updates⟩).idemWriter = some ⟨request', updates⟩ :=
    Mutation.foldl_addClientRequest_idemWriter _ _ _
  have hprimary : applier.applyWriter (.create header.decree (UInt64.ofInt header.timestamp))
      ⟨request', updates⟩ = some (updates.map (primaryOp applier.svc.engine
        (UInt64.ofInt header.timestamp)) ++ [.putLastFlushedDecree header.decree]) :=
    applyWriter_eq hupdates
  unfold WritesAgree
  rw [contextOf_idempotentMutation, idempotentMutation_received, hidem]
  by_cases hformat : request.serializeFormat = .thriftBinary
  · rw [hformat, onBatchedWrites_binary hupdates.ne_nil]
    -- both batches exist, so they agree exactly when their operations do
    have hops : updates.map (primaryOp applier.svc.engine (UInt64.ofInt header.timestamp)) =
        updates.map (localPut secondary.svc.engine (UInt64.ofInt header.timestamp)) ↔
          request'.deletes = false := by
      rw [List.map_inj_left, ← Bool.not_eq_true, ← hupdates.remove_mem_iff]
      simp only [primaryOp_eq_localPut_iff htable, not_exists, not_and]
    constructor
    · rintro ⟨w, batch, hw, hp, hs⟩
      cases hw
      rw [hprimary] at hp
      have hbatch := (some.inj hp).trans (some.inj hs).symm
      exact ⟨rfl, hops.mp (List.append_cancel_right hbatch)⟩
    · rintro ⟨-, hdeletes⟩
      refine ⟨_, _, rfl, hprimary, ?_⟩
      rw [hops.mpr hdeletes]
  · rw [onBatchedWrites_other hformat hupdates.ne_nil]
    simp [hformat]

def emptyReplica : ServerWrite where
  svc :=
    { engine :=
        { read := fun _ => .ok none
          epochNow := 100
          clusterId := 1
          dataVersion := .v1
          defaultTtl := 0 }
      appId := 1
      partitionIndex := 0
      primaryHostPort := "primary:34801" }
  keyHash := fun _ => 0
  threadHash := 0

/-- An unconditional `check_and_mutate` of the sort key `s` under the hash key `h`. -/
def mutateRequest (operation : MutateOperation) (value : Bytes) : AtomicRequest :=
  .checkAndMutate
    { hashKey := [104]
      checkSortKey := []
      checkType := .noCheck
      checkOperand := []
      mutateList := [⟨operation, [115], value, 0⟩]
      returnCheckValue := false }

def mutateMessage (operation : MutateOperation) (value : Bytes) : Message Body where
  code := .checkAndMutate
  body := ⟨.thriftBinary, .atomic (mutateRequest operation value)⟩

def mutateKey : Bytes := [0, 1, 104, 115]

def mutateUpdate (type : UpdateType) (value : Bytes) : UpdateRequest :=
  { key := mutateKey, value := value, type := some type }

def mutateMutation (operation : MutateOperation) (type : UpdateType) (value : Bytes) :
    Mutation Body IdempotentWriter :=
  idempotentMutation (fun _ => 0) { ballot := 1, decree := 1, timestamp := 7 }
    [fromThriftRequest (mutateUpdate type value) (mutateMessage operation value)]
    ⟨mutateRequest operation value, [mutateUpdate type value]⟩

/-- A `check_and_mutate` that puts is applied alike. -/
theorem idempotentWrites_agree_put :
    emptyReplica.makeIdempotent (mutateMessage .put [118]) =
        some (.ok ([fromThriftRequest (mutateUpdate .checkAndMutatePut [118])
          (mutateMessage .put [118])], ⟨mutateRequest .put [118],
            [mutateUpdate .checkAndMutatePut [118]]⟩)) ∧
      WritesAgree emptyReplica emptyReplica (mutateMutation .put .checkAndMutatePut [118]) := by
  have hcontent : (mutateMessage .put [118]).body.content = .atomic (mutateRequest .put [118]) :=
    rfl
  have hok : emptyReplica.makeIdempotent (mutateMessage .put [118]) =
      some (.ok ([fromThriftRequest (mutateUpdate .checkAndMutatePut [118])
        (mutateMessage .put [118])], ⟨mutateRequest .put [118],
          [mutateUpdate .checkAndMutatePut [118]]⟩)) := by decide
  exact ⟨hok, (idempotentWrites_agree_iff hcontent hok ⟨rfl, rfl, rfl, rfl⟩ _ _).mpr ⟨rfl, rfl⟩⟩

/-- **A deletion is lost on the other replicas.** The primary deletes the key, while a
secondary stores an empty value under it. -/
theorem delete_diverges :
    emptyReplica.makeIdempotent (mutateMessage .delete []) =
        some (.ok ([fromThriftRequest (mutateUpdate .checkAndMutateRemove [])
          (mutateMessage .delete [])], ⟨mutateRequest .delete [],
            [mutateUpdate .checkAndMutateRemove []]⟩)) ∧
      ¬ WritesAgree emptyReplica emptyReplica
        (mutateMutation .delete .checkAndMutateRemove []) ∧
      (emptyReplica.applyWriter (.create 1 7) ⟨mutateRequest .delete [],
        [mutateUpdate .checkAndMutateRemove []]⟩).map (applyBatch · (fun _ => none) mutateKey) =
          some none ∧
      (emptyReplica.onBatchedWrites (.create 1 7)
        (mutateMutation .delete .checkAndMutateRemove []).received.batchedRequests).map
          (applyBatch · (fun _ => none) mutateKey) =
          some (some { expireTs := 0, timetag := some 1794, userData := [] }) := by
  refine ⟨by decide, ?_, by decide, by decide⟩
  rintro ⟨writer, batch, hwriter, hprimary, hsecondary⟩
  cases hwriter
  have hdiffer : emptyReplica.applyWriter (.create 1 7) ⟨mutateRequest .delete [],
      [mutateUpdate .checkAndMutateRemove []]⟩ ≠ emptyReplica.onBatchedWrites (.create 1 7)
        (mutateMutation .delete .checkAndMutateRemove []).received.batchedRequests := by decide
  exact hdiffer (hprimary.trans hsecondary.symm)

end Pegasus.Server
