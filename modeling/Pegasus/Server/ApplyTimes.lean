/-
A committed log applied at two different times, after `rocksdb_wrapper.cpp` and
`pegasus_write_service_impl.h`.

Every replica applies a mutation when it commits it, and reads its own clock then. Without a default
TTL the clock matters only where a record is read: by `incr`, `check_and_set` and
`check_and_mutate`, and by duplicated puts that verify timetags. A record that has expired for one
replica and not for the other is read differently.

- `Surroundings.ReadsAlike`: no record that a mutation reads expires between the two times;
- `onBatchedWriteRequests_alike`: then the mutation does the same at both times;
- `log_is_independent_of_time`: the main result;
- `expired_counter_starts_again`: an `incr` that one replica applies after the expiration.
-/

import Pegasus.Server.WriteRequests
import Pegasus.Lib.Outcome

namespace Pegasus.Server

open TransitionSystem List Option Pegasus.Outcome Engine

/-- An expire timestamp that lies on the same side of two times. -/
def SameExpiry (now now' expireTs : UInt32) : Prop :=
  checkIfTsExpired now expireTs = checkIfTsExpired now' expireTs

theorem sameExpiry_zero (now now' : UInt32) : SameExpiry now now' 0 := rfl

def AlikeAt (now now' : UInt32) (rs : Records) (key : Bytes) : Prop :=
  ∀ v, rs key = some v → SameExpiry now now' v.expireTs

def ClientWrite.expireTs : ClientWrite → UInt32
  | .put update => update.expireTsSeconds.toUInt32
  | .multiPut update => update.expireTsSeconds.toUInt32
  | .remove _ | .multiRemove _ => 0

/-! ### Engines with different clocks -/

namespace Engine

/-- Engines over the same records and with the same configuration, without a default TTL. -/
structure SameBut (db db' : Engine) : Prop where
  read : db'.read = db.read
  clusterId : db'.clusterId = db.clusterId
  dataVersion : db'.dataVersion = db.dataVersion
  defaultTtl : db.defaultTtl = 0
  defaultTtl' : db'.defaultTtl = 0

def Alike (db db' : Engine) (key : Bytes) : Prop := db'.get key = db.get key

variable {db db' : Engine}

variable (h : SameBut db db')
include h

theorem SameBut.newTimetag (ctx : WriteContext) : db'.newTimetag ctx = db.newTimetag ctx := by
  simp [Engine.newTimetag, h.clusterId]

theorem SameBut.recordOf (ctx : WriteContext) (value : Bytes) (expireSec : UInt32) :
    db'.generateValue value (db'.dbExpireTs expireSec) (db'.newTimetag ctx) =
      db.generateValue value (db.dbExpireTs expireSec) (db.newTimetag ctx) := by
  simp [generateValue, dbExpireTs, h.newTimetag, h.dataVersion, h.defaultTtl, h.defaultTtl']

variable {ctx : WriteContext}

theorem SameBut.isStale {key : Bytes} (hread : ctx.verifyTimetag = true → Alike db db' key) :
    db'.isStale ctx key = db.isStale ctx key := by
  unfold Engine.isStale
  by_cases hverify : ctx.verifyTimetag = true
  · have hget : db'.get key = db.get key := hread hverify
    simp only [h.dataVersion, h.newTimetag, hget]
  · simp [hverify]

theorem SameBut.writeBatchPutCtx {key : Bytes} (hread : ctx.verifyTimetag = true → Alike db db' key)
    (value : Bytes) (expireSec : UInt32) :
    db'.writeBatchPutCtx ctx key value expireSec = db.writeBatchPutCtx ctx key value expireSec := by
  simp only [Engine.writeBatchPutCtx, h.isStale hread, h.recordOf]

variable (decree : Int)
include decree

theorem SameBut.writeBatchPut (key value : Bytes) (expireSec : UInt32) :
    db'.writeBatchPut decree key value expireSec = db.writeBatchPut decree key value expireSec :=
  h.writeBatchPutCtx (fun hverify => by cases hverify) value expireSec

theorem SameBut.emptyPut : db'.emptyPut decree = db.emptyPut decree := by
  simp only [Engine.emptyPut, h.writeBatchPut]

omit decree in
theorem SameBut.batchPut {update : UpdateRequest}
    (hread : ctx.verifyTimetag = true → Alike db db' update.key) :
    db'.batchPut ctx update = db.batchPut ctx update := by
  simp only [Engine.batchPut, h.writeBatchPutCtx hread]

omit decree in
theorem SameBut.multiPut {update : MultiPutRequest}
    (hread : ctx.verifyTimetag = true → ∀ kv ∈ update.kvs,
      Alike db db' (compositeRawKey update.hashKey kv.key)) :
    db'.multiPut ctx update = db.multiPut ctx update := by
  unfold Engine.multiPut
  have hops : (update.kvs.mapM fun kv => db'.writeBatchPutCtx ctx
      (compositeRawKey update.hashKey kv.key) kv.value update.expireTsSeconds.toUInt32) =
      update.kvs.mapM fun kv => db.writeBatchPutCtx ctx
        (compositeRawKey update.hashKey kv.key) kv.value update.expireTsSeconds.toUInt32 := by
    generalize hkvs : update.kvs = kvs at hread
    clear hkvs
    induction kvs with
    | nil => rfl
    | cons kv kvs ih =>
      have hfirst := fun hverify => hread hverify kv mem_cons_self
      have hrest := ih fun hverify x hx => hread hverify x (mem_cons_of_mem _ hx)
      rw [mapM_cons, mapM_cons, h.writeBatchPutCtx hfirst, hrest]
  rw [hops, h.emptyPut]

theorem SameBut.multiRemove (update : MultiRemoveRequest) :
    db'.multiRemove decree update = db.multiRemove decree update := by
  simp only [Engine.multiRemove, h.emptyPut]

theorem SameBut.mutates (hashKey : Bytes) (mutateList : List Mutate) :
    db'.mutates decree hashKey mutateList = db.mutates decree hashKey mutateList := by
  induction mutateList with
  | nil => rfl
  | cons m rest ih => simp only [Engine.mutates, h.writeBatchPut, ih]

variable (svc : WriteService)

theorem SameBut.incr {update : IncrRequest} (hread : Alike db db' update.key) :
    { svc with engine := db' }.incr decree update =
      { svc with engine := db }.incr decree update := by
  have hget : db'.get update.key = db.get update.key := hread
  simp only [WriteService.incr, WriteService.incr.putNew, WriteService.incr.refuse, hget,
    h.writeBatchPut, h.emptyPut]
  rfl

theorem SameBut.checked {hashKey checkSortKey : Bytes} (checkType : CasCheckType) (operand : Bytes)
    (returnCheckValue : Bool)
    (hread : ∀ key, generateKey hashKey checkSortKey = some key → Alike db db' key)
    {passed passed' : Bytes → Option (Except Status (List WriteOp))} (hpassed : passed' = passed) :
    { svc with engine := db' }.checked decree hashKey checkSortKey checkType operand
        returnCheckValue passed' =
      { svc with engine := db }.checked decree hashKey checkSortKey checkType operand
        returnCheckValue passed := by
  subst hpassed
  unfold WriteService.checked
  split
  · simp only [WriteService.refuseCheck, h.emptyPut]
    rfl
  · cases hkey : generateKey hashKey checkSortKey with
    | none => rfl
    | some key =>
      have hget : db'.get key = db.get key := hread key hkey
      simp only [bind_some, hget, h.emptyPut]
      rfl

theorem SameBut.checkAndSet {update : CheckAndSetRequest}
    (hread : ∀ key, generateKey update.hashKey update.checkSortKey = some key → Alike db db' key) :
    { svc with engine := db' }.checkAndSet decree update =
      { svc with engine := db }.checkAndSet decree update := by
  unfold WriteService.checkAndSet
  refine h.checked decree svc _ _ _ hread ?_
  simp only [h.writeBatchPut]

theorem SameBut.checkAndMutate {update : CheckAndMutateRequest}
    (hread : ∀ key, generateKey update.hashKey update.checkSortKey = some key → Alike db db' key) :
    { svc with engine := db' }.checkAndMutate decree update =
      { svc with engine := db }.checkAndMutate decree update := by
  have hpassed : (fun _ : Bytes => db'.mutates decree update.hashKey update.mutateList) =
      fun _ => db.mutates decree update.hashKey update.mutateList := by
    simp only [h.mutates]
  have hrefuse : { svc with engine := db' }.refuseCheck decree =
      { svc with engine := db }.refuseCheck decree := by
    simp only [WriteService.refuseCheck, h.emptyPut]
    rfl
  unfold WriteService.checkAndMutate
  rw [hrefuse, h.checked decree svc update.checkType update.checkOperand _ hread hpassed]

omit decree

theorem SameBut.duplicatedWrite {w : ClientWrite}
    (hread : ctx.verifyTimetag = true → ∀ p ∈ w.assigns, Alike db db' p.1) :
    db'.duplicatedWrite ctx w = db.duplicatedWrite ctx w := by
  cases w with
  | put update =>
    exact h.batchPut fun hverify => hread hverify (update.key, some update.value)
      (by simp [ClientWrite.assigns])
  | remove key => rfl
  | multiPut update =>
    exact h.multiPut fun hverify kv hkv => hread hverify _
      (List.mem_map_of_mem (f := fun kv : KeyValue =>
        (compositeRawKey update.hashKey kv.key, some kv.value)) hkv)
  | multiRemove update => exact h.multiRemove ctx.decree update

end Engine

/-! ### What a duplicated write leaves behind -/

section Expire

variable {db : Engine} {now now' : UInt32}

/-- The records that an operation puts are read alike at two times. -/
def PutsAlike (now now' : UInt32) (op : WriteOp) : Prop :=
  ∀ key v, op = .put key v → SameExpiry now now' v.expireTs

variable {batch : List WriteOp} {ctx : WriteContext}

theorem AlikeAt.applyBatch {rs : Records} {key : Bytes} (h : AlikeAt now now' rs key)
    (hbatch : ∀ op ∈ batch, PutsAlike now now' op) :
    AlikeAt now now' (Server.applyBatch batch rs) key := by
  induction batch generalizing rs with
  | nil => exact h
  | cons op batch ih =>
    refine ih ?_ fun op' hop' => hbatch op' (mem_cons_of_mem _ hop')
    intro v hv
    cases op with
    | put k value =>
      simp only [WriteOp.apply] at hv
      split at hv
      · obtain rfl := some.inj hv
        exact hbatch _ mem_cons_self k value rfl
      · exact h v hv
    | delete k =>
      obtain ⟨-, hv⟩ := ite_none_left_eq_some.mp hv
      exact h v hv
    | putLastFlushedDecree decree => exact h v hv

variable {expireSec : UInt32} {decree : Int}

variable (hTtl : db.defaultTtl = 0)
include hTtl

theorem putsAlike_writeBatchPutCtx {key value : Bytes} (hexpire : SameExpiry now now' expireSec) :
    Meets (fun _ => True) (PutsAlike now now') (db.writeBatchPutCtx ctx key value expireSec) := by
  have hsec : db.dbExpireTs expireSec = expireSec := by simp [dbExpireTs, hTtl]
  unfold writeBatchPutCtx
  rw [hsec]
  split
  · trivial
  · rintro k v ⟨⟩
    exact hexpire
  · rintro k v ⟨⟩
    exact hexpire

omit hTtl in
theorem putsAlike_writeFilled {ops : Except Status (List WriteOp)}
    (hops : Meets (fun _ => True) (fun list => ∀ op ∈ list, PutsAlike now now' op) ops)
    (hbatch : writeFilled ops decree = some (.ok batch)) :
    ∀ op ∈ batch, PutsAlike now now' op := by
  cases ops with
  | error s => cases hbatch
  | ok list =>
    simp only [writeFilled, write] at hbatch
    split at hbatch
    · cases hbatch
    · cases hbatch
      refine forall_mem_concat hops ?_
      rintro k v ⟨⟩

theorem putsAlike_put {key value : Bytes} (hexpire : SameExpiry now now' expireSec)
    (hbatch : writeFilled ((db.writeBatchPutCtx ctx key value expireSec).map fun op => [op])
      decree = some (.ok batch)) : ∀ op ∈ batch, PutsAlike now now' op :=
  putsAlike_writeFilled ((putsAlike_writeBatchPutCtx hTtl hexpire).map fun _ hop =>
    forall_mem_singleton.mpr hop) hbatch

theorem putsAlike_emptyPut (hbatch : db.emptyPut decree = some (.ok batch)) :
    ∀ op ∈ batch, PutsAlike now now' op :=
  putsAlike_put hTtl (sameExpiry_zero now now') hbatch

theorem putsAlike_duplicatedWrite {w : ClientWrite} (hexpire : SameExpiry now now' w.expireTs)
    (hbatch : db.duplicatedWrite ctx w = some (.ok batch)) :
    ∀ op ∈ batch, PutsAlike now now' op := by
  cases w with
  | put update => exact putsAlike_put hTtl hexpire hbatch
  | remove key =>
    have hremove : writeFilled (.ok [.delete key]) ctx.decree = some (.ok batch) := hbatch
    refine putsAlike_writeFilled ?_ hremove
    rintro op hop k v rfl
    cases mem_singleton.mp hop
  | multiPut update =>
    simp only [duplicatedWrite, multiPut] at hbatch
    split at hbatch
    · exact putsAlike_emptyPut hTtl hbatch
    · exact putsAlike_writeFilled (.mapM fun kv _ => putsAlike_writeBatchPutCtx hTtl hexpire)
        hbatch
  | multiRemove update =>
    simp only [duplicatedWrite, multiRemove] at hbatch
    split at hbatch
    · exact putsAlike_emptyPut hTtl hbatch
    · refine putsAlike_writeFilled (fun op hop => ?_) hbatch
      obtain ⟨sortKey, -, rfl⟩ := List.mem_map.mp hop
      rintro k v ⟨⟩

end Expire

/-! ### Mutations at two times -/

namespace Surroundings

variable (env : Surroundings) {now now' : UInt32}

def atTime (now : UInt32) : Surroundings := { env with epochNow := now }

/-- The keys that the verified entries of a `duplicate_request` read. -/
def VerifiedKey (entries : List DuplicatedEntry) (key : Bytes) : Prop :=
  ∃ e ∈ entries, e.verifyTimetag = true ∧ ∃ w, parsed e = some w ∧ ∃ p ∈ w.assigns, p.1 = key

/-- **What a request reads is read alike at two times.** For a `duplicate_request`, this goes for
the records that its own entries leave as well. -/
def ReadsAlike (now now' : UInt32) (rs : Records) : WriteRequest → Prop
  | .incr (some update) => AlikeAt now now' rs update.key
  | .checkAndSet (some update) => ∀ key,
      generateKey update.hashKey update.checkSortKey = some key → AlikeAt now now' rs key
  | .checkAndMutate (some update) => ∀ key,
      generateKey update.hashKey update.checkSortKey = some key → AlikeAt now now' rs key
  | .duplicate (some entries) => ∀ key, VerifiedKey entries key →
      AlikeAt now now' rs key ∧
        ∀ e ∈ entries, ∀ w, parsed e = some w → SameExpiry now now' w.expireTs
  | _ => True

variable {env}

variable (hTtl : env.defaultTtl = 0)
include hTtl

theorem sameBut_engine (db : Database) :
    ((env.atTime now).engine db).SameBut ((env.atTime now').engine db) :=
  ⟨rfl, rfl, rfl, hTtl, hTtl⟩

omit hTtl in
theorem alike_of_alikeAt {db : Database} {key : Bytes} (h : AlikeAt now now' db.records key) :
    Engine.Alike ((env.atTime now).engine db) ((env.atTime now').engine db) key := by
  unfold Engine.Alike Engine.get
  simp only [engine, atTime]
  cases env.readError key with
  | some failure => rfl
  | none =>
    cases hrecord : db.records key with
    | none => rfl
    | some v =>
      have hexpired : checkIfTsExpired now v.expireTs = checkIfTsExpired now' v.expireTs :=
        h v hrecord
      simp only [hexpired]

omit hTtl in
theorem alikeAt_submit {s s' : Session} {status : Status} {key : Bytes}
    {batch : Option (Except Status (List WriteOp))} (h : AlikeAt now now' s.db.records key)
    (hbatch : ∀ ops, batch = some (.ok ops) → ∀ op ∈ ops, PutsAlike now now' op)
    (hsubmit : s.submit batch = some (status, s')) : AlikeAt now now' s'.db.records key := by
  cases batch with
  | none => cases hsubmit
  | some batch =>
    cases batch with
    | error err =>
      cases hsubmit
      exact h
    | ok ops =>
      have hwrite : AlikeAt now now' (s.db.commit ops).records key := h.applyBatch (hbatch ops rfl)
      simp only [Session.submit, Session.write, some.injEq] at hsubmit
      split at hsubmit
      · cases hsubmit
        exact hwrite
      · split at hsubmit
        · cases hsubmit
          exact hwrite
        · cases hsubmit
          exact h

variable {s : Session}

theorem duplicate_alike (decree : Int) {K : Bytes → Prop} {entries : List DuplicatedEntry}
    (hkeys : ∀ key, VerifiedKey entries key → K key)
    (hexpire : ∀ key, K key → ∀ e ∈ entries, ∀ w, parsed e = some w →
      SameExpiry now now' w.expireTs) (hK : ∀ key, K key → AlikeAt now now' s.db.records key) :
    (env.atTime now').duplicate decree entries s = (env.atTime now).duplicate decree entries s := by
  induction entries generalizing s with
  | nil => rfl
  | cons e entries ih =>
    have hsame : ((env.atTime now).engine s.db).SameBut ((env.atTime now').engine s.db) :=
      sameBut_engine hTtl s.db
    rw [duplicate, duplicate, hsame.emptyPut]
    change (if (env.atTime now).refuses e then _ else _) = _
    split
    · rfl
    · cases hparsed : parsed e with
      | none => rfl
      | some w =>
        have hread : (Table.duplicateContext decree e).verifyTimetag = true → ∀ p ∈ w.assigns,
            Engine.Alike ((env.atTime now).engine s.db) ((env.atTime now').engine s.db) p.1 :=
          fun hverify p hp => alike_of_alikeAt (hK p.1 (hkeys p.1
            ⟨e, mem_cons_self, hverify, w, hparsed, p, hp, rfl⟩))
        simp only [hsame.duplicatedWrite hread]
        split
        · rfl
        · rename_i status s' hsubmit
          split
          · refine ih ?_ ?_ ?_
            · rintro key ⟨e', he', hverified⟩
              exact hkeys key ⟨e', mem_cons_of_mem _ he', hverified⟩
            · exact fun key hkey e' he' => hexpire key hkey e' (mem_cons_of_mem _ he')
            · intro key hkey
              exact alikeAt_submit (hK key hkey)
                (fun ops hops => putsAlike_duplicatedWrite hTtl
                  (hexpire key hkey e mem_cons_self w hparsed) hops) hsubmit
          · rfl

omit hTtl in
theorem handle_congr {α : Type} {body : Option α}
    {batch batch' : Database → α → Option (Except Status (List WriteOp))}
    (h : ∀ update, body = some update → batch' s.db update = batch s.db update) :
    nonBatchWriteHandler.handle body batch' s = nonBatchWriteHandler.handle body batch s := by
  cases body with
  | none => rfl
  | some update => simp only [nonBatchWriteHandler.handle, h update rfl]

theorem nonBatchWriteHandler_alike (decree : Int) (timestamp : UInt64) {request : WriteRequest}
    (h : ReadsAlike now now' s.db.records request) :
    ((env.atTime now').nonBatchWriteHandler (.create decree timestamp) request).map (· s) =
      ((env.atTime now).nonBatchWriteHandler (.create decree timestamp) request).map (· s) := by
  have hsame : ((env.atTime now).engine s.db).SameBut ((env.atTime now').engine s.db) :=
    sameBut_engine hTtl s.db
  cases request with
  | put body => rfl
  | remove body => rfl
  | multiPut body =>
    exact congrArg some (handle_congr fun _ _ => hsame.multiPut fun hverify => by cases hverify)
  | multiRemove body =>
    exact congrArg some (handle_congr fun update _ => hsame.multiRemove _ update)
  | incr body =>
    refine congrArg some (handle_congr fun update hbody => congrArg (Option.map Performed.batch)
      (hsame.incr _ (env.svc s.db) (alike_of_alikeAt ?_)))
    subst hbody
    exact h
  | checkAndSet body =>
    refine congrArg some (handle_congr fun update hbody => congrArg (Option.map Performed.batch)
      (hsame.checkAndSet _ (env.svc s.db) fun key hkey => alike_of_alikeAt ?_))
    subst hbody
    exact h key hkey
  | checkAndMutate body =>
    refine congrArg some (handle_congr fun update hbody => congrArg (Option.map Performed.batch)
      (hsame.checkAndMutate _ (env.svc s.db) fun key hkey => alike_of_alikeAt ?_))
    subst hbody
    exact h key hkey
  | bulkLoad body => exact congrArg some (handle_congr fun _ _ => hsame.emptyPut _)
  | duplicate body =>
    cases body with
    | none => rfl
    | some entries =>
      exact congrArg some (duplicate_alike hTtl decree (fun key hkey => hkey)
        (fun key hkey => (h key hkey).2) fun key hkey => (h key hkey).1)

theorem onBatchedWrites_alike (decree : Int) (timestamp : UInt64) (requests : List ReceivedRequest)
    (s : Session) :
    (env.atTime now').onBatchedWrites (.create decree timestamp) requests s =
      (env.atTime now).onBatchedWrites (.create decree timestamp) requests s := by
  have hsingle : (env.atTime now').onSingleWrite (.create decree timestamp) s.db =
      (env.atTime now).onSingleWrite (.create decree timestamp) s.db := by
    funext m
    have hput : ∀ update : UpdateRequest,
        ((env.atTime now').svc s.db).putUpdate (.create decree timestamp) update =
          ((env.atTime now).svc s.db).putUpdate (.create decree timestamp) update := fun update =>
      (sameBut_engine hTtl s.db).writeBatchPutCtx (fun hverify => by cases hverify) _ _
    simp only [onSingleWrite, hput]
    rfl
  unfold onBatchedWrites
  rw [hsingle]

/-- **A mutation does the same at two times** if what it reads is read alike. -/
theorem onBatchedWriteRequests_alike {mu : AppliedMutation} (hidem : mu.idemWriter = none)
    (h : ∀ m ∈ mu.requests, ReadsAlike now now' s.db.records m.request) :
    (env.atTime now').onBatchedWriteRequests mu s =
      (env.atTime now).onBatchedWriteRequests mu s := by
  unfold onBatchedWriteRequests
  cases hrequests : mu.requests with
  | nil =>
    have hsame : ((env.atTime now).engine s.db).SameBut ((env.atTime now').engine s.db) :=
      sameBut_engine hTtl s.db
    simp only [hsame.emptyPut]
  | cons m rest =>
    have hm := nonBatchWriteHandler_alike hTtl mu.decree mu.timestamp
      (h m (hrequests ▸ mem_cons_self))
    have hbatched := @onBatchedWrites_alike env now now' hTtl
    simp only [hidem, hbatched]
    cases hhandler : (env.atTime now).nonBatchWriteHandler (.create mu.decree mu.timestamp)
        m.request with
    | none =>
      rw [hhandler, map_none, map_eq_none_iff] at hm
      rw [hm]
    | some handler =>
      rw [hhandler, map_some] at hm
      obtain ⟨handler', hhandler', hs⟩ := map_eq_some_iff.mp hm
      simp only [hhandler', hs]

end Surroundings

/-! ### Two replicas -/

/-- A mutation of the log, and the times at which the first and the second replica apply it. -/
structure LogEntry where
  decree : Int
  timestamp : UInt64 := 0
  requests : List ReceivedRequest
  now : UInt32
  now' : UInt32

def LogEntry.mutation (e : LogEntry) : AppliedMutation where
  decree := e.decree
  timestamp := e.timestamp
  requests := e.requests

namespace Surroundings

variable (env : Surroundings)

/-- Both replicas apply a mutation, each at its own time; no write fails. -/
def applyTwice (dbs : Database × Database) (e : LogEntry) : Option (Database × Database) := do
  let (_, s) ← (env.atTime e.now).onBatchedWriteRequests e.mutation ⟨dbs.1, []⟩
  let (_, s') ← (env.atTime e.now').onBatchedWriteRequests e.mutation ⟨dbs.2, []⟩
  some (s.db, s'.db)

/-- No record that the mutation reads expires between the two times. -/
def Timely (dbs : Database × Database) (e : LogEntry) : Prop :=
  ∀ m ∈ e.requests, ReadsAlike e.now e.now' dbs.1.records m.request

variable {env}

theorem applyTwice_eq (hTtl : env.defaultTtl = 0) {dbs dbs' : Database × Database} {e : LogEntry}
    (hstep : env.applyTwice dbs e = some dbs') (htimely : Timely dbs e) (h : dbs.2 = dbs.1) :
    dbs'.2 = dbs'.1 := by
  have hsame : (env.atTime e.now').onBatchedWriteRequests e.mutation ⟨dbs.1, []⟩ =
      (env.atTime e.now).onBatchedWriteRequests e.mutation ⟨dbs.1, []⟩ :=
    onBatchedWriteRequests_alike hTtl rfl htimely
  unfold applyTwice at hstep
  rw [h, hsame] at hstep
  cases hfirst : (env.atTime e.now).onBatchedWriteRequests e.mutation ⟨dbs.1, []⟩ with
  | none =>
    rw [hfirst] at hstep
    cases hstep
  | some result =>
    rw [hfirst] at hstep
    cases hstep
    rfl

end Surroundings

/-- What a client can read under a key: the value and the expire timestamp of a record that has not
expired. -/
def Database.unexpired (db : Database) (now : UInt32) (key : Bytes) : Option (Bytes × UInt32) :=
  (db.records key).bind fun v =>
    if checkIfTsExpired now v.expireTs then none else some (v.userData, v.expireTs)

/-- **Applying a committed log is independent of when it is applied.** Two replicas start from the
same database and apply the same mutations at different times. If no record that a mutation reads
expires in between, they have the same records at every later time. -/
theorem log_is_independent_of_time {env : Surroundings} (hTtl : env.defaultTtl = 0)
    {log : List LogEntry} {db d d' : Database}
    (hrun : run env.applyTwice (db, db) log = some (d, d'))
    (htimely : StepsMeet env.applyTwice Surroundings.Timely (db, db) log)
    (later : UInt32) (key : Bytes) : d.unexpired later key = d'.unexpired later key := by
  have hdbs : (d, d').2 = (d, d').1 := run_invariant_of_steps
    (I := fun dbs : Database × Database => dbs.2 = dbs.1)
    (fun _ _ _ hstep htimely h => Surroundings.applyTwice_eq hTtl hstep htimely h) hrun htimely rfl
  rw [show d' = d from hdbs]

def noRecords : Database := ⟨fun _ => none, 0⟩

/-- A put of a counter that expires, and an `incr` of it. -/
def countedLog (now now' : UInt32) : List LogEntry :=
  let counter : UpdateRequest := { key := [0, 0], value := [0x35], expireTsSeconds := 100 }
  let update : IncrRequest := { key := [0, 0], increment := 1, expireTsSeconds := 0 }
  [⟨1, 0, [{ request := .put (some counter) }], 10, 10⟩,
    ⟨2, 0, [{ request := .incr (some update) }], now, now'⟩]

theorem log_is_independent_of_time_counted :
    ∃ d d', run ({} : Surroundings).applyTwice (noRecords, noRecords)
        (countedLog 50 60) = some (d, d') ∧ d.unexpired 70 [0, 0] = d'.unexpired 70 [0, 0] := by
  have htimely : StepsMeet ({} : Surroundings).applyTwice Surroundings.Timely
      (noRecords, noRecords) (countedLog 50 60) := by
    refine stepsMeet_cons ?_ rfl (stepsMeet_cons ?_ rfl trivial)
    · intro m hm
      rw [mem_singleton.mp hm]
      trivial
    · intro m hm
      rw [mem_singleton.mp hm]
      intro v hv
      cases hv
      rfl
  exact ⟨_, _, rfl, log_is_independent_of_time rfl rfl htimely 70 [0, 0]⟩

/-- **A counter that starts again.** The first replica applies the `incr` before the counter
expires, the second one afterwards: at time 200 only the second one has a record. -/
theorem expired_counter_starts_again :
    ∃ d d', run ({} : Surroundings).applyTwice (noRecords, noRecords)
        (countedLog 50 150) = some (d, d') ∧
      d.unexpired 200 [0, 0] = none ∧ d'.unexpired 200 [0, 0] = some ([0x31], 0) :=
  ⟨_, _, rfl, by decide, by decide⟩

end Pegasus.Server
