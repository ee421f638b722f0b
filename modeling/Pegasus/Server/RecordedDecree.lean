/-
The decree a call leaves in the database (`Pegasus.Server.RecordedDecree`), after
`rocksdb_wrapper::write` and the handlers that call it.

`rocksdb_wrapper::write` puts the decree of a mutation into the meta column family together with
the batch of the mutation, so a mutation whose handler writes nothing leaves the decree of an
earlier one.

* `submit_records`: a batch that is written records its decree.
* `nonBatchWriteHandler_recorded`, `onBatchedWrites_recorded`, `applyWriter_recorded`: the three
  ways through `on_batched_write_requests`.
* `onBatchedWriteRequests_recorded`: which calls that return `kOk` record their decree.
* `duplicate_eq_table`, `onBatchedWrites_eq_write`: where nothing fails, the calls are those of
  `Table` and of `ServerWrite`.
-/

import Pegasus.Lib.Outcome
import Pegasus.Server.WriteRequests

namespace Pegasus.Server

open List Option Pegasus.Outcome ServerWrite Engine
open Pegasus.Duplication (DuplicateEntry)
open Pegasus.Replica (Message)

/-- A batch of a handler, if it is filled, ends with the decree. -/
def RecordsDecree (decree : Int) : Option (Except Status (List WriteOp)) → Prop
  | none => True
  | some (.error status) => status ≠ .ok
  | some (.ok batch) => ∃ ops, batch = ops ++ [.putLastFlushedDecree decree]

namespace Engine

variable {engine : Engine}

variable {status : Status} {ctx : WriteContext} {expireSec : UInt32} {decree : Int}

variable (honest : engine.Honest)
include honest

theorem Honest.get (key : Bytes) : Meets (· ≠ .ok) (fun _ => True) (engine.get key) := by
  unfold Engine.get
  split
  · trivial
  · trivial
  · exact honest key _ ‹_›

variable {rawKey value hashKey : Bytes}

theorem Honest.isStale (ctx : WriteContext) (rawKey : Bytes) :
    Meets (· ≠ .ok) (fun _ => True) (engine.isStale ctx rawKey) := by
  unfold Engine.isStale
  split
  · have hget := honest.get rawKey
    generalize engine.get rawKey = got at hget ⊢
    cases got with
    | error s => exact hget
    | ok g =>
      dsimp only
      split <;> trivial
  · trivial

theorem Honest.writeBatchPutCtx :
    Meets (· ≠ .ok) (fun _ => True) (engine.writeBatchPutCtx ctx rawKey value expireSec) := by
  unfold Engine.writeBatchPutCtx
  have hstale := honest.isStale ctx rawKey
  split
  · rwa [‹engine.isStale ctx rawKey = _›] at hstale
  · trivial
  · trivial

omit honest in
theorem records_writeFilled {Q : List WriteOp → Prop} {ops : Except Status (List WriteOp)}
    (h : Meets (· ≠ .ok) Q ops) : RecordsDecree decree (writeFilled ops decree) := by
  cases ops with
  | error status => exact h
  | ok ops =>
    unfold writeFilled write
    dsimp only
    split
    · trivial
    · exact ⟨ops, rfl⟩

omit honest in
theorem records_filled (ops : List WriteOp) (decree : Int) :
    RecordsDecree decree (writeFilled (.ok ops) decree) :=
  records_writeFilled (Q := fun _ => True) trivial

theorem records_put :
    RecordsDecree decree (writeFilled
      ((engine.writeBatchPutCtx ctx rawKey value expireSec).map fun op => [op]) decree) :=
  records_writeFilled (honest.writeBatchPutCtx.map (S := fun _ => True) fun _ => id)

omit honest in
theorem records_emptyPut (decree : Int) : RecordsDecree decree (engine.emptyPut decree) :=
  ⟨[.put [] _], rfl⟩

theorem records_multiPut (ctx : WriteContext) (update : MultiPutRequest) :
    RecordsDecree ctx.decree (engine.multiPut ctx update) := by
  unfold multiPut
  split
  · exact records_emptyPut ctx.decree
  · exact records_writeFilled (.mapM fun kv _ => honest.writeBatchPutCtx)

omit honest in
theorem records_multiRemove (decree : Int) (update : MultiRemoveRequest) :
    RecordsDecree decree (engine.multiRemove decree update) := by
  unfold multiRemove
  split
  · exact records_emptyPut decree
  · exact records_filled _ decree

theorem Honest.mutates {list : List Mutate} {ops : Except Status (List WriteOp)}
    (h : engine.mutates decree hashKey list = some ops) :
    Meets (· ≠ .ok) (fun _ => True) ops := by
  induction list generalizing ops with
  | nil =>
    cases h
    trivial
  | cons m rest ih =>
    obtain ⟨key, -, h⟩ := bind_eq_some_iff.mp h
    have hop : Meets (· ≠ .ok) (fun _ => True) (if m.operation = .put then
        engine.writeBatchPut decree key m.value m.setExpireTsSeconds.toUInt32
        else .ok (writeBatchDelete key)) := by
      split
      · exact honest.writeBatchPutCtx
      · trivial
    dsimp only at h
    split at h
    · rename_i hfailed
      cases h
      rwa [hfailed] at hop
    · obtain ⟨ops', hops, rfl⟩ := map_eq_some_iff.mp h
      exact (ih hops).map fun _ => id

theorem records_duplicatedWrite (ctx : WriteContext) (w : ClientWrite) :
    RecordsDecree ctx.decree (engine.duplicatedWrite ctx w) := by
  cases w with
  | put update => exact records_put honest
  | remove key => exact records_filled [.delete key] ctx.decree
  | multiPut update => exact records_multiPut honest ctx update
  | multiRemove update => exact records_multiRemove ctx.decree update

end Engine

namespace WriteService

variable {svc : WriteService} {decree : Int} {R : Type}

theorem records_perform {batch : Option (Except Status (List WriteOp))} {respond : Status → R}
    (h : RecordsDecree decree batch) :
    RecordsDecree decree ((perform batch respond).map Performed.batch) := by
  rwa [map_batch_perform]

variable (honest : svc.engine.Honest)
include honest

theorem records_incr (decree : Int) (update : IncrRequest) :
    RecordsDecree decree ((svc.incr decree update).map Performed.batch) := by
  have hput : ∀ value expire,
      RecordsDecree decree ((incr.putNew svc decree update value expire).map Performed.batch) :=
    fun value expire => records_perform (records_put honest)
  have hget := honest.get update.key
  unfold incr
  generalize svc.engine.get update.key = got at hget ⊢
  cases got with
  | error s => exact hget
  | ok g =>
    dsimp only
    split
    · exact hput _ _
    · split
      · exact hput _ _
      · split
        · exact records_perform (records_emptyPut decree)
        · split
          · exact records_perform (records_emptyPut decree)
          · exact hput _ _

theorem records_checked {hashKey checkSortKey : Bytes} {checkType : CasCheckType} {operand : Bytes}
    {returnCheckValue : Bool}
    {passed : Bytes → Option (Except Status (List WriteOp))} (h : ∀ key ops, passed key = some ops →
      Meets (· ≠ .ok) (fun _ => True) ops) :
    RecordsDecree decree ((svc.checked decree hashKey checkSortKey checkType operand
      returnCheckValue passed).map Performed.batch) := by
  unfold checked
  split
  · exact records_perform (records_emptyPut decree)
  cases generateKey hashKey checkSortKey with
  | none => trivial
  | some checkKey =>
    have hget := honest.get checkKey
    simp only [bind_some]
    generalize svc.engine.get checkKey = got at hget ⊢
    cases got with
    | error s => exact hget
    | ok g =>
      dsimp only
      split
      · cases hpassed : passed checkKey with
        | none => trivial
        | some ops => exact records_perform (records_writeFilled (h checkKey ops hpassed))
      · exact records_perform (records_emptyPut decree)

theorem records_checkAndSet (decree : Int) (update : CheckAndSetRequest) :
    RecordsDecree decree ((svc.checkAndSet decree update).map Performed.batch) := by
  refine records_checked honest fun checkKey ops h => ?_
  obtain ⟨key, -, rfl⟩ := map_eq_some_iff.mp h
  exact honest.writeBatchPutCtx.map fun _ => id

theorem records_checkAndMutate (decree : Int) (update : CheckAndMutateRequest) :
    RecordsDecree decree ((svc.checkAndMutate decree update).map Performed.batch) := by
  unfold checkAndMutate
  split
  · exact records_perform (records_emptyPut decree)
  · split
    · exact records_perform (records_emptyPut decree)
    · exact records_checked honest fun _ ops h => honest.mutates h

end WriteService

theorem Surroundings.honest (env : Surroundings) (db : Database) : (env.engine db).Honest := by
  intro key status h
  cases hread : env.readError key with
  | none => simp [Surroundings.engine, hread] at h
  | some failure =>
    simp only [Surroundings.engine, hread] at h
    exact Except.error.inj h ▸ failure.property

theorem Database.commit_decree (db : Database) (ops : List WriteOp) (decree : Int) :
    (db.commit (ops ++ [.putLastFlushedDecree decree])).lastFlushedDecree = decree := by
  simp [Database.commit]

namespace Session

theorem write_ok {s s' : Session} {batch : List WriteOp} (h : s.write batch = (.ok, s')) :
    s'.db = s.db.commit batch := by
  unfold write at h
  split at h
  · exact (Prod.mk.inj h).2 ▸ rfl
  · split at h
    · exact (Prod.mk.inj h).2 ▸ rfl
    · rename_i hne
      exact absurd (Prod.mk.inj h).1 hne

/-- **Submitting the batch of a handler records its decree**, if the status is `kOk`. -/
theorem submit_records {s s' : Session} {decree : Int}
    {batch : Option (Except Status (List WriteOp))} (hbatch : RecordsDecree decree batch)
    (h : s.submit batch = some (.ok, s')) : s'.db.lastFlushedDecree = decree := by
  match batch, hbatch, h with
  | some (.error status), hbatch, h => exact absurd (Prod.mk.inj (some.inj h)).1 hbatch
  | some (.ok batch), hbatch, h =>
    obtain ⟨ops, rfl⟩ := hbatch
    rw [write_ok (some.inj h)]
    exact s.db.commit_decree ops decree

end Session

namespace Surroundings

variable (env : Surroundings)

/-- Whether the call of a request leaves a record: its body parses, and a `duplicate_request` has
a first entry that is refused or parses. -/
def leaves : WriteRequest → Bool
  | .put body => body.isSome
  | .remove body => body.isSome
  | .multiPut body => body.isSome
  | .multiRemove body => body.isSome
  | .incr body => body.isSome
  | .checkAndSet body => body.isSome
  | .checkAndMutate body => body.isSome
  | .bulkLoad body => body.isSome
  | .duplicate none | .duplicate (some []) => false
  | .duplicate (some (e :: _)) => env.refuses e || (parsed e).isSome

def isBatched : WriteRequest → Bool
  | .put _ | .remove _ => true
  | _ => false

/-- Whether applying a mutation leaves a record: it is empty, its one request leaves one, or it is a
batch with an idempotent writer or with a request that parses. -/
def leavesRecord (mu : AppliedMutation) : Bool :=
  match mu.requests with
  | [] => true
  | m :: rest =>
    if isBatched m.request then
      mu.idemWriter.isSome || (m :: rest).any fun m => env.leaves m.request
    else env.leaves m.request

/-- A handler that ends has recorded the decree, if its request leaves a record, and otherwise has
changed nothing. -/
def Recorded (leavesOne : Bool) (decree : Int) (db db' : Database) : Prop :=
  if leavesOne then db'.lastFlushedDecree = decree else db' = db

variable {decree : Int} {s s' : Session} {ending : HandlerEnd} {ctx : WriteContext} {db : Database}
  {status : Status}

theorem duplicate_records (entries : List DuplicatedEntry)
    (h : env.duplicate decree entries s = some (ending, s'))
    (hending : ending = .returned .ok ∨ ending = .threw) :
    (s.db.lastFlushedDecree = decree ∨ env.leaves (.duplicate (some entries)) = true →
        s'.db.lastFlushedDecree = decree) ∧
      (env.leaves (.duplicate (some entries)) = false → s'.db = s.db) := by
  induction entries generalizing s with
  | nil =>
    obtain ⟨-, rfl⟩ := Prod.mk.inj (some.inj h)
    exact ⟨fun hs => hs.resolve_right nofun, fun _ => rfl⟩
  | cons e entries ih =>
    have hleaves : env.leaves (.duplicate (some (e :: entries))) =
        (env.refuses e || (parsed e).isSome) := rfl
    rw [hleaves]
    unfold duplicate at h
    cases hrefuses : env.refuses e with
    | true =>
      simp only [hrefuses, if_true] at h
      obtain ⟨⟨status, s₁⟩, hsubmit, heq⟩ := map_eq_some_iff.mp h
      obtain ⟨rfl, rfl⟩ := Prod.mk.inj heq
      obtain rfl : status = .ok := by simpa using hending
      exact ⟨fun _ => Session.submit_records (records_emptyPut decree) hsubmit, nofun⟩
    | false =>
      simp only [hrefuses, Bool.false_eq_true, if_false] at h
      cases hparsed : parsed e with
      | none =>
        simp only [hparsed] at h
        obtain ⟨-, rfl⟩ := Prod.mk.inj (some.inj h)
        exact ⟨fun hs => hs.resolve_right nofun, fun _ => rfl⟩
      | some w =>
        simp only [hparsed] at h
        refine ⟨fun _ => ?_, nofun⟩
        cases hsubmit : s.submit
            ((env.engine s.db).duplicatedWrite (Table.duplicateContext decree e) w) with
        | none => simp [hsubmit] at h
        | some out =>
          obtain ⟨status, s₁⟩ := out
          simp only [hsubmit] at h
          have hrecords := records_duplicatedWrite (env.honest s.db)
            (Table.duplicateContext decree e) w
          split at h
          · rename_i hok
            subst hok
            exact (ih h).1 (.inl (Session.submit_records hrecords hsubmit))
          · rename_i hne
            obtain ⟨rfl, -⟩ := Prod.mk.inj (some.inj h)
            rcases hending with hending | hending
            · exact absurd (HandlerEnd.returned.inj hending) hne
            · cases hending

theorem duplicate_recorded (entries : List DuplicatedEntry)
    (h : env.duplicate decree entries s = some (ending, s'))
    (hending : ending = .returned .ok ∨ ending = .threw) :
    Recorded (env.leaves (.duplicate (some entries))) decree s.db s'.db := by
  obtain ⟨hrecords, hsame⟩ := env.duplicate_records entries h hending
  unfold Recorded
  split
  · exact hrecords (.inr ‹_›)
  · exact hsame (Bool.eq_false_iff.mpr ‹_›)

theorem handle_recorded {α : Type} {body : Option α}
    {batch : Database → α → Option (Except Status (List WriteOp))}
    (hbatch : ∀ db update, RecordsDecree decree (batch db update))
    (h : nonBatchWriteHandler.handle body batch s = some (ending, s'))
    (hending : ending = .returned .ok ∨ ending = .threw) :
    Recorded body.isSome decree s.db s'.db := by
  unfold nonBatchWriteHandler.handle at h
  cases body with
  | none =>
    obtain ⟨-, rfl⟩ := Prod.mk.inj (some.inj h)
    rfl
  | some update =>
    obtain ⟨⟨status, s₁⟩, hsubmit, heq⟩ := map_eq_some_iff.mp h
    obtain ⟨rfl, rfl⟩ := Prod.mk.inj heq
    obtain rfl : status = .ok := by simpa using hending
    exact Session.submit_records (hbatch s.db update) hsubmit

variable {request : WriteRequest} {m : ReceivedRequest}

/-- **What the handler of a request records** when it returns `kOk` or throws. -/
theorem nonBatchWriteHandler_recorded {handler : Session → Option (HandlerEnd × Session)}
    (hhandler : env.nonBatchWriteHandler ctx request = some handler)
    (h : handler s = some (ending, s')) (hending : ending = .returned .ok ∨ ending = .threw) :
    Recorded (env.leaves request) ctx.decree s.db s'.db := by
  cases request with
  | put body => cases hhandler
  | remove body => cases hhandler
  | multiPut body =>
    cases hhandler
    exact handle_recorded (fun db => records_multiPut (env.honest db) ctx) h hending
  | multiRemove body =>
    cases hhandler
    exact handle_recorded (fun db => records_multiRemove ctx.decree) h hending
  | incr body =>
    cases hhandler
    exact handle_recorded (fun db => WriteService.records_incr (env.honest db) ctx.decree) h hending
  | checkAndSet body =>
    cases hhandler
    exact handle_recorded (fun db => WriteService.records_checkAndSet (env.honest db) ctx.decree) h
      hending
  | checkAndMutate body =>
    cases hhandler
    exact handle_recorded (fun db => WriteService.records_checkAndMutate (env.honest db) ctx.decree) h
      hending
  | bulkLoad body =>
    cases hhandler
    exact handle_recorded (fun db _ => records_emptyPut ctx.decree) h hending
  | duplicate body =>
    cases body with
    | none =>
      cases hhandler
      obtain ⟨-, rfl⟩ := Prod.mk.inj (some.inj h)
      rfl
    | some entries =>
      cases hhandler
      exact env.duplicate_recorded entries h hending

theorem onSingleWrite_isSome {write : Option (Except Status WriteOp)}
    (h : env.onSingleWrite ctx db m = some write) : write.isSome = env.leaves m.request := by
  unfold onSingleWrite at h
  unfold leaves
  split at h
  · rename_i hm
    rw [← some.inj h, hm]
    rfl
  · rename_i hm
    rw [← some.inj h, hm]
    rfl
  · rename_i update hm
    obtain ⟨-, -, rfl⟩ := map_eq_some_iff.mp h
    rw [hm]
    rfl
  · rename_i key hm
    obtain ⟨-, -, rfl⟩ := map_eq_some_iff.mp h
    rw [hm]
    rfl
  · cases h

theorem mapM_onSingleWrite (requests : List ReceivedRequest)
    {writes : List (Option (Except Status WriteOp))}
    (h : requests.mapM (env.onSingleWrite ctx db) = some writes) :
    (writes.filterMap id = []) ↔ (requests.any fun m => env.leaves m.request) = false := by
  induction requests generalizing writes with
  | nil =>
    cases h
    exact ⟨fun _ => rfl, fun _ => rfl⟩
  | cons m requests ih =>
    rw [mapM_cons] at h
    cases hm : env.onSingleWrite ctx db m with
    | none => simp [hm] at h
    | some write =>
      cases hrest : requests.mapM (env.onSingleWrite ctx db) with
      | none => simp [hm, hrest] at h
      | some rest =>
        simp only [hm, hrest, bind_eq_bind, bind_some, Option.pure_def, some.injEq] at h
        subst h
        have hsome := env.onSingleWrite_isSome hm
        rw [any_cons, ← hsome]
        cases write with
        | none => simpa using ih hrest
        | some op => simp

theorem exists_of_mapM {α β : Type} {f : α → Option β} {xs : List α} {ys : List β}
    (h : xs.mapM f = some ys) {y : β} (hy : y ∈ ys) : ∃ x ∈ xs, f x = some y := by
  induction xs generalizing ys with
  | nil =>
    cases h
    cases hy
  | cons x xs ih =>
    rw [mapM_cons] at h
    obtain ⟨first, hfirst, h⟩ := bind_eq_some_iff.mp h
    obtain ⟨rest, hrest, h⟩ := bind_eq_some_iff.mp h
    cases h
    rcases mem_cons.mp hy with rfl | hy
    · exact ⟨x, mem_cons_self, hfirst⟩
    · obtain ⟨x', hx', heq⟩ := ih hrest hy
      exact ⟨x', mem_cons_of_mem _ hx', heq⟩

theorem putUpdate_meets (db : Database) (ctx : WriteContext) (update : UpdateRequest) :
    Meets (· ≠ .ok) (fun _ => True) ((env.svc db).putUpdate ctx update) :=
  (env.honest db).writeBatchPutCtx

theorem onSingleWrite_ne_ok (h : env.onSingleWrite ctx db m = some (some (.error status))) :
    status ≠ .ok := by
  unfold onSingleWrite at h
  split at h
  · cases h
  · cases h
  · obtain ⟨-, -, hput⟩ := map_eq_some_iff.mp h
    have hfails := env.putUpdate_meets db ctx ‹_›
    rwa [some.inj hput] at hfails
  · obtain ⟨-, -, hput⟩ := map_eq_some_iff.mp h
    cases hput
  · cases h

theorem mem_of_collect_error (writes : List (Except Status WriteOp))
    (h : collect writes = .error status) : .error status ∈ writes := by
  induction writes with
  | nil => cases h
  | cons write writes ih =>
    cases write with
    | error s =>
      rw [show s = status from Except.error.inj h]
      exact mem_cons_self
    | ok op =>
      unfold collect at h
      cases hrest : collect writes with
      | error s =>
        rw [hrest] at h
        rw [show s = status from Except.error.inj h] at hrest
        exact mem_cons_of_mem _ (ih hrest)
      | ok ops =>
        rw [hrest] at h
        cases h

theorem collect_eq_nil (writes : List (Except Status WriteOp)) :
    collect writes = .ok [] ↔ writes = [] := by
  cases writes with
  | nil => exact ⟨fun _ => rfl, fun _ => rfl⟩
  | cons write writes =>
    refine ⟨fun h => ?_, nofun⟩
    cases write with
    | error s => cases h
    | ok op =>
      unfold collect at h
      cases hrest : collect writes with
      | error s =>
        rw [hrest] at h
        cases h
      | ok ops =>
        rw [hrest] at h
        cases h

/-- **A batch records its decree just when one of its requests parses.** -/
theorem onBatchedWrites_recorded {requests : List ReceivedRequest}
    (h : env.onBatchedWrites ctx requests s = some (.ok, s')) :
    Recorded (requests.any fun m => env.leaves m.request) ctx.decree s.db s'.db := by
  unfold onBatchedWrites at h
  obtain ⟨writes, hwrites, h⟩ := bind_eq_some_iff.mp h
  have hparses := env.mapM_onSingleWrite requests hwrites
  unfold Recorded
  cases hcollect : collect (writes.filterMap id) with
  | error status =>
    simp only [hcollect] at h
    have hmem := mem_of_collect_error _ hcollect
    rw [mem_filterMap] at hmem
    obtain ⟨write, hmem, hwrite⟩ := hmem
    rw [id_eq] at hwrite
    subst hwrite
    obtain ⟨m, -, hm⟩ := exists_of_mapM hwrites hmem
    exact absurd (Prod.mk.inj (some.inj h)).1 (env.onSingleWrite_ne_ok hm)
  | ok ops =>
    cases ops with
    | nil =>
      simp only [hcollect] at h
      rw [if_neg (by rw [hparses.mp ((collect_eq_nil _).mp hcollect)]; exact Bool.false_ne_true)]
      obtain ⟨-, rfl⟩ := Prod.mk.inj (some.inj h)
      rfl
    | cons op ops =>
      simp only [hcollect] at h
      rw [if_pos]
      · exact Session.submit_records (records_filled _ ctx.decree) h
      · by_contra hnone
        have hnil := hparses.mpr (Bool.eq_false_iff.mpr hnone)
        rw [(collect_eq_nil _).mpr hnil] at hcollect
        cases hcollect

/-- What a `put` of an idempotent writer prepares records the decree. -/
def AppliedRecords {R : Type} (error : R → Status) (decree : Int) :
    Option (Except R (WriteService.Applied R)) → Prop
  | none => True
  | some (.error resp) => error resp ≠ .ok
  | some (.ok applied) => ∃ ops, applied.batch = ops ++ [.putLastFlushedDecree decree]

theorem applyWriter_apply_records {R : Type} {error : R → Status}
    {prepared : Option (Except R (WriteService.Applied R))}
    (hprepared : AppliedRecords error decree prepared)
    (h : applyWriter.apply s error prepared = some (.ok, s')) :
    s'.db.lastFlushedDecree = decree := by
  match prepared, hprepared, h with
  | some (.error resp), hprepared, h => exact absurd (Prod.mk.inj (some.inj h)).1 hprepared
  | some (.ok applied), ⟨ops, hops⟩, h =>
    obtain ⟨resp, -, heq⟩ := map_eq_some_iff.mp h
    have hwrite : s.write applied.batch = (.ok, s') := heq
    rw [Session.write_ok hwrite, hops]
    exact s.db.commit_decree ops decree

theorem write_eq_some {ops batch : List WriteOp} (h : write ops decree = some batch) :
    batch = ops ++ [.putLastFlushedDecree decree] := by
  obtain ⟨-, h⟩ := ite_none_left_eq_some.mp h
  exact (some.inj h).symm

theorem putOne_records (db : Database) (ctx : WriteContext) (updates : List UpdateRequest) :
    AppliedRecords (fun resp : IncrResponse => resp.error) ctx.decree
      ((env.svc db).putIncr ctx updates) ∧
    AppliedRecords (fun resp : CheckResponse => resp.error) ctx.decree
      ((env.svc db).putCheckAndSet ctx updates) := by
  unfold WriteService.putIncr WriteService.putCheckAndSet
  split
  · rename_i update
    have hput := env.putUpdate_meets db ctx update
    generalize (env.svc db).putUpdate ctx update = put at hput ⊢
    cases put with
    | error status => exact ⟨hput, hput⟩
    | ok op => exact ⟨⟨[op], rfl⟩, [op], rfl⟩
  · exact ⟨trivial, trivial⟩

theorem putMutates_ne_ok (updates : List UpdateRequest)
    (h : (env.svc db).putMutates ctx updates = some (.error status)) :
    status ≠ .ok := by
  induction updates with
  | nil => cases h
  | cons update rest ih =>
    unfold WriteService.putMutates at h
    obtain ⟨first, hfirst, h⟩ := bind_eq_some_iff.mp h
    cases first with
    | error s =>
      cases h
      unfold WriteService.putMutate at hfirst
      split at hfirst
      · have hput := env.putUpdate_meets db ctx update
        rwa [some.inj hfirst] at hput
      · cases hfirst
      · cases hfirst
    | ok op =>
      obtain ⟨ops, hops, h⟩ := bind_eq_some_iff.mp h
      cases ops with
      | error s =>
        cases h
        exact ih hops
      | ok ops => cases h

theorem putCheckAndMutate_records (db : Database) (ctx : WriteContext)
    (updates : List UpdateRequest) :
    AppliedRecords (fun resp : CheckResponse => resp.error) ctx.decree
      ((env.svc db).putCheckAndMutate ctx updates) := by
  unfold WriteService.putCheckAndMutate
  split
  · trivial
  · rename_i first rest
    cases hmutates : (env.svc db).putMutates ctx (first :: rest) with
    | none => trivial
    | some ops =>
      cases ops with
      | error status => exact env.putMutates_ne_ok _ hmutates
      | ok ops =>
        simp only [bind_eq_bind, bind_some]
        cases hwrite : write ops ctx.decree with
        | none => trivial
        | some batch => exact ⟨ops, write_eq_some hwrite⟩

theorem applyWriter_recorded {writer : IdempotentWriter}
    (h : env.applyWriter ctx writer s = some (.ok, s')) :
    s'.db.lastFlushedDecree = ctx.decree := by
  unfold applyWriter at h
  split at h
  · exact applyWriter_apply_records (env.putOne_records s.db ctx writer.updates).1 h
  · exact applyWriter_apply_records (env.putOne_records s.db ctx writer.updates).2 h
  · exact applyWriter_apply_records (env.putCheckAndMutate_records s.db ctx writer.updates) h

theorem nonBatchWriteHandler_eq_none :
    env.nonBatchWriteHandler ctx request = none ↔ isBatched request = true := by
  cases request with
  | duplicate body => cases body <;> simp [nonBatchWriteHandler, isBatched]
  | _ => simp [nonBatchWriteHandler, isBatched]

/-- **What a call of `on_batched_write_requests` that returns `kOk` records.** -/
theorem onBatchedWriteRequests_recorded {mu : AppliedMutation}
    (h : env.onBatchedWriteRequests mu s = some (.ok, s')) :
    Recorded (env.leavesRecord mu) mu.decree s.db s'.db := by
  unfold onBatchedWriteRequests at h
  unfold leavesRecord
  cases hrequests : mu.requests with
  | nil =>
    simp only [hrequests] at h
    exact Session.submit_records (records_emptyPut mu.decree) h
  | cons m rest =>
    simp only [hrequests] at h
    dsimp only
    cases hhandler : env.nonBatchWriteHandler (.create mu.decree mu.timestamp) m.request with
    | some handler =>
      simp only [hhandler] at h
      have hbatched : isBatched m.request = false := by
        rw [Bool.eq_false_iff, ne_eq, ← env.nonBatchWriteHandler_eq_none, hhandler]
        exact nofun
      rw [hbatched]
      split at h
      · cases h
      · obtain ⟨⟨ending, s₁⟩, hending, heq⟩ := map_eq_some_iff.mp h
        cases ending with
        | returned status =>
          obtain ⟨rfl, rfl⟩ := Prod.mk.inj heq
          exact env.nonBatchWriteHandler_recorded hhandler hending (.inl rfl)
        | threw =>
          obtain ⟨-, rfl⟩ := Prod.mk.inj heq
          exact env.nonBatchWriteHandler_recorded hhandler hending (.inr rfl)
    | none =>
      simp only [hhandler] at h
      rw [env.nonBatchWriteHandler_eq_none.mp hhandler]
      cases hwriter : mu.idemWriter with
      | some writer =>
        simp only [hwriter] at h
        exact env.applyWriter_recorded h
      | none =>
        simp only [hwriter] at h
        exact env.onBatchedWrites_recorded h

/-! ### Where nothing fails -/

def table (db : Database) : Table where
  records := db.records
  epochNow := env.epochNow
  clusterId := env.clusterId
  dataVersion := env.dataVersion
  defaultTtl := env.defaultTtl
  isDupClusterIdConfigured := env.isDupClusterIdConfigured

def entry (e : DuplicateEntry LoggedWrite) : DuplicatedEntry :=
  ⟨some e.rawMessage.write, e.taskCode, e.timestamp, e.clusterId, e.verifyTimetag⟩

theorem engine_eq_table (hread : ∀ key, env.readError key = none) (db : Database) :
    env.engine db = (env.table db).engine := by
  simp only [engine, Table.engine, table, hread]

theorem refuses_entry {e : DuplicateEntry LoggedWrite}
    (hcode : e.rawMessage.write.code = e.taskCode) :
    env.refuses (entry e) = true ↔
      env.isDupClusterIdConfigured e.clusterId = false ∨ e.clusterId = env.clusterId.toNat := by
  unfold refuses entry
  rw [← hcode]
  cases e.rawMessage.write <;> simp [ClientWrite.code]

/-- **`Table.duplicate` is what is left of `duplicate`** where no read or write fails and every
entry has the code of its message. A refused entry has its error in the response, and the handler
returns the status of the empty record. -/
theorem duplicate_eq_table (hread : ∀ key, env.readError key = none) (decree : Int)
    {entries : List (DuplicateEntry LoggedWrite)}
    (hcodes : ∀ e ∈ entries, e.rawMessage.write.code = e.taskCode) (db : Database) :
    (env.duplicate decree (entries.map entry) ⟨db, []⟩).map (fun out => env.table out.2.db) =
      (Table.duplicate decree entries (env.table db)).map Prod.snd := by
  induction entries generalizing db with
  | nil => rfl
  | cons e entries ih =>
    have hcode := hcodes e mem_cons_self
    have hrefuse : (((⟨db, []⟩ : Session).submit ((env.table db).engine.emptyPut decree)).map
        fun out => (HandlerEnd.returned out.1, out.2)).map (fun out => env.table out.2.db) =
          ((env.table db).refuse decree).map Prod.snd := rfl
    rw [map_cons, duplicate, Table.duplicate, engine_eq_table env hread]
    by_cases hconfigured : (env.table db).isDupClusterIdConfigured e.clusterId = false
    · rw [if_pos ((env.refuses_entry hcode).mpr (.inl hconfigured)), if_pos hconfigured]
      exact hrefuse
    by_cases hown : e.clusterId = (env.table db).clusterId.toNat
    · rw [if_pos ((env.refuses_entry hcode).mpr (.inr hown)), if_neg hconfigured, if_pos hown]
      exact hrefuse
    have hparsed : parsed (entry e) = some e.rawMessage.write := by simp [parsed, entry, hcode]
    have hhonest := records_duplicatedWrite (env.honest db) (Table.duplicateContext decree e)
      e.rawMessage.write
    rw [if_neg (mt (env.refuses_entry hcode).mp (not_or.mpr ⟨hconfigured, hown⟩)), hparsed,
      if_neg hconfigured, if_neg hown, if_pos hcode, Table.apply,
      show Table.duplicateContext decree (entry e) = Table.duplicateContext decree e from rfl]
    rw [engine_eq_table env hread] at hhonest
    dsimp only
    cases hbatch : (env.table db).engine.duplicatedWrite (Table.duplicateContext decree e)
        e.rawMessage.write with
    | none => rfl
    | some batch =>
      rw [hbatch] at hhonest
      cases batch with
      | error status => simp [Session.submit, Except.map, show status ≠ .ok from hhonest]
      | ok batch => exact ih (fun e he => hcodes e (mem_cons_of_mem _ he)) (db.commit batch)

def serverWrite (db : Database) : ServerWrite := ⟨env.svc db, env.keyHash, env.threadHash⟩

/-- A message that `on_batched_writes` takes. -/
def receive (m : Message Body) : Option ReceivedRequest := do
  match m.code, ← unmarshall m with
  | .put, .update update => return ⟨.put (some update), m.partitionHash, m.threadHash⟩
  | .remove, .key key => return ⟨.remove (some key), m.partitionHash, m.threadHash⟩
  | _, _ => none

theorem onSingleWrite_receive {m : Message Body} {r : ReceivedRequest} (h : receive m = some r) :
    env.onSingleWrite ctx db r = ((env.serverWrite db).onSingleWrite ctx m).map some := by
  obtain ⟨content, hcontent, h⟩ := bind_eq_some_iff.mp h
  unfold ServerWrite.onSingleWrite
  rw [hcontent]
  split at h
  · cases h
    rename_i update hcode
    simp only [hcode, Option.bind_eq_bind, bind_some]
    change ((env.serverWrite db).requestKeyCheck m update.key).map _ = _
    cases (env.serverWrite db).requestKeyCheck m update.key <;> rfl
  · cases h
    rename_i key hcode
    simp only [hcode, Option.bind_eq_bind, bind_some]
    change ((env.serverWrite db).requestKeyCheck m key).map _ = _
    cases (env.serverWrite db).requestKeyCheck m key <;> rfl
  · cases h

variable {ms : List (Message Body)} {requests : List ReceivedRequest}

theorem mapM_receive (h : ms.mapM receive = some requests) :
    requests.mapM (env.onSingleWrite ctx db) =
      (ms.mapM ((env.serverWrite db).onSingleWrite ctx)).map (·.map some) := by
  induction ms generalizing requests with
  | nil =>
    cases h
    rfl
  | cons m ms ih =>
    simp only [mapM_cons, Option.bind_eq_bind, Option.pure_def, bind_eq_some_iff] at h
    obtain ⟨request, hrequest, rest, hrest, h⟩ := h
    cases h
    simp only [mapM_cons, onSingleWrite_receive env hrequest, ih hrest]
    cases (env.serverWrite db).onSingleWrite ctx m with
    | none => rfl
    | some w => cases ms.mapM ((env.serverWrite db).onSingleWrite ctx) <;> rfl

/-- **A batch of `ServerWrite.onBatchedWrites` is what the call writes.** -/
theorem onBatchedWrites_eq_write (hms : ms.mapM receive = some requests) {batch : List WriteOp}
    (h : (env.serverWrite s.db).onBatchedWrites ctx ms = some batch) :
    env.onBatchedWrites ctx requests s = some (s.write batch) := by
  obtain ⟨writes, hwrites, h⟩ := bind_eq_some_iff.mp h
  unfold onBatchedWrites
  rw [mapM_receive env hms, hwrites]
  have hid : (writes.map some).filterMap id = writes := by simp
  simp only [map_some, Option.bind_eq_bind, bind_some, hid]
  cases hcollect : collect writes with
  | error status => simp [hcollect] at h
  | ok ops =>
    simp only [hcollect] at h
    cases ops with
    | nil => simp [Engine.write] at h
    | cons op ops => simp [writeFilled, h, Session.submit]

end Surroundings

end Pegasus.Server
