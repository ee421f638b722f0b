/-
Atomic writes performed directly, and compared with their idempotent form
(`Pegasus.Server.DirectWrites`), after `pegasus_write_service_impl.h`.

On a table without `atomic_idempotent`, `incr`, `check_and_set` and `check_and_mutate` are
replicated as they are, and every replica evaluates and performs them when it commits them. A write
that is refused leaves an empty record, which advances the decree of the database.

- `SameEffect`: what makes two ways to perform a request the same for a user;
- `direct_agrees_with_idempotent`: the main result.
-/

import Pegasus.Server.WriteRequests

namespace Pegasus.Server

open Option Engine

/-! ### Two ways to perform a request -/

/-- What a request leads to: the batch the database takes and the response to the client. -/
structure Outcome (Response : Type) where
  batch : List WriteOp
  response : Response

def Outcome.map {R S : Type} (f : R → S) (o : Outcome R) : Outcome S := ⟨o.batch, f o.response⟩

/-- The outcome of a direct write whose batch the database takes. -/
def Performed.outcome {R : Type} (p : Performed R) : Outcome R :=
  match p.batch with
  | .ok batch => ⟨batch, p.respond .ok⟩
  | .error s => ⟨[], p.respond s⟩

def putOutcome {R : Type} : Option (Except R (WriteService.Applied R)) → Option (Outcome R)
  | none => none
  | some (.error resp) => some ⟨[], resp⟩
  | some (.ok applied) => (applied.respond .ok).map fun resp => ⟨applied.batch, resp⟩

/-- `make_idempotent`, and `put` for the updates it gives. Without updates nothing is written. -/
def idempotentOutcome {R : Type} (put : List UpdateRequest →
    Option (Except R (WriteService.Applied R))) :
    Except R (List UpdateRequest) → Option (Outcome R)
  | .error resp => some ⟨[], resp⟩
  | .ok updates => putOutcome (put updates)

namespace WriteService

variable (svc : WriteService)

/-- An atomic write on a table without `atomic_idempotent`. -/
def direct (decree : Int) : AtomicRequest → Option (Outcome AtomicResponse)
  | .incr req => (svc.incr decree req).map fun p => p.outcome.map .incr
  | .checkAndSet req => (svc.checkAndSet decree req).map fun p => p.outcome.map .check
  | .checkAndMutate req => (svc.checkAndMutate decree req).map fun p => p.outcome.map .check

/-- An atomic write on a table with `atomic_idempotent`, on the primary. -/
def idempotent (ctx : WriteContext) : AtomicRequest → Option (Outcome AtomicResponse)
  | .incr req =>
    (idempotentOutcome (svc.putIncr ctx) (svc.makeIdempotentIncr req)).map (Outcome.map .incr)
  | .checkAndSet req =>
    ((svc.makeIdempotentCheckAndSet req).bind (idempotentOutcome (svc.putCheckAndSet ctx))).map
      (Outcome.map .check)
  | .checkAndMutate req =>
    ((svc.makeIdempotentCheckAndMutate req).bind
      (idempotentOutcome (svc.putCheckAndMutate ctx))).map (Outcome.map .check)

end WriteService

/-- What a user sees of a record: its value and its expire timestamp. -/
def visible (record : Option Value) : Option (Bytes × UInt32) :=
  record.map fun v => (v.userData, v.expireTs)

def AtomicResponse.error : AtomicResponse → Status
  | .incr resp => resp.error
  | .check resp => resp.error

def AtomicResponse.withoutDecree : AtomicResponse → AtomicResponse
  | .incr resp => .incr { resp with decree := 0 }
  | .check resp => .check { resp with decree := 0 }

/-- **The same effect for a user**: the same records, those under the empty key aside, the same
response, its decree aside if it reports an error, and nothing written in the idempotent way if the
direct way reports an error. -/
structure SameEffect (direct idempotent : Outcome AtomicResponse) : Prop where
  records : ∀ (rs : Records) (key : Bytes), key ≠ [] →
    visible (applyBatch direct.batch rs key) = visible (applyBatch idempotent.batch rs key)
  response : direct.response.withoutDecree = idempotent.response.withoutDecree
  decree : direct.response.error = .ok → direct.response = idempotent.response
  refused : direct.response.error ≠ .ok → idempotent.batch = []

/-! ### The same operations -/

/-- Two operations that differ at most in the timetag. -/
inductive SameOp : WriteOp → WriteOp → Prop where
  | put (key : Bytes) (v w : Value) (huserData : v.userData = w.userData)
      (hexpireTs : v.expireTs = w.expireTs) : SameOp (.put key v) (.put key w)
  | delete (key : Bytes) : SameOp (.delete key) (.delete key)
  | putLastFlushedDecree (decree : Int) :
      SameOp (.putLastFlushedDecree decree) (.putLastFlushedDecree decree)

theorem SameOp.visible_apply {op op' : WriteOp} (h : SameOp op op') {rs rs' : Records}
    (hsame : ∀ key, visible (rs key) = visible (rs' key)) (key : Bytes) :
    visible (op.apply rs key) = visible (op'.apply rs' key) := by
  cases h with
  | put k v w huserData hexpireTs =>
    simp only [WriteOp.apply]
    split_ifs
    · simp [visible, huserData, hexpireTs]
    · exact hsame key
  | delete k =>
    simp only [WriteOp.apply]
    split_ifs
    · rfl
    · exact hsame key
  | putLastFlushedDecree decree => exact hsame key

theorem visible_applyBatch {batch batch' : List WriteOp} (h : List.Forall₂ SameOp batch batch')
    {rs rs' : Records} (hsame : ∀ key, visible (rs key) = visible (rs' key)) (key : Bytes) :
    visible (applyBatch batch rs key) = visible (applyBatch batch' rs' key) := by
  induction h generalizing rs rs' with
  | nil => exact hsame key
  | cons hop _ ih => exact ih fun key => hop.visible_apply hsame key

variable {d i : Outcome AtomicResponse}

theorem SameEffect.performed
    (hbatch : List.Forall₂ SameOp d.batch i.batch) (hresponse : d.response = i.response)
    (hok : d.response.error = .ok) : SameEffect d i where
  records _ key _ := visible_applyBatch hbatch (fun _ => rfl) key
  response := congrArg AtomicResponse.withoutDecree hresponse
  decree _ := hresponse
  refused herror := absurd hok herror

def OnlyMarker (batch : List WriteOp) : Prop :=
  batch = [] ∨ ∃ v decree, batch = [.put [] v, .putLastFlushedDecree decree]

theorem SameEffect.refusal (hmarker : OnlyMarker d.batch)
    (hnothing : i.batch = []) (hresponse : d.response.withoutDecree = i.response.withoutDecree)
    (herror : d.response.error ≠ .ok) : SameEffect d i where
  records rs key hkey := by
    rw [hnothing]
    rcases hmarker with hbatch | ⟨v, decree, hbatch⟩
    · rw [hbatch]
    · rw [hbatch]
      simp [applyBatch, WriteOp.apply, hkey]
  response := hresponse
  decree hok := absurd hok herror
  refused _ := hnothing

/-! ### `incr` -/

theorem invalidArgument_ne_ok : Status.invalidArgument ≠ .ok := by decide

/-- A request as `incr_request` can carry it: the increment is an `i64`. -/
def AtomicRequest.InRange : AtomicRequest → Prop
  | .incr req => int64Min ≤ req.increment ∧ req.increment ≤ int64Max
  | _ => True

theorem Engine.Honest.get_error {db : Engine} (h : db.Honest) {key : Bytes} {s : Status}
    (hget : db.get key = .error s) : s ≠ .ok := by
  unfold Engine.get at hget
  cases hread : db.read key with
  | ok found =>
    rw [hread] at hget
    cases found <;> cases hget
  | error s' =>
    rw [hread] at hget
    cases hget
    exact h key s hread

namespace WriteService

variable {svc : WriteService} {decree : Int} {timestamp : UInt64} {req : IncrRequest}

theorem incr_putNew_agrees {value : Int} (expire : Int32)
    (hmin : int64Min ≤ value) (hmax : value ≤ int64Max) :
    Option.Rel SameEffect
      ((incr.putNew svc decree req value expire).map fun p => p.outcome.map .incr)
      ((idempotentOutcome (svc.putIncr (.create decree timestamp))
        (.ok [makeIdempotentRequestForIncr req.key value expire])).map (Outcome.map .incr)) := by
  have hvalue : buf2int64 (makeIdempotentRequestForIncr req.key value expire).value =
      some value := buf2int64_createFromNumeric hmin hmax
  simp only [idempotentOutcome, putIncr, putUpdate_create, write, List.cons_ne_self,
    if_false, map_some, putOutcome, if_true, hvalue]
  refine .some (.performed ?_ rfl rfl)
  exact .cons (.put _ _ _ rfl rfl) (.cons (.putLastFlushedDecree _) .nil)

theorem incr_refuse_agrees (newValue : Int) :
    Option.Rel SameEffect
      ((incr.refuse svc decree newValue).map fun p => p.outcome.map .incr)
      ((idempotentOutcome (svc.putIncr (.create decree timestamp))
        (.error (svc.incrError .invalidArgument newValue))).map (Outcome.map .incr)) := by
  exact .some (.refusal (.inr ⟨_, _, rfl⟩) rfl rfl invalidArgument_ne_ok)

theorem incr_agrees (hreads : svc.engine.Honest)
    (hreq : (AtomicRequest.incr req).InRange) :
    Option.Rel SameEffect (svc.direct decree (.incr req))
      (svc.idempotent (.create decree timestamp) (.incr req)) := by
  obtain ⟨hmin, hmax⟩ := hreq
  simp only [direct, idempotent]
  unfold incr makeIdempotentIncr
  cases hget : svc.engine.get req.key with
  | error s => exact .some (.refusal (.inl rfl) rfl rfl (hreads.get_error hget))
  | ok g =>
    cases hexisting : g.existing with
    | none =>
      simp only [hexisting]
      exact incr_putNew_agrees _ hmin hmax
    | some v =>
      simp only [hexisting]
      by_cases hempty : v.userData = []
      · simp only [if_pos hempty]
        exact incr_putNew_agrees _ hmin hmax
      · simp only [if_neg hempty]
        cases hold : buf2int64 v.userData with
        | none => exact incr_refuse_agrees 0
        | some old =>
          cases hnew : safeAdd old req.increment with
          | none =>
            simp only [hnew]
            exact incr_refuse_agrees old
          | some new =>
            simp only [hnew]
            obtain ⟨hold_min, hold_max⟩ := buf2int64_inRange hold
            obtain ⟨hnew_min, hnew_max⟩ := safeAdd_inRange hold_min hold_max hnew
            exact incr_putNew_agrees _ hnew_min hnew_max

/-! ### Checked writes -/

/-- The idempotent form of a checked write, from the result of its check on. -/
def afterCheck
    (put : List UpdateRequest → Option (Except CheckResponse (Applied CheckResponse)))
    (updates : Bytes → Option Bytes → Option (List UpdateRequest)) :
    Except CheckResponse (Bytes × Option Bytes) → Option (Outcome CheckResponse)
  | .error resp => some ⟨[], resp⟩
  | .ok (checkKey, checkValue) => (updates checkKey checkValue).bind fun us => putOutcome (put us)

/-- The two ways agree on a checked write if they agree on what follows a passed check. -/
theorem checked_agrees (hreads : svc.engine.Honest) {hashKey checkSortKey : Bytes}
    {checkType : CasCheckType} {operand : Bytes} {returnCheckValue : Bool}
    {passed : Bytes → Option (Except Status (List WriteOp))}
    {put : List UpdateRequest → Option (Except CheckResponse (Applied CheckResponse))}
    {updates : Bytes → Option Bytes → Option (List UpdateRequest)}
    (hpassed : ∀ checkKey checkValue, Option.Rel SameEffect
      (((passed checkKey).bind fun ops => perform (writeFilled ops decree)
        (svc.directCheckResponse decree (makeCheckValue returnCheckValue checkValue))).map
          fun p => p.outcome.map .check)
      ((afterCheck put updates (.ok (checkKey, checkValue))).map (Outcome.map .check))) :
    Option.Rel SameEffect
      ((svc.checked decree hashKey checkSortKey checkType operand returnCheckValue passed).map
        fun p => p.outcome.map .check)
      (((svc.evaluateCheck hashKey checkSortKey checkType operand returnCheckValue).bind
        (afterCheck put updates)).map (Outcome.map .check)) := by
  unfold checked evaluateCheck
  by_cases hsupported : checkType.isSupported = false
  · rw [if_pos hsupported, if_pos hsupported]
    exact .some (.refusal (.inr ⟨_, _, rfl⟩) rfl rfl invalidArgument_ne_ok)
  · rw [if_neg hsupported, if_neg hsupported]
    cases generateKey hashKey checkSortKey with
    | none => exact .none
    | some checkKey =>
      simp only [bind_some, map_some]
      cases hget : svc.engine.get checkKey with
      | error s => exact .some (.refusal (.inl rfl) rfl rfl (hreads.get_error hget))
      | ok g =>
        -- a failed check answers the same, whether it is the operand's fault or not
        cases hcheck : validateCheck checkType operand (g.existing.map Value.userData) with
        | mk ok invalidArgument =>
          cases ok with
          | true => simpa only [hcheck, if_true] using hpassed checkKey _
          | false =>
            simp only [hcheck]
            cases invalidArgument with
            | true => exact .some (.refusal (.inr ⟨_, _, rfl⟩) rfl rfl invalidArgument_ne_ok)
            | false =>
              exact .some (.refusal (.inr ⟨_, _, rfl⟩) rfl rfl (by decide : Status.tryAgain ≠ .ok))

theorem makeIdempotentCheckAndSet_bind (req : CheckAndSetRequest)
    (put : List UpdateRequest → Option (Except CheckResponse (Applied CheckResponse))) :
    (svc.makeIdempotentCheckAndSet req).bind (idempotentOutcome put) =
      (svc.evaluateCheck req.hashKey req.checkSortKey req.checkType req.checkOperand
        req.returnCheckValue).bind (afterCheck put fun checkKey checkValue =>
          (setKey req checkKey).map fun key =>
            [makeIdempotentRequestForCheckAndSet key req.setValue req.setExpireTsSeconds
              (makeCheckValue req.returnCheckValue checkValue)]) := by
  unfold makeIdempotentCheckAndSet
  cases svc.evaluateCheck req.hashKey req.checkSortKey req.checkType req.checkOperand
      req.returnCheckValue with
  | none => rfl
  | some found =>
    cases found with
    | error resp => rfl
    | ok found =>
      simp only [bind_eq_bind, bind_some, afterCheck]
      cases setKey req found.1 <;> rfl

theorem checkAndSet_agrees (hreads : svc.engine.Honest) (req : CheckAndSetRequest) :
    Option.Rel SameEffect (svc.direct decree (.checkAndSet req))
      (svc.idempotent (.create decree timestamp) (.checkAndSet req)) := by
  simp only [direct, idempotent, makeIdempotentCheckAndSet_bind]
  refine checked_agrees hreads fun checkKey checkValue => ?_
  simp only [afterCheck]
  cases setKey req checkKey with
  | none => exact .none
  | some key =>
    refine .some (.performed ?_ rfl rfl)
    exact .cons (.put _ _ _ rfl rfl) (.cons (.putLastFlushedDecree _) .nil)

/-- The mutates of a list, and the updates they become: both abort on a key that is too long, and
otherwise they are the same operations. -/
theorem mutates_agree {hashKey : Bytes} {mutates : List Mutate}
    (hknown : ∀ m ∈ mutates, m.operation = .put ∨ m.operation = .delete) :
    (svc.engine.mutates decree hashKey mutates = none ∧
      mutates.mapM (makeIdempotentMutate hashKey) = none) ∨
    ∃ ops updates, svc.engine.mutates decree hashKey mutates = some (.ok ops) ∧
      mutates.mapM (makeIdempotentMutate hashKey) = some updates ∧
        List.Forall₂ SameOp ops (updates.map (primaryOp svc.engine timestamp)) := by
  induction mutates with
  | nil => exact .inr ⟨[], [], rfl, rfl, .nil⟩
  | cons m rest ih =>
    have hm := hknown m (by simp)
    have ih := ih fun m' hm' => hknown m' (by simp [hm'])
    simp only [mutates, List.mapM_cons, makeIdempotentMutate]
    cases hkey : generateKey hashKey m.sortKey with
    | none => exact .inl ⟨rfl, rfl⟩
    | some key =>
      rcases hm with hop | hop
      all_goals
        simp only [hop, bind_eq_bind, bind_some, pure_def]
        rcases ih with ⟨hnone, hnone'⟩ | ⟨ops, updates, hops, hupdates, hsame⟩
      · exact .inl ⟨by simp [hnone, writeBatchPut, WriteContext.empty,
          writeBatchPutCtx_create], by simp [hnone']⟩
      · refine .inr ⟨_, _, by simp [hops, writeBatchPut, WriteContext.empty,
          writeBatchPutCtx_create]; rfl, by simp [hupdates]; rfl, ?_⟩
        exact .cons (.put _ _ _ rfl rfl) hsame
      · exact .inl ⟨by simp [hnone], by simp [hnone']⟩
      · refine .inr ⟨_, _, by simp [hops]; rfl, by simp [hupdates]; rfl, ?_⟩
        exact .cons (.delete _) hsame

theorem map_primaryOp_addCheckValue (db : Engine) (cv : CheckValue)
    (updates : List UpdateRequest) :
    (addCheckValue cv updates).map (primaryOp db timestamp) =
      updates.map (primaryOp db timestamp) := by
  cases updates <;> rfl

/-- `put` for the updates of a mutate list: their operations, and the check value that the first
of them carries. -/
theorem putOutcome_mutates {cv : CheckValue} {updates : List UpdateRequest} (hne : updates ≠ [])
    (htypes : ∀ t ∈ updates.map UpdateRequest.type,
      t = some .checkAndMutatePut ∨ t = some .checkAndMutateRemove) :
    putOutcome (svc.putCheckAndMutate (.create decree timestamp) (addCheckValue cv updates)) =
      some ⟨updates.map (primaryOp svc.engine timestamp) ++ [.putLastFlushedDecree decree],
        svc.directCheckResponse decree cv .ok⟩ := by
  have hputs := @putMutates_create ⟨svc, fun _ => 0, 0⟩ decree timestamp (addCheckValue cv updates)
    (by rw [addCheckValue_type]; exact htypes)
  rw [map_primaryOp_addCheckValue] at hputs
  cases updates with
  | nil => exact absurd rfl hne
  | cons u us =>
    simp only [addCheckValue] at hputs ⊢
    simp only [putCheckAndMutate, hputs, bind_eq_bind, bind_some, write,
      List.map_cons, reduceCtorEq, if_false]
    rfl

theorem makeIdempotentCheckAndMutate_bind {req : CheckAndMutateRequest}
    (hsome : req.mutateList ≠ [])
    (hknown : ¬ (req.mutateList.any fun m => m.operation ≠ .put ∧ m.operation ≠ .delete))
    (put : List UpdateRequest → Option (Except CheckResponse (Applied CheckResponse))) :
    (svc.makeIdempotentCheckAndMutate req).bind (idempotentOutcome put) =
      (svc.evaluateCheck req.hashKey req.checkSortKey req.checkType req.checkOperand
        req.returnCheckValue).bind (afterCheck put fun _ checkValue =>
          (req.mutateList.mapM (makeIdempotentMutate req.hashKey)).map
            (addCheckValue (makeCheckValue req.returnCheckValue checkValue))) := by
  unfold makeIdempotentCheckAndMutate
  rw [if_neg hsome, if_neg hknown]
  cases svc.evaluateCheck req.hashKey req.checkSortKey req.checkType req.checkOperand
      req.returnCheckValue with
  | none => rfl
  | some found =>
    cases found with
    | error resp => rfl
    | ok found =>
      simp only [bind_eq_bind, bind_some, afterCheck]
      cases req.mutateList.mapM (makeIdempotentMutate req.hashKey) <;> rfl

theorem checkAndMutate_agrees (hreads : svc.engine.Honest) (req : CheckAndMutateRequest) :
    Option.Rel SameEffect (svc.direct decree (.checkAndMutate req))
      (svc.idempotent (.create decree timestamp) (.checkAndMutate req)) := by
  simp only [direct, idempotent]
  by_cases hsome : req.mutateList = []
  · unfold checkAndMutate makeIdempotentCheckAndMutate
    rw [if_pos hsome, if_pos hsome]
    exact .some (.refusal (.inr ⟨_, _, rfl⟩) rfl rfl invalidArgument_ne_ok)
  by_cases hknown : req.mutateList.any fun m => m.operation ≠ .put ∧ m.operation ≠ .delete
  · unfold checkAndMutate makeIdempotentCheckAndMutate
    rw [if_neg hsome, if_neg hsome, if_pos hknown, if_pos hknown]
    exact .some (.refusal (.inr ⟨_, _, rfl⟩) rfl rfl invalidArgument_ne_ok)
  rw [makeIdempotentCheckAndMutate_bind hsome hknown]
  unfold checkAndMutate
  rw [if_neg hsome, if_neg hknown]
  refine checked_agrees hreads fun _ checkValue => ?_
  have hoperations : ∀ m ∈ req.mutateList, m.operation = .put ∨ m.operation = .delete := by
    intro m hm
    by_contra hm'
    rw [not_or] at hm'
    exact hknown (List.any_eq_true.mpr ⟨m, hm, by simpa using hm'⟩)
  simp only [afterCheck]
  rcases @mutates_agree svc decree timestamp _ _ hoperations with
    ⟨hnone, hnone'⟩ | ⟨ops, updates, hops, hupdates, hsame⟩
  · rw [hnone, hnone']
    exact .none
  · obtain ⟨htypes, -⟩ := mapM_makeIdempotentMutate_type hupdates
    have hne : updates ≠ [] := by
      intro hnil
      subst hnil
      exact hsome (by simpa using htypes.symm)
    have hput : ∀ t ∈ updates.map UpdateRequest.type,
        t = some .checkAndMutatePut ∨ t = some .checkAndMutateRemove := by
      rw [htypes]
      intro t ht
      obtain ⟨m, hm, rfl⟩ := List.mem_map.mp ht
      rcases hoperations m hm with h | h <;> simp [h, MutateOperation.updateType]
    have hops_ne : ops ≠ [] := by
      intro hnil
      subst hnil
      cases updates with
      | nil => exact hne rfl
      | cons u us => cases hsame
    rw [hops, hupdates]
    simp only [bind_some, map_some, putOutcome_mutates hne hput, writeFilled, write, if_neg hops_ne]
    refine .some (.performed ?_ rfl rfl)
    exact List.rel_append hsame (.cons (.putLastFlushedDecree _) .nil)

end WriteService

end Pegasus.Server
