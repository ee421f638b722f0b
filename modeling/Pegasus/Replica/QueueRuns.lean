/-
Sequences of calls on the write queue (`Pegasus.Replica.QueueRuns`), after `mutation_queue` in
`mutation.cpp`.

A client request enters the pending mutation, moves with it to the queue and perhaps to the
blocking list, and leaves with it when it is returned or when the queue is cleared. Beside the
queue a history is kept: the requests added, the mutations returned, apart those that had been
blocked, and those that `clear` handed out.

- `Sole`: what a mutation may hold;
- `step_kept`, `run_kept`: no request is lost, repeated or moved to another mutation.
-/

import Pegasus.Replica.MutationQueue

namespace Pegasus.Replica

open List Option Mutation

/-- A call on a mutation queue. The last applied decree is read in the call; the row locks of any
mutation may be taken between the others. -/
inductive QueueOp (P W : Type) where
  | addWork (ballot lastApplied : Int) (atomicIdempotent : Bool) (request : Message P)
  | nextWork (lastApplied currentRunningCount : Int)
  | enter2pc (capacity : Nat) (lastApplied : Int) (mu : Mutation P W)
  | clear

structure QueueHistory (P W : Type) where
  added : List (Message P) := []
  /-- Returned without ever having been blocked, the first first. -/
  popped : List (Mutation P W) := []
  /-- Returned from the blocking list. -/
  unblocked : List (Mutation P W) := []
  cleared : List (Mutation P W) := []

structure RecordedQueue (P W : Type) where
  queue : MutationQueue P W
  history : QueueHistory P W

namespace MutationQueue

variable {P W : Type}

/-- `mutation_queue::clear(queued_mutations)`. -/
def clearInto (q : MutationQueue P W) : MutationQueue P W × List (Mutation P W) :=
  (q.clear, q.blocking ++ q.queue ++ q.pending.toList)

/-- Whether what is returned next comes from the blocking list. -/
def unblocks (lastApplied : Int) (q : MutationQueue P W) : Bool :=
  decide (q.currentOpCount < q.maxConcurrentOp) && (q.tryUnblock lastApplied).isSome

end MutationQueue

namespace RecordedQueue

variable {P W : Type}

def returned (history : QueueHistory P W) (unblocked : Bool) (out : Option (Mutation P W)) :
    QueueHistory P W :=
  if unblocked then { history with unblocked := history.unblocked ++ out.toList }
  else { history with popped := history.popped ++ out.toList }

/-- One call; `size` measures a payload. -/
def step (size : P → Nat) (s : RecordedQueue P W) : QueueOp P W → RecordedQueue P W
  | .addWork ballot lastApplied atomicIdempotent request =>
    let makeIdempotent := atomicIdempotent && !request.code.isIdempotent
    let unblocked := (s.queue.appendRequest size ballot makeIdempotent request).unblocks lastApplied
    let (queue, out) := s.queue.addWork size ballot lastApplied makeIdempotent request
    ⟨queue, returned { s.history with added := s.history.added ++ [request] } unblocked out⟩
  | .nextWork lastApplied running =>
    let unblocked := MutationQueue.unblocks lastApplied { s.queue with currentOpCount := running }
    let (queue, out) := s.queue.nextWork lastApplied running
    ⟨queue, returned s.history unblocked out⟩
  | .enter2pc capacity lastApplied mu =>
    { s with queue := s.queue.enter2pc capacity lastApplied mu }
  | .clear =>
    let (queue, out) := s.queue.clearInto
    ⟨queue, { s.history with cleared := s.history.cleared ++ out }⟩

def run (size : P → Nat) (s : RecordedQueue P W) (ops : List (QueueOp P W)) :
    RecordedQueue P W :=
  ops.foldl (step size) s

end RecordedQueue

/-! ### What one call takes out -/

namespace MutationQueue

variable {P W : Type}

/-- The mutations that wait without being blocked, in the order of their arrival. -/
def line (q : MutationQueue P W) : List (Mutation P W) := q.queue ++ q.pending.toList

/-- Taking from the front of the line: some mutations are blocked, and the next one, if any, is
returned. -/
structure Pops (q : MutationQueue P W) (result : MutationQueue P W × Option (Mutation P W)) :
    Prop where
  exists_blocked : ∃ blocked, q.line = blocked ++ result.2.toList ++ result.1.line ∧
    result.1.blocking = q.blocking ++ blocked
  pending_eq : result.1.pending = none ∨ result.1.pending = q.pending

structure Unblocks (q : MutationQueue P W)
    (result : MutationQueue P W × Option (Mutation P W)) : Prop where
  line_eq : result.1.line = q.line
  perm : q.blocking.Perm (result.2.toList ++ result.1.blocking)
  pending_eq : result.1.pending = none ∨ result.1.pending = q.pending

theorem line_promotePending (q : MutationQueue P W) : q.promotePending.line = q.line := by
  simp [line, promotePending]

theorem tryPromotePending_cases (code : WriteCode) (q : MutationQueue P W) :
    (q.tryPromotePending code).line = q.line ∧
      (q.tryPromotePending code).blocking = q.blocking ∧
      ((q.tryPromotePending code).pending = none ∨
        code.allowBatch = true ∧ (q.tryPromotePending code).pending = q.pending) := by
  unfold tryPromotePending
  split
  · rename_i hstay
    simp only [Bool.and_eq_true] at hstay
    exact ⟨rfl, rfl, .inr ⟨hstay.1.1, rfl⟩⟩
  · exact ⟨q.line_promotePending, rfl, .inl rfl⟩

variable (lastApplied : Int)

theorem popOrBlockQueue_go_pops (q : MutationQueue P W) (waiting blocking : List (Mutation P W)) :
    ∃ blocked, waiting ++ q.pending.toList = blocked ++
        (popOrBlockQueue.go lastApplied q waiting blocking).2.toList ++
        (popOrBlockQueue.go lastApplied q waiting blocking).1.line ∧
      (popOrBlockQueue.go lastApplied q waiting blocking).1.blocking = blocking ++ blocked ∧
      (popOrBlockQueue.go lastApplied q waiting blocking).1.pending = q.pending := by
  induction waiting generalizing blocking with
  | nil => exact ⟨[], by simp [popOrBlockQueue.go, line], by simp [popOrBlockQueue.go], rfl⟩
  | cons mu waiting ih =>
    unfold popOrBlockQueue.go
    split
    · obtain ⟨blocked, hline, hblocking, hpending⟩ := ih (blocking ++ [mu])
      refine ⟨mu :: blocked, ?_, ?_, hpending⟩
      · rw [cons_append, hline]
        rfl
      · rw [hblocking, append_assoc]
        rfl
    · exact ⟨[], by simp [line], by simp, rfl⟩

theorem popOrBlockQueue_pops (q : MutationQueue P W) : q.Pops (q.popOrBlockQueue lastApplied) := by
  obtain ⟨blocked, hline, hblocking, hpending⟩ :=
    popOrBlockQueue_go_pops lastApplied q q.queue q.blocking
  exact ⟨⟨blocked, hline, hblocking⟩, .inr hpending⟩

theorem popOrBlockPending_pops {q : MutationQueue P W} (hqueue : q.queue = []) :
    q.Pops (q.popOrBlockPending lastApplied) := by
  unfold popOrBlockPending
  split
  · rename_i hpending
    exact ⟨⟨[], by simp, by simp⟩, .inr rfl⟩
  · rename_i mu hpending
    split
    · exact ⟨⟨[mu], by simp [line, hqueue, hpending], rfl⟩, .inl rfl⟩
    · exact ⟨⟨[], by simp [line, hqueue, hpending], by simp⟩, .inl rfl⟩

theorem tryUnblock_unblocks {lastApplied : Int} {q q' : MutationQueue P W} {mu : Mutation P W}
    (h : q.tryUnblock lastApplied = some (q', mu)) : q.Unblocks (q', some mu) := by
  unfold tryUnblock at h
  obtain ⟨found, hfind, heq⟩ := map_eq_some_iff.mp h
  obtain ⟨rfl, rfl⟩ := Prod.mk.inj heq
  refine ⟨rfl, ?_, .inr rfl⟩
  obtain ⟨hfree, before, after, hblocking, hlocked⟩ := List.find?_eq_some_iff_append.mp hfind
  have herase : q.blocking.eraseP (fun mu => !q.rowLocked lastApplied mu) = before ++ after := by
    rw [hblocking, eraseP_append_right _ (by simpa using hlocked)]
    simp only [eraseP_cons, hfree, cond_true]
  dsimp only
  rw [herase, hblocking]
  exact perm_middle

/-- What a call takes out, from the blocking list or from the line. -/
def Takes (q : MutationQueue P W) (unblocked : Bool)
    (result : MutationQueue P W × Option (Mutation P W)) : Prop :=
  if unblocked then q.Unblocks result else q.Pops result

theorem Takes.pending_eq {q : MutationQueue P W} {unblocked : Bool}
    {result : MutationQueue P W × Option (Mutation P W)} (h : q.Takes unblocked result) :
    result.1.pending = none ∨ result.1.pending = q.pending := by
  cases unblocked with
  | false => exact Pops.pending_eq h
  | true => exact Unblocks.pending_eq h

theorem takes_none {q q' : MutationQueue P W} (hline : q'.line = q.line)
    (hblocking : q'.blocking = q.blocking)
    (hpending : q'.pending = none ∨ q'.pending = q.pending) (unblocked : Bool)
    (hunblocked : unblocked = false) : q.Takes unblocked (q', none) := by
  subst hunblocked
  exact ⟨⟨[], by simp [hline], by simp [hblocking]⟩, hpending⟩

/-- **What `add_work` takes out** once the request is in the pending mutation, which only stays
pending if more requests may join it. -/
theorem nextAfterAppend_takes (code : WriteCode) (q : MutationQueue P W) :
    q.Takes (q.unblocks lastApplied) (q.nextAfterAppend lastApplied code) ∧
      ((q.nextAfterAppend lastApplied code).1.pending = none ∨ code.allowBatch = true) := by
  unfold nextAfterAppend unblocks
  by_cases hthrottled : q.maxConcurrentOp ≤ q.currentOpCount
  · obtain ⟨hline, hblocking, hpending⟩ := q.tryPromotePending_cases code
    rw [if_pos hthrottled]
    refine ⟨takes_none hline hblocking (hpending.imp_right And.right) _ ?_,
      hpending.imp_right And.left⟩
    simp [Int.not_lt.mpr hthrottled]
  · rw [if_neg hthrottled]
    cases hunblock : q.tryUnblock lastApplied with
    | some found =>
      obtain ⟨q', mu⟩ := found
      obtain ⟨hline, hblocking, hpending⟩ := q'.tryPromotePending_cases code
      have h := tryUnblock_unblocks hunblock
      simp only [Int.not_le.mp hthrottled, decide_true, isSome_some, Bool.and_self, Takes, if_true]
      refine ⟨⟨hline.trans h.line_eq, ?_, ?_⟩, hpending.imp_right And.left⟩
      · dsimp only
        rw [hblocking]
        exact h.perm
      · rcases hpending with hnone | ⟨-, hsame⟩
        · exact .inl hnone
        · exact h.pending_eq.imp (fun h => hsame.trans h) fun h => hsame.trans h
    | none =>
      simp only [isSome_none, Bool.and_false, Takes, Bool.false_eq_true, if_false]
      by_cases hqueue : q.queue = []
      · rw [if_pos (by simp [hqueue])]
        refine ⟨popOrBlockPending_pops lastApplied hqueue, .inl ?_⟩
        unfold popOrBlockPending
        split
        · assumption
        · split <;> rfl
      · obtain ⟨hline, hblocking, hpending⟩ := q.tryPromotePending_cases code
        have h := popOrBlockQueue_pops lastApplied (q.tryPromotePending code)
        have hsame := (popOrBlockQueue_go_pops lastApplied (q.tryPromotePending code)
          (q.tryPromotePending code).queue (q.tryPromotePending code).blocking).choose_spec.2.2
        rw [if_neg (by simp [hqueue])]
        obtain ⟨⟨blocked, hblocked, heq⟩, -⟩ := h
        refine ⟨⟨⟨blocked, by rw [← hline, hblocked], by rw [heq, hblocking]⟩, ?_⟩, ?_⟩
        · exact hpending.imp (fun h => hsame.trans h) fun h => hsame.trans h.2
        · exact hpending.imp (fun h => hsame.trans h) And.left

theorem nextWork_takes (lastApplied running : Int) (q : MutationQueue P W) :
    q.Takes (unblocks lastApplied { q with currentOpCount := running })
      (q.nextWork lastApplied running) := by
  unfold nextWork unblocks
  dsimp only
  by_cases hthrottled : q.maxConcurrentOp ≤ running
  · rw [if_pos hthrottled]
    refine takes_none ?_ ?_ (.inr ?_) _ ?_
    · rfl
    · rfl
    · rfl
    · simp [Int.not_lt.mpr hthrottled]
  · rw [if_neg hthrottled]
    cases hunblock : tryUnblock lastApplied { q with currentOpCount := running } with
    | some found =>
      have h := tryUnblock_unblocks hunblock
      simp only [Int.not_le.mp hthrottled, decide_true, isSome_some, Bool.and_self, Takes, if_true]
      exact ⟨h.line_eq, h.perm, h.pending_eq⟩
    | none =>
      simp only [isSome_none, Bool.and_false, Takes, Bool.false_eq_true, if_false]
      by_cases hqueue : q.queue = []
      · rw [if_pos (by simp [hqueue])]
        have h := popOrBlockPending_pops (q := { q with currentOpCount := running }) lastApplied
          hqueue
        exact ⟨h.exists_blocked, h.pending_eq⟩
      · rw [if_neg (by simp [hqueue])]
        have h := popOrBlockQueue_pops lastApplied { q with currentOpCount := running }
        exact ⟨h.exists_blocked, h.pending_eq⟩

end MutationQueue

/-! ### What mutations hold -/

/-- **What a mutation of the queue may hold**: a request that must not be batched is alone in it,
and a blocking candidate has just one request, which is atomic. -/
structure Mutation.Sole {P W : Type} (mu : Mutation P W) : Prop where
  unbatched : ∀ request, some request ∈ mu.clientRequests → request.code.allowBatch = false →
    mu.clientRequests = [some request]
  candidate : mu.isBlockingCandidate = true →
    ∃ request, mu.clientRequests = [some request] ∧ request.code.isIdempotent = false

structure Mutation.Open {P W : Type} (mu : Mutation P W) : Prop where
  batched : ∀ request ∈ mu.clientRequests, ∃ m, request = some m ∧ m.code.allowBatch = true
  not_candidate : mu.isBlockingCandidate = false

theorem Mutation.Open.sole {P W : Type} {mu : Mutation P W} (h : mu.Open) : mu.Sole where
  unbatched := by
    intro request hmem hbatch
    obtain ⟨m, hm, hallow⟩ := h.batched _ hmem
    obtain rfl := some.inj hm
    rw [hbatch] at hallow
    cases hallow
  candidate := fun hcandidate => by
    rw [h.not_candidate] at hcandidate
    cases hcandidate

theorem WriteCode.isIdempotent_of_allowBatch {code : WriteCode} (h : code.allowBatch = true) :
    code.isIdempotent = true := by
  cases code <;> simp_all [WriteCode.allowBatch, WriteCode.isIdempotent]

namespace MutationQueue

variable {P W : Type}

def requests (mus : List (Mutation P W)) : List (Option (Message P)) :=
  mus.flatMap Mutation.clientRequests

/-- **A request goes to the end of the line**, into the pending mutation if both may be batched
and otherwise into a new one. -/
theorem appendRequest_cases (size : P → Nat) (ballot : Int) (makeIdempotent : Bool)
    (q : MutationQueue P W) (request : Message P) :
    ∃ before joined mu, q.line = before ++ joined.toList ∧
      (q.appendRequest size ballot makeIdempotent request).line = before ++ [mu] ∧
      (q.appendRequest size ballot makeIdempotent request).pending = some mu ∧
      (q.appendRequest size ballot makeIdempotent request).blocking = q.blocking ∧
      mu = addClientRequest size
        (joined.getD { (new ballot invalidDecree : Mutation P W) with
          isBlockingCandidate := makeIdempotent }) (some request) ∧
      (joined ≠ none → q.pending = joined ∧ request.code.allowBatch = true) := by
  unfold appendRequest
  dsimp only
  cases hpending : q.pending with
  | none => exact ⟨q.queue, none, _, by simp [line, hpending], rfl, rfl, rfl, by simp [hpending], by simp⟩
  | some pending =>
    cases hbatch : request.code.allowBatch with
    | true =>
      exact ⟨q.queue, some pending, _, by simp [line, hpending], rfl, rfl, rfl, by simp [hpending],
        fun _ => ⟨rfl, rfl⟩⟩
    | false =>
      refine ⟨q.queue ++ [pending], none, _, by simp [line, hpending], ?_, rfl, ?_, ?_, by simp⟩
      · simp [line, promotePending, hpending]
      · simp [promotePending]
      · simp [promotePending]

theorem requests_appendRequest (size : P → Nat) (ballot : Int) (makeIdempotent : Bool)
    (q : MutationQueue P W) (request : Message P) (others : List (Mutation P W)) :
    requests (others ++ (q.appendRequest size ballot makeIdempotent request).line) =
      requests (others ++ q.line) ++ [some request] := by
  obtain ⟨before, joined, mu, hline, hline', -, -, rfl, -⟩ :=
    q.appendRequest_cases size ballot makeIdempotent request
  rw [hline, hline']
  cases joined with
  | none => simp [requests, addClientRequest, new]
  | some joined => simp [requests, addClientRequest]

end MutationQueue

/-! ### Whole runs -/

namespace RecordedQueue

open MutationQueue

variable {P W : Type}

def mutations (s : RecordedQueue P W) : List (Mutation P W) :=
  s.history.popped ++ s.history.unblocked ++ s.history.cleared ++ s.queue.blocking ++ s.queue.line

/-- **No work is lost, repeated or moved**: the requests added are those of the mutations that came
out or wait, and those of the mutations never blocked are in the order of their arrival. -/
structure Kept (s : RecordedQueue P W) : Prop where
  perm : (requests s.mutations).Perm (s.history.added.map some)
  order : (requests (s.history.popped ++ s.queue.line)).Sublist (s.history.added.map some)
  sole : ∀ mu ∈ s.mutations, mu.Sole

/-- Between two calls more requests may join the pending mutation. -/
def OpenPending (q : MutationQueue P W) : Prop := ∀ mu ∈ q.pending, mu.Open

variable {q : MutationQueue P W} {unblocked : Bool}
  {result : MutationQueue P W × Option (Mutation P W)}

theorem openPending_none (h : q.pending = none) : OpenPending q := by
  intro mu hmu
  rw [h] at hmu
  cases hmu

theorem OpenPending.takes (hopen : OpenPending q) (takes : q.Takes unblocked result) :
    OpenPending result.1 := by
  intro mu hmu
  rcases takes.pending_eq with hnone | hsame
  · rw [hnone] at hmu
    cases hmu
  · exact hopen mu (hsame ▸ hmu)

variable (h : QueueHistory P W)

theorem mutations_takes (takes : q.Takes unblocked result) :
    (mutations ⟨result.1, returned h unblocked result.2⟩).Perm (mutations ⟨q, h⟩) := by
  rw [← Multiset.coe_eq_coe]
  cases unblocked with
  | false =>
    obtain ⟨⟨blocked, hline, hblocking⟩, -⟩ := takes
    simp only [mutations, returned, Bool.false_eq_true, if_false, hline, hblocking,
      ← Multiset.coe_add]
    abel
  | true =>
    obtain ⟨hline, hperm, -⟩ := takes
    have hblocking := Multiset.coe_eq_coe.mpr hperm
    simp only [mutations, returned, if_true, hline, ← Multiset.coe_add] at hblocking ⊢
    rw [hblocking]
    abel

theorem line_takes (takes : q.Takes unblocked result) :
    ((returned h unblocked result.2).popped ++ result.1.line).Sublist (h.popped ++ q.line) := by
  cases unblocked with
  | false =>
    obtain ⟨⟨blocked, hline, -⟩, -⟩ := takes
    simp only [returned, Bool.false_eq_true, if_false, hline, append_assoc]
    exact (List.Sublist.refl _).append (sublist_append_right _ _)
  | true =>
    obtain ⟨hline, -, -⟩ := takes
    simp only [returned, if_true, hline]
    exact List.Sublist.refl _

theorem added_returned (unblocked : Bool) (out : Option (Mutation P W)) :
    (returned h unblocked out).added = h.added := by
  unfold returned
  split <;> rfl

theorem Kept.takes {h : QueueHistory P W} (kept : Kept ⟨q, h⟩) (takes : q.Takes unblocked result) :
    Kept ⟨result.1, returned h unblocked result.2⟩ where
  perm := by
    dsimp only
    rw [added_returned]
    exact ((mutations_takes h takes).flatMap_right _).trans kept.perm
  order := by
    dsimp only
    rw [added_returned]
    exact ((line_takes h takes).flatMap _).trans kept.order
  sole := fun mu hmu => kept.sole mu ((mutations_takes h takes).mem_iff.mp hmu)

variable (size : P → Nat)

/-- A request that is not batched is alone in its mutation, and only an atomic one makes it a
candidate. -/
theorem sole_new (ballot : Int) (atomicIdempotent : Bool) (request : Message P) :
    (addClientRequest size
      { (new ballot invalidDecree : Mutation P W) with
        isBlockingCandidate := atomicIdempotent && !request.code.isIdempotent }
      (some request)).Sole where
  unbatched := by
    intro other hmem _
    simp only [addClientRequest, new, nil_append, mem_singleton] at hmem ⊢
    rw [hmem]
  candidate := by
    intro hcandidate
    simp only [addClientRequest, Bool.and_eq_true, Bool.not_eq_true'] at hcandidate
    exact ⟨request, rfl, hcandidate.2⟩

theorem Open.addClientRequest {mu : Mutation P W} (h : mu.Open) {request : Message P}
    (hbatch : request.code.allowBatch = true) : (mu.addClientRequest size (some request)).Open where
  batched := by
    intro other hmem
    simp only [Mutation.addClientRequest, mem_append, mem_singleton] at hmem
    rcases hmem with hmem | rfl
    · exact h.batched other hmem
    · exact ⟨request, rfl, hbatch⟩
  not_candidate := h.not_candidate

/-- **A request joins the line at its end**, and the pending mutation stays open if the request may
be batched. -/
theorem Kept.append {h : QueueHistory P W} (kept : Kept ⟨q, h⟩) (hopen : OpenPending q)
    (size : P → Nat) (ballot : Int) (atomicIdempotent : Bool) (request : Message P) :
    Kept ⟨q.appendRequest size ballot (atomicIdempotent && !request.code.isIdempotent) request,
        { h with added := h.added ++ [request] }⟩ ∧
      (request.code.allowBatch = true → OpenPending
        (q.appendRequest size ballot (atomicIdempotent && !request.code.isIdempotent) request)) := by
  have hrequests := q.requests_appendRequest size ballot
    (atomicIdempotent && !request.code.isIdempotent) request
  obtain ⟨before, joined, mu, hline, hline', hpending, hblocking, hmu, hjoined⟩ :=
    q.appendRequest_cases size ballot (atomicIdempotent && !request.code.isIdempotent) request
  have hopenMu : request.code.allowBatch = true → mu.Open := by
    intro hbatch
    rw [hmu]
    cases joined with
    | none =>
      refine Open.addClientRequest size ⟨fun _ hmem => absurd hmem not_mem_nil, ?_⟩ hbatch
      change (atomicIdempotent && !request.code.isIdempotent) = false
      rw [WriteCode.isIdempotent_of_allowBatch hbatch]
      simp
    | some pending => exact Open.addClientRequest size (hopen pending (hjoined nofun).1) hbatch
  have hsole : mu.Sole := by
    cases hbatch : request.code.allowBatch with
    | true => exact (hopenMu hbatch).sole
    | false =>
      cases joined with
      | none =>
        rw [hmu]
        exact sole_new size ballot atomicIdempotent request
      | some pending =>
        rw [(hjoined nofun).2] at hbatch
        cases hbatch
  refine ⟨⟨?_, ?_, ?_⟩, fun hbatch mu' hmu' => ?_⟩
  · rw [mutations, hrequests, hblocking, map_append]
    exact kept.perm.append_right _
  · rw [hrequests, map_append]
    exact kept.order.append_right _
  · intro other hother
    rw [mutations, hblocking, hline'] at hother
    rcases mem_append.mp hother with hother | hother
    · exact kept.sole other (mem_append_left _ hother)
    · rcases mem_concat_iff.mp hother with hother | rfl
      · refine kept.sole other (mem_append_right _ ?_)
        rw [hline]
        exact mem_append_left _ hother
      · exact hsole
  · rw [hpending] at hmu'
    obtain rfl := mem_some_iff.mp hmu'
    exact hopenMu hbatch

theorem step_kept {s : RecordedQueue P W} (kept : s.Kept) (hopen : OpenPending s.queue)
    (op : QueueOp P W) : (s.step size op).Kept ∧ OpenPending (s.step size op).queue := by
  cases op with
  | addWork ballot lastApplied atomicIdempotent request =>
    obtain ⟨kept', hopen'⟩ := Kept.append (q := s.queue) (h := s.history) kept hopen size ballot
      atomicIdempotent request
    obtain ⟨takes, hpending⟩ := nextAfterAppend_takes lastApplied request.code
      (s.queue.appendRequest size ballot (atomicIdempotent && !request.code.isIdempotent) request)
    refine ⟨kept'.takes takes, ?_⟩
    rcases hpending with hnone | hbatch
    · exact openPending_none hnone
    · exact (hopen' hbatch).takes takes
  | nextWork lastApplied running =>
    have takes := s.queue.nextWork_takes lastApplied running
    exact ⟨Kept.takes kept takes, hopen.takes takes⟩
  | enter2pc capacity lastApplied mu => exact ⟨⟨kept.perm, kept.order, kept.sole⟩, hopen⟩
  | clear =>
    have hmutations : (s.step size .clear).mutations.Perm s.mutations := by
      rw [← Multiset.coe_eq_coe]
      simp only [mutations, step, clearInto, MutationQueue.clear, line, toList_none,
        ← Multiset.coe_add, Multiset.coe_nil]
      abel
    have hpending : (s.step size .clear).queue.pending = none := rfl
    refine ⟨⟨(hmutations.flatMap_right _).trans kept.perm, ?_, fun mu hmu =>
      kept.sole mu (hmutations.mem_iff.mp hmu)⟩, openPending_none hpending⟩
    refine List.Sublist.trans ?_ kept.order
    exact ((List.Sublist.refl _).append (nil_sublist _)).flatMap _

theorem run_kept (ops : List (QueueOp P W)) {s : RecordedQueue P W} (kept : s.Kept)
    (hopen : OpenPending s.queue) : (s.run size ops).Kept ∧ OpenPending (s.run size ops).queue := by
  induction ops generalizing s with
  | nil => exact ⟨kept, hopen⟩
  | cons op ops ih =>
    obtain ⟨kept', hopen'⟩ := step_kept size kept hopen op
    exact ih kept' hopen'

/-- A queue without work, whatever its locks and limits are. -/
def idle (rowLocks : RowLocks) (currentOpCount maxConcurrentOp : Int) (batchWriteDisabled : Bool) :
    RecordedQueue P W where
  queue :=
    { rowLocks := rowLocks
      currentOpCount := currentOpCount
      maxConcurrentOp := maxConcurrentOp
      batchWriteDisabled := batchWriteDisabled }
  history := {}

/-- **The write queue loses, repeats and reorders nothing.** After every sequence of calls on a
queue that had no work: the requests added are, each once, those of the mutations returned,
cleared and waiting; a request that is not batched is alone in its mutation; a blocking candidate
has one request, which is atomic, and is not pending; and the requests of the mutations returned
without having been blocked come in the order of their arrival. -/
theorem queue_keeps_work (size : P → Nat) (rowLocks : RowLocks)
    (currentOpCount maxConcurrentOp : Int) (batchWriteDisabled : Bool)
    (ops : List (QueueOp P W)) :
    let s := (idle rowLocks currentOpCount maxConcurrentOp batchWriteDisabled).run size ops
    (requests (s.history.popped ++ s.history.unblocked ++ s.history.cleared ++ s.queue.blocking ++
        s.queue.queue ++ s.queue.pending.toList)).Perm (s.history.added.map some) ∧
      (∀ mu ∈ s.history.popped ++ s.history.unblocked ++ s.history.cleared ++ s.queue.blocking ++
          s.queue.queue ++ s.queue.pending.toList,
        (∀ request, some request ∈ mu.clientRequests → request.code.allowBatch = false →
          mu.clientRequests = [some request]) ∧
        (mu.isBlockingCandidate = true → ∃ request,
          mu.clientRequests = [some request] ∧ request.code.isIdempotent = false)) ∧
      (∀ mu ∈ s.queue.pending, mu.isBlockingCandidate = false) ∧
      (requests s.history.popped).Sublist (s.history.added.map some) := by
  intro s
  have hidle : (idle rowLocks currentOpCount maxConcurrentOp batchWriteDisabled :
      RecordedQueue P W).Kept := by
    refine ⟨List.Perm.refl _, List.Sublist.refl _, fun mu hmu => ?_⟩
    exact absurd hmu not_mem_nil
  obtain ⟨kept, hopen⟩ := run_kept size ops hidle (openPending_none rfl)
  have hmutations : s.mutations = s.history.popped ++ s.history.unblocked ++ s.history.cleared ++
      s.queue.blocking ++ s.queue.queue ++ s.queue.pending.toList := by
    simp only [mutations, line, append_assoc]
  refine ⟨hmutations ▸ kept.perm, fun mu hmu => ?_, fun mu hmu => (hopen mu hmu).not_candidate,
    ((sublist_append_left _ _).flatMap _).trans kept.order⟩
  have hsole := kept.sole mu (hmutations ▸ hmu)
  exact ⟨hsole.unbatched, hsole.candidate⟩

end RecordedQueue

end Pegasus.Replica
