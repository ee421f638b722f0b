/-
Sequences of calls on a prepare list (`Pegasus.Replica.PrepareRuns`), after `prepare_list.cpp`.

`PrepareList` has the popping loop and the `put`; here are `prepare` with every status, `commit`
with every commit type, `truncate` and `reset`, with the calls of the committer they make. Why a
call does not return is kept apart: a failed `CHECK`, or a popping loop that never ends because
`pop_min` on an empty list changes nothing. On a primary the committer may propose the next
mutation, so it calls `prepare` from inside `commit`. The lists are indexed by decrees, which the
ring of the source is as long as the window that a `put` needs fits an `int`.

- `Steady`: the last committed decree is not above the window, and is the window of an empty list;
- `commits_in_order`: what every sequence of calls does.
-/

import Pegasus.Lib.Run
import Pegasus.Lib.Outcome
import Pegasus.Replica.MutationRing

namespace Pegasus.Replica

open TransitionSystem (StepsMeet)
open Outcome (Meets)

open MutationCache

inductive ListFault where
  /-- The decree to prepare is not above the last committed one. -/
  | alreadyCommitted
  | mutationMissing
  | olderBallot
  | putFailed
  | invalidStatus
  /-- The popping loop runs on an empty list. -/
  | endlessPopping
  /-- The window that a `put` needs is no `int`, and the ring takes the decree for another one. The
  source goes on; here the call has no result. -/
  | wideWindow
deriving DecidableEq

inductive CommitType where
  | hard
  | soft
  | allReady
deriving DecidableEq

/-- What happens to the last committed decree: the committer is called with the next mutation, or
`reset` and `truncate` set it. -/
inductive ListEvent (P W : Type) where
  | committed (mu : Mutation P W)
  | moved (decree : Int)
deriving DecidableEq

/-- The bits of `_private0`, which the callbacks of a mutation change while it is in the list. -/
structure AckBits where
  notLogged : Bool := false
  leftSecondaryAckCount : Nat := 0
  leftPotentialSecondaryAckCount : Nat := 0
  waitChild : Bool := false
  isErrorAcked : Bool := false
deriving DecidableEq

def Mutation.withBits {P W : Type} (bits : AckBits) (mu : Mutation P W) : Mutation P W :=
  { mu with
    notLogged := bits.notLogged
    leftSecondaryAckCount := bits.leftSecondaryAckCount
    leftPotentialSecondaryAckCount := bits.leftPotentialSecondaryAckCount
    waitChild := bits.waitChild
    isErrorAcked := bits.isErrorAcked }

/-- What a committer proposes on a primary: a mutation that nobody has logged yet, and whether all
committed mutations are to be popped for it. -/
abbrev Proposed (P W : Type) := { mu : Mutation P W // mu.notLogged = true } × Bool

/-- A call on a prepare list, or a callback of a mutation in it. The proposals of a `commit` are
those of the committer, one list for each time it is called. -/
inductive ListOp (P W : Type) where
  | prepare (mu : Mutation P W) (status : PartitionStatus) (popAll secondaryCommit : Bool)
  | commit (decree : Int) (type : CommitType) (proposals : List (List (Proposed P W)))
  | truncate (decree : Int)
  | reset (decree : Int)
  | acked (tid : Nat) (decree : Int) (bits : AckBits)

abbrev Recorded (P W : Type) := PrepareList P W × List (ListEvent P W)

namespace PrepareList

variable {P W : Type}

/-! ### The calls -/

/-- `popAndPut` with the reason why it aborts; the ring computes the window in an `int`. -/
def popThenPut (popAll : Bool) (l : PrepareList P W) (mu : Mutation P W) :
    Except ListFault (PrepareList P W × Option PrepareError) :=
  match popCommitted popAll mu.header.decree l.count l with
  | none => .error .endlessPopping
  | some popped =>
    if 2 ^ 31 ≤ popped.windowWith mu.header.decree then .error .wideWindow
    else (popped.putPopped mu).elim (.error .olderBallot) .ok

/-- A call that returns does what `popAndPut` does. -/
theorem popAndPut_of_popThenPut {popAll : Bool} {l : PrepareList P W} {mu : Mutation P W}
    {out : PrepareList P W × Option PrepareError} (h : l.popThenPut popAll mu = .ok out) :
    popAndPut popAll l mu = some out := by
  unfold popThenPut at h
  split at h
  · cases h
  · rename_i popped hpop
    split at h
    · cases h
    · rw [popAndPut, hpop, Option.bind_some]
      cases hput : popped.putPopped mu with
      | none => simp [hput] at h
      | some next => exact congrArg some (Except.ok.inj (hput ▸ h))

/-- The popping loop and the `CHECK_EQ` of the `put`. -/
def popThenPutChecked (popAll : Bool) (l : PrepareList P W) (mu : Mutation P W) :
    Except ListFault (PrepareList P W) := do
  match ← l.popThenPut popAll mu with
  | (next, none) => .ok next
  | (_, some _) => .error .putFailed

/-- `_last_committed_decree++`. -/
def advance (l : PrepareList P W) : PrepareList P W :=
  { l with lastCommittedDecree := l.lastCommittedDecree + 1 }

/-- The loop of `COMMIT_TO_DECREE_HARD`. -/
def commitHard : Nat → Int → PrepareList P W → Except ListFault (Recorded P W)
  | 0, _, l => .ok (l, [])
  | fuel + 1, lastBallot, l =>
    match l.getMutationByDecree (l.lastCommittedDecree + 1) with
    | none => .error .mutationMissing
    | some mu =>
      if mu.isLogged = false then .error .mutationMissing
      else if mu.header.ballot < lastBallot then .error .olderBallot
      else do
        let (last, events) ← commitHard fuel mu.header.ballot l.advance
        return (last, .committed mu :: events)

/-- `prepare_list::prepare` on a primary. -/
def preparePrimary (l : PrepareList P W) (mu : Mutation P W) (popAll : Bool) :
    Except ListFault (PrepareList P W × Option PrepareError) :=
  if mu.header.decree ≤ l.lastCommittedDecree then .error .alreadyCommitted
  else l.popThenPut popAll mu

def propose : PrepareList P W → List (Proposed P W) → Except ListFault (PrepareList P W)
  | l, [] => .ok l
  | l, (mu, popAll) :: proposals => do
    let (next, _) ← l.preparePrimary mu.val popAll
    next.propose proposals

/-- The loops of `COMMIT_TO_DECREE_SOFT` and `COMMIT_ALL_READY`. -/
def commitReady : Nat → Int → List (List (Proposed P W)) → PrepareList P W →
    Except ListFault (Recorded P W)
  | 0, _, _, l => .ok (l, [])
  | fuel + 1, lastBallot, proposals, l =>
    match l.getMutationByDecree (l.lastCommittedDecree + 1) with
    | none => .ok (l, [])
    | some mu =>
      if mu.isReadyForCommit && decide (lastBallot ≤ mu.header.ballot) then do
        let next ← l.advance.propose (proposals.headD [])
        let (last, events) ← commitReady fuel mu.header.ballot proposals.tail next
        return (last, .committed mu :: events)
      else .ok (l, [])

/-- `prepare_list::commit`. What is proposed meanwhile is not logged, so the decrees of the window
bound the loop of `COMMIT_ALL_READY`. -/
def commit (l : PrepareList P W) (d : Int) (type : CommitType)
    (proposals : List (List (Proposed P W))) : Except ListFault (Recorded P W) :=
  if d ≤ l.lastCommittedDecree then .ok (l, [])
  else
    match type with
    | .hard => l.commitHard (d - l.lastCommittedDecree).toNat 0
    | .soft => l.commitReady (d - l.lastCommittedDecree).toNat 0 proposals
    | .allReady =>
      if d ≠ l.lastCommittedDecree + 1 then .ok (l, [])
      else l.commitReady (l.maxDecree - l.lastCommittedDecree).toNat 0 proposals

/-- What `prepare_list::prepare` does on an inactive replica before the popping loop. -/
def catchUp (l : PrepareList P W) (announced : Int) : Except ListFault (Recorded P W) :=
  if l.maxDecree < announced then .ok (l.reset announced, [.moved announced])
  else if l.lastCommittedDecree < announced then l.commit announced .hard []
  else .ok (l, [])

/-- What `prepare_list::prepare` does on a secondary before the popping loop. -/
def secondaryCommit (l : PrepareList P W) (announced : Int) (commits : Bool) :
    Except ListFault (Recorded P W) :=
  if commits then l.commit announced .hard [] else .ok (l, [])

/-- `prepare_list::prepare`; the error code is `none` for `ERR_OK`. -/
def prepare (l : PrepareList P W) (mu : Mutation P W) (status : PartitionStatus)
    (popAll commits : Bool) : Except ListFault (Recorded P W × Option PrepareError) :=
  if mu.header.decree ≤ l.lastCommittedDecree then .error .alreadyCommitted
  else
    match status with
    | .primary => do
      let (next, err) ← l.popThenPut popAll mu
      return ((next, []), err)
    | .secondary | .potentialSecondary => do
      let (committed, events) ← l.secondaryCommit mu.header.lastCommittedDecree commits
      let next ← committed.popThenPutChecked popAll mu
      return ((next, events), none)
    | .inactive => do
      let (committed, events) ← l.catchUp mu.header.lastCommittedDecree
      let next ← committed.popThenPutChecked false mu
      return ((next, events), none)
    | .error | .partitionSplit => .error .invalidStatus

def step (l : PrepareList P W) : ListOp P W → Except ListFault (Recorded P W)
  | .prepare mu status popAll secondaryCommit =>
    (l.prepare mu status popAll secondaryCommit).map Prod.fst
  | .commit d type proposals => l.commit d type proposals
  | .truncate d => .ok (l.truncate d, [.moved d])
  | .reset d => .ok (l.reset d, [.moved d])
  | .acked tid d bits =>
    .ok ({ l with toMutationCache := l.updateMutation tid d (Mutation.withBits bits) }, [])

def calls : PrepareList P W → List (ListOp P W) → Except ListFault (Recorded P W)
  | l, [] => .ok (l, [])
  | l, op :: ops => do
    let (next, events) ← l.step op
    let (last, rest) ← calls next ops
    return (last, events ++ rest)

/-! ### What the calls keep -/

/-- **A list between two calls**: the last committed decree is not above the window, and an empty
window stands at it. -/
structure Steady (l : PrepareList P W) : Prop where
  windowed : l.Windowed
  upper : l.lastCommittedDecree ≤ l.maxDecree
  empty : l.count = 0 → l.minDecree = l.lastCommittedDecree

theorem steady_init (capacity : Nat) (decree : Int) :
    (init capacity decree : PrepareList P W).Steady :=
  ⟨windowed_init _ _, Int.le_refl _, fun _ => rfl⟩

/-- The last committed decree after some events, if the committer is called with the next decree
each time. -/
def follow : Int → List (ListEvent P W) → Option Int
  | lastCommitted, [] => some lastCommitted
  | lastCommitted, .committed mu :: events =>
    if mu.header.decree = lastCommitted + 1 then follow (lastCommitted + 1) events else none
  | _, .moved decree :: events => follow decree events

theorem follow_append (lastCommitted : Int) (first second : List (ListEvent P W)) :
    follow lastCommitted (first ++ second) =
      (follow lastCommitted first).bind fun reached => follow reached second := by
  induction first generalizing lastCommitted with
  | nil => rfl
  | cons event first ih =>
    cases event with
    | committed mu =>
      simp only [List.cons_append, follow]
      split
      · exact ih _
      · rfl
    | moved decree => exact ih decree

/-- **What a `prepare` or a `commit` does to a list**: the committer goes on from the last
committed decree, which only grows, and a slot is only emptied up to it. -/
structure Advances (l l' : PrepareList P W) (events : List (ListEvent P W)) : Prop where
  steady : l'.Steady
  follow_eq : follow l.lastCommittedDecree events = some l'.lastCommittedDecree
  le : l.lastCommittedDecree ≤ l'.lastCommittedDecree
  kept : ∀ d mu, l.slots d = some mu → l'.slots d = none → d ≤ l'.lastCommittedDecree

variable {l : PrepareList P W} {mu : Mutation P W} {announced : Int}

theorem Advances.refl (hl : l.Steady) : Advances l l [] :=
  ⟨hl, rfl, Int.le_refl _, fun d mu hmu hnone => by rw [hmu] at hnone; cases hnone⟩

theorem Advances.trans {l' l'' : PrepareList P W} {first second : List (ListEvent P W)}
    (h : Advances l l' first) (h' : Advances l' l'' second) :
    Advances l l'' (first ++ second) where
  steady := h'.steady
  follow_eq := by
    rw [follow_append, h.follow_eq]
    exact h'.follow_eq
  le := Int.le_trans h.le h'.le
  kept := by
    intro d mu hmu hnone
    cases hmid : l'.slots d with
    | none => exact Int.le_trans (h.kept d mu hmu hmid) h'.le
    | some mu' => exact h'.kept d mu' hmid hnone

variable (popAll : Bool)

/-- **The popping loop ends** with mutations left if there were any. -/
theorem popCommitted_steady (d : Int) (fuel : Nat) (hl : l.Steady) (hfuel : l.count ≤ fuel) :
    ∃ popped, popCommitted popAll d fuel l = some popped ∧ popped.Steady ∧ Drops l popped ∧
      (popped.count = 0 → l.count = 0) := by
  suffices h : _ from
    (popCommitted_rule (R := fun l' => l'.Steady ∧ Drops l l' ∧ (l'.count = 0 → l.count = 0)) h fuel
      ⟨hl, .refl hl.windowed, id⟩ hfuel).imp fun _ h => ⟨h.1, h.2.1⟩
  rintro l' ⟨hl', drops, -⟩ hmust
  -- the window reaches the last committed decree, so a mutation is left
  have hbelow := (mustPop_iff.mp hmust).2
  have hupper := hl'.upper
  have hcount : l'.count ≠ 0 := by
    intro hzero
    have := hl'.empty hzero
    omega
  have hspan := hl'.windowed.span (by omega)
  have hleft : l'.popMin.count ≠ 0 := by
    rw [popMin, if_neg hcount]
    dsimp only
    omega
  refine ⟨by omega, ⟨hl'.windowed.popMin, ?_, fun hzero => absurd hzero hleft⟩,
    drops.popMin hbelow, fun hzero => absurd hzero hleft⟩
  change l'.lastCommittedDecree ≤ l'.popMin.maxDecree
  rw [hl'.windowed.maxDecree_popMin]
  exact hupper

theorem Drops.advances {popped : PrepareList P W} (drops : Drops l popped)
    (hpopped : popped.Steady) : Advances l popped [] where
  steady := hpopped
  follow_eq := by
    rw [drops.committed_eq]
    rfl
  le := by rw [drops.committed_eq]
  kept := by
    intro d mu hmu hnone
    rw [drops.committed_eq]
    rcases drops.slots_eq d with h | ⟨-, h⟩
    · rw [hnone, hmu] at h
      cases h
    · omega

/-- Putting a mutation keeps the list steady, unless it goes below the last committed decree of an
empty list. -/
theorem put_advances {cache : MutationCache P W} (hl : l.Steady)
    (habove : l.count = 0 → l.lastCommittedDecree ≤ mu.header.decree)
    (hput : l.put mu = some (.ok cache)) : Advances l { l with toMutationCache := cache } [] := by
  have hwindowed := hl.windowed.put hput
  have hupper := hl.upper
  obtain ⟨-, -, rfl⟩ := put_eq_ok hput
  refine ⟨⟨hwindowed, ?_, ?_⟩, rfl, Int.le_refl _, ?_⟩
  · change l.lastCommittedDecree ≤ (l.putWindow mu.header.decree).2
    unfold putWindow
    split
    · exact habove ‹_›
    · split
      · dsimp only
        omega
      · split <;> exact hupper
  · intro hzero
    change l.putDelta mu.header.decree + l.count = 0 at hzero
    unfold putDelta at hzero
    split at hzero <;> omega
  · intro d old hold hnone
    change (if d = mu.header.decree then some mu else l.slots d) = none at hnone
    split at hnone
    · cases hnone
    · rw [hold] at hnone
      cases hnone

def Ends (fault : ListFault) : Prop := fault ≠ .endlessPopping

theorem popThenPut_advances (hl : l.Steady)
    (habove : l.count = 0 → l.lastCommittedDecree ≤ mu.header.decree) :
    Meets Ends (fun out => Advances l out.1 []) (l.popThenPut popAll mu) := by
  obtain ⟨popped, hpop, hpopped, drops, hleft⟩ :=
    popCommitted_steady popAll mu.header.decree l.count hl (Nat.le_refl _)
  have hadv := drops.advances hpopped
  have hempty : popped.count = 0 → popped.lastCommittedDecree ≤ mu.header.decree := by
    intro hzero
    rw [drops.committed_eq]
    exact habove (hleft hzero)
  unfold popThenPut
  rw [hpop]
  dsimp only
  split
  · exact nofun
  unfold putPopped
  cases hput : popped.put mu with
  | none => exact nofun
  | some result =>
    cases result with
    | error err => exact hadv
    | ok cache => exact hadv.trans (put_advances hpopped hempty hput)

theorem popThenPutChecked_advances (hl : l.Steady)
    (habove : l.count = 0 → l.lastCommittedDecree ≤ mu.header.decree) :
    Meets Ends (fun next => Advances l next []) (l.popThenPutChecked popAll mu) := by
  refine (popThenPut_advances popAll hl habove).bind fun out hout => ?_
  obtain ⟨next, err⟩ := out
  cases err with
  | none => exact hout
  | some err => exact nofun

theorem advance_advances (hl : l.Steady)
    (hmu : l.getMutationByDecree (l.lastCommittedDecree + 1) = some mu) :
    Advances l l.advance [.committed mu] := by
  rw [hl.windowed.getMutationByDecree_eq] at hmu
  obtain ⟨hpos, hmin, hmax⟩ := hl.windowed.inside _ _ hmu
  have hdecree := hl.windowed.keyed _ _ hmu
  refine ⟨⟨hl.windowed, hmax, fun hzero => ?_⟩, ?_, ?_, ?_⟩
  · change l.count = 0 at hzero
    omega
  · rw [follow, if_pos hdecree]
    rfl
  · change l.lastCommittedDecree ≤ l.lastCommittedDecree + 1
    omega
  · intro d old hold hnone
    change l.slots d = none at hnone
    rw [hold] at hnone
    cases hnone

/-- A `commit` up to a decree finds its mutations in the window, so it does nothing to an empty
list. -/
theorem commitHard_advances (fuel : Nat) (lastBallot : Int) (hl : l.Steady) :
    Meets Ends (fun out => Advances l out.1 out.2 ∧ out.1.count = l.count ∧
      (l.count = 0 → out.1.lastCommittedDecree = l.lastCommittedDecree))
      (commitHard fuel lastBallot l) := by
  induction fuel generalizing lastBallot l with
  | zero => exact ⟨.refl hl, rfl, fun _ => rfl⟩
  | succ fuel ih =>
    unfold commitHard
    split
    · exact nofun
    · rename_i mu hmu
      have hadv := advance_advances hl hmu
      rw [hl.windowed.getMutationByDecree_eq] at hmu
      have hpos := (hl.windowed.inside _ _ hmu).1
      split
      · exact nofun
      · split
        · exact nofun
        · refine (ih _ hadv.steady).bind fun out hout => ?_
          exact ⟨hadv.trans hout.1, hout.2.1, fun hzero => by omega⟩

theorem preparePrimary_advances (hl : l.Steady) (mu : Mutation P W) (popAll : Bool) :
    Meets Ends (fun out => Advances l out.1 []) (l.preparePrimary mu popAll) := by
  unfold preparePrimary
  split
  · exact nofun
  · exact popThenPut_advances popAll hl fun _ => by omega

theorem propose_advances (proposals : List (Proposed P W)) (hl : l.Steady) :
    Meets Ends (fun next => Advances l next []) (l.propose proposals) := by
  induction proposals generalizing l with
  | nil => exact .refl hl
  | cons proposal proposals ih =>
    obtain ⟨mu, popAll⟩ := proposal
    exact (preparePrimary_advances hl mu.val popAll).bind fun out hout =>
      (ih hout.steady).mono fun next hnext => hout.trans hnext

theorem commitReady_advances (fuel : Nat) (lastBallot : Int)
    (proposals : List (List (Proposed P W))) (hl : l.Steady) :
    Meets Ends (fun out => Advances l out.1 out.2) (commitReady fuel lastBallot proposals l) := by
  induction fuel generalizing lastBallot proposals l with
  | zero => exact .refl hl
  | succ fuel ih =>
    unfold commitReady
    split
    · exact .refl hl
    · rename_i mu hmu
      have hadv := advance_advances hl hmu
      split
      · refine (propose_advances _ hadv.steady).bind fun next hnext => ?_
        exact (ih _ _ hnext.steady).bind fun out hout => (hadv.trans hnext).trans hout
      · exact .refl hl

variable (hl : l.Steady)
include hl

theorem commit_advances (d : Int) (type : CommitType) (proposals : List (List (Proposed P W))) :
    Meets Ends (fun out => Advances l out.1 out.2) (l.commit d type proposals) := by
  unfold commit
  split
  · exact .refl hl
  · cases type with
    | hard => exact (commitHard_advances _ _ hl).mono fun _ hout => hout.1
    | soft => exact commitReady_advances _ _ _ hl
    | allReady =>
      dsimp only
      split
      · exact .refl hl
      · exact commitReady_advances _ _ _ hl

variable {events : List (ListEvent P W)} {d : Int}

variable (habove : l.lastCommittedDecree < d)
include habove

/-- After committing what is announced, a mutation above the last committed decree is still not
below that of an empty list. -/
theorem commit_hard_above :
    Meets Ends (fun out => Advances l out.1 out.2 ∧
      (out.1.count = 0 → out.1.lastCommittedDecree ≤ d)) (l.commit announced .hard []) := by
  unfold commit
  split
  · exact ⟨.refl hl, fun _ => Int.le_of_lt habove⟩
  · refine (commitHard_advances _ _ hl).mono fun out hout => ⟨hout.1, fun hzero => ?_⟩
    rw [hout.2.2 (by omega)]
    exact Int.le_of_lt habove

omit habove hl in
/-- The header of a mutation prepared on an inactive replica does not announce more than the
mutation itself when it announces more than the window has. -/
def Announces (l : PrepareList P W) : ListOp P W → Prop
  | .prepare mu .inactive _ _ =>
    l.maxDecree < mu.header.lastCommittedDecree → mu.header.lastCommittedDecree ≤ mu.header.decree
  | _ => True

theorem catchUp_advances (hannounced : l.maxDecree < announced → announced ≤ d) :
    Meets Ends (fun out => Advances l out.1 out.2 ∧
      (out.1.count = 0 → out.1.lastCommittedDecree ≤ d)) (l.catchUp announced) := by
  unfold catchUp
  split
  · rename_i hbeyond
    refine ⟨⟨steady_init _ _, rfl, ?_, fun e mu hmu _ => ?_⟩, fun _ => hannounced hbeyond⟩
    · have := hl.upper
      change l.lastCommittedDecree ≤ announced
      omega
    · have := (hl.windowed.inside e mu hmu).2.2
      change e ≤ announced
      omega
  · split
    · exact commit_hard_above hl habove
    · exact ⟨.refl hl, fun _ => Int.le_of_lt habove⟩

theorem secondaryCommit_advances (commits : Bool) :
    Meets Ends (fun out => Advances l out.1 out.2 ∧
      (out.1.count = 0 → out.1.lastCommittedDecree ≤ d)) (l.secondaryCommit announced commits) := by
  unfold secondaryCommit
  split
  · exact commit_hard_above hl habove
  · exact ⟨.refl hl, fun _ => Int.le_of_lt habove⟩

omit habove

omit hl in
theorem Advances.popThenPutChecked {committed : PrepareList P W} (h : Advances l committed events)
    (habove : committed.count = 0 → committed.lastCommittedDecree ≤ mu.header.decree)
    (popAll : Bool) :
    Meets Ends (fun next => Advances l next events) (committed.popThenPutChecked popAll mu) := by
  refine (popThenPutChecked_advances popAll h.steady habove).mono fun next hnext => ?_
  have hall := h.trans hnext
  rwa [List.append_nil] at hall

theorem prepare_advances {status : PartitionStatus} {popAll commits : Bool}
    (hannounces : l.Announces (.prepare mu status popAll commits)) :
    Meets Ends (fun out => Advances l out.1.1 out.1.2) (l.prepare mu status popAll commits) := by
  unfold prepare
  split
  · exact nofun
  · rename_i hdecree
    have habove : l.lastCommittedDecree < mu.header.decree := by omega
    cases status with
    | primary =>
      exact (popThenPut_advances popAll hl fun _ => Int.le_of_lt habove).bind fun _ hout => hout
    | secondary | potentialSecondary =>
      refine (secondaryCommit_advances hl habove commits).bind fun out hout => ?_
      exact (hout.1.popThenPutChecked hout.2 popAll).bind fun next hnext => hnext
    | inactive =>
      refine (catchUp_advances hl habove hannounces).bind fun out hout => ?_
      exact (hout.1.popThenPutChecked hout.2 false).bind fun next hnext => hnext
    | error | partitionSplit => exact nofun

omit hl in
theorem popThrough_stops (decree : Int) (fuel : Nat) {c : MutationCache P W}
    (hfuel : c.count ≤ fuel) :
    (c.popThrough decree fuel).count = 0 ∨ decree < (c.popThrough decree fuel).minDecree := by
  induction fuel generalizing c with
  | zero => exact .inl (by unfold popThrough; omega)
  | succ fuel ih =>
    unfold popThrough
    split
    · rename_i hpop
      apply ih
      unfold popMin
      rw [if_neg (by omega)]
      dsimp only
      omega
    · rename_i hstop
      by_cases hcount : c.count = 0
      · exact .inl hcount
      · exact .inr (by omega)

theorem steady_truncate (decree : Int) : (l.truncate decree).Steady := by
  have hwindowed := (truncate_slots hl.windowed decree).1
  have hstops := popThrough_stops decree l.count (c := l.toMutationCache) (Nat.le_refl _)
  unfold truncate at hwindowed ⊢
  dsimp only at hwindowed ⊢
  split
  · exact steady_init _ _
  · rename_i hcount
    rw [if_neg hcount] at hwindowed
    have hspan := hwindowed.span (Nat.pos_of_ne_zero hcount)
    refine ⟨hwindowed, ?_, fun hzero => absurd hzero hcount⟩
    dsimp only at hspan ⊢
    omega

theorem acked_advances (tid : Nat) (decree : Int) (bits : AckBits) :
    Advances l { l with toMutationCache := l.updateMutation tid decree (Mutation.withBits bits) }
      [] := by
  refine ⟨⟨hl.windowed.updateMutation tid decree fun _ _ h => h, hl.upper, hl.empty⟩, rfl,
    Int.le_refl _, fun d mu hmu hnone => ?_⟩
  change (if d = decree then (l.slots d).map _ else l.slots d) = none at hnone
  split at hnone
  · rw [hmu] at hnone
    cases hnone
  · rw [hmu] at hnone
    cases hnone

omit hl

/-! ### Sequences of calls -/

/-- **What one call keeps.** Only `truncate` and `reset` may lower the last committed decree, and
only `reset` empties a slot above it. -/
structure Sound (l : PrepareList P W) (op : ListOp P W) (out : Recorded P W) : Prop where
  steady : out.1.Steady
  follow_eq : follow l.lastCommittedDecree out.2 = some out.1.lastCommittedDecree
  le : (∀ d, op ≠ .truncate d ∧ op ≠ .reset d) → l.lastCommittedDecree ≤ out.1.lastCommittedDecree
  kept : (∀ d, op ≠ .reset d) → ∀ d mu, l.slots d = some mu → out.1.slots d = none →
    d ≤ out.1.lastCommittedDecree

theorem Advances.sound {l' : PrepareList P W} (h : Advances l l' events) (op : ListOp P W) :
    Sound l op (l', events) :=
  ⟨h.steady, h.follow_eq, fun _ => h.le, fun _ => h.kept⟩

theorem step_sound (hl : l.Steady) {op : ListOp P W} (hannounces : l.Announces op) :
    Meets Ends (Sound l op) (l.step op) := by
  cases op with
  | prepare mu status popAll secondaryCommit =>
    exact (prepare_advances hl hannounces).map fun _ hout => hout.sound _
  | commit d type proposals =>
    exact (commit_advances hl d type proposals).mono fun _ hout => hout.sound _
  | truncate d =>
    obtain ⟨-, hlast, -, hslots⟩ := truncate_slots hl.windowed d
    refine ⟨steady_truncate hl d, ?_, fun h => absurd rfl (h d).1, ?_⟩
    · rw [hlast]
      rfl
    · intro _ e mu hmu hnone
      change e ≤ (l.truncate d).lastCommittedDecree
      change (l.truncate d).slots e = none at hnone
      by_contra habove
      rw [hlast] at habove
      rw [(hslots e).1 (by omega), hmu] at hnone
      cases hnone
  | reset d => exact ⟨steady_init _ _, rfl, fun h => absurd rfl (h d).2, fun h => absurd rfl (h d)⟩
  | acked tid d bits => exact (acked_advances hl tid d bits).sound _

def next (l : PrepareList P W) (op : ListOp P W) : Option (PrepareList P W) :=
  (l.step op).toOption.map Prod.fst

theorem calls_sound (ops : List (ListOp P W)) (hl : l.Steady)
    (hannounces : StepsMeet next Announces l ops) :
    Meets Ends (fun out => out.1.Steady ∧
      follow l.lastCommittedDecree out.2 = some out.1.lastCommittedDecree) (l.calls ops) := by
  induction ops generalizing l with
  | nil => exact ⟨hl, rfl⟩
  | cons op ops ih =>
    have hstep := step_sound hl hannounces.1
    unfold calls
    cases hout : l.step op with
    | error fault =>
      rw [hout] at hstep
      exact hstep
    | ok out =>
      rw [hout] at hstep
      have hrest := ih hstep.steady (hannounces.2 out.1 (by rw [next, hout]; rfl))
      refine hrest.bind fun rest hrest => ⟨hrest.1, ?_⟩
      dsimp only
      rw [follow_append, hstep.follow_eq]
      exact hrest.2

/-- In a stretch of events that follow each other without a `reset` or `truncate`, the decrees are
consecutive. -/
theorem isChain_of_follow {lastCommitted reached : Int} (committed : List (Mutation P W))
    (h : follow lastCommitted (committed.map ListEvent.committed) = some reached) :
    ((lastCommitted :: committed.map fun mu => mu.header.decree).IsChain fun d e => e = d + 1) := by
  induction committed generalizing lastCommitted with
  | nil => exact List.isChain_singleton _
  | cons mu committed ih =>
    simp only [List.map_cons, follow] at h ⊢
    split at h
    · rename_i hdecree
      exact List.isChain_cons_cons.mpr ⟨hdecree, hdecree ▸ ih h⟩
    · cases h

/-- **A prepare list commits every decree once and in order.** Along every sequence of calls whose
inactive prepares announce at most their own decree, no popping loop is endless; the decrees the
committer is called with are consecutive as long as no `reset` or `truncate` comes between; the
last committed decree is never above the window; and each further call lowers it only if it is a
`truncate` or a `reset`, and empties slots above it only if it is a `reset`. The slots are those of
the ring of the source: a ring that represents them does so after each call on it whose window fits
an `int`, as it does for every `put` of these calls. -/
theorem commits_in_order (capacity : Nat) (initDecree : Int) (ops : List (ListOp P W))
    (hannounces : StepsMeet next Announces (init capacity initDecree) ops) :
    (init capacity initDecree).calls ops ≠ .error .endlessPopping ∧
    ∀ l events, (init capacity initDecree).calls ops = .ok (l, events) →
      (∀ before (committed : List (Mutation P W)) after,
        events = before ++ committed.map ListEvent.committed ++ after →
        (committed.map fun mu => mu.header.decree).IsChain fun d e => e = d + 1) ∧
      l.lastCommittedDecree ≤ l.maxDecree ∧
      (0 < l.capacity → ∀ (r : MutationRing P W) op, r.Represents l.toMutationCache →
        r.Regular op → r.FitsInt op → ∀ c' result, l.toMutationCache.step op = some (c', result) →
          ∃ r', r.step op = .ok (r', result) ∧ r'.Represents c') ∧
      ∀ op l' events', l.Announces op → l.step op = .ok (l', events') →
        ((∀ d, op ≠ .truncate d ∧ op ≠ .reset d) →
          l.lastCommittedDecree ≤ l'.lastCommittedDecree) ∧
        ((∀ d, op ≠ .reset d) → ∀ d mu, l.slots d = some mu → l'.slots d = none →
          d ≤ l'.lastCommittedDecree) := by
  have hcalls := calls_sound ops (steady_init capacity initDecree) hannounces
  constructor
  · intro h
    rw [h] at hcalls
    exact hcalls rfl
  · intro l events h
    rw [h] at hcalls
    obtain ⟨hl, hfollow⟩ := hcalls
    refine ⟨?_, hl.upper, fun hpos r op hrep hregular hfits c' result hcache => ?_, ?_⟩
    · rintro before committed after rfl
      rw [follow_append, follow_append, Option.bind_eq_some_iff] at hfollow
      obtain ⟨reached, hreached, -⟩ := hfollow
      obtain ⟨start, -, hcommitted⟩ := Option.bind_eq_some_iff.mp hreached
      exact (isChain_of_follow committed hcommitted).tail
    · have hring := MutationRing.step_refines hpos hrep hl.windowed hregular hfits
      rw [hcache] at hring
      obtain ⟨r', hr, hrep', -⟩ := hring
      exact ⟨r', hr, hrep'⟩
    · intro op l' events' hannounce hstep
      have hsound := step_sound hl hannounce
      rw [hstep] at hsound
      exact ⟨hsound.le, hsound.kept⟩

/-- Decree 1 is committed, the list is truncated below it, and decree 1 is committed once more
without a `reset`. And a header that announces decree 5 with decree 1 leaves the last committed
decree above the window; then a prepare whose header announces nothing new never returns. -/
theorem truncate_commits_again :
    let mu : Mutation Unit Unit := { header := { ballot := 1, decree := 1 }, notLogged := false }
    let early : Mutation Unit Unit :=
      { header := { ballot := 1, decree := 1, lastCommittedDecree := 5 } }
    let later : Mutation Unit Unit := { header := { ballot := 1, decree := 6 } }
    (∃ l, (init 2 0).calls [.prepare mu .primary false true, .commit 1 .allReady [],
        .truncate 0, .commit 1 .allReady []] =
      .ok (l, [.committed mu, .moved 0, .committed mu])) ∧
    (∃ l events, (init 2 0).calls [.prepare early .inactive false true] = .ok (l, events) ∧
      l.count = 1 ∧ l.maxDecree < l.lastCommittedDecree) ∧
    (init 2 0).calls [.prepare early .inactive false true,
      .prepare later .inactive false true] = .error .endlessPopping :=
  ⟨⟨_, rfl⟩, ⟨_, _, rfl, rfl, by decide⟩, rfl⟩

/-- A secondary prepares two decrees, commits the first with the header of the second, and both
after a `truncate` to the first. -/
theorem commits_in_order_secondary :
    let first : Mutation Unit Unit :=
      { header := { ballot := 1, decree := 1 }, notLogged := false }
    let second : Mutation Unit Unit :=
      { header := { ballot := 1, decree := 2, lastCommittedDecree := 1 }, notLogged := false }
    let ops : List (ListOp Unit Unit) := [.prepare first .secondary false true,
      .prepare second .secondary false true, .truncate 1, .commit 2 .hard []]
    StepsMeet next Announces (init 2 0) ops ∧
    ∃ l, (init 2 0).calls ops = .ok (l, [.committed first, .moved 1, .committed second]) ∧
      l.lastCommittedDecree ≤ l.maxDecree := by
  intro first second ops
  have hannounces : StepsMeet next Announces (init 2 0) ops :=
    ⟨trivial, fun _ _ => ⟨trivial, fun _ _ => ⟨trivial, fun _ _ => ⟨trivial, fun _ _ => trivial⟩⟩⟩⟩
  exact ⟨hannounces, _, rfl, ((commits_in_order 2 0 ops hannounces).2 _ _ rfl).2.1⟩

end PrepareList

end Pegasus.Replica
