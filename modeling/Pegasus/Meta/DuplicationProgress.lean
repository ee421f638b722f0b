/-
The confirmed decree of a partition on the meta server, after `duplication_info.cpp` and
`meta_duplication_service.cpp`.

A confirm entry raises the volatile decree. If that differs from the stored one and the last update
is long enough ago, the entry triggers a write: the node of the partition is read, then created or
set, and the callback takes the volatile decree over as the stored one. What is written is the
decree of the entry that triggered the write, which may be below the volatile decree.

- `ProgressSync.Sound`: what holds with at most one write outstanding;
- `progress_is_faithful`: the main result;
- `stale_entry_is_written`: an entry of an old primary that triggers the write of a newer one.
-/

import Pegasus.Common
import Pegasus.Lib.Run

namespace Pegasus.Meta

open TransitionSystem List

structure PartitionProgress where
  lastCommittedDecree : Int := invalidDecree
  volatileDecree : Int := invalidDecree
  storedDecree : Int := invalidDecree
  isAltering : Bool := false
  lastProgressUpdateMs : Nat := 0
  isInited : Bool := false
  checkpointPrepared : Bool := false
deriving DecidableEq

/-- `duplication_confirm_entry`; the last committed decree may not be set. -/
structure ConfirmEntry where
  confirmedDecree : Int
  lastCommittedDecree : Option Int := none
  checkpointPrepared : Bool := false
deriving DecidableEq

namespace PartitionProgress

def initProgress (decree : Int) : PartitionProgress where
  volatileDecree := decree
  storedDecree := decree
  isInited := true

/-- `duplication_info::alter_progress`, with its two readings of the clock. -/
def alterProgress (minUpdatePeriodMs : Nat) (entry : ConfirmEntry) (now later : Nat)
    (p : PartitionProgress) : PartitionProgress × Bool :=
  let p := { p with lastCommittedDecree := entry.lastCommittedDecree.getD p.lastCommittedDecree }
  if p.isInited = false then (p, false)
  else if p.isAltering then (p, false)
  else
    let p := { p with
      checkpointPrepared := entry.checkpointPrepared
      volatileDecree := max p.volatileDecree entry.confirmedDecree }
    if p.volatileDecree = p.storedDecree then (p, false)
    else if now < p.lastProgressUpdateMs + minUpdatePeriodMs then (p, false)
    else ({ p with isAltering := true, lastProgressUpdateMs := later }, true)

/-- `duplication_info::persist_progress`; `none` if its `CHECK` fails. -/
def persistProgress (p : PartitionProgress) : Option PartitionProgress :=
  if p.isAltering then some { p with isAltering := false, storedDecree := p.volatileDecree }
  else none

end PartitionProgress

inductive WriteStage where
  | reading
  | writing
  | written
deriving DecidableEq

/-- A write that `do_update_partition_confirmed` has begun. -/
structure ProgressWrite where
  entry : ConfirmEntry
  stage : WriteStage := .reading
deriving DecidableEq

/-- What a callback leaves: the stored decree in memory, the node, and the decree reported. -/
structure PersistRecord where
  stored : Int
  node : Option Int
  reported : Int
deriving DecidableEq

/-- The progress of a partition, its node in the meta storage, the writes outstanding, and what has
been written and reported so far. -/
structure ProgressSync where
  progress : PartitionProgress
  node : Option Int
  writes : List ProgressWrite := []
  written : List Int := []
  persisted : List PersistRecord := []
deriving DecidableEq

inductive ProgressEvent where
  /-- A confirm entry, and two readings of the clock. -/
  | confirm (entry : ConfirmEntry) (now later : Nat)
  /-- `get_data` of a write completes. -/
  | fetched (i : Nat)
  /-- The storage has created or set the node. -/
  | stored (i : Nat)
  /-- The callback of a write. -/
  | callback (i : Nat)
deriving DecidableEq

namespace ProgressSync

variable {minUpdatePeriodMs : Nat}

def start (node : Option Int) : ProgressSync where
  progress := .initProgress (node.getD invalidDecree)
  node := node

/-- `do_update_partition_confirmed`, up to the read of the node. -/
def confirm (minUpdatePeriodMs : Nat) (entry : ConfirmEntry) (now later : Nat) (s : ProgressSync) :
    ProgressSync :=
  let (progress, alters) := s.progress.alterProgress minUpdatePeriodMs entry now later
  { s with
    progress := progress
    writes := if alters then s.writes ++ [{ entry := entry }] else s.writes }

/-- One event. A completion needs a write at that stage. -/
def step (minUpdatePeriodMs : Nat) (s : ProgressSync) : ProgressEvent → Option ProgressSync
  | .confirm entry now later => some (s.confirm minUpdatePeriodMs entry now later)
  | .fetched i => do
    let w ← s.writes[i]?
    if w.stage = .reading then some { s with writes := s.writes.set i { w with stage := .writing } }
    else none
  | .stored i => do
    let w ← s.writes[i]?
    if w.stage = .writing then
      some { s with
        node := some w.entry.confirmedDecree
        written := s.written ++ [w.entry.confirmedDecree]
        writes := s.writes.set i { w with stage := .written } }
    else none
  | .callback i => do
    let w ← s.writes[i]?
    if w.stage = .written then do
      let progress ← s.progress.persistProgress
      some { s with
        progress := progress
        writes := s.writes.eraseIdx i
        persisted := s.persisted ++ [⟨progress.storedDecree, s.node, w.entry.confirmedDecree⟩] }
    else none

/-- The entries that keep the storage faithful: an entry that triggers a write is not below the
volatile decree. -/
def Upholds (minUpdatePeriodMs : Nat) (s : ProgressSync) : ProgressEvent → Prop
  | .confirm entry now _ =>
    s.progress.volatileDecree ≤ entry.confirmedDecree ∨ s.progress.isInited = false ∨
      s.progress.isAltering = true ∨ s.progress.volatileDecree = s.progress.storedDecree ∨
        now < s.progress.lastProgressUpdateMs + minUpdatePeriodMs
  | _ => True

instance (s : ProgressSync) : ∀ e, Decidable (s.Upholds minUpdatePeriodMs e)
  | .confirm .. => inferInstanceAs (Decidable (_ ∨ _))
  | .fetched _ | .stored _ | .callback _ => isTrue trivial

/-- The decrees that have been in the node, in their order. -/
def decrees (node : Option Int) (s : ProgressSync) : List Int := node.toList ++ s.written

/-- Where the partition is: no write is outstanding, or one with the volatile decree. -/
inductive Phase (node : Option Int) (s : ProgressSync) : Prop where
  | idle (writes : s.writes = []) (altering : s.progress.isAltering = false)
      (le : s.progress.storedDecree ≤ s.progress.volatileDecree)
      (below : ∀ d ∈ s.decrees node, d ≤ s.progress.storedDecree)
  | busy (w : ProgressWrite) (writes : s.writes = [w]) (altering : s.progress.isAltering = true)
      (unwritten : w.stage ≠ .written)
      (decree : w.entry.confirmedDecree = s.progress.volatileDecree)
      (below : ∀ d ∈ s.decrees node, d ≤ s.progress.volatileDecree)
  | done (w : ProgressWrite) (writes : s.writes = [w]) (altering : s.progress.isAltering = true)
      (stage : w.stage = .written) (decree : w.entry.confirmedDecree = s.progress.volatileDecree)
      (node_eq : s.node = some s.progress.volatileDecree)
      (below : ∀ d ∈ s.decrees node, d ≤ s.progress.volatileDecree)

/-- **What holds in every run** whose entries uphold the progress. -/
structure Sound (node : Option Int) (s : ProgressSync) : Prop where
  phase : Phase node s
  sorted : (s.decrees node).Pairwise (· ≤ ·)
  faithful : ∀ r ∈ s.persisted, r.node = some r.stored ∧ r.reported = r.stored

variable {node : Option Int} {s : ProgressSync}

theorem sound_start (node : Option Int) : Sound node (start node) where
  phase := by
    refine .idle rfl rfl le_rfl ?_
    intro d hd
    cases node with
    | none => cases hd
    | some stored =>
      obtain rfl := mem_singleton.mp hd
      exact le_rfl
  sorted := by
    cases node with
    | none => exact .nil
    | some stored => exact pairwise_singleton _ _
  faithful := by
    intro r hr
    cases hr

/-! ### Confirm entries -/

section Alter

variable {p : PartitionProgress} {entry : ConfirmEntry} {now later : Nat}

theorem alterProgress_of_altering (haltering : p.isAltering = true) :
    p.alterProgress minUpdatePeriodMs entry now later =
      ({ p with lastCommittedDecree := entry.lastCommittedDecree.getD p.lastCommittedDecree },
        false) := by
  unfold PartitionProgress.alterProgress
  simp only [haltering, if_true, ite_self]

/-- What an entry triggers: nothing, or a write of a decree that differs from the stored one. -/
inductive Alters (minUpdatePeriodMs : Nat) (entry : ConfirmEntry) (now : Nat)
    (p : PartitionProgress) : PartitionProgress × Bool → Prop where
  | nothing {p' : PartitionProgress} (altering : p'.isAltering = false)
      (stored : p'.storedDecree = p.storedDecree) (le : p.volatileDecree ≤ p'.volatileDecree) :
      Alters minUpdatePeriodMs entry now p (p', false)
  | write {p' : PartitionProgress} (altering : p'.isAltering = true)
      (inited : p.isInited = true) (stored : p'.storedDecree = p.storedDecree)
      (decree : p'.volatileDecree = max p.volatileDecree entry.confirmedDecree)
      (ne : p'.volatileDecree ≠ p.storedDecree)
      (time : p.lastProgressUpdateMs + minUpdatePeriodMs ≤ now) :
      Alters minUpdatePeriodMs entry now p (p', true)

theorem alterProgress_of_idle (haltering : p.isAltering = false) :
    Alters minUpdatePeriodMs entry now p (p.alterProgress minUpdatePeriodMs entry now later) := by
  unfold PartitionProgress.alterProgress
  simp only
  split
  · exact .nothing haltering rfl le_rfl
  · rename_i hinited
    rw [if_neg (by simp [haltering])]
    split
    · exact .nothing haltering rfl (le_max_left _ _)
    · rename_i hne
      split
      · exact .nothing haltering rfl (le_max_left _ _)
      · rename_i htime
        exact .write rfl (by simpa using hinited) rfl rfl hne (not_lt.mp htime)

theorem Sound.confirm (h : Sound node s)
    (hupholds : s.Upholds minUpdatePeriodMs (.confirm entry now later)) :
    Sound node (s.confirm minUpdatePeriodMs entry now later) := by
  refine ⟨?_, h.sorted, h.faithful⟩
  unfold ProgressSync.confirm
  cases h.phase with
  | idle hwrites haltering hle hbelow =>
    have halters : Alters minUpdatePeriodMs entry now s.progress
        (s.progress.alterProgress minUpdatePeriodMs entry now later) :=
      alterProgress_of_idle haltering
    generalize s.progress.alterProgress minUpdatePeriodMs entry now later = r at halters
    cases halters with
    | nothing haltering' hstored hle' =>
      refine .idle hwrites haltering' ?_ ?_
      · exact hstored.trans_le (hle.trans hle')
      · intro d hd
        exact (hbelow d hd).trans_eq hstored.symm
    | write haltering' hinited hstored hdecree hne htime =>
      -- the entry is the highest so far
      have hentry : s.progress.volatileDecree ≤ entry.confirmedDecree := by
        rcases hupholds with hup | hup | hup | hup | hup
        · exact hup
        · rw [hinited] at hup
          cases hup
        · rw [haltering] at hup
          cases hup
        · by_contra hlt
          rw [hdecree, max_eq_left (not_le.mp hlt).le] at hne
          exact hne hup
        · exact absurd htime (not_le.mpr hup)
      rw [max_eq_right hentry] at hdecree
      refine .busy { entry := entry } ?_ haltering' (by simp) hdecree.symm ?_
      · simp only [if_true, hwrites, nil_append]
      · intro d hd
        have hd' := hbelow d hd
        change d ≤ _
        rw [hdecree]
        exact hd'.trans (hle.trans hentry)
  | busy w hwrites haltering hstage hdecree hbelow =>
    rw [alterProgress_of_altering haltering]
    exact .busy w hwrites haltering hstage hdecree hbelow
  | done w hwrites haltering hstage hdecree hnode hbelow =>
    rw [alterProgress_of_altering haltering]
    exact .done w hwrites haltering hstage hdecree hnode hbelow

end Alter

/-! ### Completions -/

variable {w : ProgressWrite} {i : Nat}

theorem eq_of_getElem?_singleton {w w' : ProgressWrite} (h : [w][i]? = some w') :
    i = 0 ∧ w = w' := by
  cases i with
  | zero => exact ⟨rfl, Option.some.inj h⟩
  | succ i => cases h

/-- A write before its end is the only one, and it has the volatile decree. -/
theorem Phase.unwritten (h : Phase node s) (hw : s.writes[i]? = some w)
    (hstage : w.stage ≠ .written) :
    i = 0 ∧ s.writes = [w] ∧ s.progress.isAltering = true ∧
      w.entry.confirmedDecree = s.progress.volatileDecree ∧
        ∀ d ∈ s.decrees node, d ≤ s.progress.volatileDecree := by
  cases h with
  | idle hwrites =>
    rw [hwrites] at hw
    cases hw
  | busy w' hwrites haltering _ hdecree hbelow =>
    rw [hwrites] at hw
    obtain ⟨rfl, rfl⟩ := eq_of_getElem?_singleton hw
    exact ⟨rfl, hwrites, haltering, hdecree, hbelow⟩
  | done w' hwrites _ hstage' =>
    rw [hwrites] at hw
    obtain ⟨rfl, rfl⟩ := eq_of_getElem?_singleton hw
    exact absurd hstage' hstage

variable (h : Sound node s) (hw : s.writes[i]? = some w)
include h hw

theorem Sound.fetched (hstage : w.stage = .reading) :
    Sound node { s with writes := s.writes.set i { w with stage := .writing } } := by
  obtain ⟨rfl, hwrites, haltering, hdecree, hbelow⟩ := h.phase.unwritten hw (by rw [hstage]; decide)
  refine ⟨.busy { w with stage := .writing } ?_ haltering ?_ hdecree hbelow, h.sorted, h.faithful⟩
  · change s.writes.set 0 _ = _
    rw [hwrites]
    rfl
  · intro hwritten
    cases hwritten

theorem Sound.stored (hstage : w.stage = .writing) :
    Sound node { s with
      node := some w.entry.confirmedDecree
      written := s.written ++ [w.entry.confirmedDecree]
      writes := s.writes.set i { w with stage := .written } } := by
  obtain ⟨rfl, hwrites, haltering, hdecree, hbelow⟩ := h.phase.unwritten hw (by rw [hstage]; decide)
  have hdecrees : node.toList ++ (s.written ++ [w.entry.confirmedDecree]) =
      s.decrees node ++ [w.entry.confirmedDecree] := (append_assoc _ _ _).symm
  refine ⟨.done { w with stage := .written } ?_ haltering rfl hdecree ?_ ?_, ?_, h.faithful⟩
  · change s.writes.set 0 _ = _
    rw [hwrites]
    rfl
  · exact congrArg some hdecree
  · intro d hd
    change d ∈ node.toList ++ (s.written ++ [w.entry.confirmedDecree]) at hd
    rw [hdecrees, mem_append, mem_singleton] at hd
    rcases hd with hd | rfl
    · exact hbelow d hd
    · exact hdecree.le
  · change (node.toList ++ (s.written ++ [w.entry.confirmedDecree])).Pairwise (· ≤ ·)
    rw [hdecrees, pairwise_append]
    refine ⟨h.sorted, pairwise_singleton _ _, ?_⟩
    intro d hd d' hd'
    obtain rfl := mem_singleton.mp hd'
    exact (hbelow d hd).trans_eq hdecree.symm

theorem Sound.callback {progress : PartitionProgress} (hstage : w.stage = .written)
    (hpersist : s.progress.persistProgress = some progress) :
    Sound node { s with
      progress := progress
      writes := s.writes.eraseIdx i
      persisted := s.persisted ++ [⟨progress.storedDecree, s.node, w.entry.confirmedDecree⟩] } := by
  cases h.phase with
  | idle hwrites =>
    rw [hwrites] at hw
    cases hw
  | busy w' hwrites _ hstage' =>
    rw [hwrites] at hw
    obtain ⟨rfl, rfl⟩ := eq_of_getElem?_singleton hw
    exact absurd hstage hstage'
  | done w' hwrites haltering _ hdecree hnode hbelow =>
    rw [hwrites] at hw
    obtain ⟨rfl, rfl⟩ := eq_of_getElem?_singleton hw
    unfold PartitionProgress.persistProgress at hpersist
    rw [if_pos haltering] at hpersist
    cases hpersist
    refine ⟨.idle ?_ rfl le_rfl hbelow, h.sorted, ?_⟩
    · change s.writes.eraseIdx 0 = []
      rw [hwrites]
      rfl
    · exact forall_mem_concat h.faithful ⟨hnode, hdecree⟩

omit hw

theorem Sound.step {e : ProgressEvent} {s' : ProgressSync}
    (hupholds : s.Upholds minUpdatePeriodMs e) (hstep : s.step minUpdatePeriodMs e = some s') :
    Sound node s' := by
  cases e with
  | confirm entry now later =>
    cases hstep
    exact h.confirm hupholds
  | fetched i =>
    obtain ⟨w, hw, hif⟩ := Option.bind_eq_some_iff.mp hstep
    obtain ⟨_, rfl⟩ := of_guard hif
    exact h.fetched hw ‹_›
  | stored i =>
    obtain ⟨w, hw, hif⟩ := Option.bind_eq_some_iff.mp hstep
    obtain ⟨_, rfl⟩ := of_guard hif
    exact h.stored hw ‹_›
  | callback i =>
    obtain ⟨w, hw, hif⟩ := Option.bind_eq_some_iff.mp hstep
    split at hif
    · obtain ⟨progress, hpersist, hnew⟩ := Option.bind_eq_some_iff.mp hif
      cases hnew
      exact h.callback hw ‹_› hpersist
    · cases hif

omit h

/-! ### The main result -/

/-- **Duplication progress is faithful and monotone.** Whatever confirm entries come, the decrees
in the node of the partition never decrease, and after every callback the stored decree is the one
in the node and the one reported, as long as no entry below the volatile decree triggers a write. -/
theorem progress_is_faithful (minUpdatePeriodMs : Nat) (node : Option Int)
    {events : List ProgressEvent} {s : ProgressSync}
    (hrun : run (step minUpdatePeriodMs) (start node) events = some s)
    (hupholds : StepsMeet (step minUpdatePeriodMs) (Upholds minUpdatePeriodMs)
      (start node) events) :
    (s.decrees node).Pairwise (· ≤ ·) ∧
      ∀ r ∈ s.persisted, r.node = some r.stored ∧ r.reported = r.stored := by
  have hsound : Sound node s :=
    run_invariant_of_steps
      (fun _ _ _ hstep hmeet hsound => hsound.step hmeet hstep) hrun hupholds (sound_start node)
  exact ⟨hsound.sorted, hsound.faithful⟩

/-- Decree 8 is written, an entry with decree 10 comes too early, and a later entry triggers the
next write. -/
def slowThenLast (last : Int) : List ProgressEvent :=
  [.confirm { confirmedDecree := 8 } 5000 5000, .fetched 0, .stored 0, .callback 0,
    .confirm { confirmedDecree := 10 } 6000 6000, .confirm { confirmedDecree := last } 10000 10000,
    .fetched 0, .stored 0, .callback 0]

/-- The progress after `slowThenLast`, where the volatile decree is 10. -/
def afterLast (last : Int) : ProgressSync where
  progress := {
    PartitionProgress.initProgress 10 with
    storedDecree := 10, lastProgressUpdateMs := 10000 }
  node := some last
  written := [8, last]
  persisted := [⟨8, some 8, 8⟩, ⟨10, some last, last⟩]

theorem progress_is_faithful_of_ten :
    run (step 5000) (start none) (slowThenLast 10) = some (afterLast 10) ∧
      ((afterLast 10).decrees none).Pairwise (· ≤ ·) ∧
        ∀ r ∈ (afterLast 10).persisted, r.node = some r.stored ∧ r.reported = r.stored := by
  have hrun : run (step 5000) (start none) (slowThenLast 10) =
      some (afterLast 10) := by decide
  constructor
  · exact hrun
  · apply progress_is_faithful 5000 none hrun
    decide

/-- An old primary reports decree 5 when the update period is over. Its entry triggers the write
of the volatile decree 10, but 5 is written over 8 and reported, and the stored decree is 10. -/
theorem stale_entry_is_written :
    run (step 5000) (start none) (slowThenLast 5) = some (afterLast 5) ∧
      ¬((afterLast 5).decrees none).Pairwise (· ≤ ·) ∧
        ¬∀ r ∈ (afterLast 5).persisted, r.node = some r.stored ∧ r.reported = r.stored := by
  decide

end ProgressSync

end Pegasus.Meta
