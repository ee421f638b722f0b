/-
Loading a private log for duplication, after `mutation_batch.cpp`.

The log of a replica is read in order and every mutation is added to a prepare list of
its own, the mutation buffer. What the buffer commits is shipped to the remote cluster.
A decree is committed when the header of a later mutation announces it, or, so as not to
wait for one, as soon as it is read when the replica has already applied that decree.

A log can hold several versions of a decree: a new primary proposes again what it found
uncommitted, with its own ballot. Which version is committed is only known once no later
one follows.

- `commitLoop_eq_some`: what a commit hands to the committer;
- `Reading`: what holds after every prefix of a log, kept by `add` (`reading_add`);
- `shipsFinalVersions_iff`: the buffer ships the last version of every decree exactly if
  no decree it commits on reading is logged again with a higher ballot.
-/

import Pegasus.Replica.PrepareList

namespace Pegasus.Duplication

open Replica Replica.PrepareList List
open Option hiding or_assoc

variable {P W : Type}

def prepareListNumEntries : Nat := 200

/-- The mutation `mutation_buffer::commit` finds at a decree, if it is there and logged. -/
def loggedAt (l : PrepareList P W) (d : Int) : Option (Mutation P W) :=
  (l.getMutationByDecree d).filter Mutation.isLogged

/-- The loop of `mutation_buffer::commit`, over `n` decrees. A lost mutation moves the last
committed decree to just below the window; a ballot that falls within one commit aborts. -/
def commitLoop : Nat → Int → PrepareList P W → Option (Committed P W)
  | 0, _, l => some (l, [])
  | n + 1, lastBallot, l =>
    match loggedAt l (l.lastCommittedDecree + 1) with
    | none => some ({ l with lastCommittedDecree := l.minDecree - 1 }, [])
    | some mu =>
      if mu.header.ballot < lastBallot then none
      else
        (commitLoop n mu.header.ballot
            { l with lastCommittedDecree := l.lastCommittedDecree + 1 }).map
          fun (next, calls) => (next, mu :: calls)

def commit (l : PrepareList P W) (decree : Int) : Option (Committed P W) :=
  commitLoop (decree - l.lastCommittedDecree).toNat 0 l

/-- A mutation read from the log, and the `last_applied_decree` of the replica as it is read. -/
structure LogRead (P W : Type) where
  mutation : Mutation P W
  lastAppliedDecree : Int

namespace LogRead

abbrev decree (r : LogRead P W) : Int := r.mutation.header.decree

abbrev ballot (r : LogRead P W) : Int := r.mutation.header.ballot

abbrev announced (r : LogRead P W) : Int := r.mutation.header.lastCommittedDecree

end LogRead

open LogRead

/-- The commit of a mutation the replica has applied, at the end of `mutation_batch::add`. -/
def commitApplied (l : PrepareList P W) (r : LogRead P W) : Option (Committed P W) :=
  if r.decree ≤ r.lastAppliedDecree then commit l r.decree else some (l, [])

/-- What `mutation_batch::add` ignores: what is committed, and a decree that is buffered with
at least the ballot. -/
def ignores (l : PrepareList P W) (r : LogRead P W) : Bool :=
  decide (r.decree ≤ l.lastCommittedDecree) ||
    (l.getMutationByDecree r.decree).any fun old => decide (r.ballot ≤ old.header.ballot)

def add (l : PrepareList P W) (r : LogRead P W) : Option (Committed P W) :=
  if ignores l r then some (l, [])
  else do
    let (prepared, announcedCalls) ← prepareInactive commit l r.mutation
    let (next, appliedCalls) ← commitApplied prepared r
    some (next, announcedCalls ++ appliedCalls)

/-- `mutation_batch::add` for every mutation of a log. -/
def addAll : PrepareList P W → List (LogRead P W) → Option (Committed P W)
  | l, [] => some (l, [])
  | l, r :: log => do
    let (next, calls) ← add l r
    let (last, rest) ← addAll next log
    some (last, calls ++ rest)

/-! ### Committing -/

variable {l l' : PrepareList P W} {calls new : List (Mutation P W)} {confirmed : Int}
  {log : List (LogRead P W)} {d : Int} {r : LogRead P W} {n : Nat} {lastBallot : Int}

/-- Committing `n` decrees that are all there calls the committer with the mutation of each of
them, in increasing order, and with nothing else. -/
theorem commitLoop_eq_some
    (keyed : ∀ d mu, l.slots d = some mu → mu.header.decree = d)
    (there : ∀ d, l.lastCommittedDecree < d → d ≤ l.lastCommittedDecree + n →
      ∃ mu, l.slots d = some mu ∧ loggedAt l d = some mu)
    (hcommit : commitLoop n lastBallot l = some (l', calls)) :
    l' = { l with lastCommittedDecree := l.lastCommittedDecree + n } ∧
      calls.Pairwise (fun mu mu' => mu.header.decree < mu'.header.decree) ∧
      ∀ mu, mu ∈ calls ↔ ∃ d, l.lastCommittedDecree < d ∧ d ≤ l.lastCommittedDecree + n ∧
        l.slots d = some mu := by
  induction n generalizing lastBallot l calls with
  | zero =>
    obtain ⟨rfl, rfl⟩ : l = l' ∧ [] = calls := by simpa [commitLoop] using hcommit
    refine ⟨by simp, .nil, fun mu => ?_⟩
    simp only [not_mem_nil, false_iff, not_exists]
    rintro d ⟨hlower, hupper, _⟩
    simp at hupper
    omega
  | succ n ih =>
    obtain ⟨mu, hslot, hnext⟩ := there (l.lastCommittedDecree + 1) (by omega) (by omega)
    by_cases hballot : mu.header.ballot < lastBallot
    · simp [commitLoop, hnext, hballot] at hcommit
    simp only [commitLoop, hnext, hballot, if_false, map_eq_some_iff, Prod.exists] at hcommit
    obtain ⟨l₁, rest, hrest, heq⟩ := hcommit
    obtain ⟨rfl, rfl⟩ := Prod.mk.inj heq
    have there' : ∀ d, l.lastCommittedDecree + 1 < d → d ≤ l.lastCommittedDecree + 1 + n →
        ∃ mu, l.slots d = some mu ∧ loggedAt l d = some mu :=
      fun d hlower hupper => there d (by omega) (by omega)
    obtain ⟨hl', hsorted, hmem⟩ :=
      ih (l := { l with lastCommittedDecree := l.lastCommittedDecree + 1 }) keyed there' hrest
    dsimp only at hl' hmem
    refine ⟨?_, ?_, ?_⟩
    · rw [hl']
      congr 1
      omega
    · refine pairwise_cons.mpr ⟨fun mu' hmu' => ?_, hsorted⟩
      obtain ⟨d, hlower, _, hd⟩ := (hmem mu').mp hmu'
      rw [keyed _ _ hslot, keyed _ _ hd]
      exact hlower
    · intro mu'
      rw [mem_cons, hmem]
      constructor
      · rintro (rfl | ⟨d, hlower, hupper, hd⟩)
        · exact ⟨_, by omega, by omega, hslot⟩
        · exact ⟨d, by omega, by omega, hd⟩
      · rintro ⟨d, hlower, hupper, hd⟩
        by_cases h : d = l.lastCommittedDecree + 1
        · subst h
          exact .inl (mem_unique hd hslot)
        · exact .inr ⟨d, by omega, by omega, hd⟩

theorem commitLoop_isSome
    (there : ∀ d, l.lastCommittedDecree < d → d ≤ l.lastCommittedDecree + n →
      ∃ mu, l.slots d = some mu ∧ loggedAt l d = some mu ∧ lastBallot ≤ mu.header.ballot)
    (sorted : ∀ d d' mu mu', l.lastCommittedDecree < d → d < d' →
      d' ≤ l.lastCommittedDecree + n → l.slots d = some mu → l.slots d' = some mu' →
        mu.header.ballot ≤ mu'.header.ballot) :
    ∃ result, commitLoop n lastBallot l = some result := by
  induction n generalizing lastBallot l with
  | zero => exact ⟨_, rfl⟩
  | succ n ih =>
    obtain ⟨mu, hslot, hnext, hballot⟩ := there (l.lastCommittedDecree + 1) (by omega) (by omega)
    have hrest : ∃ result, commitLoop n mu.header.ballot
        { l with lastCommittedDecree := l.lastCommittedDecree + 1 } = some result := by
      apply ih
      · intro d hlower hupper
        dsimp only at hlower hupper
        obtain ⟨mu', hslot', hnext, _⟩ := there d (by omega) (by omega)
        exact ⟨mu', hslot', hnext, sorted _ d mu mu' (by omega) (by omega) (by omega) hslot hslot'⟩
      · intro d d' mu₁ mu₂ hlower hlt hupper
        dsimp only at hlower hupper
        exact sorted d d' mu₁ mu₂ (by omega) hlt (by omega)
    obtain ⟨result, hresult⟩ := hrest
    refine ⟨(result.1, mu :: result.2), ?_⟩
    simp only [commitLoop, hnext, Int.not_lt.mpr hballot, if_false, hresult, map_some]

/-! ### Reading a log -/

/-- No version of the decree in the log has a higher ballot. -/
def Highest (log : List (LogRead P W)) (mu : Mutation P W) : Prop :=
  ∀ r ∈ log, r.decree = mu.header.decree → r.ballot ≤ mu.header.ballot

/-- What the buffer and the calls of the committer are after reading `log`: the calls are those
of the decrees in `(confirmed, last_committed]`, and the slots above hold the highest version
of their decree so far. -/
structure Reading (confirmed : Int) (log : List (LogRead P W)) (l : PrepareList P W)
    (calls : List (Mutation P W)) : Prop where
  wellFormed : l.WellFormed
  capacity_eq : l.capacity = prepareListNumEntries
  fits : l.count ≤ l.capacity
  started : confirmed ≤ l.lastCommittedDecree
  sorted : calls.Pairwise fun mu mu' => mu.header.decree < mu'.header.decree
  covers : ∀ d, (∃ mu ∈ calls, mu.header.decree = d) ↔ confirmed < d ∧ d ≤ l.lastCommittedDecree
  calls_logged : ∀ mu ∈ calls, ∃ r ∈ log, r.mutation = mu
  below_max : ∀ r ∈ log, r.decree ≤ l.maxDecree
  slots_logged : ∀ d mu, l.lastCommittedDecree < d → l.slots d = some mu →
    ∃ r ∈ log, r.mutation = mu
  slots_highest : ∀ d, l.lastCommittedDecree < d → d ≤ l.maxDecree →
    ∃ mu, l.slots d = some mu ∧ Highest log mu

theorem reading_init (confirmed : Int) :
    Reading confirmed [] (.init prepareListNumEntries confirmed : PrepareList P W) [] where
  wellFormed := wellFormed_init _ _
  capacity_eq := rfl
  fits := Nat.zero_le _
  started := Int.le_refl _
  sorted := .nil
  covers := fun d => by
    simp only [not_mem_nil, false_and, exists_false, false_iff]
    intro h
    have : d ≤ confirmed := h.2
    omega
  calls_logged := by simp
  below_max := by simp
  slots_logged := by simp [PrepareList.init, MutationCache.init]
  slots_highest := fun d hlower hupper => absurd (Int.lt_of_lt_of_le hlower hupper) (Int.lt_irrefl _)

theorem Reading.getMutationByDecree_eq (reading : Reading confirmed log l calls)
    (lower : l.lastCommittedDecree < d) (upper : d ≤ l.maxDecree) :
    l.getMutationByDecree d = l.slots d := by
  have := reading.wellFormed.lower
  rw [MutationCache.getMutationByDecree, if_neg (by omega)]

theorem Reading.loggedAt_eq (reading : Reading confirmed log l calls)
    (logged : ∀ r ∈ log, r.mutation.isLogged = true) (lower : l.lastCommittedDecree < d)
    (upper : d ≤ l.maxDecree) {mu : Mutation P W} (slot : l.slots d = some mu) :
    loggedAt l d = some mu := by
  obtain ⟨r, hr, rfl⟩ := reading.slots_logged d mu lower slot
  rw [loggedAt, reading.getMutationByDecree_eq lower upper, slot, filter_some, if_pos (logged r hr)]

/-- What committing up to decree `d` does to the buffer: nothing but the last committed decree
changes, and every call is the highest version read. -/
structure Commits (confirmed : Int) (log : List (LogRead P W)) (l : PrepareList P W)
    (calls : List (Mutation P W)) (d : Int) (l' : PrepareList P W) (new : List (Mutation P W)) :
    Prop where
  reading : Reading confirmed log l' (calls ++ new)
  committed_eq : l'.lastCommittedDecree = max l.lastCommittedDecree d
  max_eq : l'.maxDecree = l.maxDecree
  slots_eq : l'.slots = l.slots
  new_le : ∀ mu ∈ new, mu.header.decree ≤ d
  new_highest : ∀ mu ∈ new, Highest log mu

theorem Reading.commits_nil (reading : Reading confirmed log l calls)
    (committed : d ≤ l.lastCommittedDecree) : Commits confirmed log l calls d l [] where
  reading := by simpa using reading
  committed_eq := (Int.max_eq_left committed).symm
  max_eq := rfl
  slots_eq := rfl
  new_le := by simp
  new_highest := by simp

theorem Reading.commits_commit (reading : Reading confirmed log l calls)
    (logged : ∀ r ∈ log, r.mutation.isLogged = true)
    (lower : l.lastCommittedDecree ≤ d) (upper : d ≤ l.maxDecree)
    (hcommit : commit l d = some (l', new)) : Commits confirmed log l calls d l' new := by
  have hn : l.lastCommittedDecree + ((d - l.lastCommittedDecree).toNat : Int) = d := by omega
  have there : ∀ e, l.lastCommittedDecree < e →
      e ≤ l.lastCommittedDecree + (d - l.lastCommittedDecree).toNat →
        ∃ mu, l.slots e = some mu ∧ loggedAt l e = some mu := by
    intro e hlower hupper
    obtain ⟨mu, hmu, _⟩ := reading.slots_highest e hlower (by omega)
    exact ⟨mu, hmu, reading.loggedAt_eq logged hlower (by omega) hmu⟩
  obtain ⟨rfl, hsorted, hmem⟩ := commitLoop_eq_some reading.wellFormed.keyed there hcommit
  simp only [hn] at hmem ⊢
  have hwf := reading.wellFormed
  have hstarted := reading.started
  constructor
  · constructor
    · refine ⟨?_, hwf.keyed, ?_, upper⟩
      · rcases hwf.span with ⟨hzero, hmin, hlast⟩ | h
        · refine .inl ⟨hzero, hmin, ?_⟩
          change d = l.maxDecree
          omega
        · exact .inr h
      · have := hwf.lower
        change l.minDecree ≤ d + 1
        omega
    · exact reading.capacity_eq
    · exact reading.fits
    · exact Int.le_trans hstarted lower
    · -- the new calls are above the last committed decree, the old ones are not
      refine pairwise_append.mpr ⟨reading.sorted, hsorted, ?_⟩
      intro mu hmu mu' hmu'
      obtain ⟨e, hlower, _, hslot⟩ := (hmem mu').mp hmu'
      have hold := ((reading.covers _).mp ⟨mu, hmu, rfl⟩).2
      rw [hwf.keyed _ _ hslot]
      exact Int.lt_of_le_of_lt hold hlower
    · intro e
      constructor
      · rintro ⟨mu, hmu, rfl⟩
        rcases mem_append.mp hmu with hmu | hmu
        · obtain ⟨h, h'⟩ := (reading.covers _).mp ⟨mu, hmu, rfl⟩
          exact ⟨h, Int.le_trans h' lower⟩
        · obtain ⟨e, hlower, hupper, hslot⟩ := (hmem mu).mp hmu
          rw [hwf.keyed _ _ hslot]
          exact ⟨by omega, hupper⟩
      · rintro ⟨hlower, hupper⟩
        dsimp only at hupper
        by_cases he : e ≤ l.lastCommittedDecree
        · obtain ⟨mu, hmu, hdecree⟩ := (reading.covers e).mpr ⟨hlower, he⟩
          exact ⟨mu, mem_append_left _ hmu, hdecree⟩
        · obtain ⟨mu, hslot, _⟩ := reading.slots_highest e (by omega) (by omega)
          exact ⟨mu, mem_append_right _ ((hmem mu).mpr ⟨e, by omega, hupper, hslot⟩),
            hwf.keyed _ _ hslot⟩
    · intro mu hmu
      rcases mem_append.mp hmu with hmu | hmu
      · exact reading.calls_logged mu hmu
      · obtain ⟨e, hlower, _, hslot⟩ := (hmem mu).mp hmu
        exact reading.slots_logged e mu hlower hslot
    · exact reading.below_max
    · exact fun e mu hlower => reading.slots_logged e mu (Int.lt_of_le_of_lt lower hlower)
    · intro e hlower hupper
      exact reading.slots_highest e (Int.lt_of_le_of_lt lower hlower) hupper
  · exact (Int.max_eq_right lower).symm
  · rfl
  · rfl
  · intro mu hmu
    obtain ⟨e, _, hupper, hslot⟩ := (hmem mu).mp hmu
    rw [hwf.keyed _ _ hslot]
    exact hupper
  · intro mu hmu
    obtain ⟨e, hlower, hupper, hslot⟩ := (hmem mu).mp hmu
    obtain ⟨mu', hslot', hhighest⟩ := reading.slots_highest e hlower (by omega)
    obtain rfl : mu = mu' := mem_unique hslot hslot'
    exact hhighest

/-- No earlier version of the decree has the ballot of `r` or a higher one. -/
def Fresh (log : List (LogRead P W)) (r : LogRead P W) : Prop :=
  ∀ q ∈ log, q.decree = r.decree → q.ballot < r.ballot

theorem ignores_eq_false_iff {r : LogRead P W} :
    ignores l r = false ↔ l.lastCommittedDecree < r.decree ∧
      ∀ old, l.getMutationByDecree r.decree = some old → old.header.ballot < r.ballot := by
  unfold ignores
  cases h : l.getMutationByDecree r.decree <;> simp

section

theorem Highest.append {mu : Mutation P W} (highest : Highest log mu)
    (last : r.decree = mu.header.decree → r.ballot ≤ mu.header.ballot) :
    Highest (log ++ [r]) mu := by
  exact forall_mem_concat highest last

variable (reading : Reading confirmed log l calls)
include reading

theorem Reading.fresh_of_not_ignores (hread : ignores l r = false) : Fresh log r := by
  obtain ⟨hlower, hold⟩ := ignores_eq_false_iff.mp hread
  intro q hq hdecree
  have hupper : r.decree ≤ l.maxDecree := hdecree ▸ reading.below_max q hq
  obtain ⟨old, hslot, hhighest⟩ := reading.slots_highest _ hlower hupper
  have hkey := reading.wellFormed.keyed _ _ hslot
  have hget := (reading.getMutationByDecree_eq hlower hupper).trans hslot
  exact Int.lt_of_le_of_lt (hhighest q hq (hdecree.trans hkey.symm)) (hold old hget)

theorem Reading.append_of_ignores (hread : ignores l r = true) :
    Reading confirmed (log ++ [r]) l calls where
  wellFormed := reading.wellFormed
  capacity_eq := reading.capacity_eq
  fits := reading.fits
  started := reading.started
  sorted := reading.sorted
  covers := reading.covers
  calls_logged := fun mu hmu =>
    (reading.calls_logged mu hmu).imp fun _ h => ⟨mem_append_left _ h.1, h.2⟩
  below_max := by
    refine forall_mem_concat reading.below_max ?_
    by_contra hupper
    have hupper := Int.lt_of_not_ge hupper
    have hnone : l.getMutationByDecree r.decree = none := by
      rw [MutationCache.getMutationByDecree, if_pos (.inr hupper)]
    have : ignores l r = false := ignores_eq_false_iff.mpr
      ⟨Int.lt_of_le_of_lt reading.wellFormed.upper hupper, by simp [hnone]⟩
    rw [hread] at this
    exact Bool.noConfusion this
  slots_logged := fun d mu hlower hmu =>
    (reading.slots_logged d mu hlower hmu).imp fun _ h => ⟨mem_append_left _ h.1, h.2⟩
  slots_highest := by
    intro d hlower hupper
    obtain ⟨mu, hslot, hhighest⟩ := reading.slots_highest d hlower hupper
    have hkey := reading.wellFormed.keyed _ _ hslot
    refine ⟨mu, hslot, hhighest.append fun hdecree => ?_⟩
    by_contra hballot
    have hget : l.getMutationByDecree r.decree = some mu := by
      rw [hdecree, hkey, reading.getMutationByDecree_eq hlower hupper, hslot]
    have : ignores l r = false := ignores_eq_false_iff.mpr
      ⟨by omega, by rintro old h; rw [hget] at h; rw [← some.inj h]; omega⟩
    rw [hread] at this
    exact Bool.noConfusion this

theorem Reading.append_of_prepare (fresh : Fresh log r) (lower : l.lastCommittedDecree < r.decree)
    (next : r.decree ≤ l.maxDecree + 1)
    (room : r.decree - l.lastCommittedDecree < prepareListNumEntries) :
    ∃ l', popAndPutChecked false l r.mutation = some l' ∧
      Reading confirmed (log ++ [r]) l' calls ∧
      l'.lastCommittedDecree = l.lastCommittedDecree ∧ r.decree ≤ l'.maxDecree := by
  have hreplace : l.mayReplace r.mutation = true := by
    unfold MutationCache.mayReplace
    cases hslot : l.slots r.decree with
    | none => rfl
    | some old =>
      obtain ⟨q, hq, rfl⟩ := reading.slots_logged _ _ lower hslot
      exact decide_eq_true (Int.le_of_lt (fresh q hq (reading.wellFormed.keyed _ _ hslot)))
  obtain ⟨l', hput, hfits, prepared⟩ := popAndPut_prepared false reading.wellFormed lower
    next hreplace (.inl (by rw [reading.capacity_eq]; exact room)) reading.fits
  have hmax : l'.maxDecree = max l.maxDecree r.decree := prepared.max_eq
  refine ⟨l', by rw [popAndPutChecked, hput], ?_, prepared.committed_eq, by omega⟩
  constructor
  · exact prepared.wellFormed
  · exact prepared.capacity_eq.trans reading.capacity_eq
  · exact hfits
  · rw [prepared.committed_eq]
    exact reading.started
  · exact reading.sorted
  · rw [prepared.committed_eq]
    exact reading.covers
  · exact fun mu hmu => (reading.calls_logged mu hmu).imp fun _ h => ⟨mem_append_left _ h.1, h.2⟩
  · intro q hq
    rcases mem_concat_iff.mp hq with hq | rfl
    · have := reading.below_max q hq
      omega
    · omega
  · intro d mu hlower hslot
    rw [prepared.committed_eq] at hlower
    by_cases hd : d = r.decree
    · subst hd
      exact ⟨r, mem_append_right _ (mem_singleton_self r), mem_unique prepared.slot_eq hslot⟩
    · rw [prepared.slots_eq d hlower hd] at hslot
      exact (reading.slots_logged d mu hlower hslot).imp fun _ h => ⟨mem_append_left _ h.1, h.2⟩
  · intro d hlower hupper
    rw [prepared.committed_eq] at hlower
    by_cases hd : d = r.decree
    · subst hd
      refine ⟨r.mutation, prepared.slot_eq, ?_⟩
      exact Highest.append (fun q hq hdecree => Int.le_of_lt (fresh q hq hdecree))
        fun _ => Int.le_refl _
    · obtain ⟨mu, hslot, hhighest⟩ := reading.slots_highest d hlower (by omega)
      refine ⟨mu, (prepared.slots_eq d hlower hd).trans hslot, hhighest.append fun hdecree => ?_⟩
      exact absurd (hdecree.trans (reading.wellFormed.keyed _ _ hslot)).symm hd

omit reading in
/-- The ballots of the versions do not fall from decree to decree up to `d`: each of them is
logged with the ballot of any lower decree or a higher one. -/
def BallotsFollow (log : List (LogRead P W)) (d : Int) : Prop :=
  ∀ q ∈ log, ∀ e, q.decree < e → e ≤ d → ∃ p ∈ log, p.decree = e ∧ q.ballot ≤ p.ballot

omit reading in
/-- The same for the versions of the decrees above `floor`. -/
def BallotsFollowAbove (floor : Int) (log : List (LogRead P W)) (d : Int) : Prop :=
  ∀ q ∈ log, floor < q.decree → ∀ e, q.decree < e → e ≤ d →
    ∃ p ∈ log, p.decree = e ∧ q.ballot ≤ p.ballot

variable (logged : ∀ q ∈ log, q.mutation.isLogged = true)
include logged

theorem Reading.commit_isSome (nonneg : ∀ q ∈ log, 0 ≤ q.ballot) {d : Int} (upper : d ≤ l.maxDecree)
    (follow : BallotsFollowAbove confirmed log d) : ∃ result, commit l d = some result := by
  apply commitLoop_isSome
  · intro e hlower hupper
    obtain ⟨mu, hslot, _⟩ := reading.slots_highest e hlower (by omega)
    obtain ⟨q, hq, rfl⟩ := reading.slots_logged e mu hlower hslot
    exact ⟨_, hslot, reading.loggedAt_eq logged hlower (by omega) hslot, nonneg q hq⟩
  · intro e e' mu mu' hlower hlt hupper hslot hslot'
    obtain ⟨q, hq, rfl⟩ := reading.slots_logged e mu hlower hslot
    obtain ⟨mu'', hslot'', hhighest⟩ := reading.slots_highest e' (by omega) (by omega)
    obtain rfl : mu' = mu'' := mem_unique hslot' hslot''
    have hkey : q.decree = e := reading.wellFormed.keyed _ _ hslot
    have hstarted := reading.started
    obtain ⟨p, hp, hdecree, hballot⟩ := follow q hq (by omega) e' (hkey ▸ hlt) (by omega)
    have hkey' := reading.wellFormed.keyed _ _ hslot'
    exact Int.le_trans hballot (hhighest p hp (hdecree.trans hkey'.symm))

theorem Reading.commits_announced (upper : r.announced ≤ l.maxDecree) {m : PrepareList P W}
    (hcommit : commitAnnounced commit l r.mutation = some (m, new)) :
    Commits confirmed log l calls r.announced m new := by
  rw [commitAnnounced, if_neg (Int.not_lt.mpr upper)] at hcommit
  split at hcommit
  · rename_i hlower
    exact reading.commits_commit logged (Int.le_of_lt hlower) upper hcommit
  · rename_i hlower
    obtain ⟨rfl, rfl⟩ := Prod.mk.inj (some.inj hcommit)
    exact reading.commits_nil (Int.not_lt.mp hlower)

theorem Reading.commitAnnounced_isSome (nonneg : ∀ q ∈ log, 0 ≤ q.ballot)
    (upper : r.announced ≤ l.maxDecree) (follow : BallotsFollowAbove confirmed log r.announced) :
    ∃ result, commitAnnounced commit l r.mutation = some result := by
  rw [commitAnnounced, if_neg (Int.not_lt.mpr upper)]
  split
  · exact reading.commit_isSome logged nonneg upper follow
  · exact ⟨_, rfl⟩

omit logged reading in
/-- What a replica can have read as one mutation of its log, when the buffer reaches up to
`maxDecree`: it is logged, of the next decree or an earlier one, and announces a last
committed decree below its own by no more than the buffer holds. -/
structure Admissible (maxDecree : Int) (r : LogRead P W) : Prop where
  logged : r.mutation.isLogged = true
  next : r.decree ≤ maxDecree + 1
  announced_lt : r.announced < r.decree
  window : r.decree < r.announced + prepareListNumEntries

omit logged reading in
def LogRead.settledDecree (r : LogRead P W) : Int :=
  if r.decree ≤ r.lastAppliedDecree then r.decree else r.announced

omit logged reading in
theorem LogRead.announced_le_settledDecree (h : r.announced < r.decree) :
    r.announced ≤ r.settledDecree := by
  unfold settledDecree
  split <;> omega

omit logged reading in
structure Reads (confirmed : Int) (log : List (LogRead P W)) (calls : List (Mutation P W))
    (r : LogRead P W) (l' : PrepareList P W) (new : List (Mutation P W)) : Prop where
  reading : Reading confirmed (log ++ [r]) l' (calls ++ new)
  new_le : ∀ mu ∈ new, mu.header.decree ≤ r.settledDecree
  new_highest : ∀ mu ∈ new, Highest (log ++ [r]) mu
  applied : r.decree ≤ r.lastAppliedDecree → r.decree ≤ l'.lastCommittedDecree

theorem Reading.append_of_announced (admissible : Admissible l.maxDecree r)
    (hread : ignores l r = false) {m : PrepareList P W} {new : List (Mutation P W)}
    (hcommit : commitAnnounced commit l r.mutation = some (m, new)) :
    ∃ p, prepareInactive commit l r.mutation = some (p, new) ∧
      Reading confirmed (log ++ [r]) p (calls ++ new) ∧
      p.lastCommittedDecree < r.decree ∧ r.decree ≤ p.maxDecree ∧
      ∀ mu ∈ new, mu.header.decree ≤ r.announced ∧ Highest (log ++ [r]) mu := by
  have hlower := (ignores_eq_false_iff.mp hread).1
  obtain ⟨_, hnext, hannounced, hwindow⟩ := admissible
  have hcommits := reading.commits_announced logged (by omega) hcommit
  have hcommitted := hcommits.committed_eq
  obtain ⟨p, hput, hreading, hlast, hmax⟩ := hcommits.reading.append_of_prepare
    (reading.fresh_of_not_ignores hread) (by omega) (by rw [hcommits.max_eq]; exact hnext)
    (by omega)
  refine ⟨p, ?_, hreading, by omega, hmax, fun mu hmu => ⟨hcommits.new_le mu hmu, ?_⟩⟩
  · simp only [prepareInactive, Int.not_le.mpr hlower, if_false, hcommit, hput,
      bind_eq_bind, bind_some]
  · refine (hcommits.new_highest mu hmu).append fun hdecree => ?_
    have := hcommits.new_le mu hmu
    omega

/-- **One read keeps the reading invariant**, whatever it commits. -/
theorem Reading.reads_of_add (admissible : Admissible l.maxDecree r)
    (hread : ignores l r = false) (hadd : add l r = some (l', new)) :
    Reads confirmed log calls r l' new := by
  simp only [add, hread, Bool.false_eq_true, if_false, bind_eq_bind, bind_eq_some_iff] at hadd
  obtain ⟨⟨p, announcedCalls⟩, hprepare, ⟨⟨last, appliedCalls⟩, happlied, heq⟩⟩ := hadd
  simp only [some.injEq, Prod.mk.injEq] at heq
  obtain ⟨rfl, rfl⟩ := heq
  have hprepare' := hprepare
  have hlower := (ignores_eq_false_iff.mp hread).1
  simp only [prepareInactive, Int.not_le.mpr hlower, if_false, bind_eq_bind,
    bind_eq_some_iff] at hprepare'
  obtain ⟨⟨m, new⟩, hcommit, ⟨p', _, heq⟩⟩ := hprepare'
  obtain ⟨rfl, rfl⟩ := Prod.mk.inj (some.inj heq)
  obtain ⟨p, hprepare', hreading, hlast, hmax, hnew⟩ :=
    reading.append_of_announced logged admissible hread hcommit
  obtain rfl : p' = p := (Prod.mk.inj (mem_unique hprepare hprepare')).1
  have hsettled := announced_le_settledDecree admissible.announced_lt
  have logged' : ∀ q ∈ log ++ [r], q.mutation.isLogged = true := by
    exact forall_mem_concat logged admissible.logged
  unfold commitApplied at happlied
  split at happlied
  · rename_i hle
    have hcommits := hreading.commits_commit logged' (Int.le_of_lt hlast) hmax happlied
    have hcommitted := hcommits.committed_eq
    refine ⟨by simpa using hcommits.reading, ?_, ?_, fun _ => by omega⟩
    · intro mu hmu
      rcases mem_append.mp hmu with hmu | hmu
      · exact Int.le_trans (hnew mu hmu).1 hsettled
      · rw [settledDecree, if_pos hle]
        exact hcommits.new_le mu hmu
    · intro mu hmu
      rcases mem_append.mp hmu with hmu | hmu
      · exact (hnew mu hmu).2
      · exact hcommits.new_highest mu hmu
  · rename_i hle
    obtain ⟨rfl, rfl⟩ := Prod.mk.inj (some.inj happlied)
    refine ⟨by simpa using hreading, ?_, ?_, fun h => absurd h hle⟩
    · intro mu hmu
      exact Int.le_trans (hnew mu (by simpa using hmu)).1 hsettled
    · intro mu hmu
      exact (hnew mu (by simpa using hmu)).2

omit logged

theorem Reading.add_isSome (logged : ∀ q ∈ log ++ [r], q.mutation.isLogged = true)
    (nonneg : ∀ q ∈ log ++ [r], 0 ≤ q.ballot) (admissible : Admissible l.maxDecree r)
    (hread : ignores l r = false)
    (follow : BallotsFollowAbove confirmed (log ++ [r]) r.settledDecree) :
    ∃ result, add l r = some result := by
  have hannounced := admissible.announced_lt
  have hnext := admissible.next
  have hsettled := announced_le_settledDecree hannounced
  -- what is committed first is below the decree of `r`, so `r` itself is no version of it
  have hfollow : BallotsFollowAbove confirmed log r.announced := by
    intro q hq hfloor e hlt hle
    obtain ⟨p, hp, hdecree, hballot⟩ :=
      follow q (mem_append_left _ hq) hfloor e hlt (Int.le_trans hle hsettled)
    rcases mem_concat_iff.mp hp with hp | rfl
    · exact ⟨p, hp, hdecree, hballot⟩
    · omega
  have logged₀ : ∀ q ∈ log, q.mutation.isLogged = true :=
    fun q hq => logged q (mem_append_left _ hq)
  obtain ⟨⟨m, new⟩, hcommit⟩ := reading.commitAnnounced_isSome logged₀
    (fun q hq => nonneg q (mem_append_left _ hq)) (by omega) hfollow
  obtain ⟨p, hprepare, hreading, _, hmax, _⟩ :=
    reading.append_of_announced logged₀ admissible hread hcommit
  have happlied : ∃ result, commitApplied p r = some result := by
    unfold commitApplied
    split
    · rename_i hle
      rw [settledDecree, if_pos hle] at follow
      exact hreading.commit_isSome logged nonneg hmax follow
    · exact ⟨_, rfl⟩
  obtain ⟨⟨last, appliedCalls⟩, happlied⟩ := happlied
  exact ⟨(last, new ++ appliedCalls), by simp [add, hread, hprepare, happlied]⟩

omit reading

theorem addAll_append (l : PrepareList P W) (log log' : List (LogRead P W)) :
    addAll l (log ++ log') = (addAll l log).bind fun (next, calls) =>
      (addAll next log').map fun (last, rest) => (last, calls ++ rest) := by
  induction log generalizing l with
  | nil => simp [addAll]
  | cons r log ih =>
    cases hadd : add l r with
    | none => simp [addAll, hadd]
    | some result =>
      cases hall : addAll result.1 log with
      | none => simp [addAll, hadd, ih, hall]
      | some result' => cases hall' : addAll result'.1 log' <;> simp [addAll, hadd, ih, hall, hall']

end

/-! ### Logs of a replica -/

/-- A log a replica can have written after the confirmed decree, with the last applied decree
seen at each read.

- its decrees are contiguous, each possibly logged again;
- a header announces a last committed decree below its own, by less than the prepare list of
  the replica holds, and no decree is logged again once a header has announced it committed;
- the decrees committed by a read, which the replica has itself committed, have versions whose
  ballots do not fall from decree to decree. -/
structure WritableLog (confirmed : Int) (log : List (LogRead P W)) : Prop where
  logged : ∀ r ∈ log, r.mutation.isLogged = true
  nonneg : ∀ r ∈ log, 0 ≤ r.ballot
  above : ∀ r ∈ log, confirmed < r.decree
  contiguous : ∀ pre r post, log = pre ++ r :: post →
    ∀ d, confirmed < d → d < r.decree → ∃ q ∈ pre, q.decree = d
  announced_lt : ∀ r ∈ log, r.announced < r.decree
  window : ∀ r ∈ log, r.decree < r.announced + prepareListNumEntries
  announced_final : log.Pairwise fun q r => q.announced < r.decree
  follow : ∀ r ∈ log, BallotsFollow log r.settledDecree

/-- Duplication ships the committed version of each decree exactly once: after the log is read,
the committer was called for every decree in `(confirmed, last_decree]`, in increasing order,
and with the version of the highest ballot. -/
def ShipsFinalVersions (confirmed : Int) (log : List (LogRead P W)) : Prop :=
  ∃ l calls, addAll (.init prepareListNumEntries confirmed) log = some (l, calls) ∧
    (calls.Pairwise fun mu mu' => mu.header.decree < mu'.header.decree) ∧
    (∀ d, (∃ mu ∈ calls, mu.header.decree = d) ↔ confirmed < d ∧ d ≤ l.lastCommittedDecree) ∧
    ∀ mu ∈ calls, (∃ r ∈ log, r.mutation = mu) ∧ Highest log mu

/-- Nothing that is committed because the replica has applied its decree is rewritten later:
when a version that `add` does not ignore is read and its decree is applied, no version of this
decree or a lower one follows with a higher ballot than those read so far. -/
def NoRewriteOfApplied (log : List (LogRead P W)) : Prop :=
  ∀ pre r post, log = pre ++ r :: post → Fresh pre r → r.decree ≤ r.lastAppliedDecree →
    ∀ q ∈ post, q.decree ≤ r.decree → ∃ p ∈ pre ++ [r], p.decree = q.decree ∧ q.ballot ≤ p.ballot

section

variable {confirmed : Int} {log pre post : List (LogRead P W)} {r : LogRead P W}
  {l : PrepareList P W} {calls : List (Mutation P W)}

variable (writable : WritableLog confirmed log) (hlog : log = pre ++ r :: post)
include writable hlog

theorem WritableLog.admissible (reading : Reading confirmed pre l calls) :
    Admissible l.maxDecree r := by
  have hr : r ∈ log := by simp [hlog]
  refine ⟨writable.logged r hr, ?_, writable.announced_lt r hr, writable.window r hr⟩
  by_contra hnext
  have hmax : confirmed ≤ l.maxDecree := Int.le_trans reading.started reading.wellFormed.upper
  obtain ⟨q, hq, hdecree⟩ :=
    writable.contiguous pre r post hlog (l.maxDecree + 1) (by omega) (by omega)
  have := reading.below_max q hq
  omega

/-- Once a version is read that commits decrees, no later version of those decrees has a higher
ballot. -/
theorem WritableLog.settled (noRewrite : NoRewriteOfApplied log) (fresh : Fresh pre r)
    {q : LogRead P W} (hq : q ∈ post) (hle : q.decree ≤ r.settledDecree) :
    ∃ p ∈ pre ++ [r], p.decree = q.decree ∧ q.ballot ≤ p.ballot := by
  unfold settledDecree at hle
  split at hle
  · rename_i happlied
    exact noRewrite pre r post hlog fresh happlied q hq hle
  · have hfinal := writable.announced_final
    rw [hlog, pairwise_append, pairwise_cons] at hfinal
    have := hfinal.2.1.1 q hq
    omega

theorem WritableLog.ballotsFollow (noRewrite : NoRewriteOfApplied log) (fresh : Fresh pre r) :
    BallotsFollow (pre ++ [r]) r.settledDecree := by
  intro q hq e hlt hle
  have hsplit : ∀ x, x ∈ log ↔ x ∈ pre ++ [r] ∨ x ∈ post := by
    intro x
    simp [hlog, or_assoc]
  have hr : r ∈ log := by simp [hlog]
  obtain ⟨p, hp, hdecree, hballot⟩ := writable.follow r hr q ((hsplit q).mpr (.inl hq)) e hlt hle
  rcases (hsplit p).mp hp with hp | hp
  · exact ⟨p, hp, hdecree, hballot⟩
  · obtain ⟨p', hp', hdecree', hballot'⟩ :=
      writable.settled hlog noRewrite fresh hp (hdecree ▸ hle)
    exact ⟨p', hp', hdecree'.trans hdecree, Int.le_trans hballot hballot'⟩

omit hlog writable in
theorem add_of_ignores (hread : ignores l r = true) : add l r = some (l, []) := by simp [add, hread]

omit hlog in
theorem WritableLog.logged_of_prefix (hlog : log = pre ++ post) :
    ∀ q ∈ pre, q.mutation.isLogged = true :=
  fun q hq => writable.logged q (hlog ▸ mem_append_left _ hq)

variable {l' : PrepareList P W} {new : List (Mutation P W)}

theorem WritableLog.reading_add (reading : Reading confirmed pre l calls)
    (hadd : add l r = some (l', new)) : Reading confirmed (pre ++ [r]) l' (calls ++ new) := by
  cases hread : ignores l r with
  | true =>
    rw [add_of_ignores hread] at hadd
    obtain ⟨rfl, rfl⟩ := Prod.mk.inj (some.inj hadd)
    rw [append_nil]
    exact reading.append_of_ignores hread
  | false =>
    exact (reading.reads_of_add (writable.logged_of_prefix hlog)
      (writable.admissible hlog reading) hread hadd).reading

omit hlog in
/-- **The reading invariant holds after every prefix of the log.** -/
theorem WritableLog.reading_addAll {middle : List (LogRead P W)}
    (hlog : log = pre ++ (middle ++ post)) (reading : Reading confirmed pre l calls)
    (hall : addAll l middle = some (l', new)) :
    Reading confirmed (pre ++ middle) l' (calls ++ new) := by
  induction middle generalizing pre l calls new with
  | nil =>
    obtain ⟨rfl, rfl⟩ := Prod.mk.inj (some.inj hall)
    simpa using reading
  | cons r middle ih =>
    simp only [addAll, bind_eq_bind, bind_eq_some_iff] at hall
    obtain ⟨⟨l₁, new₁⟩, hadd, ⟨l₂, new₂⟩, hrest, heq⟩ := hall
    simp only [some.injEq, Prod.mk.injEq] at heq
    obtain ⟨rfl, rfl⟩ := heq
    have hread := writable.reading_add hlog reading hadd
    have hlog' : log = (pre ++ [r]) ++ (middle ++ post) := by simpa using hlog
    simpa using ih hlog' hread hrest

/-- A decree that is read fresh and already applied is committed at once. -/
theorem WritableLog.committed_of_applied (reading : Reading confirmed pre l calls)
    (fresh : Fresh pre r) (applied : r.decree ≤ r.lastAppliedDecree)
    (hadd : add l r = some (l', new)) : r.decree ≤ l'.lastCommittedDecree := by
  cases hread : ignores l r with
  | true =>
    rw [add_of_ignores hread] at hadd
    obtain ⟨rfl, rfl⟩ := Prod.mk.inj (some.inj hadd)
    by_contra hlower
    have hlower := Int.lt_of_not_ge hlower
    -- an uncommitted decree is only ignored for a version that is not lower
    have : ignores l r = false := by
      refine ignores_eq_false_iff.mpr ⟨hlower, fun old hget => ?_⟩
      have hupper : r.decree ≤ l.maxDecree :=
        (reading.append_of_ignores hread).below_max r (by simp)
      rw [reading.getMutationByDecree_eq hlower hupper] at hget
      obtain ⟨q, hq, rfl⟩ := reading.slots_logged _ _ hlower hget
      exact fresh q hq (reading.wellFormed.keyed _ _ hget)
    rw [hread] at this
    exact Bool.noConfusion this
  | false =>
    exact (reading.reads_of_add (writable.logged_of_prefix hlog)
      (writable.admissible hlog reading) hread hadd).applied applied

omit hlog

theorem WritableLog.ships_of_noRewrite (noRewrite : NoRewriteOfApplied log)
    (hlog : log = pre ++ post) (reading : Reading confirmed pre l calls)
    (highest : ∀ mu ∈ calls, Highest log mu) :
    ∃ l' new, addAll l post = some (l', new) ∧ Reading confirmed log l' (calls ++ new) ∧
      ∀ mu ∈ calls ++ new, Highest log mu := by
  induction post generalizing pre l calls with
  | nil =>
    refine ⟨l, [], rfl, ?_, by simpa using highest⟩
    rw [hlog]
    simpa using reading
  | cons r post ih =>
    have hlog' : log = (pre ++ [r]) ++ post := by simp [hlog]
    have step : ∃ l₁ new₁, add l r = some (l₁, new₁) ∧ ∀ mu ∈ calls ++ new₁, Highest log mu := by
      cases hread : ignores l r with
      | true => exact ⟨l, [], add_of_ignores hread, by simpa using highest⟩
      | false =>
        have fresh := reading.fresh_of_not_ignores hread
        have admissible := writable.admissible hlog reading
        obtain ⟨⟨l₁, new₁⟩, hadd⟩ := reading.add_isSome (writable.logged_of_prefix hlog')
          (fun q hq => writable.nonneg q (hlog' ▸ mem_append_left _ hq)) admissible hread
          fun q hq _ => writable.ballotsFollow hlog noRewrite fresh q hq
        have reads := reading.reads_of_add (writable.logged_of_prefix hlog) admissible hread hadd
        refine ⟨l₁, new₁, hadd, fun mu hmu => ?_⟩
        rcases mem_append.mp hmu with hmu | hmu
        · exact highest mu hmu
        · intro q hq hdecree
          rw [hlog', mem_append] at hq
          rcases hq with hq | hq
          · exact reads.new_highest mu hmu q hq hdecree
          · obtain ⟨p, hp, hpq, hballot⟩ := writable.settled hlog noRewrite fresh hq
              (hdecree ▸ reads.new_le mu hmu)
            exact Int.le_trans hballot (reads.new_highest mu hmu p hp (hpq.trans hdecree))
    obtain ⟨l₁, new₁, hadd, hhighest⟩ := step
    obtain ⟨l', new, hrest, hreading, hall⟩ :=
      ih hlog' (writable.reading_add hlog reading hadd) hhighest
    exact ⟨l', new₁ ++ new, by simp [addAll, hadd, hrest], by simpa using hreading,
      by simpa using hall⟩

omit writable

end

/-- **Duplication ships the final version of each decree exactly if no applied decree is
rewritten.** -/
theorem shipsFinalVersions_iff {confirmed : Int} {log : List (LogRead P W)}
    (writable : WritableLog confirmed log) :
    ShipsFinalVersions confirmed log ↔ NoRewriteOfApplied log := by
  constructor
  · rintro ⟨l, calls, hall, -, -, hfinal⟩ pre r post hlog fresh applied q hq hle
    -- cut the run after `r`: by then the decree of `q` is committed
    rw [hlog, addAll_append, bind_eq_some_iff] at hall
    obtain ⟨⟨l₁, calls₁⟩, hpre, hrest⟩ := hall
    simp only [addAll, bind_eq_bind, map_eq_some_iff, bind_eq_some_iff] at hrest
    obtain ⟨_, ⟨⟨l₂, calls₂⟩, hadd, ⟨l₃, calls₃⟩, hrest, hlast⟩, heq⟩ := hrest
    simp only [← some.inj hlast, Prod.mk.injEq] at heq
    obtain ⟨rfl, rfl⟩ := heq
    have hlog₀ : log = [] ++ (pre ++ r :: post) := hlog
    have hreading₁ := writable.reading_addAll hlog₀ (reading_init confirmed) hpre
    have hreading₂ := writable.reading_add hlog hreading₁ hadd
    have hcommitted := writable.committed_of_applied hlog hreading₁ fresh applied hadd
    have hq' : q ∈ log := by simp [hlog, hq]
    obtain ⟨mu, hmu, hdecree⟩ :=
      (hreading₂.covers q.decree).mpr ⟨writable.above q hq', by omega⟩
    obtain ⟨p, hp, rfl⟩ := hreading₂.calls_logged mu hmu
    refine ⟨p, hp, hdecree, (hfinal p.mutation ?_).2 q hq' hdecree.symm⟩
    simp only [nil_append, mem_append] at hmu ⊢
    rcases hmu with hmu | hmu
    · exact .inl hmu
    · exact .inr (.inl hmu)
  · intro noRewrite
    obtain ⟨l, calls, hall, hreading, hhighest⟩ :=
      writable.ships_of_noRewrite noRewrite rfl (reading_init confirmed) (by simp)
    refine ⟨l, calls, hall, hreading.sorted, hreading.covers, fun mu hmu => ?_⟩
    exact ⟨hreading.calls_logged mu hmu, hhighest mu hmu⟩

/-- A logged version of a decree with one write, read while `applied` is the last applied
decree. -/
def versionRead (ballot decree announced : Int) (data : Nat) (applied : Int) : LogRead Nat Unit where
  mutation :=
    { header := { ballot := ballot, decree := decree, lastCommittedDecree := announced }
      updates := [{ code := .put, serializationType := .thriftBinary, data := some data }]
      notLogged := false }
  lastAppliedDecree := applied

/-- Decree 1 is proposed by the primary of ballot 1 and, with another write, by that of
ballot 2, both logged before the log is read. -/
def rewrittenLog (appliedFirst : Int) : List (LogRead Nat Unit) :=
  [versionRead 1 1 0 10 appliedFirst, versionRead 2 1 0 20 1]

theorem split_of_pair {α : Type} {a b : α} {pre : List α} {x : α} {post : List α}
    (h : [a, b] = pre ++ x :: post) :
    (pre = [] ∧ x = a ∧ post = [b]) ∨ (pre = [a] ∧ x = b ∧ post = []) := by
  match pre with
  | [] => simp_all
  | [_] => simp_all
  | _ :: _ :: _ => simp at h

theorem rewrittenLog_writable (appliedFirst : Int) : WritableLog 0 (rewrittenLog appliedFirst) where
  logged := by simp [rewrittenLog, versionRead, Mutation.isLogged]
  nonneg := by simp [rewrittenLog, versionRead, ballot]
  above := by simp [rewrittenLog, versionRead, decree]
  contiguous := by
    intro pre r post hlog d hlower hupper
    have hdecree : r.decree = 1 := by
      rcases split_of_pair hlog with ⟨_, rfl, _⟩ | ⟨_, rfl, _⟩ <;> rfl
    omega
  announced_lt := by simp [rewrittenLog, versionRead, decree, announced]
  window := by simp [rewrittenLog, versionRead, decree, announced, prepareListNumEntries]
  announced_final := by simp [rewrittenLog, versionRead, decree, announced]
  follow := by
    intro r hr q hq e hlt hle
    have hdecree : q.decree = 1 ∧ r.settledDecree ≤ 1 := by
      simp only [rewrittenLog, mem_cons, not_mem_nil, or_false] at hr hq
      refine ⟨?_, ?_⟩
      · rcases hq with rfl | rfl <;> rfl
      · rcases hr with rfl | rfl
        · unfold settledDecree
          split <;> simp [versionRead, decree, announced]
        · exact Int.le_refl _
    omega

/-- Read before the decree is applied, the first version waits in the buffer and the second
replaces it. -/
theorem shipsFinalVersions_rewritten_before_applied :
    WritableLog 0 (rewrittenLog 0) ∧ ShipsFinalVersions 0 (rewrittenLog 0) := by
  refine ⟨rewrittenLog_writable 0, (shipsFinalVersions_iff (rewrittenLog_writable 0)).mpr ?_⟩
  intro pre r post hlog _ applied q hq
  rcases split_of_pair hlog with ⟨_, rfl, _⟩ | ⟨_, _, rfl⟩
  · exact absurd applied (by decide)
  · simp at hq

/-- Read once the replica has applied decree 1, the first version is shipped at once, although
what the replica applied, and its clients saw, is the second. -/
theorem uncommitted_version_shipped :
    WritableLog 0 (rewrittenLog 1) ∧ ¬ ShipsFinalVersions 0 (rewrittenLog 1) := by
  refine ⟨rewrittenLog_writable 1, ?_⟩
  rintro ⟨l, calls, hall, -, -, hfinal⟩
  have hcalls : (addAll (.init prepareListNumEntries 0) (rewrittenLog 1)).map (·.2) =
      some [(versionRead 1 1 0 10 1).mutation] := by decide
  rw [hall, map_some, some.injEq] at hcalls
  dsimp only at hcalls
  subst hcalls
  have hlow := (hfinal _ (mem_singleton_self _)).2 (versionRead 2 1 0 20 1)
    (by simp [rewrittenLog]) rfl
  exact absurd hlow (by decide)

end Pegasus.Duplication
