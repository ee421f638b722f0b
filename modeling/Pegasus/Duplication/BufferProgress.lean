/-
The progress of the mutation buffer (`Pegasus.Duplication.BufferProgress`), after
`mutation_batch::add`, `mutation_batch::move_all_mutations` and `mutation_buffer::commit`.

A commit that misses a mutation sets the last committed decree to just below the window. If the
mutation is missing below the window, that is an advance. If it is missing inside, the last
committed decree falls back behind what has been handed to the committer.

- `Passes`, `Whole`: which commits and which calls of `add` find no hole inside the window;
- `buffer_progress_is_monotone`: the main result, over runs;
- `hole_repeats_a_decree`: a decree that is handed over twice.
-/

import Pegasus.Lib.Run
import Pegasus.Replica.Window
import Pegasus.Duplication.MutationBatch

namespace Pegasus.Duplication

open TransitionSystem List Option
open Replica Replica.PrepareList MutationCache

variable {P W : Type}

/-- A buffer, what it has handed to the committer, and the last committed decrees it had. -/
structure BatchRun (P W : Type) where
  buffer : PrepareList P W
  handed : List (Mutation P W) := []
  reached : List Int := []

inductive BatchEvent (P W : Type) where
  | add (read : LogRead P W)
  | moveAllMutations

namespace BatchRun

/-- The buffer after the constructor: reset to the confirmed decree. -/
def start (confirmed : Int) : BatchRun P W where
  buffer := .init prepareListNumEntries confirmed

def record (s : BatchRun P W) (buffer : PrepareList P W) (calls : List (Mutation P W)) :
    BatchRun P W where
  buffer := buffer
  handed := s.handed ++ calls
  reached := s.reached ++ [s.buffer.lastCommittedDecree]

/-- One call; `none` if it aborts. -/
def step (s : BatchRun P W) : BatchEvent P W → Option (BatchRun P W)
  | .add read => (Duplication.add s.buffer read).map fun (next, calls) => s.record next calls
  | .moveAllMutations => some (s.record (s.buffer.truncate s.buffer.lastCommittedDecree) [])

end BatchRun

/-! ### Holes -/

/-- A commit up to a decree finds no hole inside the window: the window begins above the next
decree, or all decrees up to it are there. -/
def Passes (l : PrepareList P W) (target : Int) : Prop :=
  l.lastCommittedDecree + 1 < l.minDecree ∨
    ∀ d, l.lastCommittedDecree < d → d ≤ target → (loggedAt l d).isSome

def passed (l : PrepareList P W) (target : Int) : Int :=
  if l.lastCommittedDecree + 1 < l.minDecree then l.minDecree - 1
  else max l.lastCommittedDecree target

/-- The mutations that `add` commits without finding a hole inside the window. Unless the buffer is
reset for a mutation, the window with it fits an `int`, since the ring of the source takes a decree
further away for another one. -/
def Whole (l : PrepareList P W) (r : LogRead P W) : Prop :=
  ignores l r = true ∨ (r.announced ≤ l.maxDecree → l.windowWith r.decree < 2 ^ 31) ∧
    r.mutation.isLogged = true ∧
    (l.maxDecree < r.announced ∧ l.lastCommittedDecree ≤ r.announced ∨ l.count = 0 ∨
      r.announced ≤ l.maxDecree ∧ (l.lastCommittedDecree < r.announced → Passes l r.announced) ∧
        (r.decree ≤ r.lastAppliedDecree →
          r.announced ≤ l.lastCommittedDecree ∧ l.lastCommittedDecree + 1 < l.minDecree ∨
            ∀ d, passed l r.announced < d → d < r.decree → (loggedAt l d).isSome))

def BatchRun.Upholds (s : BatchRun P W) : BatchEvent P W → Prop
  | .add read => Whole s.buffer read
  | .moveAllMutations => True

/-! ### What a step does -/

/-- **Handing over**: the last committed decree does not decrease, and the decrees handed to the
committer go up from it to the new one. -/
structure Hands (last last' : Int) (calls : List (Mutation P W)) : Prop where
  le : last ≤ last'
  sorted : calls.Pairwise fun mu mu' => mu.header.decree < mu'.header.decree
  within : ∀ mu ∈ calls, last < mu.header.decree ∧ mu.header.decree ≤ last'

theorem hands_nil {last last' : Int} (h : last ≤ last') :
    Hands last last' ([] : List (Mutation P W)) :=
  ⟨h, .nil, by simp⟩

theorem Hands.append {last last' last'' : Int} {calls calls' : List (Mutation P W)}
    (h : Hands last last' calls) (h' : Hands last' last'' calls') :
    Hands last last'' (calls ++ calls') where
  le := h.le.trans h'.le
  sorted := by
    refine pairwise_append.mpr ⟨h.sorted, h'.sorted, ?_⟩
    intro mu hmu mu' hmu'
    exact (h.within mu hmu).2.trans_lt (h'.within mu' hmu').1
  within := by
    intro mu hmu
    rcases mem_append.mp hmu with hmu | hmu
    · exact ⟨(h.within mu hmu).1, (h.within mu hmu).2.trans h'.le⟩
    · exact ⟨h.le.trans_lt (h'.within mu hmu).1, (h'.within mu hmu).2⟩

structure Buffered (l : PrepareList P W) : Prop where
  windowed : l.Windowed
  empty : l.count = 0 → l.minDecree = l.lastCommittedDecree ∧ l.maxDecree = l.lastCommittedDecree

theorem buffered_init (capacity : Nat) (decree : Int) :
    Buffered (.init capacity decree : PrepareList P W) :=
  ⟨windowed_init _ _, fun _ => ⟨rfl, rfl⟩⟩

section Commit

variable {l l' : PrepareList P W} {calls : List (Mutation P W)} {target : Int}

theorem slots_of_loggedAt {d : Int} {mu : Mutation P W} (h : loggedAt l d = some mu) :
    l.slots d = some mu :=
  slots_of_getMutationByDecree (filter_eq_some_iff.mp h).1

/-- **A commit that passes hands over** the decrees up to the target, or moves to just below the
window. -/
theorem commit_hands (w : l.Windowed) (hlower : l.lastCommittedDecree < target)
    (hpasses : Passes l target) (hcommit : commit l target = some (l', calls)) :
    l' = { l with lastCommittedDecree := passed l target } ∧
      Hands l.lastCommittedDecree l'.lastCommittedDecree calls := by
  by_cases hbefore : l.lastCommittedDecree + 1 < l.minDecree
  · obtain ⟨n, hn⟩ : ∃ n, (target - l.lastCommittedDecree).toNat = n + 1 :=
      ⟨(target - l.lastCommittedDecree).toNat - 1, by omega⟩
    have hnone : loggedAt l (l.lastCommittedDecree + 1) = none := by
      rw [loggedAt, getMutationByDecree, if_pos (.inl hbefore)]
      rfl
    rw [commit, hn, commitLoop, hnone] at hcommit
    cases hcommit
    rw [passed, if_pos hbefore]
    exact ⟨rfl, hands_nil (by dsimp only; omega)⟩
  · have hall := hpasses.resolve_left hbefore
    have hn : l.lastCommittedDecree + ((target - l.lastCommittedDecree).toNat : Int) = target := by
      omega
    have there : ∀ d, l.lastCommittedDecree < d →
        d ≤ l.lastCommittedDecree + (target - l.lastCommittedDecree).toNat →
          ∃ mu, l.slots d = some mu ∧ loggedAt l d = some mu := by
      intro d hd hd'
      obtain ⟨mu, hmu⟩ := isSome_iff_exists.mp (hall d hd (by omega))
      exact ⟨mu, slots_of_loggedAt hmu, hmu⟩
    obtain ⟨rfl, hsorted, hmem⟩ := commitLoop_eq_some w.keyed there hcommit
    rw [passed, if_neg hbefore, max_eq_right hlower.le]
    rw [hn] at hmem ⊢
    refine ⟨rfl, hlower.le, hsorted, ?_⟩
    intro mu hmu
    obtain ⟨d, hd, hd', hslot⟩ := (hmem mu).mp hmu
    rw [w.keyed _ _ hslot]
    exact ⟨hd, hd'⟩

end Commit

section Add

variable {l l' : PrepareList P W} {r : LogRead P W} {calls : List (Mutation P W)}

theorem minDecree_popAndPutChecked {mu : Mutation P W} (hmin : l.lastCommittedDecree ≤ l.minDecree)
    (h : popAndPutChecked false l mu = some l') :
    l'.minDecree = mu.header.decree ∨ l.count ≠ 0 ∧ l'.minDecree = l.minDecree := by
  have hok : popAndPut false l mu = some (l', none) := by
    unfold popAndPutChecked at h
    split at h
    · rename_i next hput
      rw [← some.inj h, hput]
    · cases h
  obtain ⟨popped, c, hpop, hput, rfl⟩ := popAndPut_eq_ok hok
  have hstop : l.mustPop false mu.header.decree = false := by
    rw [Bool.eq_false_iff, ne_eq, mustPop_iff]
    omega
  have hpopped : popped = l := by
    cases hcount : l.count with
    | zero | succ n => simpa [popCommitted, hcount, hstop] using hpop.symm
  subst hpopped
  obtain ⟨-, -, rfl⟩ := put_eq_ok hput
  dsimp only [putWindow]
  split
  · exact .inl rfl
  · rename_i hcount
    split
    · exact .inr ⟨hcount, rfl⟩
    · split
      · exact .inl rfl
      · exact .inr ⟨hcount, rfl⟩

/-- What the list is before the mutation is put: the window begins above what is committed, or all
decrees below the mutation are there. -/
def Fillable (l : PrepareList P W) (decree : Int) : Prop :=
  l.lastCommittedDecree ≤ l.minDecree ∧ (l.count = 0 ∨ l.lastCommittedDecree + 1 < l.minDecree) ∨
    ∀ d, l.lastCommittedDecree < d → d < decree → (loggedAt l d).isSome

theorem passes_of_placed (w : l.Windowed) (hlogged : r.mutation.isLogged = true)
    (hfill : Fillable l r.decree) (hput : popAndPutChecked false l r.mutation = some l') :
    Passes l' r.decree := by
  have placed := popAndPutChecked_placed w hput
  have hself : (loggedAt l' r.decree).isSome := by
    rw [loggedAt, placed.windowed.getMutationByDecree_eq, placed.slot_eq, filter_some,
      if_pos hlogged]
    rfl
  rcases hfill with ⟨hmin, hfresh⟩ | hall
  · by_cases hbefore : l'.lastCommittedDecree + 1 < l'.minDecree
    · exact .inl hbefore
    · refine .inr ?_
      intro d hd hd'
      rw [placed.committed_eq] at hbefore hd
      obtain rfl : d = r.decree := by
        rcases minDecree_popAndPutChecked hmin hput with h | ⟨hcount, h⟩
        · rw [h] at hbefore
          change d ≤ r.mutation.header.decree at hd'
          change d = r.mutation.header.decree
          omega
        · rcases hfresh with hzero | hlt
          · exact absurd hzero hcount
          · omega
      exact hself
  · refine .inr ?_
    intro d hd hd'
    rw [placed.committed_eq] at hd
    by_cases heq : d = r.decree
    · rw [heq]
      exact hself
    · have hold := hall d hd (by omega)
      have hslot := (placed.slots_eq d heq).resolve_right (by omega)
      rw [loggedAt, placed.windowed.getMutationByDecree_eq, hslot, ← w.getMutationByDecree_eq]
      exact hold

theorem commitAnnounced_hands (h : Buffered l) (hwhole : Whole l r) (hnew : ignores l r ≠ true)
    (hcommit : commitAnnounced commit l r.mutation = some (l', calls)) :
    l'.Windowed ∧ Hands l.lastCommittedDecree l'.lastCommittedDecree calls ∧
      (r.decree ≤ r.lastAppliedDecree → Fillable l' r.decree) := by
  have hcases := (hwhole.resolve_left hnew).2.2
  unfold commitAnnounced at hcommit
  dsimp only at hcommit
  split at hcommit
  · rename_i hreset
    cases hcommit
    refine ⟨windowed_init _ _, hands_nil ?_, ?_⟩
    · rcases hcases with hcase | hzero | hcase
      · exact hcase.2
      · rw [← (h.empty hzero).2]
        exact hreset.le
      · exact absurd hreset (not_lt.mpr hcase.1)
    · intro _
      exact .inl ⟨le_rfl, .inl rfl⟩
  · rename_i hmax
    split at hcommit
    · rename_i hlower
      rcases hcases with hcase | hzero | ⟨-, hpasses, hthere⟩
      · exact absurd hcase.1 hmax
      · have := (h.empty hzero).2
        omega
      obtain ⟨rfl, hhands⟩ := commit_hands h.windowed hlower (hpasses hlower) hcommit
      refine ⟨h.windowed, hhands, ?_⟩
      intro happlied
      rcases hthere happlied with hcase | hall
      · exact absurd hlower (not_lt.mpr hcase.1)
      · exact .inr hall
    · rename_i hannounced
      cases hcommit
      refine ⟨h.windowed, hands_nil le_rfl, ?_⟩
      intro happlied
      by_cases hbefore : l.lastCommittedDecree + 1 < l.minDecree
      · exact .inl ⟨by omega, .inr hbefore⟩
      rcases hcases with hcase | hzero | ⟨-, -, hthere⟩
      · exact absurd hcase.1 hmax
      · exact .inl ⟨(h.empty hzero).1.ge, .inl hzero⟩
      · have hall := (hthere happlied).resolve_left fun hcase => hbefore hcase.2
        rw [passed, if_neg hbefore, max_eq_left (not_lt.mp hannounced)] at hall
        exact .inr hall

theorem commitApplied_hands (w : l.Windowed) (hpos : l.count ≠ 0)
    (hpasses : r.decree ≤ r.lastAppliedDecree → Passes l r.decree)
    (hcommit : commitApplied l r = some (l', calls)) :
    Buffered l' ∧ Hands l.lastCommittedDecree l'.lastCommittedDecree calls := by
  unfold commitApplied at hcommit
  split at hcommit
  · rename_i happlied
    by_cases hlower : l.lastCommittedDecree < r.decree
    · obtain ⟨rfl, hhands⟩ := commit_hands w hlower (hpasses happlied) hcommit
      exact ⟨⟨w, fun hzero => absurd hzero hpos⟩, hhands⟩
    · rw [commit, show (r.decree - l.lastCommittedDecree).toNat = 0 by omega, commitLoop] at hcommit
      cases hcommit
      exact ⟨⟨w, fun hzero => absurd hzero hpos⟩, hands_nil le_rfl⟩
  · cases hcommit
    exact ⟨⟨w, fun hzero => absurd hzero hpos⟩, hands_nil le_rfl⟩

/-- **A call of `add` hands over** what is next, if it finds no hole. -/
theorem add_hands (h : Buffered l) (hwhole : Whole l r) (hadd : add l r = some (l', calls)) :
    Buffered l' ∧ Hands l.lastCommittedDecree l'.lastCommittedDecree calls := by
  unfold add at hadd
  split at hadd
  · cases hadd
    exact ⟨h, hands_nil le_rfl⟩
  · rename_i hnew
    obtain ⟨⟨prepared, announced⟩, hprepare, hadd⟩ := bind_eq_some_iff.mp hadd
    obtain ⟨⟨next, applied⟩, happlied, hadd⟩ := bind_eq_some_iff.mp hadd
    cases hadd
    unfold prepareInactive at hprepare
    split at hprepare
    · cases hprepare
    obtain ⟨⟨committed, announced⟩, hannounced, hprepare⟩ := bind_eq_some_iff.mp hprepare
    obtain ⟨placed, hput, hprepare⟩ := bind_eq_some_iff.mp hprepare
    cases hprepare
    obtain ⟨w, hhands, hfill⟩ := commitAnnounced_hands h hwhole hnew hannounced
    have hplaced := popAndPutChecked_placed w hput
    have hpos := (hplaced.windowed.inside _ _ hplaced.slot_eq).1
    have hlogged := (hwhole.resolve_left hnew).2.1
    obtain ⟨hbuffered, hhands'⟩ := commitApplied_hands hplaced.windowed hpos.ne'
      (fun hle => passes_of_placed w hlogged (hfill hle) hput) happlied
    rw [hplaced.committed_eq] at hhands'
    exact ⟨hbuffered, hhands.append hhands'⟩

end Add

theorem buffered_truncate {l : PrepareList P W} (h : Buffered l) (decree : Int) :
    Buffered (l.truncate decree) ∧ (l.truncate decree).lastCommittedDecree = decree := by
  obtain ⟨w, hlast, -⟩ := truncate_slots h.windowed decree
  refine ⟨⟨w, ?_⟩, hlast⟩
  rw [hlast]
  unfold truncate
  dsimp only
  split
  · intro _
    exact ⟨rfl, rfl⟩
  · rename_i hpos
    intro hzero
    exact absurd hzero hpos

/-! ### The main result -/

namespace BatchRun

structure Sound (confirmed : Int) (s : BatchRun P W) : Prop where
  buffered : Buffered s.buffer
  hands : Hands confirmed s.buffer.lastCommittedDecree s.handed
  sorted : (s.reached ++ [s.buffer.lastCommittedDecree]).Pairwise (· ≤ ·)

theorem sound_start (confirmed : Int) : Sound confirmed (start confirmed : BatchRun P W) :=
  ⟨buffered_init _ _, hands_nil le_rfl, pairwise_singleton _ _⟩

theorem Sound.record {confirmed : Int} {s : BatchRun P W} {buffer : PrepareList P W}
    {calls : List (Mutation P W)} (h : Sound confirmed s) (hbuffered : Buffered buffer)
    (hhands : Hands s.buffer.lastCommittedDecree buffer.lastCommittedDecree calls) :
    Sound confirmed (s.record buffer calls) where
  buffered := hbuffered
  hands := h.hands.append hhands
  sorted := by
    refine pairwise_append.mpr ⟨h.sorted, pairwise_singleton _ _, ?_⟩
    intro d hd last hlast
    obtain rfl := mem_singleton.mp hlast
    refine le_trans ?_ hhands.le
    rcases mem_append.mp hd with hd | hd
    · exact (pairwise_append.mp h.sorted).2.2 d hd _ (mem_singleton_self _)
    · exact (mem_singleton.mp hd).le

theorem Sound.step {confirmed : Int} {s s' : BatchRun P W} {e : BatchEvent P W}
    (hstep : s.step e = some s') (hupholds : s.Upholds e) (h : Sound confirmed s) :
    Sound confirmed s' := by
  cases e with
  | add read =>
    obtain ⟨⟨next, calls⟩, hadd, rfl⟩ := map_eq_some_iff.mp hstep
    obtain ⟨hbuffered, hhands⟩ := add_hands h.buffered hupholds hadd
    exact h.record hbuffered hhands
  | moveAllMutations =>
    cases hstep
    obtain ⟨hbuffered, hlast⟩ := buffered_truncate h.buffered s.buffer.lastCommittedDecree
    exact h.record hbuffered (hands_nil hlast.ge)

/-- **The progress of the buffer never goes backwards** and no decree is handed over twice, in every
run whose commits find no hole inside the window. -/
theorem buffer_progress_is_monotone (confirmed : Int) {events : List (BatchEvent P W)}
    {s : BatchRun P W} (hrun : run step (start confirmed) events = some s)
    (hupholds : StepsMeet step Upholds (start confirmed) events) :
    (s.reached ++ [s.buffer.lastCommittedDecree]).Pairwise (· ≤ ·) ∧
      (s.handed.map fun mu => mu.header.decree).Nodup := by
  have hsound : Sound confirmed s :=
    run_invariant_of_steps (fun _ _ _ => Sound.step) hrun hupholds
      (sound_start confirmed)
  refine ⟨hsound.sorted, pairwise_map.mpr ?_⟩
  exact hsound.hands.sorted.imp fun hlt => hlt.ne

/-- The calls of `add` for decrees and the decrees they announce. -/
def reads (applied : Int) (log : List (Int × Int)) : List (BatchEvent Nat Unit) :=
  log.map fun (decree, announced) => .add (versionRead 1 decree announced 0 applied)

/-- Two mutations that are applied when they are read, with the buffer emptied between them. -/
def appliedReads : List (BatchEvent Nat Unit) :=
  [.add (versionRead 1 1 0 0 1), .moveAllMutations, .add (versionRead 1 2 1 0 2)]

theorem buffer_progress_is_monotone_two :
    ∃ s, run step (start 0) appliedReads = some s ∧
      s.handed.map (fun mu => mu.header.decree) = [1, 2] ∧
        (s.reached ++ [s.buffer.lastCommittedDecree]).Pairwise (· ≤ ·) ∧
          (s.handed.map fun mu => mu.header.decree).Nodup := by
  have hwhole : ∀ {l : PrepareList Nat Unit} {r : LogRead Nat Unit},
      r.mutation.isLogged = true → l.count = 0 → Whole l r := by
    intro l r hlogged hzero
    refine .inr ⟨fun _ => ?_, hlogged, .inr (.inl hzero)⟩
    rw [windowWith, if_pos hzero]
    norm_num
  refine ⟨_, rfl, rfl, @buffer_progress_is_monotone Nat Unit 0 appliedReads _ rfl ?_⟩
  exact stepsMeet_cons (hwhole rfl rfl) rfl
    (stepsMeet_cons trivial rfl
      (stepsMeet_cons (hwhole rfl rfl) rfl trivial))

/-- Decree 3 is missing. The commit of decree 4 that decree 5 announces hands over decree 2 and sets
the last committed decree from 1 to 0; the next one hands over decrees 1 and 2 again. -/
theorem hole_repeats_a_decree :
    ((run step (start 0) (reads 0 [(1, 0), (2, 1), (4, 1), (5, 4), (6, 4)])).map
      fun s => (s.reached ++ [s.buffer.lastCommittedDecree],
        s.handed.map fun mu => mu.header.decree)) =
      some ([0, 0, 1, 1, 0, 0], [1, 2, 1, 2]) := by
  decide

end BatchRun

end Pegasus.Duplication
