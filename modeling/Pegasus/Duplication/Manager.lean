/-
The duplications of one replica (`Pegasus.Duplication.Manager`), after
`replica_duplicator.h` and `replica_duplicator_manager.cpp`.

A primary keeps one `replica_duplicator` per duplication in a `std::map` keyed
by the duplication id, and every duplicator carries its progress. The manager
summarises all of them into one decree, `minConfirmedDecree`, which the
checkpoint timer consults before it releases private log files.

* `minConfirmedDecree_eq_invalid_iff`: the fold answers `invalid_decree`
  exactly when there is no duplication or the *last* one in map order is
  unconfirmed; an earlier unconfirmed duplication is forgotten.
* `minConfirmedDecree_of_all_confirmed`: without an unconfirmed duplication it
  is the minimum.
* `minConfirmedDecree_eq_spec_iff`: hence exactly when the fold agrees with its
  purpose.
-/

import Pegasus.Common

namespace Pegasus.Duplication

open List

/-- `duplication_progress`. Both decrees start at `invalid_decree` and
`update_progress` only takes maxima, so no decree below `-1` can be stored. -/
structure Progress where
  checkpointHasPrepared : Bool := false
  confirmedDecree : Int := invalidDecree
  lastDecree : Int := invalidDecree
  confirmed_ge : invalidDecree ≤ confirmedDecree := by decide

/-- `replica_duplicator::update_progress`, with the refusal to go back and the
refusal to confirm past `last_decree`. The maxima are stored before the second
check, so the refused progress is returned along with the error. -/
def Progress.update (old : Progress) (confirmed last : Int) (prepared : Bool) :
    Except String Unit × Progress :=
  if 0 ≤ confirmed ∧ confirmed < old.confirmedDecree then
    (.error "never decrease confirmed_decree", old)
  else
    let next : Progress :=
      { checkpointHasPrepared := prepared
        confirmedDecree := max old.confirmedDecree confirmed
        lastDecree := max old.lastDecree last
        confirmed_ge := le_trans old.confirmed_ge (le_max_left _ _) }
    if next.lastDecree < next.confirmedDecree then
      (.error "last_decree should always larger than confirmed_decree", next)
    else (.ok (), next)

theorem Progress.of_update_ok {old next : Progress} {confirmed last : Int} {prepared : Bool}
    (h : old.update confirmed last prepared = (.ok (), next)) :
    next.confirmedDecree ≤ next.lastDecree ∧ next.lastDecree = max old.lastDecree last := by
  unfold Progress.update at h
  split at h
  · cases h
  · dsimp only at h
    split at h
    · cases h
    · rename_i hle
      cases h
      exact ⟨not_lt.mp hle, rfl⟩

/-- `replica_duplicator_manager`: the duplicators in map order, and the confirmed
decree last heard from the primary. -/
structure Manager where
  duplications : List (Nat × Progress)
  primaryConfirmedDecree : Int := invalidDecree
  /-- A `std::map` iterates over strictly increasing duplication ids. -/
  sorted : (duplications.map Prod.fst).Pairwise (· < ·)

/-- The confirmed decrees in the order in which the manager visits them. -/
def Manager.confirmedDecrees (mgr : Manager) : List Int :=
  mgr.duplications.map fun kv => kv.2.confirmedDecree

theorem Manager.confirmedDecrees_ge (mgr : Manager) :
    ∀ d ∈ mgr.confirmedDecrees, invalidDecree ≤ d := by
  intro d hd
  obtain ⟨kv, -, rfl⟩ := mem_map.mp hd
  exact kv.2.confirmed_ge

def minConfirmedStep (minDecree confirmed : Int) : Int :=
  if minDecree = invalidDecree then confirmed else min minDecree confirmed

def Manager.minConfirmedDecree (mgr : Manager) (status : PartitionStatus) : Int :=
  if status = .primary then mgr.confirmedDecrees.foldl minConfirmedStep invalidDecree
  else if 0 < mgr.primaryConfirmedDecree then mgr.primaryConfirmedDecree
  else invalidDecree

/-- What the manager is asked for: an unknown progress makes the whole answer
unknown, and otherwise the slowest duplication decides. -/
def minConfirmedSpec (ds : List Int) : Int :=
  if invalidDecree ∈ ds then invalidDecree else ds.min?.getD invalidDecree

/-! ### The fold -/

variable {m c : Int} {ds : List Int}

theorem invalidDecree_le_minConfirmedStep (hm : invalidDecree ≤ m) (hc : invalidDecree ≤ c) :
    invalidDecree ≤ minConfirmedStep m c := by
  unfold minConfirmedStep
  split
  · exact hc
  · exact le_min hm hc

theorem invalidDecree_le_foldl (hds : ∀ d ∈ ds, invalidDecree ≤ d) (hm : invalidDecree ≤ m) :
    invalidDecree ≤ ds.foldl minConfirmedStep m := by
  induction ds generalizing m with
  | nil => exact hm
  | cons d ds ih =>
    refine ih (fun x hx => hds x (mem_cons_of_mem _ hx)) ?_
    exact invalidDecree_le_minConfirmedStep hm (hds d mem_cons_self)

/-- One more iteration answers `invalid_decree` exactly when the decree it visits
is invalid: a valid one overwrites an invalid minimum. -/
theorem minConfirmedStep_eq_invalid_iff (hm : invalidDecree ≤ m) (hc : invalidDecree ≤ c) :
    minConfirmedStep m c = invalidDecree ↔ c = invalidDecree := by
  unfold minConfirmedStep invalidDecree at *
  split <;> omega

/-- The fold forgets every invalid decree but the last visited one. -/
theorem foldl_eq_invalid_iff (hds : ∀ d ∈ ds, invalidDecree ≤ d) :
    ds.foldl minConfirmedStep invalidDecree = invalidDecree ↔
      ds = [] ∨ ds.getLast? = some invalidDecree := by
  -- the last visited decree decides, so peel the list from the right
  rcases eq_nil_or_concat ds with rfl | ⟨front, d, rfl⟩
  · simp
  · have hd : invalidDecree ≤ d := hds d (by simp)
    have hfront : invalidDecree ≤ front.foldl minConfirmedStep invalidDecree :=
      invalidDecree_le_foldl (fun x hx => hds x (by simp [hx])) (le_refl _)
    rw [concat_eq_append, foldl_append]
    simp [minConfirmedStep_eq_invalid_iff hfront hd]

theorem foldl_eq_foldl_min (hds : ∀ d ∈ ds, 0 ≤ d) (hm : 0 ≤ m) :
    ds.foldl minConfirmedStep m = ds.foldl min m := by
  induction ds generalizing m with
  | nil => rfl
  | cons d ds ih =>
    have hstep : minConfirmedStep m d = min m d := by
      unfold minConfirmedStep invalidDecree
      rw [if_neg (by omega)]
    rw [foldl_cons, foldl_cons, hstep]
    exact ih (fun x hx => hds x (mem_cons_of_mem _ hx)) (le_min hm (hds d mem_cons_self))

theorem foldl_eq_min? (hds : ∀ d ∈ ds, 0 ≤ d) :
    ds.foldl minConfirmedStep invalidDecree = ds.min?.getD invalidDecree := by
  cases ds with
  | nil => rfl
  | cons d ds =>
    rw [foldl_cons, List.min?_cons', Option.getD_some]
    exact foldl_eq_foldl_min (fun x hx => hds x (mem_cons_of_mem _ hx)) (hds d mem_cons_self)

/-! ### The manager of a primary -/

section Primary

variable (mgr : Manager)

theorem minConfirmedDecree_eq_invalid_iff :
    mgr.minConfirmedDecree .primary = invalidDecree ↔
      mgr.confirmedDecrees = [] ∨ mgr.confirmedDecrees.getLast? = some invalidDecree := by
  simpa [Manager.minConfirmedDecree] using foldl_eq_invalid_iff mgr.confirmedDecrees_ge

theorem minConfirmedDecree_of_all_confirmed (h : invalidDecree ∉ mgr.confirmedDecrees) :
    mgr.minConfirmedDecree .primary = mgr.confirmedDecrees.min?.getD invalidDecree := by
  have hds : ∀ d ∈ mgr.confirmedDecrees, (0 : Int) ≤ d := by
    intro d hd
    have hge := mgr.confirmedDecrees_ge d hd
    have hne : d ≠ invalidDecree := fun heq => h (heq ▸ hd)
    unfold invalidDecree at hge hne
    omega
  simpa [Manager.minConfirmedDecree] using foldl_eq_min? hds

theorem minConfirmedDecree_eq_spec_iff :
    mgr.minConfirmedDecree .primary = minConfirmedSpec mgr.confirmedDecrees ↔
      invalidDecree ∉ mgr.confirmedDecrees ∨
        mgr.confirmedDecrees.getLast? = some invalidDecree := by
  unfold minConfirmedSpec
  by_cases h : invalidDecree ∈ mgr.confirmedDecrees
  · have hne : mgr.confirmedDecrees ≠ [] := ne_nil_of_mem h
    simp [h, minConfirmedDecree_eq_invalid_iff, hne]
  · simp [h, minConfirmedDecree_of_all_confirmed mgr h]

theorem minConfirmedDecree_le (h : invalidDecree ∉ mgr.confirmedDecrees) {d : Int}
    (hd : d ∈ mgr.confirmedDecrees) : mgr.minConfirmedDecree .primary ≤ d := by
  rw [minConfirmedDecree_of_all_confirmed mgr h]
  obtain ⟨m, hm⟩ := Option.isSome_iff_exists.mp (isSome_min?_of_mem hd)
  rw [hm, Option.getD_some]
  exact (List.min?_eq_some_iff.mp hm).2 d hd

end Primary

end Pegasus.Duplication
