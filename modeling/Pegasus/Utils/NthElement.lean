/-
Several nth elements of a sequence, after `utils/nth_element.h`.

`stl_nth_element_finder` looks for each rank in what the last partition has left behind it.

- `NthElement`: what is known of `std::nth_element`;
- `nth_elements_are_exact`: every element is the one of its rank in the sorted input.
-/

import Mathlib

namespace Pegasus.Utils

open List

variable {α : Type} [LinearOrder α]

/-- `std::nth_element` of a range, which it partitions around a position. -/
structure NthElement (α : Type) [LinearOrder α] where
  run : List α → Nat → List α
  perm : ∀ range nth, run range nth ~ range
  partitions : ∀ range nth v, (run range nth)[nth]? = some v →
    (∀ x ∈ (run range nth).take nth, x ≤ v) ∧ ∀ x ∈ (run range nth).drop (nth + 1), v ≤ x

/-- The loop of `operator()` over the ranks that are left. The range `[first, last)` is given by its
elements, and `first` by its distance from `begin`; `none` if the `CHECK` fails. -/
def findFrom (nthElement : NthElement α) (first : Nat) (range : List α) :
    List Nat → Option (List α)
  | [] => some []
  | n :: rest =>
    if first ≤ n ∧ n < first + range.length then
      let range' := nthElement.run range (n - first)
      (range'[n - first]?).bind fun v =>
        -- identical ranks have the same element
        (findFrom nthElement (n + 1) (range'.drop (n - first + 1)) (rest.dropWhile (· = n))).map
          fun elements => v :: (rest.takeWhile (· = n)).map (fun _ => v) ++ elements
    else none
  termination_by nths => nths.length
  decreasing_by exact Nat.lt_succ_of_le (dropWhile_suffix _).length_le

/-- `stl_nth_element_finder`; the `CHECK` of `set_nths` has passed. -/
structure NthElementFinder where
  nths : List Nat
  sorted : nths.Pairwise (· ≤ ·)

/-- `operator()` from the beginning of a sequence on: the `elements()` after it. -/
def NthElementFinder.find (finder : NthElementFinder) (nthElement : NthElement α) (xs : List α) :
    Option (List α) :=
  findFrom nthElement 0 xs finder.nths

/-- The value of a rank: that at its position in the sorted list. -/
def nthSmallest (xs : List α) (n : Nat) : Option α := (xs.mergeSort (· ≤ ·))[n]?

section

variable (nthElement : NthElement α) {range : List α} {k : Nat} {v : α}

theorem mergeSort_eq (hv : (nthElement.run range k)[k]? = some v) :
    range.mergeSort (· ≤ ·) = ((nthElement.run range k).take k).mergeSort (· ≤ ·) ++
      v :: ((nthElement.run range k).drop (k + 1)).mergeSort (· ≤ ·) := by
  obtain ⟨hbefore, hbehind⟩ := nthElement.partitions range k v hv
  obtain ⟨hk, hget⟩ := List.getElem?_eq_some_iff.mp hv
  have hperm : range ~
      (nthElement.run range k).take k ++ v :: (nthElement.run range k).drop (k + 1) := by
    rw [← hget, ← drop_eq_getElem_cons hk, take_append_drop]
    exact (nthElement.perm range k).symm
  generalize (nthElement.run range k).take k = front at *
  generalize (nthElement.run range k).drop (k + 1) = back at *
  refine ((mergeSort_perm _ _).trans (hperm.trans ?_)).eq_of_pairwise' (pairwise_mergeSort' _ _) ?_
  · exact ((mergeSort_perm _ _).append ((mergeSort_perm _ _).cons v)).symm
  · refine pairwise_append.mpr ⟨pairwise_mergeSort' _ _, pairwise_cons.mpr
      ⟨fun x hx => hbehind x (mem_mergeSort.mp hx), pairwise_mergeSort' _ _⟩, ?_⟩
    intro x hx y hy
    have hxv := hbefore x (mem_mergeSort.mp hx)
    obtain rfl | hy := mem_cons.mp hy
    · exact hxv
    · exact hxv.trans (hbehind y (mem_mergeSort.mp hy))

/-- **The ranks from `k` on**: its element, and those of the range behind it. -/
theorem nthSmallest_add (hv : (nthElement.run range k)[k]? = some v) (j : Nat) :
    nthSmallest range (k + j) =
      (v :: ((nthElement.run range k).drop (k + 1)).mergeSort (· ≤ ·))[j]? := by
  have hlength : (((nthElement.run range k).take k).mergeSort (· ≤ ·)).length = k := by
    rw [length_mergeSort, length_take_of_le (Nat.le_of_lt (List.getElem?_eq_some_iff.mp hv).1)]
  rw [nthSmallest, mergeSort_eq nthElement hv, getElem?_append_right (by omega), hlength,
    Nat.add_sub_cancel_left]

theorem lt_of_mem_dropWhile {n m : Nat} {rest : List Nat} (hsorted : (n :: rest).Pairwise (· ≤ ·))
    (hm : m ∈ rest.dropWhile (· = n)) : n < m := by
  induction rest with
  | nil => simp at hm
  | cons k rest ih =>
    obtain ⟨hn, hrest⟩ := pairwise_cons.mp hsorted
    rw [dropWhile_cons] at hm
    split at hm
    · exact ih (hsorted.sublist ((sublist_cons_self k rest).cons_cons n)) hm
    · rename_i hne
      have hnk := Nat.lt_of_le_of_ne (hn k mem_cons_self) fun h => hne (by simp [h])
      obtain rfl | hm := mem_cons.mp hm
      · exact hnk
      · exact Nat.lt_of_lt_of_le hnk ((pairwise_cons.mp hrest).1 m hm)

theorem findFrom_spec {first : Nat} {nths : List Nat} (hsorted : nths.Pairwise (· ≤ ·))
    (hrange : ∀ n ∈ nths, first ≤ n ∧ n < first + range.length) :
    ∃ elements, findFrom nthElement first range nths = some elements ∧
      elements.map some = nths.map fun n => nthSmallest range (n - first) := by
  fun_induction findFrom nthElement first range nths with
  | case1 first range => exact ⟨[], rfl, rfl⟩
  | case2 first range n rest hn range' ih =>
    have hlength : range'.length = range.length := (nthElement.perm _ _).length_eq
    obtain ⟨v, hv⟩ : ∃ v, range'[n - first]? = some v := ⟨_, getElem?_eq_getElem (by omega)⟩
    have hlater : ∀ m ∈ rest.dropWhile (· = n), n < m := fun m => lt_of_mem_dropWhile hsorted
    have hbehind : ∀ m ∈ rest.dropWhile (· = n),
        n + 1 ≤ m ∧ m < n + 1 + (range'.drop (n - first + 1)).length := by
      intro m hm
      have hlt := hlater m hm
      have hmax := (hrange m (mem_cons_of_mem n ((dropWhile_sublist _).mem hm))).2
      rw [length_drop]
      omega
    obtain ⟨elements, hfind, helements⟩ :=
      ih ((pairwise_cons.mp hsorted).2.sublist (dropWhile_sublist _)) hbehind
    refine ⟨_, by rw [hv, Option.bind_some, hfind]; rfl, ?_⟩
    have hn' : nthSmallest range (n - first) = some v := nthSmallest_add nthElement hv 0
    have hsame : (rest.takeWhile (· = n)).map (fun m => nthSmallest range (m - first)) =
        (rest.takeWhile (· = n)).map fun _ => some v := by
      refine map_congr_left fun m hm => ?_
      obtain rfl : m = n := by simpa using mem_takeWhile_imp hm
      exact hn'
    have hnext : (rest.dropWhile (· = n)).map (fun m => nthSmallest range (m - first)) =
        elements.map some := by
      rw [helements]
      refine map_congr_left fun m hm => ?_
      have hlt := hlater m hm
      rw [show m - first = n - first + (m - (n + 1) + 1) by omega, nthSmallest_add nthElement hv]
      rfl
    have hrest := congrArg₂ (· ++ ·) hsame hnext
    simp only [← map_append, takeWhile_append_dropWhile] at hrest
    rw [map_cons, hn', hrest]
    simp
  | case3 first range n rest hn => exact absurd (hrange n mem_cons_self) hn

end

/-- **Every element is the one of its rank** in the sorted input. -/
theorem nth_elements_are_exact (finder : NthElementFinder) (nthElement : NthElement α)
    (xs : List α) (hrange : ∀ n ∈ finder.nths, n < xs.length) :
    ∃ elements, finder.find nthElement xs = some elements ∧
      elements.map some = finder.nths.map (nthSmallest xs) := by
  refine findFrom_spec nthElement finder.sorted fun n hn => ⟨Nat.zero_le n, ?_⟩
  rw [Nat.zero_add]
  exact hrange n hn

def NthElement.sort : NthElement α where
  run range _ := range.mergeSort (· ≤ ·)
  perm range _ := mergeSort_perm range _
  partitions range nth v hv := by
    obtain ⟨hnth, hget⟩ := List.getElem?_eq_some_iff.mp hv
    have hsorted := pairwise_mergeSort' (· ≤ ·) range
    rw [← take_append_drop nth (range.mergeSort _), drop_eq_getElem_cons hnth, hget,
      pairwise_append, pairwise_cons] at hsorted
    exact ⟨fun x hx => hsorted.2.2 x hx v mem_cons_self, hsorted.2.1.1⟩

/-- The second smallest of three values, asked for twice. -/
theorem nth_elements_are_exact_twice :
    ∃ elements, (NthElementFinder.mk [1, 1] (by decide)).find .sort [7, 3, 7] = some elements ∧
      elements.map some = [1, 1].map (nthSmallest [7, 3, 7]) :=
  nth_elements_are_exact _ _ _ (by decide)

end Pegasus.Utils
