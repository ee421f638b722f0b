/-
Ranges of lists that begin alike (`Pegasus.Lib.PrefixRange`).

In the lexicographic order the lists that begin with `a` are those from `a` up to the list in which
the last entry of `a` that is not the largest one is increased and everything behind it is cut off.

- `replicate_le_iff`: a list of largest entries is a lower bound of the lists that begin with it;
- `mem_range_iff`: the range of a beginning.
-/

import Mathlib

namespace PrefixRange

open List

variable {α : Type} [LinearOrder α] {top : α}

theorem cons_le_cons_iff {x y : α} {a b : List α} : x :: a ≤ y :: b ↔ x < y ∨ x = y ∧ a ≤ b := by
  rw [le_iff_lt_or_eq, cons_lt_cons_iff, cons.injEq, le_iff_lt_or_eq, and_or_left, or_assoc]

/-- Lists whose entries are at most `top` are not below `n` times `top` exactly if they begin with
them. -/
theorem replicate_le_iff (n : Nat) {k : List α} (hk : ∀ y ∈ k, y ≤ top) :
    List.replicate n top ≤ k ↔ List.replicate n top <+: k := by
  induction n generalizing k with
  | zero =>
    have hle : [] ≤ k := not_lt.mp (not_lt_nil k)
    simpa using hle
  | succ n ih =>
    rw [replicate_succ]
    cases k with
    | nil => simp
    | cons y k =>
      have hy : y ≤ top := hk y mem_cons_self
      have hrest := ih (k := k) fun z hz => hk z (mem_cons_of_mem y hz)
      rw [cons_le_cons_iff, cons_prefix_cons, hrest]
      constructor
      · rintro (hlt | heq)
        · exact absurd hy (not_le.mpr hlt)
        · exact heq
      · intro heq
        exact .inr heq

/-- **The range of a beginning.** Lists with entries at most `top` lie between `front ++ x :: top^n`
and `front ++ [x']`, where `x'` comes next to `x`, exactly if they begin with the former. -/
theorem mem_range_iff {x x' : α} (hnext : ∀ y, y < x' ↔ y ≤ x) (n : Nat) (front : List α)
    {k : List α} (hk : ∀ y ∈ k, y ≤ top) :
    front ++ x :: List.replicate n top ≤ k ∧ k < front ++ [x'] ↔
      front ++ x :: List.replicate n top <+: k := by
  induction front generalizing k with
  | nil =>
    cases k with
    | nil => simp
    | cons y k =>
      have hrest := replicate_le_iff n (k := k) fun z hz => hk z (mem_cons_of_mem y hz)
      rw [nil_append, nil_append, cons_le_cons_iff, cons_lt_cons_iff,
        cons_prefix_cons, hnext y, hrest]
      constructor
      · rintro ⟨hlow, hhigh⟩
        have hle : y ≤ x := by
          rcases hhigh with hle | ⟨-, hnil⟩
          · exact hle
          · exact absurd hnil (not_lt_nil k)
        rcases hlow with hlt | hsame
        · exact absurd hle (not_le.mpr hlt)
        · exact hsame
      · rintro ⟨rfl, hbegins⟩
        exact ⟨.inr ⟨rfl, hbegins⟩, .inl le_rfl⟩
  | cons z front ih =>
    cases k with
    | nil => simp
    | cons y k =>
      have hrest := ih (k := k) fun w hw => hk w (mem_cons_of_mem y hw)
      rw [cons_append, cons_append, cons_le_cons_iff, cons_lt_cons_iff, cons_prefix_cons, ← hrest]
      constructor
      · rintro ⟨hlow, hhigh⟩
        rcases hlow with hlt | ⟨rfl, hlow⟩
        · rcases hhigh with hgt | ⟨heq, -⟩
          · exact absurd hgt hlt.asymm
          · exact absurd heq hlt.ne'
        · rcases hhigh with hgt | ⟨-, hhigh⟩
          · exact absurd hgt (lt_irrefl z)
          · exact ⟨rfl, hlow, hhigh⟩
      · rintro ⟨rfl, hlow, hhigh⟩
        exact ⟨.inr ⟨rfl, hlow⟩, .inr ⟨rfl, hhigh⟩⟩

end PrefixRange
