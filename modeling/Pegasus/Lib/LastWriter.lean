/-
Registers that keep the value of the latest write (`Pegasus.Lib.LastWriter`).

Writes carry a tag from a linear order. A register that has seen some writes keeps one with the
largest tag. A write that is known to be newer may be stored at once; any other write is compared
with what is stored.

* `Latest.overwrite`, `Latest.ignore`: the two ways to take a write.
* `Latest.unique`: two registers that have seen the same writes agree.
-/

import Mathlib

namespace LastWriter

variable {τ β : Type} [LinearOrder τ]

abbrev Write (τ β : Type) := τ × β

/-- The register has one of the writes with the largest tag, if there are any. -/
structure Latest (seen : Write τ β → Prop) (stored : Option (Write τ β)) : Prop where
  mem : ∀ w, stored = some w → seen w
  le : ∀ w, seen w → ∃ w', stored = some w' ∧ w.1 ≤ w'.1

theorem latest_none : Latest (fun _ : Write τ β => False) none := ⟨by simp, by simp⟩

variable {seen seen' : Write τ β → Prop} {stored stored' : Option (Write τ β)} {w : Write τ β}

variable (h : Latest seen stored)
include h

theorem Latest.overwrite (hnew : ∀ w', stored = some w' → w'.1 ≤ w.1) :
    Latest (fun w' => seen w' ∨ w' = w) (some w) := by
  constructor
  · rintro w' ⟨⟩
    exact .inr rfl
  · rintro w' (hw' | rfl)
    · obtain ⟨old, hold, hle⟩ := h.le w' hw'
      exact ⟨w, rfl, hle.trans (hnew old hold)⟩
    · exact ⟨w', rfl, le_rfl⟩

theorem Latest.ignore (hold : ∃ w', stored = some w' ∧ w.1 ≤ w'.1) :
    Latest (fun w' => seen w' ∨ w' = w) stored := by
  constructor
  · intro w' hw'
    exact .inl (h.mem w' hw')
  · rintro w' (hw' | rfl)
    · exact h.le w' hw'
    · exact hold

theorem Latest.congr (hseen : ∀ w, seen w ↔ seen' w) : Latest seen' stored := by
  obtain rfl : seen = seen' := funext fun w => propext (hseen w)
  exact h

/-- **Convergence.** Registers that have seen the same writes agree, if no two of these share a
tag. -/
theorem Latest.unique (h' : Latest seen stored')
    (htags : ∀ w w', seen w → seen w' → w.1 = w'.1 → w = w') : stored = stored' := by
  cases hstored : stored with
  | none =>
    cases hstored' : stored' with
    | none => rfl
    | some w' =>
      obtain ⟨w, hw, -⟩ := h.le w' (h'.mem w' hstored')
      rw [hstored] at hw
      cases hw
  | some w =>
    obtain ⟨w', hw', hle⟩ := h'.le w (h.mem w hstored)
    obtain ⟨v, hv, hle'⟩ := h.le w' (h'.mem w' hw')
    obtain rfl : w = v := Option.some.inj (hstored.symm.trans hv)
    rw [hw', htags w w' (h.mem w hstored) (h'.mem w' hw') (le_antisymm hle hle')]

end LastWriter
