/-
Results that may fail (`Pegasus.Lib.Outcome`).

`Meets E Q x` says what a computation in `Except` may do: fail with an error in `E`, or return a
value in `Q`. A computation with many places to fail is followed with one rule for each way to
combine two: `Meets.bind`, `Meets.map`, `Meets.mapM`, `Meets.mono`.
-/

import Mathlib

namespace Pegasus.Outcome

variable {ε α β : Type}

/-- The computation fails with an error in `E` or returns a value in `Q`. -/
def Meets (E : ε → Prop) (Q : α → Prop) : Except ε α → Prop
  | .error err => E err
  | .ok a => Q a

variable {E : ε → Prop} {Q R : α → Prop} {x : Except ε α}

theorem Meets.mono (h : Meets E Q x) (himp : ∀ a, Q a → R a) : Meets E R x := by
  cases x with
  | error err => exact h
  | ok a => exact himp a h

theorem Meets.bind {S : β → Prop} {f : α → Except ε β} (h : Meets E Q x)
    (hf : ∀ a, Q a → Meets E S (f a)) : Meets E S (x >>= f) := by
  cases x with
  | error err => exact h
  | ok a => exact hf a h

theorem Meets.map {S : β → Prop} {f : α → β} (h : Meets E Q x) (hf : ∀ a, Q a → S (f a)) :
    Meets E S (x.map f) := by
  cases x with
  | error err => exact h
  | ok a => exact hf a h

theorem Meets.mapM {γ : Type} {f : γ → Except ε α} {xs : List γ}
    (h : ∀ x ∈ xs, Meets E Q (f x)) : Meets E (fun ys => ∀ y ∈ ys, Q y) (xs.mapM f) := by
  induction xs with
  | nil => exact fun _ hy => by cases hy
  | cons x xs ih =>
    rw [List.mapM_cons]
    refine (h x List.mem_cons_self).bind fun y hy => ?_
    refine (ih fun x' hx' => h x' (List.mem_cons_of_mem _ hx')).bind fun ys hys => ?_
    exact List.forall_mem_cons.mpr ⟨hy, hys⟩

end Pegasus.Outcome
