/-
Machines that read a stream as it arrives (`Pegasus.Lib.Incremental`).

A reader looks at its state and at the elements it has not read yet. It goes on with some of them,
waits for more, refuses the stream, or fails. Only waiting may be reconsidered when more arrives;
then what a reader makes of a stream does not depend on how the stream is cut.

* `StreamReader.final_unique`, `StreamReader.exists_final`: where the reading of a stream ends.
* `StreamReader.steps_append`: what has been read stays read when more arrives.
-/

import Mathlib

namespace Incremental

variable {σ α β : Type}

inductive Outcome (σ α β : Type) where
  | wait
  | refuse
  | fault
  | go (state : σ) (unread : List α) (out : List β)
deriving DecidableEq

/-- A state, the elements that are not read, and what has been handed over. -/
@[ext]
structure Config (σ α β : Type) where
  state : σ
  unread : List α
  out : List β
deriving DecidableEq

def Config.append (c : Config σ α β) (more : List α) : Config σ α β :=
  { c with unread := c.unread ++ more }

/-- A step function whose decisions, waiting apart, stay the same when more elements arrive. -/
structure StreamReader (σ α β : Type) where
  step : σ → List α → Outcome σ α β
  go_append : ∀ {s s' unread rest out} (more : List α), step s unread = .go s' rest out →
    step s (unread ++ more) = .go s' (rest ++ more) out
  refuse_append : ∀ {s unread} (more : List α), step s unread = .refuse →
    step s (unread ++ more) = .refuse
  fault_append : ∀ {s unread} (more : List α), step s unread = .fault →
    step s (unread ++ more) = .fault
  go_length : ∀ {s s' unread rest out}, step s unread = .go s' rest out →
    rest.length < unread.length

namespace StreamReader

variable (r : StreamReader σ α β) {c c' c₁ c₂ : Config σ α β}

def outcome (c : Config σ α β) : Outcome σ α β := r.step c.state c.unread

def Next (c c' : Config σ α β) : Prop :=
  ∃ out, r.outcome c = .go c'.state c'.unread out ∧ c'.out = c.out ++ out

abbrev Steps : Config σ α β → Config σ α β → Prop := Relation.ReflTransGen r.Next

def Halted (c : Config σ α β) : Prop := ∀ c', ¬ r.Next c c'

def Final (c c' : Config σ α β) : Prop := r.Steps c c' ∧ r.Halted c'

variable {r}

theorem next_unique : Relator.RightUnique r.Next := by
  rintro c c₁ c₂ ⟨out₁, hgo₁, hout₁⟩ ⟨out₂, hgo₂, hout₂⟩
  rw [hgo₁] at hgo₂
  injection hgo₂ with hstate hunread hout
  exact Config.ext hstate hunread (by rw [hout₁, hout₂, hout])

theorem Halted.eq_of_steps (h : r.Halted c) (hsteps : r.Steps c c') : c' = c := by
  rcases Relation.ReflTransGen.cases_head hsteps with rfl | ⟨d, hnext, -⟩
  · rfl
  · exact absurd hnext (h d)

theorem final_unique (h₁ : r.Final c c₁) (h₂ : r.Final c c₂) : c₁ = c₂ := by
  rcases Relation.ReflTransGen.total_of_right_unique next_unique h₁.1 h₂.1 with h | h
  · exact (h₁.2.eq_of_steps h).symm
  · exact h₂.2.eq_of_steps h

theorem Final.of_steps (hsteps : r.Steps c c₁) (h : r.Final c₁ c') : r.Final c c' :=
  ⟨hsteps.trans h.1, h.2⟩

theorem halted_of_outcome (h : ∀ s unread out, r.outcome c ≠ .go s unread out) : r.Halted c := by
  rintro c' ⟨out, hgo, -⟩
  exact h _ _ _ hgo

theorem halted_of_wait (h : r.outcome c = .wait) : r.Halted c :=
  halted_of_outcome fun _ _ _ hgo => by rw [h] at hgo; cases hgo

theorem halted_of_refuse (h : r.outcome c = .refuse) : r.Halted c :=
  halted_of_outcome fun _ _ _ hgo => by rw [h] at hgo; cases hgo

theorem halted_of_fault (h : r.outcome c = .fault) : r.Halted c :=
  halted_of_outcome fun _ _ _ hgo => by rw [h] at hgo; cases hgo

theorem exists_final (c : Config σ α β) : ∃ c', r.Final c c' := by
  induction hlen : c.unread.length using Nat.strong_induction_on generalizing c with
  | _ n ih =>
    subst hlen
    by_cases hhalted : r.Halted c
    · exact ⟨c, .refl, hhalted⟩
    · obtain ⟨c₁, hnext⟩ := not_forall_not.mp hhalted
      obtain ⟨out, hgo, -⟩ := id hnext
      obtain ⟨c', hfinal⟩ := ih _ (r.go_length hgo) c₁ rfl
      exact ⟨c', .of_steps (.single hnext) hfinal⟩

theorem Next.append (h : r.Next c c') (more : List α) :
    r.Next (c.append more) (c'.append more) := by
  obtain ⟨out, hgo, hout⟩ := h
  exact ⟨out, r.go_append more hgo, hout⟩

/-- **What has been read stays read** when more elements arrive. -/
theorem steps_append (h : r.Steps c c') (more : List α) :
    r.Steps (c.append more) (c'.append more) := by
  induction h with
  | refl => exact .refl
  | tail _ hnext ih => exact ih.tail (hnext.append more)

theorem outcome_append_refuse (h : r.outcome c = .refuse) (more : List α) :
    r.outcome (c.append more) = .refuse :=
  r.refuse_append more h

theorem outcome_append_fault (h : r.outcome c = .fault) (more : List α) :
    r.outcome (c.append more) = .fault :=
  r.fault_append more h

end StreamReader

end Incremental
