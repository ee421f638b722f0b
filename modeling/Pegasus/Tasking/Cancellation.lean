/-
The waiters of a task, and whole runs of it.

A call of `cancel` that waits relies on a signal that comes after it has looked at the state. Here
it is shown that the one waiter gets it, that a task that has ended does not run again, and that the
workers come to an end once the flag is raised. Two waiters do not both get a signal.

- `Task.Reliable.woken`: no waiter is left behind;
- `Task.Reliable.workers_end`: the workers make ten steps at most after the flag is raised;
- `cancellation_is_reliable`: the main result;
- `second_waiter_is_left`: two calls wait, and one signal is given.
-/

import Pegasus.Tasking.Task

namespace Pegasus.Tasking

open TransitionSystem List Option Function

namespace Task

variable {t t' : Task} {i j : Nat} {place : ExecAt}

/-! ### The waiters -/

variable {e : Event} {later : List Event}

variable (h : t.Waits)
include h

theorem Waits.keep (hstep : t.step e = some t') (hcalls : t'.calls = t.calls)
    (hevent : t'.event = t.event) (hstatus : t'.status = t.status) (htokens : t'.tokens = t.tokens)
    (hpending : t'.state.Terminal → t'.Pending ∨ (t.state.Terminal ∧
      (t.event = true → t.Pending → t'.Pending))) : t'.Waits where
  unique j k := by
    rw [hcalls]
    exact h.unique j k
  event j := by
    rw [hcalls, hevent]
    exact h.event j
  free := by
    rw [hcalls, htokens, hstatus]
    exact h.free
  blocked j := by
    rw [hcalls, htokens, hstatus]
    exact h.blocked j
  signalled hsignal := by
    rw [hstatus, htokens] at hsignal
    have hterminal := h.signalled hsignal
    rw [((step_keeps hstep).ended hterminal).1]
    exact hterminal
  toBlock j hterminal hj := by
    rw [hcalls] at hj
    rw [hstatus]
    rcases hpending hterminal with hp | ⟨hs, hp⟩
    · exact .inl hp
    · exact (h.toBlock j hs hj).imp_left (hp (h.event j (.inr (.inl hj))))
  toWake j hterminal hj := by
    rw [hcalls] at hj
    rw [htokens]
    rcases hpending hterminal with hp | ⟨hs, hp⟩
    · exact .inl hp
    · exact (h.toWake j hs hj).imp_left (hp (h.event j (.inr (.inr hj))))

omit h in
def Served (t : Task) : Prop :=
  (∀ j, t.calls j = .block → t.status = 1) ∧ ∀ j, t.calls j = .blocked → t.tokens ≠ 0

theorem Waits.served_notify : t.notify.Served := by
  refine ⟨fun j hj => ?_, fun j hj => ?_⟩
  · obtain ⟨-, hstatus | hstatus⟩ := h.free_of_block hj <;> simp [Task.notify, hstatus]
  · obtain ⟨htokens, hstatus⟩ | ⟨htokens, hstatus | hstatus⟩ := h.blocked j hj <;>
      simp [Task.notify, hstatus, htokens]

theorem Waits.served_of_no_event (hevent : ¬ t.event = true) : t.Served :=
  ⟨fun j hj => absurd (h.event j (.inr (.inl hj))) hevent,
    fun j hj => absurd (h.event j (.inr (.inr hj))) hevent⟩

theorem Waits.notify (hterminal : t.state.Terminal) : t.notify.Waits where
  unique := h.unique
  event := h.event
  free hnone := by
    obtain ⟨htokens, hstatus⟩ := h.free hnone
    rcases hstatus with hstatus | hstatus <;> simp [Task.notify, hstatus, htokens]
  blocked j hj := by
    obtain ⟨htokens, hstatus⟩ | ⟨htokens, hstatus | hstatus⟩ := h.blocked j hj <;>
      simp [Task.notify, hstatus, htokens]
  signalled _ := hterminal
  toBlock j _ hj := .inr (h.served_notify.1 j hj)
  toWake j _ hj := .inr (h.served_notify.2 j hj)

omit h in
theorem Pending.of_calls {p : ExecAt} (h : t.Pending) (hexecs : t.execs = [p])
    (hsignal : p ≠ .signal) (hnotify : p ≠ .notify) (hcalls : t'.calls = t.calls) :
    t'.Pending := by
  rcases h with hp | hp | ⟨k, hk⟩
  · exact absurd (by simpa [hexecs] using hp) hsignal
  · exact absurd (by simpa [hexecs] using hp) hnotify
  · exact .inr (.inr ⟨k, by rw [hcalls]; exact hk⟩)

theorem Waits.leave (hserved : t.Served) : (t.leave i).Waits where
  unique := h.unique
  event := h.event
  free := h.free
  blocked := h.blocked
  signalled := h.signalled
  toBlock j _ hj := .inr (hserved.1 j hj)
  toWake j _ hj := .inr (hserved.2 j hj)

theorem Waits.exec (hexecutes : t.Executes) (hstep : t.step (.exec i) = some t') : t'.Waits := by
  obtain ⟨place, hi, rfl⟩ := map_eq_some_iff.mp hstep
  obtain ⟨hexecs, rfl, -⟩ := hexecutes.alone hi
  have hto : ∀ p, t.execs.set 0 p = [p] := fun p => by rw [hexecs]; rfl
  -- a thread that is not about to signal leaves the signals of the calls as they are
  have hothers : place ≠ .signal → place ≠ .notify → ∀ u : Task, u.calls = t.calls →
      t.event = true → t.Pending → u.Pending := fun hsignal hnotify u hcalls _ hp =>
    hp.of_calls hexecs hsignal hnotify hcalls
  cases place with
  | start =>
    simp only [execStep] at hstep ⊢
    split
    · rw [if_pos ‹_›] at hstep
      exact h.keep hstep rfl rfl rfl rfl (by simp [TaskState.Terminal])
    · rw [if_neg ‹_›] at hstep
      exact h.keep hstep rfl rfl rfl rfl fun _ => .inl (.inl (hto _))
  | callback =>
    exact h.keep hstep rfl rfl rfl rfl fun hs => .inr ⟨hs, hothers (by decide) (by decide) _ rfl⟩
  | after =>
    simp only [execStep] at hstep ⊢
    split
    · rw [if_pos ‹_›] at hstep
      exact h.keep hstep rfl rfl rfl rfl fun _ => .inl (.inl (hto _))
    · rw [if_neg ‹_›] at hstep
      exact h.keep hstep rfl rfl rfl rfl fun hs => .inr ⟨hs, hothers (by decide) (by decide) _ rfl⟩
  | readFlag =>
    have hkeep : ∀ u : Task, t.step (.exec 0) = some u → u.calls = t.calls → u.event = t.event →
        u.status = t.status → u.tokens = t.tokens → u.state = t.state → u.Waits :=
      fun u hu hcalls hevent hstatus htokens hs => h.keep hu hcalls hevent hstatus htokens
        fun hterminal => .inr ⟨hs ▸ hterminal, hothers (by decide) (by decide) u hcalls⟩
    refine hkeep _ hstep ?_ ?_ ?_ ?_ ?_ <;> simp only [execStep] <;> (repeat' split) <;> rfl
  | requeue =>
    exact h.keep hstep rfl rfl rfl rfl fun hs => .inr ⟨hs, hothers (by decide) (by decide) _ rfl⟩
  | cancelReady => exact h.keep hstep rfl rfl rfl rfl fun _ => .inl (.inl (hto _))
  | signal =>
    simp only [execStep] at hstep ⊢
    split
    · rw [if_pos ‹_›] at hstep
      exact h.keep hstep rfl rfl rfl rfl fun _ => .inl (.inr (.inl (hto _)))
    · rename_i hevent
      exact h.leave (h.served_of_no_event hevent)
  | notify => exact (h.notify (hexecutes.signals (.inr hexecs))).leave h.served_notify

theorem Waits.move {place : CallAt} (hcalls : t'.calls = update t.calls j place)
    (hevent : t.event = true → t'.event = true) (hstatus : t'.status = t.status)
    (htokens : t'.tokens = t.tokens) (hold : t.calls j ≠ .blocked) (hnew : place ≠ .blocked)
    (hwaiting : place.waiting = true → ∀ k, k ≠ j → (t.calls k).waiting = false)
    (hplace : place = .recheck ∨ place = .block → t'.event = true)
    (hblock : place = .block → ¬ t'.state.Terminal)
    (hterminal : t.state.Terminal → t'.state.Terminal)
    (hpending : t'.state.Terminal → t'.Pending ∨ t.Served ∨ (t.state.Terminal ∧
      (t.Pending → t'.Pending))) : t'.Waits := by
  have hat : t'.calls j = place := by rw [hcalls, update_self]
  have hother : ∀ k, k ≠ j → t'.calls k = t.calls k := fun k hk => by rw [hcalls, update_of_ne hk]
  have hback : ∀ k, t'.calls k = .blocked → t.calls k = .blocked := fun k hk => by
    by_cases hkj : k = j
    · exact absurd (by rw [← hk, hkj, hat]) hnew
    · rwa [hother k hkj] at hk
  constructor
  case unique =>
    intro k l hk hl
    by_cases hkj : k = j
    · by_cases hlj : l = j
      · rw [hkj, hlj]
      · rw [hkj, hat] at hk
        rw [hother l hlj, hwaiting hk l hlj] at hl
        cases hl
    · by_cases hlj : l = j
      · rw [hlj, hat] at hl
        rw [hother k hkj, hwaiting hl k hkj] at hk
        cases hk
      · exact h.unique k l (hother k hkj ▸ hk) (hother l hlj ▸ hl)
  case event =>
    intro k hk
    by_cases hkj : k = j
    · rw [hkj, hat] at hk
      rcases hk with hk | hk | hk
      · exact hplace (.inl hk)
      · exact hplace (.inr hk)
      · exact absurd hk hnew
    · exact hevent (h.event k (hother k hkj ▸ hk))
  case free =>
    intro hnone
    rw [htokens, hstatus]
    refine h.free fun k hk => hnone k ?_
    have hkj : k ≠ j := fun hkj => hold (hkj ▸ hk)
    rwa [hother k hkj]
  case blocked =>
    intro k hk
    rw [htokens, hstatus]
    exact h.blocked k (hback k hk)
  case signalled =>
    intro hsignal
    rw [hstatus, htokens] at hsignal
    exact hterminal (h.signalled hsignal)
  case toBlock =>
    intro k hs hk
    have hkj : k ≠ j := fun hkj => hblock (by rw [← hat, ← hkj, hk]) hs
    rw [hother k hkj] at hk
    rw [hstatus]
    rcases hpending hs with hp | hserved | ⟨hs', hp⟩
    · exact .inl hp
    · exact .inr (hserved.1 k hk)
    · exact (h.toBlock k hs' hk).imp_left hp
  case toWake =>
    intro k hs hk
    rw [htokens]
    rcases hpending hs with hp | hserved | ⟨hs', hp⟩
    · exact .inl hp
    · exact .inr (hserved.2 k (hback k hk))
    · exact (h.toWake k hs' (hback k hk)).imp_left hp

omit h in
theorem Pending.of_move (h : t.Pending) {place : CallAt} (hexecs : t'.execs = t.execs)
    (hcalls : t'.calls = update t.calls j place)
    (hsignals : (t.calls j).signals = false) : t'.Pending := by
  rcases h with hp | hp | ⟨k, hk⟩
  · exact .inl (hexecs.trans hp)
  · exact .inr (.inl (hexecs.trans hp))
  · have hkj : k ≠ j := fun hkj => by simp [← hkj, hk] at hsignals
    exact .inr (.inr ⟨k, by rw [hcalls, update_of_ne hkj, hk]⟩)

theorem Waits.cancel {waitUntilFinished : Bool} (hcareful : t.Careful (.cancel j waitUntilFinished))
    (hstep : t.step (.cancel j waitUntilFinished) = some t') : t'.Waits := by
  obtain ⟨hidle, hcases⟩ := step_cancel hstep
  have hold : t.calls j ≠ .blocked := by simp [hidle]
  have hsignals : (t.calls j).signals = false := by rw [hidle]; rfl
  obtain ⟨-, rfl⟩ | ⟨hs, rfl⟩ | ⟨hs, rfl, rfl⟩ | ⟨hs, rfl, rfl⟩ := hcases
  · refine h.move rfl id rfl rfl hold (by simp) (by simp [CallAt.waiting]) (by simp) (by simp)
      (fun _ => .inr rfl) fun _ => .inl (.inr (.inr ⟨j, ?_⟩))
    simp [callTo, CallAt.signals]
  · exact h.move rfl id rfl rfl hold (by simp) (by simp [CallAt.waiting]) (by simp) (by simp) id
      fun _ => .inr (.inr ⟨hs, fun hp => hp.of_move rfl rfl hsignals⟩)
  · exact h.move rfl id rfl rfl hold (by simp) (fun _ k _ => hcareful.2 hs rfl k) (by simp)
      (by simp) id fun hs => .inr (.inr ⟨hs, fun hp => hp.of_move rfl rfl hsignals⟩)
  · exact h.move rfl id rfl rfl hold (by simp) (by simp [CallAt.waiting]) (by simp) (by simp) id
      fun hs => .inr (.inr ⟨hs, fun hp => hp.of_move rfl rfl hsignals⟩)

theorem Waits.others (hj : (t.calls j).waiting = true) {k : Nat} (hk : k ≠ j) :
    (t.calls k).waiting = false := by
  by_contra hwaiting
  exact hk (h.unique k j (by simpa using hwaiting) hj)

theorem Waits.resume (hj : (t.calls j).waiting = true)
    (hcalls : t'.calls = update t.calls j (.returned true false true)) (htokens : t'.tokens = 0)
    (hstatus : t'.status = 0 ∨ t'.status = 1) (hterminal : t'.state.Terminal) : t'.Waits := by
  have hnone : ∀ k, (t'.calls k).waiting = false := fun k => by
    by_cases hkj : k = j
    · rw [hcalls, hkj, update_self]
      rfl
    · rw [hcalls, update_of_ne hkj]
      exact h.others hj hkj
  have hne : ∀ k place, place.waiting = true → t'.calls k ≠ place := fun k place hplace hk => by
    have hfalse := hnone k
    rw [hk, hplace] at hfalse
    cases hfalse
  refine ⟨fun k l hk => ?_, fun k hk => ?_, fun _ => ⟨htokens, hstatus⟩,
    fun k hk => absurd hk (hne k _ rfl), fun _ => hterminal, fun k _ hk => absurd hk (hne k _ rfl),
    fun k _ hk => absurd hk (hne k _ rfl)⟩
  · rw [hnone k] at hk
    cases hk
  · rcases hk with hk | hk | hk <;> exact absurd hk (hne k _ rfl)

theorem Waits.toBlocked (hj : t.calls j = .block) (hstatus : t.status < 1) :
    ({ t.callTo j .blocked with status := t.status - 1 } : Task).Waits := by
  obtain ⟨htokens, hzero⟩ := h.free_of_block hj
  have hwaiting : (t.calls j).waiting = true := by rw [hj]; rfl
  have hone : ∀ k, k ≠ j → (t.callTo j .blocked).calls k = t.calls k := fun k hk => by
    simp [callTo, hk]
  have honly : ∀ k, ((t.callTo j .blocked).calls k).waiting = true → k = j := fun k hk => by
    by_contra hkj
    rw [hone k hkj, h.others hwaiting hkj] at hk
    cases hk
  have hj' : (t.callTo j .blocked).calls j = .blocked := by simp [callTo]
  constructor
  case unique => exact fun k l hk hl => (honly k hk).trans (honly l hl).symm
  case event => exact fun k hk => h.event j (.inr (.inl hj))
  case free => exact fun hnone => absurd hj' (hnone j)
  case blocked => exact fun k _ => .inl ⟨htokens, by simp only; omega⟩
  case signalled =>
    rintro (hs | hs)
    · simp only at hs
      omega
    · exact absurd htokens hs
  case toBlock =>
    intro k _ hk
    obtain rfl := honly k (by rw [show (t.callTo j .blocked).calls k = .block from hk]; rfl)
    exact absurd (hj'.symm.trans hk) (by simp)
  case toWake =>
    intro k hs _
    refine .inl ?_
    rcases h.toBlock j hs hj with hp | hp
    · exact hp.of_move rfl rfl (by rw [hj]; rfl)
    · omega

theorem Waits.call (hanswers : t.Answers) (hstep : t.step (.call j) = some t') : t'.Waits := by
  have hsettled := hanswers.settled j
  have hothers : (t.calls j).waiting = true → ∀ k, k ≠ j → (t.calls k).waiting = false :=
    fun hj k hk => h.others hj hk
  simp only [Task.step] at hstep
  -- a step of a waiting call that is not at the event keeps the signals of the others
  have hpending : ∀ u : Task, ∀ place, (t.calls j).signals = false → u.execs = t.execs →
      u.calls = update t.calls j place → u.state = t.state →
      u.state.Terminal → u.Pending ∨ t.Served ∨ (t.state.Terminal ∧ (t.Pending → u.Pending)) :=
    fun u place hsignals hexecs hcalls hs hterminal =>
      .inr (.inr ⟨hs ▸ hterminal, fun hp => hp.of_move hexecs hcalls hsignals⟩)
  cases hplace : t.calls j with
  | idle | returned wait succ finish =>
    rw [hplace] at hstep
    cases hstep
  | setFlag =>
    rw [hplace] at hstep hothers hpending
    cases hstep
    exact h.move rfl id rfl rfl (by simp [hplace]) (by simp) (fun _ => hothers rfl) (by simp)
      (by simp) id (hpending _ _ rfl rfl rfl rfl)
  | makeEvent =>
    rw [hplace] at hstep hothers hpending
    cases hstep
    exact h.move rfl (fun _ => rfl) rfl rfl (by simp [hplace]) (by simp) (fun _ => hothers rfl)
      (fun _ => rfl) (by simp) id (hpending _ _ rfl rfl rfl rfl)
  | wait =>
    rw [hplace] at hstep hothers hpending
    simp only [callStep] at hstep
    split at hstep <;> cases hstep
    · exact h.move rfl id rfl rfl (by simp [hplace]) (by simp) (by simp [CallAt.waiting]) (by simp)
        (by simp) id (hpending _ _ rfl rfl rfl rfl)
    · exact h.move rfl id rfl rfl (by simp [hplace]) (by simp) (fun _ => hothers rfl) (by simp)
        (by simp) id (hpending _ _ rfl rfl rfl rfl)
  | recheck =>
    rw [hplace] at hstep hothers hpending
    simp only [callStep] at hstep
    split at hstep
    · cases hstep
      exact h.move rfl id rfl rfl (by simp [hplace]) (by simp) (by simp [CallAt.waiting]) (by simp)
        (by simp) id (hpending _ _ rfl rfl rfl rfl)
    · rename_i hterminal
      cases hstep
      exact h.move rfl id rfl rfl (by simp [hplace]) (by simp) (fun _ => hothers rfl)
        (fun _ => h.event j (.inl hplace)) (fun _ => hterminal) id (hpending _ _ rfl rfl rfl rfl)
  | block =>
    rw [hplace] at hstep
    obtain ⟨htokens, hzero⟩ := h.free_of_block hplace
    simp only [callStep] at hstep
    split at hstep
    · rename_i hstatus
      cases hstep
      exact h.toBlocked hplace hstatus
    · cases hstep
      have hone : t.status = 1 := by omega
      exact h.resume (by rw [hplace]; rfl) rfl htokens (.inl (by simp [hone]))
        (h.signalled (.inl hone))
  | blocked =>
    rw [hplace] at hstep
    obtain ⟨htokens, hstep⟩ := ite_none_left_eq_some.mp hstep
    cases hstep
    obtain ⟨hzero, -⟩ | ⟨hone, hstatus⟩ := h.blocked j hplace
    · exact absurd hzero htokens
    · exact h.resume (by rw [hplace]; rfl) rfl (by simp [hone]) hstatus
        (h.signalled (.inr htokens))
  | signal wait =>
    rw [hplace] at hstep
    cases hstep
    by_cases hevent : t.event = true
    · refine h.move rfl id rfl rfl (by simp [hplace]) (by simp [hevent])
        (by simp [hevent, CallAt.waiting]) (by simp [hevent]) (by simp [hevent]) id
        fun _ => .inl (.inr (.inr ⟨j, ?_⟩))
      simp [callTo, hevent, CallAt.signals]
    · exact h.move rfl id rfl rfl (by simp [hplace]) (by simp [hevent])
        (by simp [hevent, CallAt.waiting]) (by simp [hevent]) (by simp [hevent]) id
        fun _ => .inr (.inl (h.served_of_no_event hevent))
  | notify wait =>
    rw [hplace] at hstep hsettled
    cases hstep
    have hold : t.notify.calls j ≠ .blocked := fun hblocked =>
      CallAt.noConfusion (hplace.symm.trans hblocked)
    exact (h.notify (hsettled rfl)).move rfl id rfl rfl hold (by simp) (by simp [CallAt.waiting])
      (by simp) (by simp) id fun _ => .inr (.inl h.served_notify)

omit h

/-! ### Whole runs -/

structure Reliable (t : Task) : Prop where
  executes : t.Executes
  answers : t.Answers
  waits : t.Waits

theorem reliable_start : ({} : Task).Reliable := ⟨executes_start, answers_start, waits_start⟩

theorem Reliable.step (h : t.Reliable) (hcareful : t.Careful e) (hstep : t.step e = some t') :
    t'.Reliable := by
  have hexecutes := h.executes.step hcareful hstep
  have hkeep := hstep
  cases e with
  | cancel j waitUntilFinished =>
    exact ⟨hexecutes, h.answers.cancel h.executes hstep, h.waits.cancel hcareful hstep⟩
  | call j => exact ⟨hexecutes, h.answers.call h.waits hstep, h.waits.call h.answers hstep⟩
  | exec i =>
    refine ⟨hexecutes, h.answers.keep hstep ?_, h.waits.exec h.executes hstep⟩
    obtain ⟨place, -, rfl⟩ := map_eq_some_iff.mp hstep
    cases place <;> simp only [execStep] <;> (repeat' split) <;> rfl
  | enqueue =>
    cases hstep
    exact ⟨hexecutes, h.answers.keep hkeep rfl,
      h.waits.keep hkeep rfl rfl rfl rfl fun hs => .inr ⟨hs, fun _ hp => hp⟩⟩
  | dequeue =>
    obtain ⟨hqueued, hstep⟩ := ite_none_left_eq_some.mp hstep
    cases hstep
    have hsingle := h.executes.single
    have hexecs : t.execs = [] := eq_nil_of_length_eq_zero (by omega)
    refine ⟨hexecutes, h.answers.keep hkeep rfl,
      h.waits.keep hkeep rfl rfl rfl rfl fun hs => .inr ⟨hs, fun _ hp => ?_⟩⟩
    rcases hp with hp | hp | hp
    · simp [hexecs] at hp
    · simp [hexecs] at hp
    · exact .inr (.inr hp)
  | setRetry i enqueueImmediately =>
    obtain ⟨-, hstep⟩ := ite_none_right_eq_some.mp hstep
    split at hstep <;> cases hstep
    · exact ⟨hexecutes, h.answers.keep hkeep rfl,
        h.waits.keep hkeep rfl rfl rfl rfl (by simp [TaskState.Terminal])⟩
    · exact h
  | cancelSelf i =>
    obtain ⟨-, rfl⟩ := of_guard hstep
    exact ⟨hexecutes, h.answers.keep hkeep rfl,
      h.waits.keep hkeep rfl rfl rfl rfl fun hs => .inr ⟨hs, fun _ hp => hp⟩⟩

/-- Somebody else than the waiters has something to do. -/
def Working (t : Task) : Prop := t.queued ≠ 0 ∨ t.execs ≠ [] ∨ ∃ k, (t.calls k).signals = true

/-- **No waiter is left behind.** A waiting call can go on, or a worker or a signalling call is at
work, or the task waits for the answer that `set_retry` without `enqueue_immediately` announced. -/
theorem Reliable.woken (h : t.Reliable) (hj : (t.calls j).waiting = true) :
    (∃ t', t.step (.call j) = some t') ∨ t.Working ∨ (t.state = .ready ∧ t.retryNow = false) := by
  by_cases hblocked : t.calls j = .blocked
  · by_cases htokens : t.tokens = 0
    · refine .inr ?_
      by_cases hwork : t.queued = 0 ∧ t.execs = []
      · by_cases hterminal : t.state.Terminal
        · rcases h.waits.toWake j hterminal hblocked with hp | hp
          · rcases hp with hp | hp | hp
            · simp [hwork.2] at hp
            · simp [hwork.2] at hp
            · exact .inl (.inr (.inr hp))
          · exact absurd htokens hp
        · have hready : t.state = .ready := by
            by_contra hready
            exact hterminal (terminal_of_ne hready (h.executes.ne_running_of_none hwork.2))
          refine .inr ⟨hready, ?_⟩
          exact (h.executes.idle hready hwork.1 hwork.2).resolve_left (h.answers.started j hj)
      · rcases not_and_or.mp hwork with hwork | hwork
        · exact .inl (.inl hwork)
        · exact .inl (.inr (.inl hwork))
    · exact .inl ⟨_, by simp only [Task.step, hblocked, callStep]; exact if_neg htokens⟩
  · refine .inl ?_
    simp only [Task.step]
    cases hplace : t.calls j with
    | blocked => exact absurd hplace hblocked
    | block =>
      simp only [callStep]
      split
      · exact ⟨_, rfl⟩
      · exact ⟨_, rfl⟩
    | setFlag | wait | makeEvent | recheck => exact ⟨_, rfl⟩
    | idle | signal wait | notify wait | returned wait succ finish =>
      rw [hplace] at hj
      cases hj

theorem step_oneShot (hretry : ∀ i enqueueImmediately, e ≠ .setRetry i enqueueImmediately)
    (hstep : t.step e = some t') (h : t.runs ≤ 1 ∧ (t.state = .ready → t.runs = 0)) :
    t'.runs ≤ 1 ∧ (t'.state = .ready → t'.runs = 0) := by
  cases e with
  | setRetry i enqueueImmediately => exact absurd rfl (hretry i enqueueImmediately)
  | exec i =>
    obtain ⟨place, -, rfl⟩ := map_eq_some_iff.mp hstep
    cases place with
    | start =>
      simp only [execStep]
      split
      · rename_i hready
        exact ⟨by simp [h.2 hready], by simp⟩
      · exact h
    | after =>
      simp only [execStep]
      split
      · exact ⟨h.1, by simp⟩
      · exact h
    | cancelReady =>
      refine ⟨h.1, fun hready => ?_⟩
      simp only [execStep] at hready
      split at hready
      · cases hready
      · exact h.2 hready
    | callback | requeue | notify => exact h
    | readFlag | signal =>
      simp only [execStep]
      repeat' split
      all_goals exact h
  | cancel j waitUntilFinished =>
    obtain ⟨-, ⟨-, rfl⟩ | ⟨-, rfl⟩ | ⟨-, -, rfl⟩ | ⟨-, -, rfl⟩⟩ := step_cancel hstep
    · exact ⟨h.1, by simp⟩
    · exact h
    · exact h
    · exact h
  | call j =>
    obtain ⟨hstate, -, -, hruns, -, -⟩ := callStep_frame hstep
    rwa [hstate, hruns]
  | enqueue | dequeue | cancelSelf i =>
    simp only [Task.step] at hstep
    repeat' split at hstep
    all_goals cases hstep
    all_goals exact h

/-! ### The work that is left -/

def workLeft (t : Task) : Nat := 9 * t.queued + (t.execs.map ExecAt.left).sum

theorem Executes.workLeft_le (h : t.Executes) : t.workLeft ≤ 10 := by
  have hsingle := h.single
  unfold workLeft
  rcases hexecs : t.execs with _ | ⟨p, _ | ⟨q, rest⟩⟩
  · rw [hexecs] at hsingle
    simp only [length_nil] at hsingle
    simp only [map_nil, sum_nil]
    omega
  · rw [hexecs] at hsingle
    simp only [length_cons, length_nil] at hsingle
    have hp : p.left ≤ 10 := by cases p <;> decide
    simp only [map_cons, map_nil, sum_cons, sum_nil]
    omega
  · rw [hexecs] at hsingle
    simp only [length_cons] at hsingle
    omega

theorem workLeft_execStep (h : t.Executes) (hflag : t.waitForCancel = true)
    (hi : t.execs[i]? = some place) : (t.execStep i place).workLeft + 1 ≤ t.workLeft := by
  obtain ⟨hexecs, rfl, hqueued⟩ := h.alone hi
  cases place <;> simp only [execStep, hflag, if_true] <;> (repeat' split) <;>
    simp [workLeft, execTo, leave, Task.notify, hexecs, hqueued, ExecAt.left]

/-- Once the flag is raised, every step of a worker uses up work, and nobody else adds any. -/
theorem workLeft_step (h : t.Executes) (hflag : t.waitForCancel = true) (henqueue : e ≠ .enqueue)
    (hstep : t.step e = some t') : t'.workLeft + 1 ≤ t.workLeft + if e.byWorker then 0 else 1 := by
  cases e with
  | enqueue => exact absurd rfl henqueue
  | dequeue =>
    simp only [Task.step] at hstep
    split at hstep <;> cases hstep
    simp only [workLeft, Event.byWorker, map_append, List.sum_append, map_cons,
      map_nil, sum_cons, sum_nil, ExecAt.left, if_true]
    omega
  | exec i =>
    obtain ⟨place, hi, rfl⟩ := map_eq_some_iff.mp hstep
    exact workLeft_execStep h hflag hi
  | setRetry i enqueueImmediately =>
    simp only [Task.step] at hstep
    repeat' split at hstep
    all_goals cases hstep
    all_goals exact Nat.le_refl _
  | cancelSelf i =>
    obtain ⟨-, rfl⟩ := of_guard hstep
    exact Nat.le_refl _
  | cancel j waitUntilFinished =>
    obtain ⟨-, ⟨-, rfl⟩ | ⟨-, rfl⟩ | ⟨-, -, rfl⟩ | ⟨-, -, rfl⟩⟩ := step_cancel hstep <;>
      exact Nat.le_refl _
  | call j =>
    obtain ⟨-, hqueued, hexecs, -, -, -⟩ := callStep_frame hstep
    simp only [workLeft, hqueued, hexecs]
    exact Nat.le_refl _

theorem countP_byWorker (events : List Event) :
    events.countP Event.byWorker + (events.map fun e => if e.byWorker then 0 else 1).sum =
      events.length := by
  induction events with
  | nil => rfl
  | cons e events ih =>
    cases hworker : e.byWorker <;>
      simp only [countP_cons, map_cons, sum_cons, length_cons, hworker] <;>
      simp <;> omega

/-- **The workers come to an end.** After `_wait_for_cancel` is raised, and as long as nobody else
enqueues the task, the workers make ten steps at most. -/
theorem Reliable.workers_end (h : t.Reliable) (hflag : t.waitForCancel = true)
    (hrun : run Task.step t later = some t') (hcareful : StepsMeet Task.step Careful t later)
    (henqueue : .enqueue ∉ later) : later.countP Event.byWorker ≤ 10 := by
  have hmeet := stepsMeet_and hcareful
    (stepsMeet_of_forall (C := fun _ e => e ≠ Event.enqueue)
      (fun e he _ heq => henqueue (heq ▸ he)) t)
  have hkeep : ∀ (s : Task) (e : Event) (s' : Task), s.step e = some s' →
      s.Careful e ∧ e ≠ .enqueue → s.Reliable ∧ s.waitForCancel = true →
      s'.Reliable ∧ s'.waitForCancel = true := fun _ _ _ hstep hmeet hs =>
    ⟨hs.1.step hmeet.1 hstep, (step_keeps hstep).flag hs.2⟩
  have hlength := run_length_le_of_steps hkeep
    (fun _ _ _ hstep hmeet hs => workLeft_step hs.1.executes hs.2 hmeet.2 hstep) hrun hmeet
    ⟨h, hflag⟩
  have hcount := countP_byWorker later
  have hleft := h.executes.workLeft_le
  omega

theorem run_keeps (h : t.state.Terminal) (hrun : run Task.step t later = some t') :
    t'.runs = t.runs ∧ (.callback ∉ t.execs → .callback ∉ t'.execs) :=
  (run_invariant (I := fun s : Task => s.state.Terminal ∧ s.runs = t.runs ∧
      (ExecAt.callback ∉ t.execs → .callback ∉ s.execs))
    (fun s _ _ hstep hs => by
      obtain ⟨hstate, hruns⟩ := (step_keeps hstep).ended hs.1
      exact ⟨hstate ▸ hs.1, hruns.trans hs.2.1, (step_keeps hstep).callback hs.1 ∘ hs.2.2⟩)
    hrun ⟨h, rfl, id⟩).2

theorem Reliable.callback_left (h : t.Reliable) (hterminal : t.state.Terminal) :
    .callback ∉ t.execs := fun hmem => by
  obtain ⟨i, hi⟩ := mem_iff_getElem?.mp hmem
  exact h.executes.callback (h.executes.alone hi).1 hterminal

end Task

/-- **Cancellation is reliable** for every interleaving of workers, retries, cancellations and
careful calls of `enqueue`:

* a task that is never retried runs at most once;
* after `cancel` has returned true, the callback is not started again;
* after `cancel(true)` has returned, nobody is in the callback, then and later, and it is not
  started again;
* a waiting call can go on, or somebody else is at work, or the task waits for an answer; once the
  call has raised the flag, the workers make ten steps at most. -/
theorem cancellation_is_reliable {events : List Event} {t : Task}
    (hrun : run Task.step {} events = some t)
    (hcareful : StepsMeet Task.step Task.Careful {} events) :
    ((∀ i enqueueImmediately, .setRetry i enqueueImmediately ∉ events) → t.runs ≤ 1) ∧
    (∀ j wait finish, t.calls j = .returned wait true finish → ∀ later t',
      run Task.step t later = some t' → t'.runs = t.runs) ∧
    (∀ j succ finish, t.calls j = .returned true succ finish → .callback ∉ t.execs ∧
      ∀ later t', run Task.step t later = some t' →
        t'.runs = t.runs ∧ .callback ∉ t'.execs) ∧
    ∀ j, (t.calls j).waiting = true →
      ((∃ t', t.step (.call j) = some t') ∨ t.Working ∨
        (t.state = .ready ∧ t.retryNow = false)) ∧
      ((t.calls j).flagged = true → ∀ later t',
        run Task.step t later = some t' →
        StepsMeet Task.step Task.Careful t later → .enqueue ∉ later →
          later.countP Event.byWorker ≤ 10) := by
  have h : t.Reliable := run_invariant_of_steps
    (fun _ _ _ hstep hmeet hs => hs.step hmeet hstep) hrun hcareful Task.reliable_start
  refine ⟨fun hretry => ?_, fun j wait finish hj later t' hlater => ?_,
    fun j succ finish hj => ?_, fun j hj => ⟨h.woken hj, fun hflagged later t' hlater hmeet => ?_⟩⟩
  · have hmeet : StepsMeet Task.step
        (fun _ e => ∀ i enqueueImmediately, e ≠ Event.setRetry i enqueueImmediately) {} events := by
      refine stepsMeet_of_forall (fun e he _ i enqueueImmediately heq => ?_) _
      rw [heq] at he
      exact hretry i enqueueImmediately he
    exact (run_invariant_of_steps
      (fun _ _ _ hstep hne hs => Task.step_oneShot hne hstep hs) hrun hmeet
      ⟨by decide, fun _ => rfl⟩).1
  · have hfinish := h.answers.finishes j wait true finish hj (.inr rfl)
    exact (Task.run_keeps (h.answers.settled j (by rw [hj, hfinish]; rfl)) hlater).1
  · have hfinish := h.answers.finishes j true succ finish hj (.inl rfl)
    have hterminal := h.answers.settled j (by rw [hj, hfinish]; rfl)
    have hleft := h.callback_left hterminal
    exact ⟨hleft, fun later t' hlater => (Task.run_keeps hterminal hlater).imp_right (· hleft)⟩
  · exact h.workers_end (h.answers.flagged j hflagged) hlater hmeet

/-- A running task is cancelled by a thread that waits, and ends before the thread blocks. -/
def cancelledRunning : List Event :=
  [.enqueue, .dequeue, .exec 0, .cancel 0 true, .call 0, .exec 0, .exec 0, .call 0]

theorem cancellation_is_reliable_running :
    ∃ t, run Task.step {} cancelledRunning = some t ∧ t.runs = 1 ∧
      t.calls 0 = .returned true false true ∧ .callback ∉ t.execs := by
  have hcareful : StepsMeet Task.step Task.Careful {} cancelledRunning := by
    refine stepsMeet_cons ⟨rfl, rfl⟩ rfl ?_
    iterate 2 refine stepsMeet_cons trivial rfl ?_
    refine stepsMeet_cons ⟨(fun hs => by cases hs), fun _ _ _ => rfl⟩ rfl ?_
    iterate 4 refine stepsMeet_cons trivial rfl ?_
    trivial
  have hend : (run Task.step {} cancelledRunning).map
      (fun t => (t.runs, t.calls 0)) = some (1, .returned true false true) := by decide
  obtain ⟨t, hrun, hresult⟩ := map_eq_some_iff.mp hend
  obtain ⟨hruns, hcall⟩ := Prod.mk.inj hresult
  obtain ⟨-, -, hreturned, -⟩ := cancellation_is_reliable hrun hcareful
  exact ⟨t, hrun, hruns, hcall, (hreturned 0 false true hcall).1⟩

def twoWaiters : List Event :=
  [.enqueue, .dequeue, .exec 0, .cancel 0 true, .cancel 1 true,
    .call 0, .call 0, .call 0, .call 0, .call 0, .call 1, .call 1, .call 1, .call 1, .call 1,
    .exec 0, .exec 0, .exec 0, .exec 0, .call 0]

/-- **A waiter that is left behind.** The worker signals once, and the event releases one waiter.
The other one is still blocked, with nobody else at work. -/
theorem second_waiter_is_left :
    ∃ t, run Task.step {} twoWaiters = some t ∧ t.state = .finished ∧
      t.calls 0 = .returned true false true ∧ t.calls 1 = .blocked ∧
      t.step (.call 1) = none ∧ t.queued = 0 ∧ t.execs = [] := by
  have hend : (run Task.step {} twoWaiters).map
      (fun t => (t.state, t.calls 0, t.calls 1, t.tokens, t.queued, t.execs)) =
        some (.finished, .returned true false true, .blocked, 0, 0, []) := rfl
  obtain ⟨t, hrun, hresult⟩ := map_eq_some_iff.mp hend
  simp only [Prod.mk.injEq] at hresult
  obtain ⟨hstate, hfirst, hsecond, htokens, hqueued, hexecs⟩ := hresult
  refine ⟨t, hrun, hstate, hfirst, hsecond, ?_, hqueued, hexecs⟩
  simp [Task.step, hsecond, Task.callStep, htokens]

end Pegasus.Tasking
