/-
Cancellation of tasks, after `task.cpp` and `autoresetevent.h`.

The state word of a task is changed by compare-and-swap from the threads that execute it and from
the threads that cancel it. A step of this model is one access to what the threads share. A
cancellation that finds the task running raises `_wait_for_cancel` and waits for an event that
releases one waiter for each signal.

- `Task.step`: one access by a worker, by a call of `cancel`, or by whoever enqueues the task;
- `Task.Executes`, `Task.Answers`, `Task.Waits`: what holds between the steps about the thread that
  executes the task, the calls of `cancel` and the waiters;
- `Task.Executes.step`: one thread executes the task, if `enqueue` is called with care;
- `Task.step_keeps`: a task that has ended does not run again.
-/

import Pegasus.Common
import Pegasus.Lib.Run

namespace Pegasus.Tasking

open Option Function

inductive TaskState where
  | ready
  | running
  | finished
  | cancelled
deriving DecidableEq

/-- `cs >= TASK_STATE_FINISHED`. -/
def TaskState.Terminal (s : TaskState) : Prop := s = .finished ∨ s = .cancelled

instance (s : TaskState) : Decidable s.Terminal := inferInstanceAs (Decidable (_ ∨ _))

inductive ExecAt where
  /-- Before the compare-and-swap to `TASK_STATE_RUNNING`. -/
  | start
  /-- In the callback, which may call `set_retry`, and `cancel` of its own task. -/
  | callback
  /-- Behind the callback, before the compare-and-swap to `TASK_STATE_FINISHED`. A timer calls
  `set_retry` here. -/
  | after
  | readFlag
  | requeue
  | cancelReady
  /-- In `signal_waiters`, before `_wait_event` is loaded. -/
  | signal
  | notify
deriving DecidableEq

/-- Where a thread is in `cancel`, called with `wait_until_finished`. -/
inductive CallAt where
  | idle
  | setFlag
  /-- In `wait`, before the first load of the state. -/
  | wait
  | makeEvent
  | recheck
  /-- In `AutoResetEvent::wait`, before the status is decremented. -/
  | block
  /-- In `AutoResetEvent::wait`, at the semaphore. -/
  | blocked
  /-- In `signal_waiters`, after a successful cancellation. -/
  | signal (wait : Bool)
  | notify (wait : Bool)
  /-- The result, and what `finished` is set to. -/
  | returned (wait succ finish : Bool)
deriving DecidableEq

structure Task where
  state : TaskState := .ready
  waitForCancel : Bool := false
  /-- `_error` is `ERR_OK` after `set_retry`, not `ERR_IO_PENDING`. -/
  retryNow : Bool := false
  /-- `_wait_event` is not null. -/
  event : Bool := false
  /-- `m_status` of the event. -/
  status : Int := 0
  /-- The count of the semaphore of the event. -/
  tokens : Nat := 0
  /-- How often the task is in a queue or with the timer service. -/
  queued : Nat := 0
  execs : List ExecAt := []
  calls : Nat → CallAt := fun _ => .idle
  /-- How often the callback was started. -/
  runs : Nat := 0

inductive Event where
  /-- Somebody else than the task itself enqueues it. -/
  | enqueue
  | dequeue
  /-- The next access of a thread that executes the task. -/
  | exec (i : Nat)
  | setRetry (i : Nat) (enqueueImmediately : Bool)
  /-- The task cancels itself. -/
  | cancelSelf (i : Nat)
  /-- Another thread calls `cancel`; this is its compare-and-swap. -/
  | cancel (j : Nat) (waitUntilFinished : Bool)
  /-- The next access of a thread in `cancel`. -/
  | call (j : Nat)
deriving DecidableEq

namespace Task

/-- `AutoResetEvent::signal`. -/
def notify (t : Task) : Task :=
  { t with
    status := if t.status < 1 then t.status + 1 else 1
    tokens := if t.status < 0 then t.tokens + 1 else t.tokens }

def execTo (t : Task) (i : Nat) (place : ExecAt) : Task :=
  { t with execs := t.execs.set i place }

def leave (t : Task) (i : Nat) : Task :=
  { t with execs := t.execs.eraseIdx i }

def callTo (t : Task) (j : Nat) (place : CallAt) : Task :=
  { t with calls := update t.calls j place }

def execStep (t : Task) (i : Nat) : ExecAt → Task
  | .start =>
    if t.state = .ready then
      { t.execTo i .callback with state := .running, runs := t.runs + 1 }
    else t.execTo i .signal
  | .callback => t.execTo i .after
  | .after =>
    if t.state = .running then
      { t.execTo i .signal with state := .finished }
    else t.execTo i .readFlag
  | .readFlag =>
    if t.waitForCancel then t.execTo i .cancelReady
    else if t.retryNow then t.execTo i .requeue
    else t.leave i
  | .requeue => { t.leave i with queued := t.queued + 1 }
  | .cancelReady =>
    { t.execTo i .signal with state := if t.state = .ready then .cancelled else t.state }
  | .signal => if t.event then t.execTo i .notify else t.leave i
  | .notify => t.notify.leave i

/-- The compare-and-swap of `task::cancel`, and what the call does with the state it finds. -/
def cancelStep (t : Task) (j : Nat) (waitUntilFinished : Bool) : Task :=
  match t.state with
  | .ready => { t.callTo j (.signal waitUntilFinished) with state := .cancelled }
  | .cancelled | .finished => t.callTo j (.returned waitUntilFinished false true)
  | .running =>
    if waitUntilFinished then t.callTo j .setFlag
    else t.callTo j (.returned waitUntilFinished false false)

/-- The next access in `task::cancel`, `task::wait` and `AutoResetEvent::wait`. -/
def callStep (t : Task) (j : Nat) : CallAt → Option Task
  | .idle | .returned _ _ _ => none
  | .setFlag => some { t.callTo j .wait with waitForCancel := true }
  | .wait => some (t.callTo j (if t.state.Terminal then .returned true false true else .makeEvent))
  | .makeEvent => some { t.callTo j .recheck with event := true }
  | .recheck => some (t.callTo j (if t.state.Terminal then .returned true false true else .block))
  | .block =>
    if t.status < 1 then some { t.callTo j .blocked with status := t.status - 1 }
    else some { t.callTo j (.returned true false true) with status := t.status - 1 }
  | .blocked =>
    if t.tokens = 0 then none
    else some { t.callTo j (.returned true false true) with tokens := t.tokens - 1 }
  | .signal wait => some (t.callTo j (if t.event then .notify wait else .returned wait true true))
  | .notify wait => some (t.notify.callTo j (.returned wait true true))

def step (t : Task) : Event → Option Task
  | .enqueue => some { t with queued := t.queued + 1 }
  | .dequeue =>
    if t.queued = 0 then none
    else some { t with queued := t.queued - 1, execs := t.execs ++ [.start] }
  | .exec i => (t.execs[i]?).map (t.execStep i)
  | .setRetry i enqueueImmediately =>
    if t.execs[i]? = some .callback ∨ t.execs[i]? = some .after then
      if t.state = .running then some { t with state := .ready, retryNow := enqueueImmediately }
      else some t
    else none
  | .cancelSelf i =>
    if t.execs[i]? = some .callback then some { t with waitForCancel := true } else none
  | .cancel j waitUntilFinished =>
    if t.calls j = .idle then some (t.cancelStep j waitUntilFinished) else none
  | .call j => t.callStep j (t.calls j)

/-! ### What holds between the steps -/

end Task

def CallAt.waiting : CallAt → Bool
  | .setFlag | .wait | .makeEvent | .recheck | .block | .blocked => true
  | .idle | .signal _ | .notify _ | .returned _ _ _ => false

/-- The call has found that the task has ended, or has ended it. -/
def CallAt.settled : CallAt → Bool
  | .signal _ | .notify _ => true
  | .returned _ _ finish => finish
  | _ => false

/-- The call has raised `_wait_for_cancel` and waits. -/
def CallAt.flagged : CallAt → Bool
  | .setFlag => false
  | place => place.waiting

def CallAt.signals : CallAt → Bool
  | .signal _ | .notify _ => true
  | _ => false

/-- How many accesses a worker makes at most from a place on, once `_wait_for_cancel` is raised: a
worker that has read the flag before may enqueue the task one more time. -/
def ExecAt.left : ExecAt → Nat
  | .requeue => 10
  | .start => 8
  | .callback => 7
  | .after => 6
  | .readFlag => 5
  | .cancelReady => 4
  | .signal => 3
  | .notify => 2

def Event.byWorker : Event → Bool
  | .dequeue | .exec _ => true
  | _ => false

namespace Task

/-- Nobody enqueues a task that is enqueued or executed; a task is not cancelled between a
`set_retry` of its callback and the end of the callback; and one call of `cancel` waits at a
time. -/
def Careful (t : Task) : Event → Prop
  | .enqueue => t.queued = 0 ∧ t.execs = []
  | .cancel _ waitUntilFinished =>
    (t.state = .ready → .callback ∉ t.execs) ∧
      (t.state = .running → waitUntilFinished = true → ∀ k, (t.calls k).waiting = false)
  | _ => True

def Pending (t : Task) : Prop :=
  t.execs = [.signal] ∨ t.execs = [.notify] ∨ ∃ k, (t.calls k).signals = true

/-- One thread executes the task, and the state agrees with where it is. -/
structure Executes (t : Task) : Prop where
  single : t.queued + t.execs.length ≤ 1
  running : t.state = .running → t.execs = [.callback] ∨ t.execs = [.after]
  ran : t.state = .running → t.runs ≠ 0
  callback : t.execs = [.callback] → ¬ t.state.Terminal
  signals : t.execs = [.signal] ∨ t.execs = [.notify] → t.state.Terminal
  idle : t.state = .ready → t.queued = 0 → t.execs = [] → t.runs = 0 ∨ t.retryNow = false

structure Answers (t : Task) : Prop where
  settled : ∀ j, (t.calls j).settled = true → t.state.Terminal
  finishes : ∀ j wait succ finish, t.calls j = .returned wait succ finish →
    wait = true ∨ succ = true → finish = true
  started : ∀ j, (t.calls j).waiting = true → t.runs ≠ 0
  flagged : ∀ j, (t.calls j).flagged = true → t.waitForCancel = true

/-- **The waiters.** At most one call waits, and the event counts right for it. Once the task has
ended, the waiter has its signal or somebody is about to give it. -/
structure Waits (t : Task) : Prop where
  unique : ∀ j k, (t.calls j).waiting = true → (t.calls k).waiting = true → j = k
  event : ∀ j, t.calls j = .recheck ∨ t.calls j = .block ∨ t.calls j = .blocked → t.event = true
  free : (∀ j, t.calls j ≠ .blocked) → t.tokens = 0 ∧ (t.status = 0 ∨ t.status = 1)
  blocked : ∀ j, t.calls j = .blocked →
    (t.tokens = 0 ∧ t.status = -1) ∨ (t.tokens = 1 ∧ (t.status = 0 ∨ t.status = 1))
  signalled : t.status = 1 ∨ t.tokens ≠ 0 → t.state.Terminal
  toBlock : ∀ j, t.state.Terminal → t.calls j = .block → t.Pending ∨ t.status = 1
  toWake : ∀ j, t.state.Terminal → t.calls j = .blocked → t.Pending ∨ t.tokens ≠ 0

variable {t t' : Task} {i j : Nat} {place : ExecAt}

theorem Executes.alone (h : t.Executes) (hi : t.execs[i]? = some place) :
    t.execs = [place] ∧ i = 0 ∧ t.queued = 0 := by
  have hsingle := h.single
  have hlt : i < t.execs.length := (List.getElem?_eq_some_iff.mp hi).1
  obtain ⟨p, hp⟩ : ∃ p, t.execs = [p] := List.length_eq_one_iff.mp (by omega)
  obtain rfl : i = 0 := by
    rw [hp, List.length_singleton] at hlt
    omega
  rw [hp] at hi hsingle
  obtain rfl : p = place := by simpa using hi
  exact ⟨hp, rfl, by simpa using hsingle⟩

theorem executes_of_one {p : ExecAt} (hexecs : t.execs = [p]) (hqueued : t.queued = 0)
    (hrunning : t.state = .running → (p = .callback ∨ p = .after) ∧ t.runs ≠ 0)
    (hcallback : p = .callback → ¬ t.state.Terminal)
    (hsignals : p = .signal ∨ p = .notify → t.state.Terminal) : t.Executes where
  single := by simp [hexecs, hqueued]
  running hs := by simpa [hexecs] using (hrunning hs).1
  ran hs := (hrunning hs).2
  callback hp := hcallback (by simpa [hexecs] using hp)
  signals hp := hsignals (by simpa [hexecs] using hp)
  idle _ _ hnone := by simp [hexecs] at hnone

theorem executes_of_none (hexecs : t.execs = []) (hqueued : t.queued ≤ 1)
    (hstate : t.state ≠ .running)
    (hidle : t.state = .ready → t.queued = 0 → t.runs = 0 ∨ t.retryNow = false) :
    t.Executes where
  single := by simpa [hexecs] using hqueued
  running hs := absurd hs hstate
  ran hs := absurd hs hstate
  callback hp := by simp [hexecs] at hp
  signals hp := by simp [hexecs] at hp
  idle hready hzero _ := hidle hready hzero

theorem executes_start : ({} : Task).Executes :=
  executes_of_none rfl (by decide) (by decide) fun _ _ => .inl rfl

theorem answers_start : ({} : Task).Answers where
  settled j hj := by simp [CallAt.settled] at hj
  finishes j wait succ finish hj := by simp at hj
  started j hj := by simp [CallAt.waiting] at hj
  flagged j hj := by simp [CallAt.flagged, CallAt.waiting] at hj

theorem waits_start : ({} : Task).Waits where
  unique j k hj := by simp [CallAt.waiting] at hj
  event j hj := by simp at hj
  free _ := ⟨rfl, .inl rfl⟩
  blocked j hj := by simp at hj
  signalled h := by simp at h
  toBlock j _ hj := by simp at hj
  toWake j _ hj := by simp at hj

theorem terminal_of_ne {s : TaskState} (hready : s ≠ .ready) (hrunning : s ≠ .running) :
    s.Terminal := by
  cases s <;> simp_all [TaskState.Terminal]

/-- A thread that is neither in the callback nor right behind it does not find the task running. -/
theorem Executes.ne_running (h : t.Executes) {p : ExecAt} (hexecs : t.execs = [p])
    (hcallback : p ≠ .callback) (hafter : p ≠ .after) : t.state ≠ .running := fun hs => by
  rcases h.running hs with hp | hp
  · exact hcallback (by simpa [hexecs] using hp)
  · exact hafter (by simpa [hexecs] using hp)

theorem Executes.exec (h : t.Executes) (hi : t.execs[i]? = some place) :
    (t.execStep i place).Executes := by
  obtain ⟨hexecs, rfl, hqueued⟩ := h.alone hi
  have hto : ∀ p, t.execs.set 0 p = [p] := fun p => by rw [hexecs]; rfl
  have hgone : t.execs.eraseIdx 0 = [] := by rw [hexecs]; rfl
  cases place with
  | start =>
    have hne := h.ne_running hexecs (by decide) (by decide)
    simp only [execStep]
    split
    · exact executes_of_one (hto _) hqueued (fun _ => ⟨.inl rfl, Nat.succ_ne_zero _⟩)
        (fun _ => by simp [TaskState.Terminal]) (by simp)
    · rename_i hready
      exact executes_of_one (hto _) hqueued (fun hs => absurd hs hne) (by simp)
        fun _ => terminal_of_ne hready hne
  | callback =>
    exact executes_of_one (hto _) hqueued (fun hs => ⟨.inr rfl, h.ran hs⟩) (by simp) (by simp)
  | after =>
    simp only [execStep]
    split
    · exact executes_of_one (hto _) hqueued (by simp) (by simp) fun _ => .inl rfl
    · rename_i hrunning
      exact executes_of_one (hto _) hqueued (fun hs => absurd hs hrunning) (by simp) (by simp)
  | readFlag =>
    have hne := h.ne_running hexecs (by decide) (by decide)
    simp only [execStep]
    split
    · exact executes_of_one (hto _) hqueued (fun hs => absurd hs hne) (by simp) (by simp)
    · split
      · exact executes_of_one (hto _) hqueued (fun hs => absurd hs hne) (by simp) (by simp)
      · rename_i hretry
        exact executes_of_none hgone (by simp [leave, hqueued]) hne
          fun _ _ => .inr (by simpa [leave] using hretry)
  | requeue =>
    exact executes_of_none hgone (by simp [execStep, hqueued])
      (h.ne_running hexecs (by decide) (by decide)) fun _ hzero => by simp [execStep] at hzero
  | cancelReady =>
    have hne := h.ne_running hexecs (by decide) (by decide)
    have hterminal : (if t.state = .ready then TaskState.cancelled else t.state).Terminal := by
      split
      · exact .inr rfl
      · rename_i hready
        exact terminal_of_ne hready hne
    refine executes_of_one (hto _) hqueued (fun hs => ?_) (by simp) fun _ => hterminal
    rcases hterminal with hs' | hs' <;> exact absurd (hs.symm.trans hs') (by decide)
  | signal =>
    have hterminal := h.signals (.inl hexecs)
    have hne := h.ne_running hexecs (by decide) (by decide)
    simp only [execStep]
    split
    · exact executes_of_one (hto _) hqueued (fun hs => absurd hs hne) (by simp)
        fun _ => hterminal
    · refine executes_of_none hgone (by simp [leave, hqueued]) hne fun hready _ => ?_
      rcases hterminal with hs | hs <;> exact absurd (hs.symm.trans hready) (by decide)
  | notify =>
    have hne := h.ne_running hexecs (by decide) (by decide)
    refine executes_of_none hgone (by simp [execStep, Task.notify, leave, hqueued]) hne
      fun hready _ => ?_
    rcases h.signals (.inr hexecs) with hs | hs <;> exact absurd (hs.symm.trans hready) (by decide)

theorem Executes.congr (h : t.Executes) (hstate : t'.state = t.state)
    (hqueued : t'.queued = t.queued) (hexecs : t'.execs = t.execs) (hruns : t'.runs = t.runs)
    (hretry : t'.retryNow = t.retryNow) : t'.Executes := by
  obtain ⟨hsingle, hrunning, hran, hcallback, hsignals, hidle⟩ := h
  constructor <;> simpa only [hstate, hqueued, hexecs, hruns, hretry]

variable {place : CallAt}

theorem callStep_frame (h : t.callStep j place = some t') :
    t'.state = t.state ∧ t'.queued = t.queued ∧ t'.execs = t.execs ∧ t'.runs = t.runs ∧
      t'.retryNow = t.retryNow ∧ (t.waitForCancel = true → t'.waitForCancel = true) := by
  cases place <;> simp only [callStep] at h <;> (try split at h) <;> cases h <;>
    exact ⟨rfl, rfl, rfl, rfl, rfl, fun hflag => by first | exact hflag | rfl⟩

theorem Executes.ne_running_of_none (h : t.Executes) (hexecs : t.execs = []) :
    t.state ≠ .running := fun hs => by
  rcases h.running hs with hp | hp <;> simp [hexecs] at hp

variable {e : Event} {waitUntilFinished : Bool}

theorem Executes.step (h : t.Executes) (hcareful : t.Careful e) (hstep : t.step e = some t') :
    t'.Executes := by
  cases e with
  | enqueue =>
    obtain ⟨hqueued, hexecs⟩ := hcareful
    cases hstep
    exact executes_of_none hexecs (by simp [hqueued]) (h.ne_running_of_none hexecs)
      fun _ hzero => by simp at hzero
  | dequeue =>
    obtain ⟨hqueued, hstep⟩ := ite_none_left_eq_some.mp hstep
    cases hstep
    have hsingle := h.single
    have hexecs : t.execs = [] := List.eq_nil_of_length_eq_zero (by omega)
    exact executes_of_one (p := .start) (by simp [hexecs]) (by simp only; omega)
      (fun hs => absurd hs (h.ne_running_of_none hexecs)) (by simp) (by simp)
  | exec i =>
    obtain ⟨place, hi, rfl⟩ := map_eq_some_iff.mp hstep
    exact h.exec hi
  | setRetry i enqueueImmediately =>
    obtain ⟨hi, hstep⟩ := ite_none_right_eq_some.mp hstep
    split at hstep
    · rename_i hs
      cases hstep
      rcases hi with hi | hi
      · obtain ⟨hexecs, -, hqueued⟩ := h.alone hi
        exact executes_of_one hexecs hqueued (by simp) (by simp [TaskState.Terminal]) (by simp)
      · obtain ⟨hexecs, -, hqueued⟩ := h.alone hi
        exact executes_of_one hexecs hqueued (by simp) (by simp) (by simp)
    · cases hstep
      exact h
  | cancelSelf i =>
    obtain ⟨-, rfl⟩ := TransitionSystem.of_guard hstep
    exact h.congr rfl rfl rfl rfl rfl
  | cancel j waitUntilFinished =>
    obtain ⟨-, rfl⟩ := TransitionSystem.of_guard hstep
    unfold cancelStep
    split
    · rename_i hready
      refine ⟨h.single, by simp, by simp, fun hp => ?_, fun _ => .inr rfl, by simp⟩
      exact absurd (by simp [show t.execs = [.callback] from hp]) (hcareful.1 hready)
    · exact h.congr rfl rfl rfl rfl rfl
    · exact h.congr rfl rfl rfl rfl rfl
    · split <;> exact h.congr rfl rfl rfl rfl rfl
  | call j =>
    obtain ⟨hstate, hqueued, hexecs, hruns, hretry, -⟩ := callStep_frame hstep
    exact h.congr hstate hqueued hexecs hruns hretry

theorem step_cancel (hstep : t.step (.cancel j waitUntilFinished) = some t') : t.calls j = .idle ∧
      ((t.state = .ready ∧
          t' = { t.callTo j (.signal waitUntilFinished) with state := .cancelled }) ∨
        (t.state.Terminal ∧ t' = t.callTo j (.returned waitUntilFinished false true)) ∨
        (t.state = .running ∧ waitUntilFinished = true ∧ t' = t.callTo j .setFlag) ∨
        (t.state = .running ∧ waitUntilFinished = false ∧
          t' = t.callTo j (.returned false false false))) := by
  obtain ⟨hidle, hstep⟩ := ite_none_right_eq_some.mp hstep
  refine ⟨hidle, ?_⟩
  cases hstep
  unfold cancelStep
  cases hs : t.state with
  | ready => exact .inl ⟨rfl, rfl⟩
  | cancelled => exact .inr (.inl ⟨.inr rfl, rfl⟩)
  | finished => exact .inr (.inl ⟨.inl rfl, rfl⟩)
  | running =>
    cases waitUntilFinished with
    | true => exact .inr (.inr (.inl ⟨rfl, rfl, rfl⟩))
    | false => exact .inr (.inr (.inr ⟨rfl, rfl, rfl⟩))

/-! ### What every step keeps -/

/-- A task that has ended stays so: its state does not change, and its callback is neither started
nor entered again. `_wait_for_cancel` is never reset. -/
structure Keeps (t t' : Task) : Prop where
  ended : t.state.Terminal → t'.state = t.state ∧ t'.runs = t.runs
  callback : t.state.Terminal → .callback ∉ t.execs → .callback ∉ t'.execs
  runs : t.runs ≠ 0 → t'.runs ≠ 0
  flag : t.waitForCancel = true → t'.waitForCancel = true

theorem keeps_of_frame (hstate : t.state.Terminal → t'.state = t.state)
    (hexecs : .callback ∉ t.execs → .callback ∉ t'.execs) (hruns : t'.runs = t.runs)
    (hflag : t.waitForCancel = true → t'.waitForCancel = true) : t.Keeps t' where
  ended h := ⟨hstate h, hruns⟩
  callback _ := hexecs
  runs h := hruns ▸ h
  flag := hflag

theorem execStep_keeps (t : Task) (i : Nat) (place : ExecAt) : t.Keeps (t.execStep i place) := by
  have hto : ∀ p, p ≠ .callback → .callback ∉ t.execs → .callback ∉ t.execs.set i p :=
    fun p hp hcallback hmem =>
      (List.mem_or_eq_of_mem_set hmem).elim hcallback fun heq => hp heq.symm
  have hgone : .callback ∉ t.execs → .callback ∉ t.execs.eraseIdx i := fun hcallback hmem =>
    hcallback (List.mem_of_mem_eraseIdx hmem)
  have hready : t.state.Terminal → t.state ≠ .ready := by rintro (h | h) <;> simp [h]
  have hrunning : t.state.Terminal → t.state ≠ .running := by rintro (h | h) <;> simp [h]
  cases place <;> simp only [execStep] <;> (repeat' split) <;> constructor <;> intro h <;>
    first
    | exact absurd ‹t.state = .ready› (hready h)
    | exact hto _ (by simp)
    | exact hgone
    | simp_all [execTo, leave, Task.notify]

/-- **A task that has ended stays so**, and its callback is not started again. -/
theorem step_keeps (hstep : t.step e = some t') : t.Keeps t' := by
  cases e with
  | enqueue =>
    cases hstep
    exact keeps_of_frame (fun _ => rfl) id rfl id
  | dequeue =>
    obtain ⟨-, hstep⟩ := ite_none_left_eq_some.mp hstep
    cases hstep
    exact keeps_of_frame (fun _ => rfl) (by simp) rfl id
  | exec i =>
    obtain ⟨place, -, rfl⟩ := map_eq_some_iff.mp hstep
    exact execStep_keeps t i place
  | setRetry i enqueueImmediately =>
    obtain ⟨-, hstep⟩ := ite_none_right_eq_some.mp hstep
    split at hstep <;> cases hstep
    · rename_i hs
      exact keeps_of_frame (by simp [hs, TaskState.Terminal]) id rfl id
    · exact keeps_of_frame (fun _ => rfl) id rfl id
  | cancelSelf i =>
    obtain ⟨-, rfl⟩ := TransitionSystem.of_guard hstep
    exact keeps_of_frame (fun _ => rfl) id rfl fun _ => rfl
  | cancel j waitUntilFinished =>
    obtain ⟨-, ⟨hs, rfl⟩ | ⟨-, rfl⟩ | ⟨-, -, rfl⟩ | ⟨-, -, rfl⟩⟩ := step_cancel hstep
    · exact keeps_of_frame (by simp [hs, TaskState.Terminal]) id rfl id
    all_goals exact keeps_of_frame (fun _ => rfl) id rfl id
  | call j =>
    obtain ⟨hstate, -, hexecs, hruns, -, hflag⟩ := callStep_frame hstep
    exact keeps_of_frame (fun _ => hstate) (hexecs ▸ id) hruns hflag

/-! ### The calls -/

theorem Waits.free_of_block (h : t.Waits) (hj : t.calls j = .block) :
    t.tokens = 0 ∧ (t.status = 0 ∨ t.status = 1) :=
  h.free fun k hk => by
    have hsame := h.unique j k (by simp [hj, CallAt.waiting]) (by simp [hk, CallAt.waiting])
    rw [← hsame, hj] at hk
    cases hk

variable (h : t.Answers)
include h

theorem Answers.keep (hstep : t.step e = some t') (hcalls : t'.calls = t.calls) : t'.Answers where
  settled j hj := by
    have hterminal := h.settled j (hcalls ▸ hj)
    rw [((step_keeps hstep).ended hterminal).1]
    exact hterminal
  finishes j wait succ finish hj := h.finishes j wait succ finish (hcalls ▸ hj)
  started j hj := (step_keeps hstep).runs (h.started j (hcalls ▸ hj))
  flagged j hj := (step_keeps hstep).flag (h.flagged j (hcalls ▸ hj))

theorem Answers.move (hstep : t.step e = some t')
    (hcalls : t'.calls = update t.calls j place)
    (hsettled : place.settled = true → t'.state.Terminal)
    (hfinish : ∀ wait succ finish, place = .returned wait succ finish →
      wait = true ∨ succ = true → finish = true) (hwaiting : place.waiting = true → t'.runs ≠ 0)
    (hflag : place.flagged = true → t'.waitForCancel = true) : t'.Answers where
  settled k hk := by
    rw [hcalls, update_apply] at hk
    split at hk
    · exact hsettled hk
    · have hterminal := h.settled k hk
      rw [((step_keeps hstep).ended hterminal).1]
      exact hterminal
  finishes k wait succ finish hk := by
    rw [hcalls, update_apply] at hk
    split at hk
    · exact hfinish wait succ finish hk
    · exact h.finishes k wait succ finish hk
  started k hk := by
    rw [hcalls, update_apply] at hk
    split at hk
    · exact hwaiting hk
    · exact (step_keeps hstep).runs (h.started k hk)
  flagged k hk := by
    rw [hcalls, update_apply] at hk
    split at hk
    · exact hflag hk
    · exact (step_keeps hstep).flag (h.flagged k hk)

theorem Answers.cancel (hexecutes : t.Executes)
    (hstep : t.step (.cancel j waitUntilFinished) = some t') : t'.Answers := by
  obtain ⟨-, ⟨-, rfl⟩ | ⟨hs, rfl⟩ | ⟨hs, rfl, rfl⟩ | ⟨-, rfl, rfl⟩⟩ := step_cancel hstep
  · exact h.move hstep rfl (fun _ => .inr rfl) (by simp) (by simp [CallAt.waiting])
      (by simp [CallAt.flagged, CallAt.waiting])
  · exact h.move hstep rfl (fun _ => hs) (by simp) (by simp [CallAt.waiting])
      (by simp [CallAt.flagged, CallAt.waiting])
  · exact h.move hstep rfl (by simp [CallAt.settled]) (by simp) (fun _ => hexecutes.ran hs)
      (by simp [CallAt.flagged])
  · exact h.move hstep rfl (by simp [CallAt.settled]) (by simp) (by simp [CallAt.waiting])
      (by simp [CallAt.flagged, CallAt.waiting])

theorem Answers.wait (hj : (t.calls j).waiting = true)
    (hstep : t.step (.call j) = some t') (hcalls : t'.calls = update t.calls j place)
    (hplace : place.waiting = true) (hflag : t'.waitForCancel = true) : t'.Answers :=
  h.move hstep hcalls
    (fun hsettled => by cases place <;> simp [CallAt.waiting, CallAt.settled] at hplace hsettled)
    (fun wait succ finish heq => by simp [heq, CallAt.waiting] at hplace)
    (fun _ => (step_keeps hstep).runs (h.started j hj)) fun _ => hflag

theorem Answers.resume (hstep : t.step (.call j) = some t')
    (hcalls : t'.calls = update t.calls j (.returned true false true))
    (hterminal : t'.state.Terminal) : t'.Answers :=
  h.move hstep hcalls (fun _ => hterminal) (by simp) (by simp [CallAt.waiting])
    (by simp [CallAt.flagged, CallAt.waiting])

theorem Answers.call (hwaits : t.Waits) (hstep : t.step (.call j) = some t') : t'.Answers := by
  have hkeep := hstep
  have hsettled := h.settled j
  have hwait : (t.calls j).flagged = true → t'.waitForCancel = true := fun hj =>
    (step_keeps hstep).flag (h.flagged j hj)
  simp only [Task.step] at hstep
  cases hplace : t.calls j with
  | idle | returned wait succ finish =>
    rw [hplace] at hstep
    cases hstep
  | setFlag =>
    rw [hplace] at hstep
    cases hstep
    exact h.wait (by rw [hplace]; rfl) hkeep rfl rfl rfl
  | makeEvent =>
    rw [hplace] at hstep hwait
    cases hstep
    exact h.wait (by rw [hplace]; rfl) hkeep rfl rfl (hwait rfl)
  | wait | recheck =>
    rw [hplace] at hstep hwait
    simp only [callStep] at hstep
    split at hstep
    · rename_i hterminal
      cases hstep
      exact h.resume hkeep rfl hterminal
    · cases hstep
      exact h.wait (by rw [hplace]; rfl) hkeep rfl rfl (hwait rfl)
  | block =>
    rw [hplace] at hstep hwait
    obtain ⟨-, hstatus⟩ := hwaits.free_of_block hplace
    simp only [callStep] at hstep
    split at hstep
    · cases hstep
      exact h.wait (by rw [hplace]; rfl) hkeep rfl rfl (hwait rfl)
    · cases hstep
      exact h.resume hkeep rfl (hwaits.signalled (.inl (by omega)))
  | blocked =>
    rw [hplace] at hstep
    obtain ⟨htokens, hstep⟩ := ite_none_left_eq_some.mp hstep
    cases hstep
    exact h.resume hkeep rfl (hwaits.signalled (.inr htokens))
  | signal wait =>
    rw [hplace] at hstep hsettled
    cases hstep
    refine h.move hkeep rfl (fun _ => hsettled rfl) (fun _ _ _ heq _ => ?_) ?_ ?_
    · split at heq <;> cases heq
      rfl
    · split <;> simp [CallAt.waiting]
    · split <;> simp [CallAt.flagged, CallAt.waiting]
  | notify wait =>
    rw [hplace] at hstep hsettled
    cases hstep
    exact h.move hkeep rfl (fun _ => hsettled rfl) (fun _ _ _ heq _ => by cases heq; rfl)
      (by simp [CallAt.waiting]) (by simp [CallAt.flagged, CallAt.waiting])

end Task

end Pegasus.Tasking
