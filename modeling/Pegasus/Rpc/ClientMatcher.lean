/-
Calls that wait for a reply (`Pegasus.Rpc.ClientMatcher`), after `rpc_client_matcher` in
`rpc_engine.cpp`.

A call is kept in a table until a reply comes or its timer fires. Where resending is enabled the
first timer is shorter than the timeout of the call: its handler looks the call up, reads the clock
without the lock, and looks the call up again to send the request once more and to start a timer for
the rest of the time. The steps between two locks may interleave with everything else.

- `Matcher.Tracked`: a call in the table has one timer that is going to be heard of, and a call
  that has left it is completed once or was cancelled;
- `every_call_completes_once`: the main result;
- `resent_call_never_completes`: the handler of the second timer drops the call.
-/

import Pegasus.Common
import Pegasus.Lib.Run

namespace Pegasus.Rpc

open TransitionSystem Option Function

inductive Completion (R : Type) where
  | reply (r : R)
  /-- `ERR_NETWORK_FAILURE`, for an empty reply. -/
  | networkFailure
  /-- `ERR_TIMEOUT`. -/
  | timeout
deriving DecidableEq

/-- A response task, with the replies that have come for it. -/
structure Call (R : Type) where
  /-- The time at which the timeout of the client is over. -/
  deadline : Int
  cancelled : Bool := false
  replies : List (Option R) := []
  completions : List (Completion R) := []
deriving DecidableEq

/-- `match_entry`; the response task is the one of the key. -/
structure MatchEntry where
  timeoutTask : Nat
  /-- `timeout_ts_ms`: the deadline if resending is enabled, and otherwise none. -/
  timeoutTs : Option Int
deriving DecidableEq

/-- An `rpc_timeout_task`. A running one is between the locks of `on_rpc_timeout`. -/
inductive TimeoutTask where
  | created (key : Nat) (delay : Int) (cancelled : Bool)
  | enqueued (key : Nat) (due : Int) (cancelled : Bool)
  | lookedUp (key : Nat) (timeoutTs : Int)
  | decided (key : Nat) (timeoutTs now : Int) (resend : Bool)
  | finished
deriving DecidableEq

/-- `rpc_client_matcher`, with its calls, its timers and the clock. -/
structure Matcher (R : Type) where
  now : Int := 0
  requests : Nat → Option MatchEntry := fun _ => none
  calls : Nat → Option (Call R) := fun _ => none
  timers : Nat → Option TimeoutTask := fun _ => none
  nextTimer : Nat := 0

inductive Event (R : Type) where
  | call (key : Nat) (timeoutMs resendTimeoutMs : Int)
  | recvReply (key : Nat) (reply : Option R)
  /-- A timer that was created is enqueued. -/
  | enqueueTimer (timer : Nat)
  | fire (timer : Nat)
  /-- The clock and the state of the call are read; a completed call may have been started. -/
  | decide (timer : Nat) (started : Bool)
  | lookUpAgain (timer : Nat)
  | cancel (key : Nat)
  | tick (ms : Nat)
deriving DecidableEq

def Event.timer {R : Type} : Event R → Option Nat
  | .enqueueTimer timer | .fire timer | .decide timer _ | .lookUpAgain timer => some timer
  | _ => none

namespace TimeoutTask

/-- `task::cancel(false)`: a task that is running goes on. -/
def cancel : TimeoutTask → TimeoutTask
  | .created key delay _ => .created key delay true
  | .enqueued key due _ => .enqueued key due true
  | t => t

def key : TimeoutTask → Option Nat
  | .created key _ false | .enqueued key _ false | .lookedUp key _ | .decided key _ _ _ => some key
  | _ => none

end TimeoutTask

namespace Matcher

variable {R : Type}

def setTimer (m : Matcher R) (timer : Nat) (t : TimeoutTask) : Matcher R :=
  { m with timers := update m.timers timer (some t) }

def setRequest (m : Matcher R) (key : Nat) (entry : Option MatchEntry) : Matcher R :=
  { m with requests := update m.requests key entry }

def setCall (m : Matcher R) (key : Nat) (call : Call R) : Matcher R :=
  { m with calls := update m.calls key (some call) }

def newTimer (m : Matcher R) (key : Nat) (delay : Int) : Matcher R :=
  { m.setTimer m.nextTimer (.created key delay false) with nextTimer := m.nextTimer + 1 }

def onCall (key : Nat) (timeoutMs resendTimeoutMs : Int) (m : Matcher R) : Matcher R :=
  let resends := 0 < resendTimeoutMs ∧ resendTimeoutMs < timeoutMs
  let timeoutTs := if resends then some (m.now + timeoutMs) else none
  let delay := if resends then resendTimeoutMs else timeoutMs
  ((m.setCall key { deadline := m.now + timeoutMs }).setRequest key
    (some ⟨m.nextTimer, timeoutTs⟩)).newTimer key delay

def complete (key : Nat) (c : Completion R) (m : Matcher R) : Matcher R :=
  match m.calls key with
  | some call => m.setCall key { call with completions := call.completions ++ [c] }
  | none => m

/-- `rpc_client_matcher::on_recv_reply`. The thread that takes an entry out of the table completes
its call. -/
def onRecvReply (key : Nat) (reply : Option R) (m : Matcher R) : Matcher R :=
  let received : Matcher R :=
    match m.calls key with
    | some call => m.setCall key { call with replies := call.replies ++ [reply] }
    | none => m
  match m.requests key with
  | none => received
  | some entry =>
    let cancelled : Matcher R :=
      match m.timers entry.timeoutTask with
      | some t => received.setTimer entry.timeoutTask t.cancel
      | none => received
    (cancelled.setRequest key none).complete key
      (match reply with
      | some r => .reply r
      | none => .networkFailure)

/-- The first look-up of `on_rpc_timeout`. -/
def onRpcTimeout (timer key : Nat) (m : Matcher R) : Matcher R :=
  match m.requests key with
  | none => m.setTimer timer .finished
  | some entry =>
    match entry.timeoutTs with
    | none => ((m.setRequest key none).setTimer timer .finished).complete key .timeout
    | some timeoutTs => m.setTimer timer (.lookedUp key timeoutTs)

/-- The second look-up of `on_rpc_timeout`. The request is sent again with the new timer. -/
def lookUpAgain (timer key : Nat) (timeoutTs now : Int) (resend : Bool) (m : Matcher R) :
    Matcher R :=
  let m := m.setTimer timer .finished
  match m.requests key with
  | none => m
  | some entry =>
    if resend then
      (m.setRequest key (some { entry with timeoutTask := m.nextTimer })).newTimer key
        (timeoutTs - now)
    else m.setRequest key none

/-- One event. The ids of calls are new ones, and a timer does not fire early. -/
def step (m : Matcher R) : Event R → Option (Matcher R)
  | .call key timeoutMs resendTimeoutMs =>
    if (m.calls key).isSome then none else some (m.onCall key timeoutMs resendTimeoutMs)
  | .recvReply key reply => some (m.onRecvReply key reply)
  | .enqueueTimer timer =>
    match m.timers timer with
    | some (.created key delay cancelled) =>
      some (m.setTimer timer (.enqueued key (m.now + delay) cancelled))
    | _ => none
  | .fire timer =>
    match m.timers timer with
    | some (.enqueued key due false) =>
      if due ≤ m.now then some (m.onRpcTimeout timer key) else none
    | _ => none
  | .decide timer started =>
    match m.timers timer with
    | some (.lookedUp key timeoutTs) =>
      let ready := (m.calls key).any fun call =>
        !call.cancelled && (call.completions.isEmpty || !started)
      some (m.setTimer timer (.decided key timeoutTs m.now (m.now < timeoutTs && ready)))
    | _ => none
  | .lookUpAgain timer =>
    match m.timers timer with
    | some (.decided key timeoutTs now resend) =>
      some (m.lookUpAgain timer key timeoutTs now resend)
    | _ => none
  | .cancel key => (m.calls key).map fun call => m.setCall key { call with cancelled := true }
  | .tick ms => some { m with now := m.now + ms }

/-- When a handler looks a call up again, without being about to send the request once more, the
call has been completed or was cancelled. -/
def InTime (m : Matcher R) : Event R → Prop
  | .lookUpAgain timer => ∀ key timeoutTs now call,
    m.timers timer = some (.decided key timeoutTs now false) → m.requests key ≠ none →
      m.calls key = some call → call.cancelled = true
  | _ => True

/-! ### What is known of a call -/

/-- A completion comes from the first reply, or from the time that is over. -/
def Fits (now : Int) (call : Call R) : Completion R → Prop
  | .reply r => call.replies.head? = some (some r)
  | .networkFailure => call.replies.head? = some none
  | .timeout => call.deadline ≤ now

/-- What a timer knows of the call it is going to look up. -/
def Times (now : Int) (entry : MatchEntry) (call : Call R) : TimeoutTask → Prop
  | .created _ delay _ => entry.timeoutTs = none → call.deadline ≤ now + delay
  | .enqueued _ due _ => entry.timeoutTs = none → call.deadline ≤ due
  | .lookedUp _ timeoutTs | .decided _ timeoutTs _ _ => entry.timeoutTs = some timeoutTs
  | .finished => True

/-- **What holds of the call with a key**: it is not there yet, it waits in the table with one timer
that is going to look it up, or it has left the table. -/
inductive Tracked (m : Matcher R) (key : Nat) : Prop where
  | unknown (hcall : m.calls key = none) (hrequest : m.requests key = none)
      (htimers : ∀ timer t, m.timers timer = some t → t.key ≠ some key)
  | waiting (entry : MatchEntry) (call : Call R) (t : TimeoutTask)
      (hcall : m.calls key = some call) (hrequest : m.requests key = some entry)
      (hreplies : call.replies = []) (hcompletions : call.completions = [])
      (htimer : m.timers entry.timeoutTask = some t) (hkey : t.key = some key)
      (htimes : Times m.now entry call t)
      (honly : ∀ timer t', m.timers timer = some t' → t'.key = some key → timer = entry.timeoutTask)
  | left (call : Call R) (hcall : m.calls key = some call) (hrequest : m.requests key = none)
      (hdone : (∃ c, call.completions = [c] ∧ Fits m.now call c) ∨
        call.cancelled = true ∧ call.completions = [])

/-- What holds in every state: the calls are tracked, and the next timer is new. -/
structure Sound (m : Matcher R) : Prop where
  tracked : ∀ key, m.Tracked key
  fresh : ∀ timer, m.nextTimer ≤ timer → m.timers timer = none

variable {now now' : Int} {entry : MatchEntry} {call : Call R} {t : TimeoutTask}

theorem Times.mono (h : Times now entry call t) (hle : now ≤ now') :
    Times now' entry call t := by
  cases t with
  | created key delay cancelled =>
    intro hnone
    have := h hnone
    omega
  | _ => exact h

theorem Fits.mono {c : Completion R} (h : Fits now call c) (hle : now ≤ now') :
    Fits now' call c := by
  cases c with
  | timeout => exact Int.le_trans h hle
  | _ => exact h

/-- **Frame**: what is known of a call stays if its entry and its timers stay. -/
theorem Tracked.frame {m m' : Matcher R} {key : Nat} (h : m.Tracked key)
    (hrequests : m'.requests key = m.requests key) (hcalls : m'.calls key = m.calls key)
    (hnow : m.now ≤ m'.now)
    (htimers : ∀ timer t, t.key = some key →
      (m'.timers timer = some t ↔ m.timers timer = some t)) : m'.Tracked key := by
  cases h with
  | unknown hcall hrequest hnone =>
    refine .unknown (hcalls.trans hcall) (hrequests.trans hrequest) ?_
    intro timer t ht hkey
    exact hnone timer t ((htimers timer t hkey).mp ht) hkey
  | waiting entry call t hcall hrequest hreplies hcompletions htimer hkey htimes honly =>
    refine .waiting entry call t (hcalls.trans hcall) (hrequests.trans hrequest) hreplies
      hcompletions ((htimers _ t hkey).mpr htimer) hkey (htimes.mono hnow) ?_
    intro timer t' ht' hkey'
    exact honly timer t' ((htimers timer t' hkey').mp ht') hkey'
  | left call hcall hrequest hdone =>
    refine .left call (hcalls.trans hcall) (hrequests.trans hrequest) ?_
    exact hdone.imp_left fun ⟨c, hc, hfits⟩ => ⟨c, hc, hfits.mono hnow⟩

theorem timers_update {timers : Nat → Option TimeoutTask} {timer key : Nat} {t' : TimeoutTask}
    (hnew : t'.key ≠ some key) (hold : ∀ t, timers timer = some t → t.key ≠ some key)
    (x : Nat) (t : TimeoutTask) (hkey : t.key = some key) :
    update timers timer (some t') x = some t ↔ timers x = some t := by
  by_cases hx : x = timer
  · subst hx
    rw [update_self]
    constructor
    · intro h
      exact absurd (some.inj h ▸ hkey) hnew
    · intro h
      exact absurd hkey (hold t h)
  · rw [update_of_ne hx]

theorem Times.congr {call call' : Call R} (h : Times now entry call t)
    (hdeadline : call'.deadline = call.deadline) : Times now entry call' t := by
  cases t with
  | created key delay cancelled | enqueued key due cancelled =>
    exact fun hoff => hdeadline.trans_le (h hoff)
  | _ => exact h

theorem key_cancel {key : Nat} (h : t.cancel.key = some key) :
    t.key = some key := by
  cases t with
  | created k delay cancelled | enqueued k due cancelled =>
    simp [TimeoutTask.cancel, TimeoutTask.key] at h
  | _ => exact h

section Steps

variable {m m' : Matcher R} {key timer : Nat} {t t' : TimeoutTask}

theorem timers_setTimer_of_ne {x : Nat} (hx : x ≠ timer) :
    (m.setTimer timer t).timers x = m.timers x :=
  update_of_ne hx _ _

theorem Tracked.setTimer (h : m.Tracked key) (ht : m.timers timer = some t)
    (hkey : t'.key = t.key)
    (htimes : ∀ entry (call : Call R), t.key = some key → m.requests key = some entry →
      Times m.now entry call t → Times m.now entry call t') :
    (m.setTimer timer t').Tracked key := by
  by_cases hown : t.key = some key
  · cases h with
    | unknown hcall hrequest hnone => exact absurd hown (hnone timer t ht)
    | waiting entry call t₀ hcall hrequest hreplies hcompletions htimer hkey₀ hold honly =>
      obtain rfl : timer = entry.timeoutTask := honly timer t ht hown
      obtain rfl : t₀ = t := mem_unique htimer ht
      refine .waiting entry call t' hcall hrequest hreplies hcompletions
        (update_self _ _ _) (hkey.trans hown) (htimes entry call hown hrequest hold) ?_
      intro x t₁ ht₁ hkey₁
      by_cases hx : x = entry.timeoutTask
      · exact hx
      · exact honly x t₁ ((timers_setTimer_of_ne hx).symm.trans ht₁) hkey₁
    | left call hcall hrequest hdone => exact .left call hcall hrequest hdone
  · refine h.frame rfl rfl (Int.le_refl _) (timers_update (hkey ▸ hown) ?_)
    intro t₀ ht₀
    rw [mem_unique ht₀ ht]
    exact hown

theorem Tracked.finish (h : m.Tracked key) (ht : m.timers timer = some t)
    (hgone : t.key = some key → m.requests key = none) :
    (m.setTimer timer .finished).Tracked key := by
  by_cases hown : t.key = some key
  · cases h with
    | unknown hcall hrequest hnone => exact absurd hown (hnone timer t ht)
    | waiting entry call t₀ hcall hrequest =>
      rw [hgone hown] at hrequest
      cases hrequest
    | left call hcall hrequest hdone => exact .left call hcall hrequest hdone
  · refine h.frame rfl rfl (Int.le_refl _) (timers_update (by simp [TimeoutTask.key]) ?_)
    intro t₀ ht₀
    rw [mem_unique ht₀ ht]
    exact hown

variable (sound : m.Sound) (ht : m.timers timer = some t)
include sound ht

theorem Sound.fresh_setTimer (x : Nat) (hx : m.nextTimer ≤ x) :
    (m.setTimer timer t').timers x = none := by
  have hne : x ≠ timer := by
    rintro rfl
    rw [sound.fresh x hx] at ht
    cases ht
  exact (timers_setTimer_of_ne hne).trans (sound.fresh x hx)

theorem Sound.setTimer (hkey : t'.key = t.key)
    (htimes : ∀ key entry (call : Call R), t.key = some key → m.requests key = some entry →
      Times m.now entry call t → Times m.now entry call t') : (m.setTimer timer t').Sound :=
  ⟨fun k => (sound.tracked k).setTimer ht hkey (htimes k), sound.fresh_setTimer ht⟩

theorem Sound.of_timer (hkey : t.key = some key) :
    (∃ entry call, m.requests key = some entry ∧ m.calls key = some call ∧ call.replies = [] ∧
      call.completions = [] ∧ entry.timeoutTask = timer ∧ Times m.now entry call t ∧
      ∀ x t', m.timers x = some t' → t'.key = some key → x = timer) ∨ m.requests key = none := by
  cases sound.tracked key with
  | unknown hcall hrequest hnone => exact absurd hkey (hnone timer t ht)
  | waiting entry call t₀ hcall hrequest hreplies hcompletions htimer hkey₀ htimes honly =>
    obtain rfl : timer = entry.timeoutTask := honly timer t ht hkey
    obtain rfl : t₀ = t := mem_unique htimer ht
    exact .inl ⟨entry, call, hrequest, hcall, hreplies, hcompletions, rfl, htimes, honly⟩
  | left call hcall hrequest hdone => exact .inr hrequest

omit ht in
theorem Sound.onCall (hnew : m.calls key = none) (timeoutMs resendMs : Int) :
    (m.onCall key timeoutMs resendMs).Sound := by
  have hnone : m.timers m.nextTimer = none := sound.fresh _ (Nat.le_refl _)
  constructor
  · intro k
    by_cases hk : k = key
    · subst hk
      cases sound.tracked k with
      | unknown hcall hrequest hnone' =>
        refine .waiting _ _ (.created k (if 0 < resendMs ∧ resendMs < timeoutMs then resendMs
          else timeoutMs) false) (update_self _ _ _) (update_self _ _ _) rfl rfl
          (update_self _ _ _) rfl ?_ ?_
        · intro hoff
          by_cases hresends : 0 < resendMs ∧ resendMs < timeoutMs
          · simp [hresends] at hoff
          · rw [if_neg hresends]
            exact Int.le_refl _
        · intro x t' ht' hkey'
          by_contra hx
          have hold : m.timers x = some t' := (update_of_ne hx _ _).symm.trans ht'
          exact hnone' x t' hold hkey'
      | waiting entry call t₀ hcall | left call hcall => rw [hnew] at hcall; cases hcall
    · refine (sound.tracked k).frame (update_of_ne hk _ _) (update_of_ne hk _ _)
        (Int.le_refl _) (timers_update ?_ ?_)
      · simpa [TimeoutTask.key] using Ne.symm hk
      · intro t₀ ht₀
        exact absurd (hnone.symm.trans ht₀) (by simp)
  · intro x hx
    have hlt : m.nextTimer < x := hx
    exact (update_of_ne (Nat.ne_of_gt hlt) _ _).trans (sound.fresh x hlt.le)

variable {call : Call R}

theorem Sound.leave (hkey : t.key = some key)
    (hdone : (∃ c, call.completions = [c] ∧ Fits m.now call c) ∨
      call.cancelled = true ∧ call.completions = []) (hnew : ∀ k, t'.key = some k → k = key) :
    (((m.setTimer timer t').setRequest key none).setCall key call).Sound := by
  constructor
  · intro k
    by_cases hk : k = key
    · subst hk
      exact .left call (update_self _ _ _) (update_self _ _ _) hdone
    · refine (sound.tracked k).frame (update_of_ne hk _ _) (update_of_ne hk _ _)
        (Int.le_refl _) (timers_update (fun h => hk (hnew k h)) ?_)
      intro t₀ ht₀
      rw [mem_unique ht₀ ht, hkey]
      exact fun h => hk (some.inj h).symm
  · exact sound.fresh_setTimer ht

omit ht

omit sound in
theorem Fits.append {now : Int} {c : Completion R} (h : Fits now call c) (reply : Option R) :
    Fits now { call with replies := call.replies ++ [reply] } c := by
  have hhead : ∀ r, call.replies.head? = some r → (call.replies ++ [reply]).head? = some r := by
    intro r hr
    rw [List.head?_append, hr]
    rfl
  cases c with
  | reply r => exact hhead _ h
  | networkFailure => exact hhead _ h
  | timeout => exact h

theorem Sound.onRecvReply (key : Nat) (reply : Option R) : (m.onRecvReply key reply).Sound := by
  cases sound.tracked key with
  | unknown hcall hrequest hnone => simpa only [Matcher.onRecvReply, hcall, hrequest] using sound
  | left call hcall hrequest hdone =>
    simp only [Matcher.onRecvReply, hcall, hrequest]
    refine ⟨fun k => ?_, sound.fresh⟩
    by_cases hk : k = key
    · subst hk
      refine .left _ (update_self _ _ _) hrequest ?_
      exact hdone.imp_left fun ⟨c, hc, hfits⟩ => ⟨c, hc, hfits.append reply⟩
    · exact (sound.tracked k).frame rfl (update_of_ne hk _ _) (Int.le_refl _)
        fun _ _ _ => Iff.rfl
  | waiting entry call t hcall hrequest hreplies hcompletions htimer hkey htimes honly =>
    have heq : m.onRecvReply key reply =
        ((m.setTimer entry.timeoutTask t.cancel).setRequest key none).setCall key
          { call with
            replies := [reply]
            completions := [match reply with
              | some r => .reply r
              | none => .networkFailure] } := by
      simp [Matcher.onRecvReply, hcall, hrequest, htimer, hreplies, hcompletions, setCall,
        Matcher.setTimer, setRequest, complete]
    rw [heq]
    refine sound.leave htimer hkey (.inl ⟨_, rfl, ?_⟩) ?_
    · cases reply <;> rfl
    · intro k hk
      exact some.inj ((key_cancel hk).symm.trans hkey)

theorem Sound.onRpcTimeout {due : Int} (ht : m.timers timer = some (.enqueued key due false))
    (hdue : due ≤ m.now) : (m.onRpcTimeout timer key).Sound := by
  rcases sound.of_timer ht rfl with
    ⟨entry, call, hrequest, hcall, hreplies, hcompletions, _, htimes, _⟩ | hgone
  · cases hts : entry.timeoutTs with
    | none =>
      have heq : m.onRpcTimeout timer key =
          ((m.setTimer timer .finished).setRequest key none).setCall key
            { call with completions := [.timeout] } := by
        simp [Matcher.onRpcTimeout, hrequest, hts, hcall, hcompletions, setCall,
          Matcher.setTimer, setRequest, complete]
      rw [heq]
      have hdeadline : call.deadline ≤ due := htimes hts
      refine sound.leave ht rfl (.inl ⟨_, rfl, hdeadline.trans hdue⟩) ?_
      simp [TimeoutTask.key]
    | some timeoutTs =>
      simp only [Matcher.onRpcTimeout, hrequest, hts]
      refine sound.setTimer ht rfl ?_
      intro k entry' call' hk hrequest' _
      obtain rfl : key = k := some.inj hk
      obtain rfl := mem_unique hrequest hrequest'
      exact hts
  · simp only [Matcher.onRpcTimeout, hgone]
    refine ⟨fun k => (sound.tracked k).finish ht ?_, sound.fresh_setTimer ht⟩
    intro hk
    obtain rfl : key = k := some.inj hk
    exact hgone

theorem Sound.lookUpAgain {timeoutTs now : Int} {resend : Bool}
    (ht : m.timers timer = some (.decided key timeoutTs now resend))
    (hinTime : resend = false → ∀ call, m.requests key ≠ none → m.calls key = some call →
      call.cancelled = true) : (m.lookUpAgain timer key timeoutTs now resend).Sound := by
  rcases sound.of_timer ht rfl with
    ⟨entry, call, hrequest, hcall, hreplies, hcompletions, htask, htimes, honly⟩ | hgone
  · cases resend with
    | false =>
      have hcancelled := hinTime rfl call (by simp [hrequest]) hcall
      have heq : m.lookUpAgain timer key timeoutTs now false =
          ((m.setTimer timer .finished).setRequest key none).setCall key call := by
        simp [Matcher.lookUpAgain, hrequest, hcall, setCall, Matcher.setTimer, setRequest]
      rw [heq]
      exact sound.leave ht rfl (.inr ⟨hcancelled, hcompletions⟩) (by simp [TimeoutTask.key])
    | true =>
      have hnone : m.timers m.nextTimer = none := sound.fresh _ (Nat.le_refl _)
      have hne : timer ≠ m.nextTimer := by
        rintro rfl
        rw [hnone] at ht
        cases ht
      simp only [Matcher.lookUpAgain, Matcher.setTimer, hrequest, if_true]
      constructor
      · intro k
        by_cases hk : k = key
        · subst hk
          refine .waiting { entry with timeoutTask := m.nextTimer } call
            (.created k (timeoutTs - now) false) hcall (update_self _ _ _) hreplies
            hcompletions (update_self _ _ _) rfl ?_ ?_
          · intro hoff
            have hon : entry.timeoutTs = some timeoutTs := htimes
            exact absurd (hon.symm.trans hoff) (by simp)
          · intro x t' ht' hkey'
            by_contra hx
            have hold : update m.timers timer (some .finished) x = some t' :=
              (update_of_ne hx _ _).symm.trans ht'
            by_cases htimer : x = timer
            · subst htimer
              rw [update_self] at hold
              rw [← some.inj hold] at hkey'
              cases hkey'
            · rw [update_of_ne htimer] at hold
              exact htimer (honly x t' hold hkey')
        · refine ((sound.tracked k).finish ht ?_).frame (update_of_ne hk _ _) rfl
            (Int.le_refl _) (timers_update ?_ ?_)
          · intro h
            exact absurd (some.inj h).symm hk
          · simpa [TimeoutTask.key] using Ne.symm hk
          · intro t₀ ht₀
            have hsome := (update_of_ne hne.symm _ m.timers).symm.trans ht₀
            exact absurd (hnone.symm.trans hsome) (by simp)
      · intro x hx
        have hlt : m.nextTimer < x := hx
        exact (update_of_ne (Nat.ne_of_gt hlt) _ _).trans (sound.fresh_setTimer ht x hlt.le)
  · simp only [Matcher.lookUpAgain, Matcher.setTimer, hgone]
    refine ⟨fun k => (sound.tracked k).finish ht ?_, sound.fresh_setTimer ht⟩
    intro hk
    obtain rfl : key = k := some.inj hk
    exact hgone

theorem Sound.cancel (hcall : m.calls key = some call) :
    (m.setCall key { call with cancelled := true }).Sound := by
  refine ⟨fun k => ?_, sound.fresh⟩
  by_cases hk : k = key
  · subst hk
    cases sound.tracked k with
    | unknown hnone =>
      rw [hcall] at hnone
      cases hnone
    | waiting entry call' t hcall' hrequest hreplies hcompletions htimer hkey htimes honly =>
      obtain rfl := mem_unique hcall hcall'
      exact .waiting entry _ t (update_self _ _ _) hrequest hreplies hcompletions htimer
        hkey (htimes.congr rfl) honly
    | left call' hcall' hrequest hdone =>
      obtain rfl := mem_unique hcall hcall'
      refine .left _ (update_self _ _ _) hrequest (hdone.imp ?_ fun h => ⟨rfl, h.2⟩)
      rintro ⟨c, hc, hfits⟩
      refine ⟨c, hc, ?_⟩
      cases c <;> exact hfits
  · exact (sound.tracked k).frame rfl (update_of_ne hk _ _) (Int.le_refl _)
      fun _ _ _ => Iff.rfl

theorem Sound.step {e : Event R} (hinTime : m.InTime e) (hstep : m.step e = some m') :
    m'.Sound := by
  cases e with
  | call key timeoutMs resendMs =>
    obtain ⟨hnew, hstep⟩ := ite_none_left_eq_some.mp hstep
    cases hstep
    exact sound.onCall (by simpa using hnew) timeoutMs resendMs
  | recvReply key reply =>
    cases hstep
    exact sound.onRecvReply key reply
  | enqueueTimer timer =>
    simp only [Matcher.step] at hstep
    split at hstep
    · rename_i key delay cancelled ht
      cases hstep
      refine sound.setTimer ht ?_ fun k entry call _ _ htimes hoff => htimes hoff
      cases cancelled <;> rfl
    · cases hstep
  | fire timer =>
    simp only [Matcher.step] at hstep
    split at hstep
    · rename_i key due ht
      obtain ⟨hdue, rfl⟩ := of_guard hstep
      exact sound.onRpcTimeout ht hdue
    · cases hstep
  | decide timer started =>
    simp only [Matcher.step] at hstep
    split at hstep
    · rename_i key timeoutTs ht
      cases hstep
      exact sound.setTimer ht rfl fun k entry call _ _ htimes => htimes
    · cases hstep
  | lookUpAgain timer =>
    simp only [Matcher.step] at hstep
    split at hstep
    · rename_i key timeoutTs now resend ht
      cases hstep
      refine sound.lookUpAgain ht ?_
      rintro rfl call hrequest hcall
      exact hinTime key timeoutTs now call ht hrequest hcall
    · cases hstep
  | cancel key =>
    obtain ⟨call, hcall, rfl⟩ := map_eq_some_iff.mp hstep
    exact sound.cancel hcall
  | tick ms =>
    cases hstep
    refine ⟨fun k => (sound.tracked k).frame rfl rfl ?_ fun _ _ _ => Iff.rfl, sound.fresh⟩
    change m.now ≤ m.now + ms
    omega

omit sound

theorem exists_timer_step (ht : m.timers timer = some t) (hkey : t.key = some key) :
    ∃ (ms : Nat) (e : Event R), e.timer = some timer ∧
      ({ m with now := m.now + ms }.step e).isSome := by
  cases t with
  | created k delay cancelled => exact ⟨0, .enqueueTimer timer, rfl, by simp [Matcher.step, ht]⟩
  | enqueued k due cancelled =>
    cases cancelled with
    | true => cases hkey
    | false =>
      refine ⟨(due - m.now).toNat, .fire timer, rfl, ?_⟩
      simp only [Matcher.step, ht]
      rw [if_pos (by omega)]
      rfl
  | lookedUp k timeoutTs => exact ⟨0, .decide timer false, rfl, by simp [Matcher.step, ht]⟩
  | decided k timeoutTs now resend => exact ⟨0, .lookUpAgain timer, rfl, by simp [Matcher.step, ht]⟩
  | finished => cases hkey

theorem sound_init : ({} : Matcher R).Sound := ⟨fun _ => .unknown rfl rfl (by simp), fun _ _ => rfl⟩

end Steps

end Matcher

/-- **Every call completes exactly once.** At any time of a run in which no handler drops a call, a
call in the table is not completed and has a timer that is going to look it up, with a next step
when its time has come; a call that has left the table has been completed once, with the first reply
or after its timeout, or it was cancelled. -/
theorem every_call_completes_once {R : Type} {events : List (Event R)} {m : Matcher R}
    (hrun : run Matcher.step {} events = some m)
    (hinTime : StepsMeet Matcher.step Matcher.InTime {} events) (key : Nat)
    {call : Call R} (hcall : m.calls key = some call) :
    (m.requests key ≠ none → call.completions = [] ∧
      ∃ timer t, m.timers timer = some t ∧ t.key = some key ∧ ∃ (ms : Nat) (e : Event R),
        e.timer = some timer ∧ ({ m with now := m.now + ms }.step e).isSome) ∧
    (m.requests key = none → (∃ c, call.completions = [c] ∧ Matcher.Fits m.now call c) ∨
      call.cancelled = true ∧ call.completions = []) := by
  have hkeep : ∀ (m : Matcher R) e m', m.step e = some m' → m.InTime e → m.Sound → m'.Sound :=
    fun m e m' hstep hinTime sound => sound.step hinTime hstep
  have sound := run_invariant_of_steps hkeep hrun hinTime Matcher.sound_init
  cases sound.tracked key with
  | unknown hnone =>
    rw [hcall] at hnone
    cases hnone
  | waiting entry call' t hcall' hrequest _ hcompletions htimer hkey =>
    obtain rfl := mem_unique hcall hcall'
    refine ⟨fun _ => ⟨hcompletions, _, t, htimer, hkey, Matcher.exists_timer_step htimer hkey⟩, ?_⟩
    intro h
    rw [hrequest] at h
    cases h
  | left call' hcall' hrequest hdone =>
    obtain rfl := mem_unique hcall hcall'
    exact ⟨fun h => absurd hrequest h, fun _ => hdone⟩

/-- A reply comes after the request has been sent again. -/
def answeredLate : List (Event Nat) :=
  [.call 7 1000 100, .enqueueTimer 0, .tick 100, .fire 0, .decide 0 false, .lookUpAgain 0,
    .enqueueTimer 1, .tick 50, .recvReply 7 (some 42), .recvReply 7 (some 43)]

theorem every_call_completes_once_answered :
    ∃ m call, run Matcher.step {} answeredLate = some m ∧
      m.calls 7 = some call ∧ call.completions = [.reply 42] ∧
      Matcher.Fits m.now call (.reply 42) := by
  have hinTime : StepsMeet Matcher.step Matcher.InTime {} answeredLate := by
    iterate 5 refine stepsMeet_cons trivial rfl ?_
    refine stepsMeet_cons ?_ rfl ?_
    · intro key timeoutTs now call hdecided
      cases hdecided
    iterate 4 refine stepsMeet_cons trivial rfl ?_
    trivial
  obtain ⟨_, hleft⟩ := every_call_completes_once rfl hinTime 7 rfl
  rcases hleft rfl with ⟨c, hc, hfits⟩ | ⟨hcancelled, _⟩
  · cases hc
    exact ⟨_, _, rfl, rfl, rfl, hfits⟩
  · cases hcancelled

/-- No reply comes at all, and the second timer fires when the timeout is over. -/
def neverAnswered : List (Event Nat) :=
  [.call 7 1000 100, .enqueueTimer 0, .tick 100, .fire 0, .decide 0 false, .lookUpAgain 0,
    .enqueueTimer 1, .tick 900, .fire 1, .decide 1 false, .lookUpAgain 1]

/-- The handler of the second timer removes the entry without completing the call, and no timer is
left to do it. -/
theorem resent_call_never_completes :
    ∃ m call, run Matcher.step {} neverAnswered = some m ∧
      m.calls 7 = some call ∧ call.cancelled = false ∧ m.requests 7 = none ∧
      call.completions = [] ∧ m.timers 0 = some .finished ∧ m.timers 1 = some .finished ∧
      m.nextTimer = 2 :=
  ⟨_, _, rfl, rfl, rfl, rfl, rfl, rfl, rfl, rfl⟩

end Pegasus.Rpc
