/-
The replies of a Redis session, after `redis_parser.cpp`.

Requests are answered in any order, by any threads, and the responses wait in a queue until those
before them are ready. The queue has a lock, but `reply_all_ready` sends what it has taken from the
queue behind the lock, so that two threads that are both sending may send in either order.

- `replies_in_order`: every response is sent once and none is held back; they are sent in the order
  of the requests if no thread takes responses while another one is sending;
- `overtaken_reply`: two threads send in the wrong order.
-/

import Pegasus.Common
import Pegasus.Lib.Run

namespace Pegasus.Redis

open TransitionSystem List Option

variable {M : Type}

structure MessageEntry (M : Type) where
  sequenceId : Nat
  response : Option M := none

/-- The queue of a session, with the threads that answer its requests. -/
structure Session (M : Type) where
  nextSeqid : Nat := 0
  pendingResponse : List (MessageEntry M) := []
  /-- How many threads have stored a response and are about to take the lock. -/
  stored : Nat := 0
  /-- How many threads have taken responses from the queue. -/
  fetches : Nat := 0
  /-- What was taken from the queue and not sent, each with the thread that has it. -/
  taken : List (Nat × Nat × M) := []
  sent : List (Nat × M) := []

/-- `fetch_and_dequeue_messages` for the ready ones: what is taken, and what stays. -/
def fetchAndDequeueMessages :
    List (MessageEntry M) → List (Nat × M) × List (MessageEntry M)
  | [] => ([], [])
  | entry :: rest =>
    match entry.response with
    | none => ([], entry :: rest)
    | some r =>
      let (msgs, left) := fetchAndDequeueMessages rest
      ((entry.sequenceId, r) :: msgs, left)

inductive ReplyEvent (M : Type) where
  /-- `handle_command`. -/
  | request
  /-- `reply_message` stores the response of a request; each is answered once. -/
  | reply (sequenceId : Nat) (response : M)
  /-- `reply_all_ready` takes the ready responses. -/
  | fetch
  /-- A thread sends the next of its responses. -/
  | send (k : Nat)

namespace Session

/-- `reply_message` fills the entry of its request under the lock. `reply_all_ready` takes the ready
entries from the front under the lock, and its thread sends them later, without it. -/
def step (s : Session M) : ReplyEvent M → Option (Session M)
  | .request => some
      { s with
        nextSeqid := s.nextSeqid + 1
        pendingResponse := s.pendingResponse ++ [{ sequenceId := s.nextSeqid + 1 }] }
  | .reply sequenceId response =>
    if s.pendingResponse.any fun e => e.sequenceId = sequenceId ∧ e.response.isNone then
      some
        { s with
          pendingResponse := s.pendingResponse.map fun e =>
            if e.sequenceId = sequenceId then { e with response := some response } else e
          stored := s.stored + 1 }
    else none
  | .fetch =>
    if s.stored = 0 then none
    else
      let (msgs, left) := fetchAndDequeueMessages s.pendingResponse
      some
        { s with
          pendingResponse := left
          stored := s.stored - 1
          fetches := s.fetches + 1
          taken := s.taken ++ msgs.map fun m => (s.fetches, m) }
  | .send k =>
    (s.taken[k]?).bind fun (thread, m) =>
      if ∀ x ∈ s.taken.take k, x.1 ≠ thread then
        some { s with taken := s.taken.eraseIdx k, sent := s.sent ++ [m] }
      else none

/-- Nobody takes responses while there are some that are not sent. -/
def InTurn (s : Session M) : ReplyEvent M → Prop
  | .fetch => s.taken = []
  | _ => True

/-- The requests: those whose responses are sent, then those taken, then those in the queue. -/
def ids (s : Session M) : List Nat :=
  s.sent.map Prod.fst ++ s.taken.map (·.2.1) ++ s.pendingResponse.map (·.sequenceId)

/-- The responses that the session has sent or holds, with the requests they are sent for. -/
def answers (s : Session M) : List (Nat × M) :=
  s.sent ++ s.taken.map Prod.snd ++
    s.pendingResponse.filterMap fun e => e.response.map fun r => (e.sequenceId, r)

variable {s t : Session M} {e : ReplyEvent M}

theorem fetch_spec (entries : List (MessageEntry M)) :
    (fetchAndDequeueMessages entries).1.map Prod.fst ++
        (fetchAndDequeueMessages entries).2.map (·.sequenceId) = entries.map (·.sequenceId) ∧
      ∀ entry, (fetchAndDequeueMessages entries).2.head? = some entry → entry.response = none := by
  induction entries with
  | nil => exact ⟨rfl, fun _ h => by cases h⟩
  | cons entry rest ih =>
    unfold fetchAndDequeueMessages
    split
    · rename_i hnone
      exact ⟨rfl, fun _ h => some.inj h ▸ hnone⟩
    · exact ⟨by simp [← ih.1], ih.2⟩

theorem step_send {k : Nat} (hstep : s.step (.send k) = some t) :
    ∃ x, s.taken[k]? = some x ∧ (∀ y ∈ s.taken.take k, y.1 ≠ x.1) ∧
      t = { s with taken := s.taken.eraseIdx k, sent := s.sent ++ [x.2] } := by
  obtain ⟨x, hx, hstep⟩ := bind_eq_some_iff.mp hstep
  obtain ⟨hother, rfl⟩ := of_guard hstep
  exact ⟨x, hx, hother, rfl⟩

/-- **One step** adds a request at the end, or moves one on. A thread that is not the first to send
moves a request ahead. -/
theorem ids_step (hstep : s.step e = some t) :
    ∃ new, range' 1 t.nextSeqid = range' 1 s.nextSeqid ++ new ∧ t.ids ~ s.ids ++ new ∧
      ((∀ k, e = .send k → k = 0) → t.ids = s.ids ++ new) := by
  cases e with
  | request =>
    cases hstep
    refine ⟨[s.nextSeqid + 1], ?_, ?_⟩
    · rw [range'_concat]
      simp [Nat.add_comm]
    · simp [ids]
  | reply sequenceId response =>
    obtain ⟨-, rfl⟩ := of_guard hstep
    have hsame : (s.pendingResponse.map fun e =>
        if e.sequenceId = sequenceId then { e with response := some response } else e).map
          (·.sequenceId) = s.pendingResponse.map (·.sequenceId) := by
      rw [List.map_map]
      refine map_congr_left fun e _ => ?_
      simp only [Function.comp_apply]
      split <;> rfl
    exact ⟨[], by simp, by simp [ids, hsame]⟩
  | fetch =>
    obtain ⟨-, hstep⟩ := ite_none_left_eq_some.mp hstep
    cases hstep
    refine ⟨[], by simp, ?_⟩
    simp [ids, ← (fetch_spec s.pendingResponse).1, Function.comp_def]
  | send k =>
    obtain ⟨x, hk, -, rfl⟩ := step_send hstep
    obtain ⟨hlt, rfl⟩ := List.getElem?_eq_some_iff.mp hk
    have hperm := (getElem_cons_eraseIdx_perm hlt).map (·.2.1)
    refine ⟨[], by simp, ?_, fun hfirst => ?_⟩
    · simpa [ids] using (hperm.append_right _).append_left _
    · obtain rfl := hfirst k rfl
      obtain ⟨x, rest, htaken⟩ := exists_cons_of_length_pos hlt
      simp [ids, htaken]

theorem fetch_answers (entries : List (MessageEntry M)) :
    (fetchAndDequeueMessages entries).1 ++ (fetchAndDequeueMessages entries).2.filterMap
        (fun e => e.response.map fun r => (e.sequenceId, r)) =
      entries.filterMap fun e => e.response.map fun r => (e.sequenceId, r) := by
  induction entries with
  | nil => rfl
  | cons entry rest ih =>
    unfold fetchAndDequeueMessages
    split
    · rfl
    · rename_i r hr
      simp [hr, ← ih]

/-- **One step** stores the response of a `reply_message`, or moves responses on. -/
theorem answers_step (hstep : s.step e = some t) {x : Nat × M} (hx : x ∈ t.answers) :
    x ∈ s.answers ∨ e = .reply x.1 x.2 := by
  cases e with
  | request =>
    cases hstep
    exact .inl (by simpa [answers] using hx)
  | reply sequenceId response =>
    obtain ⟨-, rfl⟩ := of_guard hstep
    simp only [answers, mem_append, mem_filterMap, List.mem_map] at hx ⊢
    rcases hx with hx | ⟨-, ⟨entry, hentry, rfl⟩, hready⟩
    · exact .inl (.inl hx)
    · split at hready
      · rename_i hid
        cases hready
        exact .inr (by rw [hid])
      · exact .inl (.inr ⟨entry, hentry, hready⟩)
  | fetch =>
    obtain ⟨-, hstep⟩ := ite_none_left_eq_some.mp hstep
    cases hstep
    refine .inl ?_
    simpa [answers, ← fetch_answers s.pendingResponse, Function.comp_def] using hx
  | send k =>
    obtain ⟨y, hk, -, rfl⟩ := step_send hstep
    have hy : y.2 ∈ s.taken.map Prod.snd := mem_map_of_mem (mem_of_getElem? hk)
    simp only [answers, mem_append, mem_singleton] at hx ⊢
    rcases hx with ((hx | rfl) | hx) | hx
    · exact .inl (.inl (.inl hx))
    · exact .inl (.inl (.inr hy))
    · obtain ⟨z, hz, rfl⟩ := List.mem_map.mp hx
      exact .inl (.inl (.inr (mem_map_of_mem (mem_of_mem_eraseIdx hz))))
    · exact .inl (.inr hx)

/-- A ready response is at the front of the queue only if a thread is about to take it. -/
def Served (s : Session M) : Prop :=
  ∀ entry, s.pendingResponse.head? = some entry → entry.response ≠ none → 0 < s.stored

theorem Served.step (h : s.Served) (hstep : s.step e = some t) : t.Served := by
  cases e with
  | request =>
    cases hstep
    intro entry hentry hready
    cases hpending : s.pendingResponse with
    | nil =>
      obtain rfl : _ = entry := by simpa [hpending] using hentry
      exact absurd rfl hready
    | cons first rest => exact h entry (by simpa [hpending] using hentry) hready
  | reply sequenceId response =>
    obtain ⟨-, rfl⟩ := of_guard hstep
    exact fun _ _ _ => Nat.succ_pos _
  | fetch =>
    obtain ⟨-, hstep⟩ := ite_none_left_eq_some.mp hstep
    cases hstep
    exact fun entry hentry hready => absurd ((fetch_spec _).2 entry hentry) hready
  | send k =>
    obtain ⟨-, -, -, rfl⟩ := step_send hstep
    exact h

/-- All responses that are not sent were taken by one thread, and all are in order. -/
def InOrder (s : Session M) : Prop :=
  s.ids = range' 1 s.nextSeqid ∧ ∃ thread, ∀ x ∈ s.taken, x.1 = thread

theorem InOrder.step (h : s.InOrder) (hturn : s.InTurn e) (hstep : s.step e = some t) :
    t.InOrder := by
  obtain ⟨horder, thread, hthread⟩ := h
  obtain ⟨new, hrange, -, hids⟩ := ids_step hstep
  have hfirst : ∀ k, e = .send k → k = 0 := by
    rintro k rfl
    by_contra hk
    obtain ⟨x, hx, hother, -⟩ := step_send hstep
    obtain ⟨hlt, rfl⟩ := List.getElem?_eq_some_iff.mp hx
    have hzero : s.taken[0] ∈ s.taken.take k := by
      rw [mem_take_iff_getElem]
      exact ⟨0, by omega, rfl⟩
    refine hother _ hzero ?_
    rw [hthread _ (getElem_mem _), hthread _ (getElem_mem _)]
  refine ⟨by rw [hids hfirst, horder, hrange], ?_⟩
  cases e with
  | request =>
    cases hstep
    exact ⟨thread, hthread⟩
  | reply sequenceId response =>
    obtain ⟨-, rfl⟩ := of_guard hstep
    exact ⟨thread, hthread⟩
  | fetch =>
    obtain ⟨-, hstep⟩ := ite_none_left_eq_some.mp hstep
    cases hstep
    refine ⟨s.fetches, fun x hx => ?_⟩
    rw [show s.taken = [] from hturn, nil_append] at hx
    obtain ⟨m, -, rfl⟩ := List.mem_map.mp hx
    rfl
  | send k =>
    obtain ⟨-, -, -, rfl⟩ := step_send hstep
    exact ⟨thread, fun x hx => hthread x (mem_of_mem_eraseIdx hx)⟩

end Session

/-- **Replies to a session.** In every interleaving each request is in one place (its response is
sent, or taken from the queue, or waits in it), and what is sent for it is what `reply_message` got
for it. A ready response at the front of the queue is about to be taken, and the queue is empty when
all requests are answered and no thread is about to take responses. The responses are sent in the
order of the requests if nobody takes responses while there are some that are not sent. -/
theorem replies_in_order {es : List (ReplyEvent M)} {s : Session M}
    (hrun : run Session.step {} es = some s) :
    s.ids ~ range' 1 s.nextSeqid ∧ (∀ x ∈ s.answers, .reply x.1 x.2 ∈ es) ∧ s.Served ∧
      ((∀ entry ∈ s.pendingResponse, entry.response ≠ none) → s.stored = 0 →
        s.pendingResponse = []) ∧
      (StepsMeet Session.step Session.InTurn {} es →
        s.sent.map Prod.fst <+: range' 1 s.nextSeqid) := by
  have hids : s.ids ~ range' 1 s.nextSeqid := by
    refine run_invariant (I := fun s : Session M => s.ids ~ range' 1 s.nextSeqid)
      (fun s e t hstep h => ?_) hrun (Perm.refl _)
    obtain ⟨new, hrange, hperm, -⟩ := Session.ids_step hstep
    rw [hrange]
    exact hperm.trans (h.append_right new)
  have hserved : s.Served :=
    run_invariant (fun _ _ _ hstep h => Session.Served.step h hstep) hrun fun _ h => by cases h
  have hanswers : ∀ x ∈ s.answers, .reply x.1 x.2 ∈ es := by
    refine run_invariant_of_mem (I := fun s : Session M => ∀ x ∈ s.answers, .reply x.1 x.2 ∈ es)
      (fun s t e he hstep h x hx => ?_) hrun nofun
    rcases Session.answers_step hstep hx with hx | rfl
    · exact h x hx
    · exact he
  refine ⟨hids, hanswers, hserved, fun hready hstored => ?_, fun hturn => ?_⟩
  · by_contra hne
    obtain ⟨entry, rest, hpending⟩ := exists_cons_of_ne_nil hne
    have hpos := hserved entry (by rw [hpending]; rfl) (hready entry (by simp [hpending]))
    omega
  · have horder : s.InOrder :=
      run_invariant_of_steps (fun _ _ _ hstep hC h => Session.InOrder.step h hC hstep) hrun hturn
        ⟨rfl, 0, fun _ h => by cases h⟩
    rw [← horder.1, Session.ids, append_assoc]
    exact prefix_append _ _

def answeredBackwards : List (ReplyEvent Nat) :=
  [.request, .request, .reply 2 20, .fetch, .reply 1 10, .fetch, .send 0, .send 0]

theorem replies_in_order_backwards :
    ∃ s, run Session.step {} answeredBackwards = some s ∧ s.sent = [(1, 10), (2, 20)] ∧
      (∀ x ∈ s.answers, .reply x.1 x.2 ∈ answeredBackwards) ∧
      s.sent.map Prod.fst <+: range' 1 s.nextSeqid := by
  have hturn : StepsMeet Session.step Session.InTurn {} answeredBackwards := by
    iterate 3 refine stepsMeet_cons trivial rfl ?_
    refine stepsMeet_cons rfl rfl (stepsMeet_cons trivial rfl (stepsMeet_cons rfl rfl ?_))
    iterate 2 refine stepsMeet_cons trivial rfl ?_
    trivial
  exact ⟨_, rfl, rfl, (replies_in_order rfl).2.1, (replies_in_order rfl).2.2.2.2 hturn⟩

/-- **A response that overtakes another one.** One thread has taken the first response, and another
one takes the second and sends it before. -/
theorem overtaken_reply :
    ∃ s, run Session.step {} [.request, .request, .reply 1 10, .fetch, .reply 2 20, .fetch,
        .send 1, .send 0] = some s ∧ s.sent = [(2, 20), (1, 10)] :=
  ⟨_, rfl, rfl⟩

end Pegasus.Redis
