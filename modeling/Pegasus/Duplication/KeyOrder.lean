/-
The order of the writes of a key on the remote side (`Pegasus.Duplication.KeyOrder`).

The sets of a log are shipped one after the other. A request that is sent may be executed
by the remote table or not before its reply is given up; a copy that was given up may
still arrive later, while the request is retried or after that. `World` adds the remote
table and these copies to the duplicator.

Requests of one queue are sent one after the other, requests of different queues at the
same time, and the queue of a request is chosen by its last mutation only. So the order of
the writes of a key is kept when batches with a common key share a queue, when timestamps
follow the log, and when no copy arrives after its request was acknowledged.

* `preservesKeyOrder`: under these conditions every run applies the writes of each key in
  the order of the log, and both tables end with the same values.
* `overtaken_by_later_batch`: two batches with a common key under different hashes end
  with the older value on the remote side.
-/

import Pegasus.Duplication.TupleSet
import Pegasus.Server.Duplicate

namespace Pegasus.Duplication

open List Option BlindWrites Queues
open scoped List
open TransitionSystem (run StepsMeet)
open BlindWrites (KeyOrder InOrder SharesKey BatchesInOrder)
open Pegasus.Replica (Mutation)
open Pegasus.Server (Bytes Status Table LoggedWrite ClientWrite Wrote)

/-! ### The remote side -/

/-- The duplicator, the copies of its requests and the remote table. -/
structure World where
  /-- Sets that are still to be shipped. -/
  sets : List (List (MutationTuple LoggedWrite))
  sender : State LoggedWrite
  /-- Outstanding requests the remote table has executed, with the error of the response. -/
  executed : List ((UInt64 × Request LoggedWrite) × Status) := []
  /-- Copies that were given up before they were executed. -/
  strays : List (Request LoggedWrite) := []
  remote : Table
  /-- The last decree of the remote partition. -/
  decree : Int := 0
  /-- The requests the remote table has applied, in this order. -/
  history : List (Request LoggedWrite) := []

inductive Action where
  /-- The callback has been called, and the next set is shipped. -/
  | ship
  /-- An outstanding request is executed. -/
  | deliver (hash : UInt64) (request : Request LoggedWrite)
  /-- A copy that was given up is executed. -/
  | deliverStray (request : Request LoggedWrite)
  /-- The RPC of an outstanding request fails. -/
  | lose (hash : UInt64) (request : Request LoggedWrite)
  /-- The response to an outstanding request arrives. -/
  | answer (hash : UInt64) (request : Request LoggedWrite)
  | runScheduled (hash : UInt64)

namespace World

/-- The remote partition executes a request as its next mutation. -/
def execute (w : World) (request : Request LoggedWrite) : Option (Status × World) :=
  (Table.duplicate (w.decree + 1) request w.remote).map fun (status, remote) =>
    (status,
      { w with
        remote := remote
        decree := w.decree + 1
        history := if status = .ok then w.history ++ [request] else w.history })

def response (w : World) (hash : UInt64) (request : Request LoggedWrite) : Option Status :=
  (w.executed.find? fun x => x.1 = (hash, request)).map Prod.snd

def forget (w : World) (hash : UInt64) (request : Request LoggedWrite) :
    List ((UInt64 × Request LoggedWrite) × Status) :=
  w.executed.filter fun x => x.1 ≠ (hash, request)

/-- One action. An invalid argument is fatal for the sender, any other error is retried. -/
def step (cfg : Config LoggedWrite) (w : World) : Action → Option World
  | .ship =>
    match w.sets with
    | [] => none
    | muts :: sets =>
      if w.sender.callbacks = [] then none
      else (duplicate cfg muts).map fun sender => { w with sets := sets, sender := sender }
  | .deliver hash request =>
    if (hash, request) ∈ w.sender.outstanding ∧ w.response hash request = none then
      (w.execute request).map fun (status, w) =>
        { w with executed := w.executed ++ [((hash, request), status)] }
    else none
  | .deliverStray request =>
    if request ∈ w.strays then
      (({ w with strays := w.strays.erase request }).execute request).map Prod.snd
    else none
  | .lose hash request =>
    (Duplication.step cfg w.sender (.reply hash request false)).map fun sender =>
      { w with
        sender := sender
        executed := w.forget hash request
        strays := if w.response hash request = none then w.strays ++ [request] else w.strays }
  | .answer hash request =>
    match w.response hash request with
    | none | some .invalidArgument => none
    | some status =>
      (Duplication.step cfg w.sender (.reply hash request (decide (status = .ok)))).map
        fun sender => { w with sender := sender, executed := w.forget hash request }
  | .runScheduled hash =>
    (Duplication.step cfg w.sender (.runScheduled hash)).map fun sender =>
      { w with sender := sender }

def init (sets : List (List (MutationTuple LoggedWrite))) (remote : Table) : World where
  sets := sets
  sender := { inflights := ∅, callbacks := [0] }
  remote := remote

end World

/-! ### The source side -/

def writesOf {W : Type} (mu : Mutation LoggedWrite W) : List LoggedWrite :=
  mu.updates.filterMap (·.data)

/-- The part of a log that is duplicated: plain writes, numbered in decree order. -/
structure SourceLog (W : Type) where
  startDecree : Int
  mutations : List (Mutation LoggedWrite W)
  started : ∀ mu ∈ mutations, startDecree ≤ mu.header.decree
  ordered : mutations.Pairwise fun a b => a.header.decree < b.header.decree
  numbered : (mutations.flatMap writesOf).Pairwise fun a b => a.position < b.position
  typed : ∀ mu ∈ mutations, ∀ update ∈ mu.updates,
    update.code = (update.data.map fun w => w.write.code).getD .writeEmpty

def applyLocal {W : Type} (mu : Mutation LoggedWrite W) (t : Table) (w : LoggedWrite) :
    Option Table :=
  let ctx := Server.WriteContext.create mu.header.decree
    (UInt64.ofNat mu.header.timestamp.toNat)
  match t.apply ctx w.write with
  | some (.ok t) => some t
  | _ => none

/-- The source table after the mutations of a log. Empty writes only update the empty
record and are left out. -/
def replayLog {W : Type} (mutations : List (Mutation LoggedWrite W)) (t : Table) : Option Table :=
  mutations.foldlM (fun t mu => (writesOf mu).foldlM (applyLocal mu) t) t

/-- How a log is cut into sets, and where the payloads lie in memory. Payloads that are in
memory at the same time have different addresses. -/
structure Grouping {W : Type} (log : SourceLog W) where
  groups : List (List (Mutation LoggedWrite W))
  complete : groups.flatten = log.mutations
  address : LoggedWrite → Nat
  distinct : ∀ group ∈ groups, ((tuplesOf address group).map (·.address)).Nodup

def Grouping.sets {W : Type} {log : SourceLog W} (g : Grouping log) :
    List (List (MutationTuple LoggedWrite)) :=
  g.groups.map (loadSet g.address log.startDecree)

def MutationTuple.blind (m : MutationTuple LoggedWrite) : BlindWrites.Write Bytes (Option Bytes) :=
  m.message.blind

def blindRequest (request : Request LoggedWrite) :
    List (BlindWrites.Write Bytes (Option Bytes)) :=
  request.map fun e => e.rawMessage.blind

/-! ### The property and its conditions -/

/-- The remote table follows the log key by key: a request is applied before it is
acknowledged and never after a later write of one of its keys; once everything is
acknowledged, both tables have the same user data. -/
structure PreservesKeyOrder {W : Type} (log : SourceLog W) (source : Table) (w : World) :
    Prop where
  order : KeyOrder (w.history.map blindRequest)
  acknowledged : ∀ request ∈ w.sender.acknowledged, request ∈ w.history
  agree : w.sets = [] → w.sender.callbacks ≠ [] → ∃ t, replayLog log.mutations source = some t ∧
    ∀ key, key ≠ [] → w.remote.value key = t.value key

/-- Inside a set, the timestamps and addresses of the writes of a key follow the log. -/
def TimestampsFollow {W : Type} {log : SourceLog W} (g : Grouping log) : Prop :=
  ∀ group ∈ g.groups, ∀ a ∈ tuplesOf g.address group, ∀ b ∈ tuplesOf g.address group,
    SharesKey a.blind b.blind → a.message.position < b.message.position →
      mutationTupleCmp a b = true

/-- Batches of a set that have a key in common end with mutations of the same hash. -/
def KeysShareQueue (cfg : Config LoggedWrite) (muts : List (MutationTuple LoggedWrite)) : Prop :=
  ∀ batch ∈ batches cfg muts, ∀ batch' ∈ batches cfg muts,
    (∃ m ∈ batch, ∃ m' ∈ batch', SharesKey m.blind m'.blind) →
      batchHash cfg batch = batchHash cfg batch'

/-- The requests of a hash that are not acknowledged: the outstanding one, and those that
wait. -/
def remaining (s : State LoggedWrite) (hash : UInt64) : List (Request LoggedWrite) :=
  (s.outstanding.filter fun x => x.1 = hash).map Prod.snd ++ Queues.queue s.inflights hash

/-- A copy that was given up arrives only while its request is being retried. -/
def NoStaleCopy (w : World) : Action → Prop
  | .deliverStray request => ∃ hash, (remaining w.sender hash).head? = some request
  | _ => True

/-! ### What an event leaves unacknowledged -/

def Event.acknowledges : Event LoggedWrite → UInt64 → List (Request LoggedWrite)
  | .reply hash request true, hash' => if hash = hash' then [request] else []
  | _, _ => []

variable {outstanding : List (UInt64 × Request LoggedWrite)} {cfg : Config LoggedWrite}
  {hash : UInt64} {request : Request LoggedWrite}

theorem filter_outstanding_of_notMem (hfresh : hash ∉ outstanding.map Prod.fst) :
    (outstanding.filter fun x => x.1 = hash) = [] := by
  refine filter_eq_nil_iff.mpr fun y hy heq => hfresh ?_
  exact List.mem_map.mpr ⟨y, hy, by simpa using heq⟩

theorem filter_outstanding_of_mem (hnodup : (outstanding.map Prod.fst).Nodup)
    (hmem : (hash, request) ∈ outstanding) :
    (outstanding.filter fun x => x.1 = hash) = [(hash, request)] := by
  induction outstanding with
  | nil => simp at hmem
  | cons x outstanding ih =>
    obtain ⟨hfresh, hnodup⟩ := nodup_cons.mp hnodup
    rcases mem_cons.mp hmem with rfl | htail
    · simp [filter_outstanding_of_notMem hfresh]
    · have hne : x.1 ≠ hash := fun heq =>
        hfresh (heq ▸ List.mem_map_of_mem (f := Prod.fst) htail)
      simp [hne, ih hnodup htail]

theorem filter_outstanding_erase (hnodup : (outstanding.map Prod.fst).Nodup)
    (hmem : (hash, request) ∈ outstanding) (hash' : UInt64) :
    ((outstanding.erase (hash, request)).filter fun x => x.1 = hash') =
      if hash = hash' then [] else outstanding.filter fun x => x.1 = hash' := by
  rw [hnodup.of_map.erase_eq_filter, List.filter_filter]
  by_cases heq : hash = hash'
  · subst heq
    rw [if_pos rfl, filter_eq_nil_iff]
    intro x hx hboth
    have hsame : x ∈ outstanding.filter fun x => x.1 = hash := by
      rw [mem_filter]
      exact ⟨hx, by simp_all⟩
    rw [filter_outstanding_of_mem hnodup hmem] at hsame
    simp_all
  · rw [if_neg heq]
    refine filter_congr fun x _ => ?_
    by_cases hx : x.1 = hash'
    · have hne : x ≠ (hash, request) := fun h => heq (by rw [← hx, h])
      simp [hx, hne]
    · simp [hx]

variable {requests : List (Request LoggedWrite)} {s t : State LoggedWrite} {e : Event LoggedWrite}

section

variable (h : Delivering requests s)
include h

theorem Delivering.remaining_of_outstanding (hmem : (hash, request) ∈ s.outstanding) :
    remaining s hash = request :: queue s.inflights hash := by
  rw [remaining, filter_outstanding_of_mem h.outstanding_nodup hmem]
  rfl

omit h in
theorem remaining_of_no_outstanding (h : hash ∉ s.outstanding.map Prod.fst) :
    remaining s hash = queue s.inflights hash := by
  simp [remaining, filter_outstanding_of_notMem h]

omit h in
theorem remaining_sent {queue : List (Request LoggedWrite)}
    (hfresh : hash ∉ s.outstanding.map Prod.fst)
    (hlookup : s.inflights.lookup hash = some (request :: queue)) (scheduled : List UInt64)
    (hash' : UInt64) :
    remaining
        { s with
          scheduled := scheduled
          inflights := s.inflights.insert hash queue
          outstanding := s.outstanding ++ [(hash, request)] } hash' =
      remaining s hash' := by
  by_cases heq : hash' = hash
  · subst heq
    rw [remaining_of_no_outstanding hfresh]
    simp [remaining, filter_outstanding_of_notMem hfresh, Queues.queue, hlookup]
  · simp [remaining, Queues.queue_insert_of_ne _ heq, Ne.symm heq]

/-- **One event** acknowledges at most the first request of its queue. -/
theorem remaining_step (hstep : step cfg s e = some t) (hash' : UInt64) :
    remaining s hash' = e.acknowledges hash' ++ remaining t hash' := by
  have hacked : ∀ {hash : UInt64} {request : Request LoggedWrite},
      (hash, request) ∈ s.outstanding → ∀ inflights : Inflights LoggedWrite,
        queue inflights hash = queue s.inflights hash →
        (hash' ≠ hash → queue inflights hash' = queue s.inflights hash') →
          remaining s hash' = (if hash = hash' then [request] else []) ++
            (((s.outstanding.erase (hash, request)).filter fun x => x.1 = hash').map Prod.snd ++
              queue inflights hash') := by
    intro hash request hmem inflights hsame hother
    rw [filter_outstanding_erase h.outstanding_nodup hmem]
    by_cases heq : hash = hash'
    · subst heq
      simp [h.remaining_of_outstanding hmem, hsame]
    · simp [heq, remaining, hother (Ne.symm heq)]
  cases step_cases hstep with
  | @retry hash request hmem =>
    have hnone : Event.acknowledges (.reply hash request false) hash' = [] := rfl
    rw [hnone, nil_append, remaining, remaining, filter_outstanding_erase h.outstanding_nodup hmem]
    by_cases heq : hash = hash'
    · subst heq
      simp [filter_outstanding_of_mem h.outstanding_nodup hmem, queue_insert]
    · simp [heq, queue_insert_of_ne _ (Ne.symm heq)]
  | @next hash request hmem hqueue => exact hacked hmem s.inflights rfl fun _ => rfl
  | close hmem hqueue hkeys | finish hmem hqueue hkeys =>
    refine hacked hmem (s.inflights.erase _) ?_ fun hne => queue_erase_of_ne _ hne
    rw [hqueue, queue, AList.lookup_erase, getD_none]
  | @sent hash request queue hmem hlookup =>
    have hfresh : hash ∉ s.outstanding.map Prod.fst := by
      intro hout
      have hnodup := h.tokens.nodup_iff.mpr s.inflights.keys_nodup
      exact (nodup_append.mp hnodup).2.2 hash hout hash hmem rfl
    exact (remaining_sent hfresh hlookup _ hash').symm

theorem Delivering.remaining_eq_nil (hcalled : s.callbacks ≠ []) (hash : UInt64) :
    remaining s hash = [] := by
  obtain ⟨hkeys, hout⟩ := h.idle hcalled
  have hlookup : s.inflights.lookup hash = none := by
    refine AList.lookup_eq_none.mpr fun hmem => ?_
    have hkey : hash ∈ s.inflights.keys := hmem
    simp [hkeys] at hkey
  simp [remaining, hout, queue, hlookup]

omit h

theorem foldlM_send_remaining {hashes : List UInt64} (hnodup : hashes.Nodup)
    (hfresh : ∀ hash ∈ hashes, hash ∉ s.outstanding.map Prod.fst)
    (hsend : hashes.foldlM send s = some t) :
    (∀ hash', remaining t hash' = remaining s hash') ∧ t.acknowledged = s.acknowledged := by
  induction hashes generalizing s with
  | nil =>
    cases some.inj hsend
    exact ⟨fun _ => rfl, rfl⟩
  | cons hash hashes ih =>
    obtain ⟨hnew, hnodup⟩ := nodup_cons.mp hnodup
    rw [foldlM_cons] at hsend
    obtain ⟨u, hone, hrest⟩ := bind_eq_some_iff.mp hsend
    obtain ⟨request, queue, hlookup, rfl⟩ := send_eq_some_iff.mp hone
    obtain ⟨hremaining, hacked⟩ := ih hnodup (fun hash' hmem hout => by
      rw [map_append, mem_append] at hout
      rcases hout with hold | hadded
      · exact hfresh hash' (mem_cons_of_mem _ hmem) hold
      · have heq : hash' = hash := mem_singleton.mp hadded
        exact hnew (heq ▸ hmem)) hrest
    refine ⟨fun hash' => (hremaining hash').trans ?_, hacked⟩
    exact remaining_sent (hfresh hash mem_cons_self) hlookup s.scheduled hash'

end

theorem remaining_duplicate {muts : List (MutationTuple LoggedWrite)}
    (h : duplicate cfg muts = some s) :
    (∀ hash, remaining s hash = queue (pack cfg muts).inflights hash) ∧
      s.acknowledged = [] := by
  unfold duplicate at h
  dsimp only at h
  split at h
  · cases some.inj h
    exact ⟨fun hash => remaining_of_no_outstanding (by simp), rfl⟩
  · obtain ⟨hremaining, hacked⟩ :=
      foldlM_send_remaining (pack cfg muts).inflights.keys_nodup (by simp) h
    exact ⟨fun hash => (hremaining hash).trans (remaining_of_no_outstanding (by simp)), hacked⟩

theorem acknowledged_step (hstep : step cfg s e = some t) :
    ∀ request ∈ t.acknowledged,
      request ∈ s.acknowledged ∨ ∃ hash, request ∈ e.acknowledges hash := by
  have happend : ∀ {hash : UInt64} {request : Request LoggedWrite},
      ∀ r ∈ s.acknowledged ++ [request],
        r ∈ s.acknowledged ∨ ∃ hash', r ∈ Event.acknowledges (.reply hash request true) hash' := by
    intro hash request r hr
    rcases mem_append.mp hr with hold | hnew
    · exact Or.inl hold
    · exact Or.inr ⟨hash, by simpa [Event.acknowledges] using hnew⟩
  cases step_cases hstep with
  | retry => exact fun r hr => Or.inl hr
  | next | close | finish => exact happend
  | sent => exact fun r hr => Or.inl hr

/-! ### What the sets guarantee -/

/-- What the order on the remote side needs of the sets. -/
structure Plan (cfg : Config LoggedWrite) (sets : List (List (MutationTuple LoggedWrite))) :
    Prop where
  typed : ∀ muts ∈ sets, ∀ m ∈ muts, m.code = m.message.write.code
  inOrder : ∀ muts ∈ sets, muts.Pairwise fun a b => InOrder a.blind b.blind
  shared : ∀ muts ∈ sets, KeysShareQueue cfg muts
  consecutive : sets.Pairwise fun muts muts' =>
    ∀ m ∈ muts, ∀ m' ∈ muts', m.message.position < m'.message.position

theorem blindRequest_batch (cfg : Config LoggedWrite) (batch : List (MutationTuple LoggedWrite)) :
    blindRequest (batch.map (entryOf cfg)) = batch.map MutationTuple.blind := by
  simp [blindRequest, entryOf, MutationTuple.blind]

section Plan

variable {sets : List (List (MutationTuple LoggedWrite))}
  {muts : List (MutationTuple LoggedWrite)} {hash' : UInt64} {request' : Request LoggedWrite}

variable (h : Plan cfg sets) (hmuts : muts ∈ sets)
include h hmuts

theorem Plan.not_ignored : ∀ m ∈ muts, ignoredRpcCode m.code = false := by
  intro m hm
  rw [h.typed muts hmuts m hm]
  cases m.message.write <;> rfl

theorem Plan.queue_eq (hash : UInt64) :
    queue (pack cfg muts).inflights hash = requestsUnder cfg hash (batches cfg muts) :=
  queue_pack (h.not_ignored hmuts) hash

variable (hrequest : request ∈ Queues.queue (pack cfg muts).inflights hash)
include hrequest

theorem Plan.exists_batch :
    ∃ batch ∈ batches cfg muts, batchHash cfg batch = some hash ∧
      request = batch.map (entryOf cfg) := by
  rw [h.queue_eq hmuts, requestsUnder] at hrequest
  obtain ⟨batch, hbatch, rfl⟩ := List.mem_map.mp hrequest
  obtain ⟨hmem, hhash⟩ := mem_filter.mp hbatch
  exact ⟨batch, hmem, by simpa using hhash, rfl⟩

omit h hmuts hrequest in
theorem mem_of_mem_batch {batch : List (MutationTuple LoggedWrite)}
    (hbatch : batch ∈ batches cfg muts) : ∀ m ∈ batch, m ∈ muts := by
  intro m hm
  rw [← flatten_batches cfg muts]
  exact mem_flatten.mpr ⟨batch, hbatch, hm⟩

omit hrequest in
theorem Plan.exists_queued {m : MutationTuple LoggedWrite} (hm : m ∈ muts) :
    ∃ hash, ∃ request ∈ queue (pack cfg muts).inflights hash, entryOf cfg m ∈ request := by
  rw [← flatten_batches cfg muts] at hm
  obtain ⟨batch, hbatch, hmem⟩ := mem_flatten.mp hm
  have hne : batch ≠ [] := ne_nil_of_mem hmem
  refine ⟨cfg.hash (batch.getLast hne).code (batch.getLast hne).message,
    batch.map (entryOf cfg), ?_, List.mem_map_of_mem hmem⟩
  rw [h.queue_eq hmuts, requestsUnder]
  refine List.mem_map_of_mem (mem_filter.mpr ⟨hbatch, ?_⟩)
  simp [batchHash, List.getLast?_eq_getLast_of_ne_nil hne]

omit hrequest in
/-- **Inside a queue** the writes of a key are in the order of the log. -/
theorem Plan.queue_order (hash : UInt64) :
    (∀ request ∈ queue (pack cfg muts).inflights hash,
        (blindRequest request).Pairwise InOrder) ∧
      (queue (pack cfg muts).inflights hash).Pairwise fun request request' =>
        BatchesInOrder (blindRequest request) (blindRequest request') := by
  have hsub : ((batches cfg muts).filter fun batch => batchHash cfg batch = some hash).flatten.Sublist
      muts := by
    have := (filter_sublist (l := batches cfg muts)
      (p := fun batch => batchHash cfg batch = some hash)).flatten
    rwa [flatten_batches] at this
  have hpair : (((queue (pack cfg muts).inflights hash).map blindRequest).flatten).Pairwise
      InOrder := by
    rw [h.queue_eq hmuts, requestsUnder, List.map_map]
    have hmap : blindRequest ∘ (fun batch => batch.map (entryOf cfg)) =
        List.map MutationTuple.blind := funext fun batch => blindRequest_batch cfg batch
    rw [hmap, ← map_flatten, pairwise_map]
    exact (h.inOrder muts hmuts).sublist hsub
  obtain ⟨hwithin, hacross⟩ := pairwise_flatten.mp hpair
  constructor
  · intro request hrequest
    exact hwithin _ (List.mem_map_of_mem hrequest)
  · exact pairwise_map.mp hacross

omit hrequest in
theorem Plan.queue_apart (hne : hash ≠ hash')
    (hrequest : request ∈ queue (pack cfg muts).inflights hash)
    (hrequest' : request' ∈ queue (pack cfg muts).inflights hash') :
    BatchesInOrder (blindRequest request) (blindRequest request') := by
  obtain ⟨batch, hbatch, hhash, rfl⟩ := h.exists_batch hmuts hrequest
  obtain ⟨batch', hbatch', hhash', rfl⟩ := h.exists_batch hmuts hrequest'
  rw [blindRequest_batch, blindRequest_batch]
  intro w hw w' hw' hshare
  obtain ⟨m, hm, rfl⟩ := List.mem_map.mp hw
  obtain ⟨m', hm', rfl⟩ := List.mem_map.mp hw'
  have hsame := h.shared muts hmuts batch hbatch batch' hbatch' ⟨m, hm, m', hm', hshare⟩
  rw [hhash, hhash'] at hsame
  exact absurd (some.inj hsame) hne

theorem Plan.exists_mutation : ∀ e ∈ request, ∃ m ∈ muts, entryOf cfg m = e := by
  obtain ⟨batch, hbatch, -, rfl⟩ := h.exists_batch hmuts hrequest
  intro e he
  obtain ⟨m, hm, rfl⟩ := List.mem_map.mp he
  exact ⟨m, mem_of_mem_batch hbatch m hm, rfl⟩

/-- The remote side sees requests that its `duplicate` applies or refuses as a whole. -/
theorem Plan.duplicate_spec (t : Table) (decree : Int) :
    (∃ t', Table.duplicate decree request t = some (.ok, t') ∧
        Wrote t t' (Server.requestAssigns request)) ∨
      ∃ t', Table.duplicate decree request t = some (.invalidArgument, t') ∧ Wrote t t' [] := by
  have hfrom : ∀ e ∈ request, Server.FromCluster cfg.clusterId e := by
    intro e he
    obtain ⟨m, hm, rfl⟩ := h.exists_mutation hmuts hrequest e he
    exact ⟨rfl, (h.typed muts hmuts m hm).symm, rfl⟩
  refine Server.duplicate_spec ?_ hfrom t decree
  obtain ⟨batch, hbatch, -, rfl⟩ := h.exists_batch hmuts hrequest
  simpa using batchesFrom_ne_nil batch hbatch

end Plan

/-! ### What every action preserves -/

/-- The request only has writes before those of the sets. -/
def Before (request : Request LoggedWrite) (sets : List (List (MutationTuple LoggedWrite))) :
    Prop :=
  ∀ e ∈ request, ∀ muts ∈ sets, ∀ m ∈ muts, e.rawMessage.position < m.message.position

/-- While the set `muts` is shipped: `done` are the requests of each queue that have been
acknowledged. Whatever the remote table has applied belongs to an earlier set, has been
acknowledged, or is the first request of its queue that is not. -/
structure Shipping (cfg : Config LoggedWrite) (initial : Table)
    (all earlier : List (List (MutationTuple LoggedWrite)))
    (muts : List (MutationTuple LoggedWrite)) (done : UInt64 → List (Request LoggedWrite))
    (w : World) : Prop where
  split : all = earlier ++ muts :: w.sets
  delivering : ∃ requests, Delivering requests w.sender
  queues : ∀ hash,
    Queues.queue (pack cfg muts).inflights hash = done hash ++ remaining w.sender hash
  applied : ∀ hash, ∀ request ∈ done hash, request ∈ w.history
  acknowledged : ∀ request ∈ w.sender.acknowledged, request ∈ w.history
  executed : ∀ x ∈ w.executed, x.2 = .ok → x.1.2 ∈ w.history
  sent : ∀ request ∈ w.history, Before request (muts :: w.sets) ∨
    ∃ hash, request ∈ done hash ∨ (remaining w.sender hash).head? = some request
  order : KeyOrder (w.history.map blindRequest)
  value : ∀ key, key ≠ [] → w.remote.value key =
    applyAll initial.value (w.history.map blindRequest).flatten key
  known : ∀ request ∈ w.history, ∀ e ∈ request, ∃ set ∈ all, ∃ m ∈ set, entryOf cfg m = e
  covered : ∀ set ∈ earlier, ∀ m ∈ set, ∃ request ∈ w.history, entryOf cfg m ∈ request

theorem applyAll_blindRequest (f : Bytes → Option Bytes) (request : Request LoggedWrite) :
    applyAll f (blindRequest request) = (Server.requestAssigns request).foldl assign f := by
  rw [applyAll_eq_foldl, blindRequest, flatMap_map]
  rfl

section Shipping

variable {initial : Table} {all earlier : List (List (MutationTuple LoggedWrite))}
  {muts : List (MutationTuple LoggedWrite)} {done : UInt64 → List (Request LoggedWrite)}
  {w : World}

variable (h : Shipping cfg initial all earlier muts done w)
include h

theorem Shipping.mem_all : muts ∈ all := by simp [h.split]

theorem Shipping.queued (hhead : (remaining w.sender hash).head? = some request) :
    request ∈ queue (pack cfg muts).inflights hash := by
  rw [h.queues hash]
  exact mem_append_right _ (mem_of_mem_head? hhead)

variable (hplan : Plan cfg all)
include hplan

theorem Shipping.in_order (hhead : (remaining w.sender hash).head? = some request) :
    ∀ old ∈ w.history, old = request ∨ BatchesInOrder (blindRequest old) (blindRequest request) := by
  intro old hold
  have hrequest := h.queued hhead
  rcases h.sent old hold with hbefore | ⟨hash', hdone⟩
  · -- a write of an earlier set
    refine Or.inr fun v hv v' hv' _ => ?_
    obtain ⟨e, he, rfl⟩ := List.mem_map.mp hv
    obtain ⟨e', he', rfl⟩ := List.mem_map.mp hv'
    obtain ⟨m, hm, rfl⟩ := hplan.exists_mutation h.mem_all hrequest e' he'
    exact hbefore e he muts mem_cons_self m hm
  · have hold' : old ∈ queue (pack cfg muts).inflights hash' := by
      rw [h.queues hash']
      rcases hdone with hmem | hhead'
      · exact mem_append_left _ hmem
      · exact mem_append_right _ (mem_of_mem_head? hhead')
    by_cases heq : hash' = hash
    · subst heq
      rcases hdone with hmem | hhead'
      · refine Or.inr ?_
        have horder := (hplan.queue_order h.mem_all hash').2
        rw [h.queues hash'] at horder
        exact (pairwise_append.mp horder).2.2 old hmem request (mem_of_mem_head? hhead)
      · exact Or.inl (mem_unique hhead' hhead)
    · exact Or.inr (hplan.queue_apart h.mem_all heq hold' hrequest)

/-- **The remote side** executes the first request of a queue that is not acknowledged. -/
theorem Shipping.execute {status : Status} {w' : World}
    (hhead : (remaining w.sender hash).head? = some request)
    (hexec : w.execute request = some (status, w')) :
    Shipping cfg initial all earlier muts done w' ∧ w'.executed = w.executed ∧
      (status = .ok → request ∈ w'.history) := by
  have hrequest := h.queued hhead
  have hmem : ∀ old ∈ w.history, old ∈ w.history ++ [request] :=
    fun old hold => mem_append_left _ hold
  rcases hplan.duplicate_spec h.mem_all hrequest w.remote (w.decree + 1) with
    ⟨t, ht, hwrote⟩ | ⟨t, ht, hwrote⟩
  · simp only [World.execute, ht, map_some, if_true, some.injEq,
      Prod.mk.injEq] at hexec
    obtain ⟨rfl, rfl⟩ := hexec
    refine ⟨?_, rfl, fun _ => mem_append_right _ (mem_singleton.mpr rfl)⟩
    exact
      { h with
        applied := fun hash' r hr => hmem r (h.applied hash' r hr)
        acknowledged := fun r hr => hmem r (h.acknowledged r hr)
        executed := fun x hx hok => hmem _ (h.executed x hx hok)
        sent := by exact forall_mem_concat h.sent (Or.inr ⟨hash, Or.inr hhead⟩)
        order := by
          rw [map_append]
          refine h.order.append ((hplan.queue_order h.mem_all hash).1 request hrequest) ?_
          intro old hold
          obtain ⟨r, hr, rfl⟩ := List.mem_map.mp hold
          exact (h.in_order hplan hhead r hr).imp_left (congrArg blindRequest)
        value := by
          intro key hkey
          rw [hwrote.value key hkey, map_append, flatten_append, applyAll_append]
          have hsingle : ([request].map blindRequest).flatten = blindRequest request := by simp
          rw [hsingle, applyAll_blindRequest]
          exact foldl_assign_congr _ (h.value key hkey)
        known := by
          refine forall_mem_concat h.known ?_
          exact fun e he => ⟨muts, h.mem_all, hplan.exists_mutation h.mem_all hrequest e he⟩
        covered := by
          intro set hset m hm
          obtain ⟨r, hr, he⟩ := h.covered set hset m hm
          exact ⟨r, hmem r hr, he⟩ }
  · simp only [World.execute, ht, map_some, reduceCtorEq, if_false, some.injEq,
      Prod.mk.injEq] at hexec
    obtain ⟨rfl, rfl⟩ := hexec
    refine ⟨?_, rfl, fun hok => by cases hok⟩
    exact { h with value := fun key hkey => (hwrote.value key hkey).trans (h.value key hkey) }

omit hplan in
/-- **The sender** handles an event. It acknowledges only what has been applied. -/
theorem Shipping.event (hstep : step cfg w.sender e = some s)
    (hacked : ∀ hash, ∀ request ∈ e.acknowledges hash, request ∈ w.history)
    {executed : List ((UInt64 × Request LoggedWrite) × Status)}
    (hexecuted : ∀ x ∈ executed, x ∈ w.executed) (strays : List (Request LoggedWrite)) :
    Shipping cfg initial all earlier muts (fun hash => done hash ++ e.acknowledges hash)
      { w with sender := s, executed := executed, strays := strays } := by
  obtain ⟨requests, hdelivering⟩ := h.delivering
  have hremaining := remaining_step hdelivering hstep
  exact
    { h with
      delivering := ⟨requests, delivering_step hstep hdelivering⟩
      queues := by
        intro hash
        rw [h.queues hash, hremaining hash, append_assoc]
      applied := by
        intro hash r hr
        rcases mem_append.mp hr with hold | hnew
        · exact h.applied hash r hold
        · exact hacked hash r hnew
      acknowledged := by
        intro r hr
        rcases acknowledged_step hstep r hr with hold | ⟨hash, hnew⟩
        · exact h.acknowledged r hold
        · exact hacked hash r hnew
      executed := fun x hx hok => h.executed x (hexecuted x hx) hok
      sent := by
        intro r hr
        refine (h.sent r hr).imp_right ?_
        rintro ⟨hash, hdone | hhead⟩
        · exact ⟨hash, Or.inl (mem_append_left _ hdone)⟩
        · rw [hremaining hash] at hhead
          refine ⟨hash, ?_⟩
          cases hack : e.acknowledges hash with
          | nil => exact Or.inr (by simpa [hack] using hhead)
          | cons r' rest =>
            rw [hack, cons_append, List.head?_cons] at hhead
            exact Or.inl (mem_append_right _ (some.inj hhead ▸ mem_cons_self)) }

theorem Shipping.all_applied (hcalled : w.sender.callbacks ≠ []) :
    ∀ set ∈ earlier ++ [muts], ∀ m ∈ set, ∃ request ∈ w.history, entryOf cfg m ∈ request := by
  intro set hset m hm
  rcases mem_concat_iff.mp hset with hold | rfl
  · exact h.covered set hold m hm
  · obtain ⟨requests, hdelivering⟩ := h.delivering
    obtain ⟨hash, request, hrequest, he⟩ := hplan.exists_queued h.mem_all hm
    rw [h.queues hash, hdelivering.remaining_eq_nil hcalled, append_nil] at hrequest
    exact ⟨request, h.applied hash request hrequest, he⟩

theorem Shipping.ship (hcalled : w.sender.callbacks ≠ [])
    {next : List (MutationTuple LoggedWrite)}
    {sets : List (List (MutationTuple LoggedWrite))} (hsets : w.sets = next :: sets)
    (hduplicate : duplicate cfg next = some s) :
    Shipping cfg initial all (earlier ++ [muts]) next (fun _ => [])
      { w with sets := sets, sender := s } := by
  obtain ⟨requests, hdelivering⟩ := h.delivering
  obtain ⟨s', hs', hnext⟩ := duplicate_delivering cfg next
  cases mem_unique hs' hduplicate
  obtain ⟨hremaining, hacked⟩ := remaining_duplicate hduplicate
  have hconsecutive := hplan.consecutive
  rw [h.split, hsets] at hconsecutive
  exact
    { h with
      split := by
        rw [h.split, hsets]
        simp
      delivering := ⟨_, hnext⟩
      queues := fun hash => (hremaining hash).symm
      applied := by simp
      acknowledged := by simp [hacked]
      sent := by
        intro r hr
        refine Or.inl ?_
        rcases h.sent r hr with hbefore | ⟨hash, hdone | hhead⟩
        · intro e he set hset
          rw [← hsets] at hset
          exact hbefore e he set (mem_cons_of_mem _ hset)
        · intro e he set hset m hm
          have hqueued : r ∈ queue (pack cfg muts).inflights hash := by
            rw [h.queues hash]
            exact mem_append_left _ hdone
          obtain ⟨m', hm', rfl⟩ := hplan.exists_mutation h.mem_all hqueued e he
          exact (pairwise_cons.mp (pairwise_append.mp hconsecutive).2.1).1 set hset m' hm' m hm
        · rw [hdelivering.remaining_eq_nil hcalled] at hhead
          simp at hhead
      covered := fun set hset m hm => h.all_applied hplan hcalled set hset m hm }

end Shipping

def ShippingSome (cfg : Config LoggedWrite) (initial : Table)
    (all : List (List (MutationTuple LoggedWrite))) (w : World) : Prop :=
  ∃ earlier muts done, Shipping cfg initial all earlier muts done w

theorem mem_of_response {w : World} {status : Status} (h : w.response hash request = some status) :
    ((hash, request), status) ∈ w.executed := by
  obtain ⟨x, hx, rfl⟩ := map_eq_some_iff.mp h
  have heq : x.1 = (hash, request) := by simpa using List.find?_some hx
  rw [← heq]
  exact mem_of_find?_eq_some hx

/-- **Step lemma.** Every action that meets the condition keeps the order. -/
theorem shippingSome_step {initial : Table} {all : List (List (MutationTuple LoggedWrite))}
    (hplan : Plan cfg all) (w : World) (a : Action) (w' : World)
    (hstep : w.step cfg a = some w') (hfresh : NoStaleCopy w a)
    (h : ShippingSome cfg initial all w) : ShippingSome cfg initial all w' := by
  obtain ⟨earlier, muts, done, h⟩ := h
  have hforget : ∀ hash request, ∀ x ∈ w.forget hash request, x ∈ w.executed :=
    fun _ _ x hx => mem_of_mem_filter hx
  cases a with
  | ship =>
    simp only [World.step] at hstep
    split at hstep
    · cases hstep
    · rename_i next sets hsets
      obtain ⟨hcalled, hstep⟩ := ite_none_left_eq_some.mp hstep
      obtain ⟨s, hs, rfl⟩ := map_eq_some_iff.mp hstep
      exact ⟨_, _, _, h.ship hplan hcalled hsets hs⟩
  | deliver hash request =>
    obtain ⟨hout, hstep⟩ := ite_none_right_eq_some.mp hstep
    obtain ⟨⟨status, w''⟩, hexec, rfl⟩ := map_eq_some_iff.mp hstep
    obtain ⟨requests, hdelivering⟩ := h.delivering
    have hhead : (remaining w.sender hash).head? = some request := by
      rw [hdelivering.remaining_of_outstanding hout.1]
      rfl
    obtain ⟨h', hsame, hok⟩ := h.execute hplan hhead hexec
    refine ⟨earlier, muts, done, { h' with executed := ?_ }⟩
    intro x hx hstatus
    rcases mem_concat_iff.mp hx with hold | rfl
    · exact h'.executed x hold hstatus
    · exact hok hstatus
  | deliverStray request =>
    obtain ⟨-, hstep⟩ := ite_none_right_eq_some.mp hstep
    obtain ⟨⟨status, w''⟩, hexec, rfl⟩ := map_eq_some_iff.mp hstep
    obtain ⟨hash, hhead⟩ := hfresh
    have hstray : Shipping cfg initial all earlier muts done
        { w with strays := w.strays.erase request } := { h with }
    exact ⟨earlier, muts, done, (hstray.execute hplan hhead hexec).1⟩
  | lose hash request =>
    obtain ⟨s, hs, rfl⟩ := map_eq_some_iff.mp hstep
    exact ⟨_, _, _, h.event hs (fun _ _ hnone => by cases hnone) (hforget hash request) _⟩
  | answer hash request =>
    simp only [World.step] at hstep
    split at hstep
    · cases hstep
    · cases hstep
    · rename_i status _ hstatus
      obtain ⟨s, hs, rfl⟩ := map_eq_some_iff.mp hstep
      refine ⟨_, _, _, h.event hs ?_ (hforget hash request) w.strays⟩
      intro hash' r hr
      by_cases hok : status = .ok
      · subst hok
        by_cases heq : hash = hash'
        · have hr' : r = request := by simpa [Event.acknowledges, heq] using hr
          rw [hr']
          exact h.executed _ (mem_of_response hstatus) rfl
        · simp [Event.acknowledges, heq] at hr
      · simp [Event.acknowledges, hok] at hr
  | runScheduled hash =>
    obtain ⟨s, hs, rfl⟩ := map_eq_some_iff.mp hstep
    exact ⟨_, _, _, h.event hs (fun _ _ hnone => by cases hnone) (fun x hx => hx) w.strays⟩

/-! ### The sets of a log -/

section Grouping

variable {W : Type}

variable {address : LoggedWrite → Nat} {group : List (Mutation LoggedWrite W)}

theorem tupleOf_typed {timestamp : Int} {update : Replica.MutationUpdate LoggedWrite}
    (htyped : update.code = (update.data.map fun w => w.write.code).getD .writeEmpty) :
    (tupleOf address timestamp update).map (·.message) = update.data ∧
      ∀ m, tupleOf address timestamp update = some m → m.code = m.message.write.code := by
  unfold tupleOf
  cases hdata : update.data with
  | none =>
    rw [hdata] at htyped
    have hempty : update.code = .writeEmpty := htyped
    simp [hempty]
  | some w =>
    rw [hdata] at htyped
    have hcode : update.code = w.write.code := htyped
    have hplain : w.write.code ≠ .writeEmpty ∧ w.write.code.isIdempotent = true := by
      cases w.write <;> exact ⟨by simp [ClientWrite.code], rfl⟩
    rw [← hcode] at hplain
    simp only [hplain.1, hplain.2, if_false, dif_pos, map_some, some.injEq]
    exact ⟨trivial, fun m hm => hm ▸ hcode⟩

theorem map_message_tuples {mu : Mutation LoggedWrite W}
    (htyped : ∀ update ∈ mu.updates,
      update.code = (update.data.map fun w => w.write.code).getD .writeEmpty) :
    (mu.updates.filterMap (tupleOf address mu.header.timestamp)).map (·.message) = writesOf mu := by
  rw [map_filterMap, writesOf]
  exact filterMap_congr fun update hupdate => (tupleOf_typed (htyped update hupdate)).1

theorem map_message_tuplesOf {mutations : List (Mutation LoggedWrite W)}
    (htyped : ∀ mu ∈ mutations, ∀ update ∈ mu.updates,
      update.code = (update.data.map fun w => w.write.code).getD .writeEmpty) :
    (tuplesOf address mutations).map (·.message) = mutations.flatMap writesOf := by
  rw [tuplesOf, map_flatMap]
  exact flatMap_congr fun mu hmu => map_message_tuples (htyped mu hmu)

theorem tuplesOf_flatten (address : LoggedWrite → Nat)
    (groups : List (List (Mutation LoggedWrite W))) :
    tuplesOf address groups.flatten = (groups.map (tuplesOf address)).flatten := by
  induction groups with
  | nil => rfl
  | cons group groups ih =>
    rw [flatten_cons, map_cons, flatten_cons, ← ih]
    exact flatMap_append

variable {log : SourceLog W} (g : Grouping log)

theorem Grouping.mem_mutations (hgroup : group ∈ g.groups) : ∀ mu ∈ group, mu ∈ log.mutations := by
  intro mu hmu
  rw [← g.complete]
  exact mem_flatten.mpr ⟨group, hgroup, hmu⟩

theorem Grouping.loadSet_perm (hgroup : group ∈ g.groups) :
    loadSet g.address log.startDecree group ~ tuplesOf g.address group :=
  Duplication.loadSet_perm (fun mu hmu => log.started mu (g.mem_mutations hgroup mu hmu))
    (g.distinct group hgroup)

theorem Grouping.writes_eq :
    ((g.groups.map (tuplesOf g.address)).flatten).map (·.message) =
      log.mutations.flatMap writesOf := by
  rw [← tuplesOf_flatten, g.complete, map_message_tuplesOf log.typed]

theorem Grouping.positions :
    (∀ group ∈ g.groups, (tuplesOf g.address group).Pairwise fun a b =>
        a.message.position < b.message.position) ∧
      g.groups.Pairwise fun group group' => ∀ a ∈ tuplesOf g.address group,
        ∀ b ∈ tuplesOf g.address group', a.message.position < b.message.position := by
  have hnumbered := log.numbered
  rw [← g.writes_eq, pairwise_map] at hnumbered
  obtain ⟨hwithin, hacross⟩ := pairwise_flatten.mp hnumbered
  refine ⟨fun group hgroup => hwithin _ (List.mem_map_of_mem hgroup), ?_⟩
  exact pairwise_map.mp hacross

theorem Grouping.loadSet_inOrder (hfollow : TimestampsFollow g) (hgroup : group ∈ g.groups) :
    (loadSet g.address log.startDecree group).Pairwise fun a b => InOrder a.blind b.blind := by
  have hsorted : (loadSet g.address log.startDecree group).Pairwise fun a b =>
      mutationTupleCmp a b = true :=
    loadSet_sorted fun mu hmu => log.started mu (g.mem_mutations hgroup mu hmu)
  refine hsorted.imp_of_mem fun {a b} ha hb hcmp hshare => ?_
  have ha' := (g.loadSet_perm hgroup).subset ha
  have hb' := (g.loadSet_perm hgroup).subset hb
  have hnodup : ((tuplesOf g.address group).map fun m => m.message.position).Nodup :=
    (pairwise_map.mpr (g.positions.1 group hgroup)).imp fun hlt => Nat.ne_of_lt hlt
  rcases Nat.lt_trichotomy a.message.position b.message.position with hlt | heq | hgt
  · exact hlt
  · have hsame : a = b := inj_on_of_nodup_map hnodup ha' hb' heq
    subst hsame
    exact absurd hcmp (mutationTupleCmp_asymm hcmp)
  · exact absurd (hfollow group hgroup b hb' a ha' hshare.symm hgt) (mutationTupleCmp_asymm hcmp)

theorem Grouping.plan (hfollow : TimestampsFollow g)
    (hshare : ∀ muts ∈ g.sets, KeysShareQueue cfg muts) : Plan cfg ([] :: g.sets) where
  typed := by
    intro muts hmuts m hm
    rcases mem_cons.mp hmuts with rfl | hset
    · cases hm
    · obtain ⟨group, hgroup, rfl⟩ := List.mem_map.mp hset
      obtain ⟨mu, hmu, htuple⟩ := mem_flatMap.mp ((g.loadSet_perm hgroup).subset hm)
      obtain ⟨update, hupdate, hsome⟩ := mem_filterMap.mp htuple
      have htyped := log.typed mu (g.mem_mutations hgroup mu hmu) update hupdate
      exact (tupleOf_typed htyped).2 m hsome
  inOrder := by
    intro muts hmuts
    rcases mem_cons.mp hmuts with rfl | hset
    · exact List.Pairwise.nil
    · obtain ⟨group, hgroup, rfl⟩ := List.mem_map.mp hset
      exact g.loadSet_inOrder hfollow hgroup
  shared := by
    intro muts hmuts
    rcases mem_cons.mp hmuts with rfl | hset
    · intro batch hbatch
      cases hbatch
    · exact hshare muts hset
  consecutive := by
    refine pairwise_cons.mpr ⟨fun _ _ m hm => (by cases hm), ?_⟩
    refine pairwise_map.mpr (g.positions.2.imp_of_mem fun hgroup hgroup' hlt m hm m' hm' => ?_)
    exact hlt m ((g.loadSet_perm hgroup).subset hm) m' ((g.loadSet_perm hgroup').subset hm')

theorem Grouping.mem_sets_iff (w : LoggedWrite) :
    (∃ muts ∈ [] :: g.sets, ∃ m ∈ muts, m.message = w) ↔ w ∈ log.mutations.flatMap writesOf := by
  rw [← g.writes_eq]
  simp only [Grouping.sets, mem_cons, List.mem_map, mem_flatten]
  constructor
  · rintro ⟨muts, rfl | ⟨group, hgroup, rfl⟩, m, hm, rfl⟩
    · cases hm
    · exact ⟨m, ⟨_, ⟨group, hgroup, rfl⟩, (g.loadSet_perm hgroup).subset hm⟩, rfl⟩
  · rintro ⟨m, ⟨_, ⟨group, hgroup, rfl⟩, hm⟩, rfl⟩
    exact ⟨_, Or.inr ⟨group, hgroup, rfl⟩, m, (g.loadSet_perm hgroup).symm.subset hm, rfl⟩

end Grouping

/-! ### The source table -/

section Source

variable {W : Type}

theorem foldlM_applyLocal (mu : Mutation LoggedWrite W) (ws : List LoggedWrite) (t : Table) :
    ∃ t', ws.foldlM (applyLocal mu) t = some t' ∧
      Wrote t t' (ws.flatMap fun w => w.write.assigns) := by
  induction ws generalizing t with
  | nil => exact ⟨t, rfl, Wrote.refl t⟩
  | cons w ws ih =>
    have hunverified : (Server.WriteContext.create mu.header.decree
        (UInt64.ofNat mu.header.timestamp.toNat)).verifyTimetag = false := rfl
    obtain ⟨t', happly, hwrote⟩ := Server.apply_spec t hunverified w.write
    obtain ⟨t'', hrest, hwrote'⟩ := ih t'
    refine ⟨t'', ?_, hwrote.trans hwrote'⟩
    rw [foldlM_cons, applyLocal, happly]
    exact hrest

theorem replayLog_spec (mutations : List (Mutation LoggedWrite W)) (t : Table) :
    ∃ t', replayLog mutations t = some t' ∧
      Wrote t t' ((mutations.flatMap writesOf).flatMap fun w => w.write.assigns) := by
  induction mutations generalizing t with
  | nil => exact ⟨t, rfl, Wrote.refl t⟩
  | cons mu mutations ih =>
    obtain ⟨t', hone, hwrote⟩ := foldlM_applyLocal mu (writesOf mu) t
    obtain ⟨t'', hrest, hwrote'⟩ := ih t'
    refine ⟨t'', ?_, ?_⟩
    · rw [replayLog, foldlM_cons, hone]
      exact hrest
    · rw [flatMap_cons, flatMap_append]
      exact hwrote.trans hwrote'

end Source

/-! ### Runs -/

theorem shipping_init (cfg : Config LoggedWrite) (remote : Table)
    (sets : List (List (MutationTuple LoggedWrite))) :
    ShippingSome cfg remote ([] :: sets) (World.init sets remote) := by
  refine ⟨[], [], fun _ => [], ?_⟩
  have hempty : ∀ hash, remaining (World.init sets remote).sender hash = [] := fun hash => rfl
  exact
    { split := rfl
      delivering := ⟨[], by
        exact
          { tokens := List.Perm.refl _
            queued := by simp [World.init]
            conserved := List.Perm.refl _
            called := rfl }⟩
      queues := fun hash => rfl
      applied := by simp
      acknowledged := by simp [World.init]
      executed := by simp [World.init]
      sent := by simp [World.init]
      order := keyOrder_nil
      value := fun _ _ => rfl
      known := by simp [World.init]
      covered := by simp }

/-- **Order by key.** When timestamps follow the log and batches with a common key share a
queue, every run in which no stale copy arrives keeps the order of the log key by key. -/
theorem preservesKeyOrder {W : Type} {log : SourceLog W} (g : Grouping log)
    {cfg : Config LoggedWrite} {source remote : Table} {w : World} {actions : List Action}
    (hsame : ∀ key, key ≠ [] → remote.value key = source.value key)
    (hfollow : TimestampsFollow g) (hshare : ∀ muts ∈ g.sets, KeysShareQueue cfg muts)
    (hrun : run (World.step cfg) (World.init g.sets remote) actions = some w)
    (hmeet : StepsMeet (World.step cfg) NoStaleCopy (World.init g.sets remote) actions) :
    PreservesKeyOrder log source w := by
  have hplan := g.plan hfollow hshare
  obtain ⟨earlier, muts, done, h⟩ := TransitionSystem.run_invariant_of_steps
    (shippingSome_step hplan) hrun hmeet (shipping_init cfg remote g.sets)
  refine ⟨h.order, h.acknowledged, fun hsets hcalled => ?_⟩
  obtain ⟨t, ht, hwrote⟩ := replayLog_spec log.mutations source
  refine ⟨t, ht, fun key hkey => ?_⟩
  have hagree : applyAll remote.value (w.history.map blindRequest).flatten key =
      applyAll remote.value
        ((log.mutations.flatMap writesOf).map LoggedWrite.blind) key := by
    refine h.order.applyAll_flatten_eq (pairwise_map.mpr log.numbered) ?_ ?_ _ key
    · intro batch hbatch v hv
      obtain ⟨request, hrequest, rfl⟩ := List.mem_map.mp hbatch
      obtain ⟨e, he, rfl⟩ := List.mem_map.mp hv
      obtain ⟨set, hset, m, hm, rfl⟩ := h.known request hrequest e he
      exact List.mem_map_of_mem ((g.mem_sets_iff m.message).mp ⟨set, hset, m, hm, rfl⟩)
    · intro v hv
      obtain ⟨x, hx, rfl⟩ := List.mem_map.mp hv
      obtain ⟨set, hset, m, hm, rfl⟩ := (g.mem_sets_iff x).mpr hx
      rw [h.split, hsets] at hset
      obtain ⟨request, hrequest, he⟩ := h.all_applied hplan hcalled set hset m hm
      exact ⟨blindRequest request, List.mem_map_of_mem hrequest,
        List.mem_map.mpr ⟨entryOf cfg m, he, rfl⟩⟩
  rw [h.value key hkey, hagree, hwrote.value key hkey, applyAll_eq_foldl,
    flatMap_map]
  exact foldl_assign_congr _ (hsame key hkey)

/-! ### A batch that is overtaken -/

def firstByteHash (w : ClientWrite) : UInt64 :=
  match w with
  | .put update => (update.key.getD 2 0).toUInt64
  | .remove key => (key.getD 2 0).toUInt64
  | .multiPut update => (update.hashKey.1.getD 0 0).toUInt64
  | .multiRemove update => (update.hashKey.1.getD 0 0).toUInt64

/-- Messages of ten bytes, and batches of the given size. -/
def tenByteConfig (batchBytes : Nat) : Config LoggedWrite where
  size := fun _ => 10
  hash := fun _ w => firstByteHash w.write
  clusterId := 1
  duplicateLogBatchBytes := batchBytes
  wireSize := fun request => 10 * request.length

/-- The raw keys of the hash keys `a` and `b`, with an empty sort key. -/
def keyA : Bytes := [0, 1, 97]

def keyB : Bytes := [0, 1, 98]

def putMutation (decree : Nat) (key value : Bytes) : Mutation LoggedWrite Unit where
  header := { ballot := 1, decree := decree, timestamp := decree }
  updates := [⟨.put, .thriftBinary, some ⟨decree, .put { key := key, value := value }⟩⟩]

/-- A put of `a`, a put of `b` and another put of `a`. -/
def threePuts : SourceLog Unit where
  startDecree := 1
  mutations := [putMutation 1 keyA [1], putMutation 2 keyB [2], putMutation 3 keyA [3]]
  started := by decide
  ordered := by decide
  numbered := by decide
  typed := by decide

def oneSet : Grouping threePuts where
  groups := [threePuts.mutations]
  complete := rfl
  address := fun w => w.position
  distinct := by decide

/-- A cluster without records, which accepts the writes of cluster 1. -/
def emptyTable (clusterId : UInt8) : Table where
  records := fun _ => none
  clusterId := clusterId
  isDupClusterIdConfigured := fun clusterId => clusterId == 1 || clusterId == 2

def putEntry (position : Nat) (key value : Bytes) : DuplicateEntry LoggedWrite where
  rawMessage := ⟨position, .put { key := key, value := value }⟩
  taskCode := .put
  timestamp := position
  clusterId := 1

/-- In batches of one put, the puts of `a` wait for one another. The first one is executed twice,
because its response is lost. -/
def retried : List Action :=
  [.ship, .deliver 97 [putEntry 1 keyA [1]], .lose 97 [putEntry 1 keyA [1]], .runScheduled 97,
    .deliver 98 [putEntry 2 keyB [2]], .deliver 97 [putEntry 1 keyA [1]],
    .answer 97 [putEntry 1 keyA [1]], .answer 98 [putEntry 2 keyB [2]], .runScheduled 97,
    .deliver 97 [putEntry 3 keyA [3]], .answer 97 [putEntry 3 keyA [3]]]

theorem preservesKeyOrder_retried :
    ∃ w, run (World.step (tenByteConfig 10)) (World.init oneSet.sets (emptyTable 2)) retried =
        some w ∧
      w.sender.callbacks ≠ [] ∧ PreservesKeyOrder threePuts (emptyTable 1) w := by
  have hcmp : ∀ a ∈ tuplesOf oneSet.address threePuts.mutations,
      ∀ b ∈ tuplesOf oneSet.address threePuts.mutations,
        a.message.position < b.message.position → mutationTupleCmp a b = true := by decide
  have hfollow : TimestampsFollow oneSet := by
    intro group hgroup a ha b hb _ hlt
    rw [mem_singleton.mp hgroup] at ha hb
    exact hcmp a ha b hb hlt
  have hhash : ∀ muts ∈ oneSet.sets, ∀ batch ∈ batches (tenByteConfig 10) muts, ∀ m ∈ batch,
      ∀ key ∈ m.blind.assigns.map Prod.fst,
        batchHash (tenByteConfig 10) batch = (key.getD 2 0).toUInt64 := by decide
  have hshare : ∀ muts ∈ oneSet.sets, KeysShareQueue (tenByteConfig 10) muts := by
    rintro muts hmuts batch hbatch batch' hbatch' ⟨m, hm, m', hm', key, hkey, hkey'⟩
    exact (hhash muts hmuts batch hbatch m hm key hkey).trans
      (hhash muts hmuts batch' hbatch' m' hm' key hkey').symm
  have hmeet : StepsMeet (World.step (tenByteConfig 10)) NoStaleCopy
      (World.init oneSet.sets (emptyTable 2)) retried := by
    simp [retried, StepsMeet, NoStaleCopy]
  have hsame : ∀ key, key ≠ [] → (emptyTable 2).value key = (emptyTable 1).value key :=
    fun _ _ => rfl
  exact ⟨_, rfl, by decide, preservesKeyOrder oneSet hsame hfollow hshare rfl hmeet⟩

/-- With batches of twenty bytes, the first put of `a` travels under the hash of `b`, and the
second one, under the hash of `a`, overtakes it. -/
def overtaking : List Action :=
  [.ship, .deliver 97 [putEntry 3 keyA [3]],
    .deliver 98 [putEntry 1 keyA [1], putEntry 2 keyB [2]],
    .answer 97 [putEntry 3 keyA [3]], .answer 98 [putEntry 1 keyA [1], putEntry 2 keyB [2]]]

/-- **The remote table ends with the older value.** Everything is acknowledged, no copy is
stale, and `a` has its first value on the remote side and its second one at home. -/
theorem overtaken_by_later_batch :
    ∃ w, run (World.step (tenByteConfig 20)) (World.init oneSet.sets (emptyTable 2)) overtaking =
        some w ∧
      w.remote.value keyA = some [1] ∧
        (replayLog threePuts.mutations (emptyTable 1)).map (·.value keyA) = some (some [3]) ∧
          ¬ PreservesKeyOrder threePuts (emptyTable 1) w := by
  have hreplay : (replayLog threePuts.mutations (emptyTable 1)).map (·.value keyA) =
      some (some [3]) := rfl
  refine ⟨_, rfl, rfl, hreplay, fun h => ?_⟩
  obtain ⟨t, ht, hagree⟩ := h.agree rfl (by decide)
  have hvalue := hagree keyA (by decide)
  rw [ht, map_some, ← hvalue] at hreplay
  exact absurd hreplay (by decide)

end Pegasus.Duplication
