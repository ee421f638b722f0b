/-
What a duplicator delivers (`Pegasus.Duplication.Shipping`).

For every set of mutations and every order of replies, failures and retries, the
callback of `duplicate` is called once and only after every *queued* request has
been acknowledged (`Delivering`, an invariant of every step). What was queued is
another matter: `duplicate` closes a batch only while it visits a mutation that is
not ignored, so ignored mutations at the end of a set leave the last batch behind.

* `nothing_is_dropped`: everything is delivered exactly when the last mutation of the
  set is not ignored, or the mutations that are not ignored fill their batches; and then
  the progress of `ship_mutation` never passes a write that was not acknowledged.
* `last_batch_dropped`: a put followed by a `duplicate` write is never sent, and the
  callback is called all the same.
-/

import Pegasus.Duplication.Duplicator
import Pegasus.Duplication.Manager

namespace Pegasus.Duplication

open TransitionSystem List Option Prod Queues
open scoped List

section

variable {P : Type} {cfg : Config P}

/-! ### Packing -/

def shippable (cfg : Config P) (muts : List (MutationTuple P)) : Request P :=
  (muts.filter fun m => !ignoredRpcCode m.code).map (entryOf cfg)

@[simp] theorem shippable_nil : shippable cfg [] = [] := rfl

variable {m : MutationTuple P} {muts : List (MutationTuple P)} {p : Packing P} {limit : Nat}

theorem shippable_cons_ignored (h : ignoredRpcCode m.code = true) :
    shippable cfg (m :: muts) = shippable cfg muts := by
  simp [shippable, h]

theorem shippable_cons (h : ignoredRpcCode m.code = false) :
    shippable cfg (m :: muts) = entryOf cfg m :: shippable cfg muts := by
  simp [shippable, h]

/-- The entries of a packing: those in queued requests, and those of the open batch. -/
def Packing.entries (p : Packing P) : Request P := (waiting p.inflights).flatten ++ p.batchRequest

theorem waiting_pushBack (inflights : Inflights P) (hash : UInt64) (request : Request P) :
    waiting (pushBack inflights hash request) ~ waiting inflights ++ [request] := by
  have h : queue inflights hash ++ [request] ~
      (queue inflights hash ++ [request]) ++ [] := by simp
  simpa [pushBack] using (waiting_insert_perm h).symm

theorem packOne_entries (cfg : Config P) (total : Nat) (p : Packing P) (m : MutationTuple P) :
    (packOne cfg total p m).entries ~ p.entries ++ shippable cfg [m] := by
  unfold packOne
  split
  · rename_i hignored
    simp [Packing.entries, shippable_cons_ignored hignored]
  · rename_i hignored
    rw [shippable_cons (by simpa using hignored), shippable_nil]
    dsimp only
    split
    · have hflat := (waiting_pushBack p.inflights (cfg.hash m.code m.message)
        (p.batchRequest ++ [entryOf cfg m])).flatten
      simpa [Packing.entries] using hflat
    · simp [Packing.entries]

theorem foldl_packOne_entries (cfg : Config P) (total : Nat) (muts : List (MutationTuple P))
    (p : Packing P) :
    (muts.foldl (packOne cfg total) p).entries ~ p.entries ++ shippable cfg muts := by
  induction muts generalizing p with
  | nil => simp
  | cons m muts ih =>
    have hone := packOne_entries cfg total p m
    calc
      ((m :: muts).foldl (packOne cfg total) p).entries
          ~ (packOne cfg total p m).entries ++ shippable cfg muts := ih _
      _ ~ (p.entries ++ shippable cfg [m]) ++ shippable cfg muts := hone.append_right _
      _ ~ p.entries ++ shippable cfg (m :: muts) := by
        cases hignored : ignoredRpcCode m.code with
        | true => simp [shippable_cons_ignored hignored]
        | false => simp [shippable_cons hignored]

/-- **Packing loses nothing by itself.** Every shippable entry is in a queued request or in
the batch that is still open when the loop ends. -/
theorem pack_entries (cfg : Config P) (muts : List (MutationTuple P)) :
    (waiting (pack cfg muts).inflights).flatten ++ (pack cfg muts).batchRequest ~
      shippable cfg muts := by
  simpa [Packing.entries, pack] using foldl_packOne_entries cfg muts.length muts {}

variable {total : Nat} {sizes : List Nat} {e : Event P}

theorem packOne_queues (h : ∀ k ∈ p.inflights.keys, queue p.inflights k ≠ []) :
    ∀ k ∈ (packOne cfg total p m).inflights.keys,
      queue (packOne cfg total p m).inflights k ≠ [] := by
  intro k hk
  unfold packOne at hk ⊢
  split at hk
  · rename_i hignored
    simpa [hignored] using h k hk
  · rename_i hignored
    rw [if_neg hignored]
    dsimp only at hk ⊢
    split at hk
    · rename_i hflush
      rw [if_pos hflush]
      by_cases hkey : k = cfg.hash m.code m.message
      · subst hkey
        simp [pushBack, queue_insert]
      · have hmem : k ∈ p.inflights.keys := by
          simpa [pushBack, AList.keys_insert, hkey, mem_erase_of_ne hkey] using hk
        simpa [pushBack, queue_insert_of_ne _ hkey] using h k hmem
    · rename_i hflush
      rw [if_neg hflush]
      exact h k hk

theorem pack_queues (cfg : Config P) (muts : List (MutationTuple P)) :
    ∀ k ∈ (pack cfg muts).inflights.keys, queue (pack cfg muts).inflights k ≠ [] := by
  have hfold : ∀ (muts' : List (MutationTuple P)) (p : Packing P),
      (∀ k ∈ p.inflights.keys, queue p.inflights k ≠ []) →
        ∀ k ∈ (muts'.foldl (packOne cfg muts.length) p).inflights.keys,
          queue (muts'.foldl (packOne cfg muts.length) p).inflights k ≠ [] := by
    intro muts'
    induction muts' with
    | nil => exact fun p hp => hp
    | cons m muts' ih => exact fun p hp => ih _ (packOne_queues hp)
  exact hfold muts {} (by simp [AList.keys_empty])

/-! ### The batch that stays open -/

/-- `batch_bytes` after the given sizes: 32 bits wide. -/
def batchBytes (sizes : List Nat) : Nat := sizes.sum % 2 ^ 32

/-- A batch is closed once it reaches the smaller of the two limits. -/
def Config.batchLimit (cfg : Config P) : Nat :=
  min cfg.duplicateLogBatchBytes cfg.dupMaxAllowedWriteSize

def shippableSizes (cfg : Config P) (muts : List (MutationTuple P)) : List Nat :=
  (muts.filter fun m => !ignoredRpcCode m.code).map fun m => cfg.size m.message

/-- A batch that has not reached the limit with any of its mutations. -/
def BelowLimit (limit : Nat) (sizes : List Nat) : Prop :=
  ∀ front, front ≠ [] → front <+: sizes → batchBytes front < limit

/-- The sizes split into consecutive batches, each of which reaches the limit with its last
mutation and not before. -/
inductive FillsBatches (limit : Nat) : List Nat → Prop where
  | nil : FillsBatches limit []
  | cons {front : List Nat} {last : Nat} {rest : List Nat} (below : BelowLimit limit front)
      (full : limit ≤ batchBytes (front ++ [last])) (more : FillsBatches limit rest) :
      FillsBatches limit (front ++ last :: rest)

theorem not_fillsBatches_of_belowLimit (hbelow : BelowLimit limit sizes) (hne : sizes ≠ []) :
    ¬ FillsBatches limit sizes := by
  intro hfills
  cases hfills with
  | nil => exact hne rfl
  | @cons front last rest below full more =>
    have hlt := hbelow (front ++ [last]) (by simp) ⟨rest, by simp⟩
    omega

theorem belowLimit_append {size : Nat} (hbelow : BelowLimit limit sizes)
    (hsize : batchBytes (sizes ++ [size]) < limit) : BelowLimit limit (sizes ++ [size]) := by
  intro front hne hprefix
  rcases prefix_concat_iff.mp (by simpa using hprefix) with heq | hshort
  · rw [heq]
    simpa using hsize
  · exact hbelow front hne hshort

theorem fillsBatches_iff_rest {front : List Nat} {last : Nat} {rest : List Nat}
    (below : BelowLimit limit front) (full : limit ≤ batchBytes (front ++ [last])) :
    FillsBatches limit (front ++ last :: rest) ↔ FillsBatches limit rest := by
  refine ⟨fun hfills => ?_, FillsBatches.cons below full⟩
  generalize hsizes : front ++ last :: rest = sizes at hfills
  cases hfills with
  | nil => simp at hsizes
  | @cons front' last' rest' below' full' more' =>
    -- neither first batch can be shorter than the other
    rcases append_eq_append_iff.mp hsizes with ⟨extra, hfront', htail⟩ | ⟨extra, hfront, htail⟩
    · cases extra with
      | nil =>
        obtain ⟨-, rfl⟩ := List.cons.inj (by simpa using htail)
        exact more'
      | cons x extra =>
        obtain ⟨rfl, -⟩ := List.cons.inj (by simpa using htail)
        have hlt := below' (front ++ [last]) (by simp) ⟨extra, by simp [hfront']⟩
        omega
    · cases extra with
      | nil =>
        obtain ⟨-, rfl⟩ := List.cons.inj (by simpa using htail)
        exact more'
      | cons x extra =>
        obtain ⟨rfl, -⟩ := List.cons.inj (by simpa using htail)
        have hlt := below (front' ++ [last']) (by simp) ⟨extra, by simp [hfront]⟩
        omega

structure OpenBatch (cfg : Config P) (p : Packing P) : Prop where
  bytes : p.batchBytes = batchBytes (p.batchRequest.map fun e => cfg.size e.rawMessage)
  below : BelowLimit cfg.batchLimit (p.batchRequest.map fun e => cfg.size e.rawMessage)

theorem openBatch_of_empty (hbytes : p.batchBytes = 0) (hbatch : p.batchRequest = []) :
    OpenBatch cfg p := by
  refine ⟨by simp [hbytes, hbatch, batchBytes], ?_⟩
  intro front hne hprefix
  simp [hbatch] at hprefix
  exact absurd hprefix hne

theorem foldl_packOne_batchCount (cfg : Config P) (total : Nat) (muts : List (MutationTuple P))
    (p : Packing P) :
    (muts.foldl (packOne cfg total) p).batchCount = p.batchCount + muts.length := by
  induction muts generalizing p with
  | nil => rfl
  | cons m muts ih =>
    have hone : (packOne cfg total p m).batchCount = p.batchCount + 1 := by
      unfold packOne
      split
      · rfl
      · dsimp only
        split <;> rfl
    rw [foldl_cons, ih, hone, length_cons]
    omega

/-- A mutation that is not ignored closes its batch if it is the last one or fills it. -/
theorem packOne_of_not_ignored (hcode : ignoredRpcCode m.code = false) :
    packOne cfg total p m =
      if p.batchCount + 1 = total ∨
          cfg.batchLimit ≤ (p.batchBytes + cfg.size m.message) % 2 ^ 32 then
        { batchCount := p.batchCount + 1
          inflights := pushBack p.inflights (cfg.hash m.code m.message)
            (p.batchRequest ++ [entryOf cfg m]) }
      else
        { batchCount := p.batchCount + 1
          batchBytes := (p.batchBytes + cfg.size m.message) % 2 ^ 32
          batchRequest := p.batchRequest ++ [entryOf cfg m]
          inflights := p.inflights } := by
  simp only [packOne, hcode, Bool.false_eq_true, if_false, Config.batchLimit, min_le_iff]

/-- As long as the last mutation of the set has not been visited, only the limit closes a
batch. -/
theorem foldl_packOne_closed_iff (hopen : OpenBatch cfg p)
    (htotal : p.batchCount + muts.length < total) :
    (muts.foldl (packOne cfg total) p).batchRequest = [] ↔
      FillsBatches cfg.batchLimit
        (p.batchRequest.map (fun e => cfg.size e.rawMessage) ++ shippableSizes cfg muts) := by
  induction muts generalizing p with
  | nil =>
    have hempty : shippableSizes cfg [] = [] := rfl
    rw [foldl_nil, hempty, append_nil]
    constructor
    · intro hnil
      rw [hnil]
      exact FillsBatches.nil
    · intro hfills
      by_contra hne
      exact not_fillsBatches_of_belowLimit hopen.below (by simpa using hne) hfills
  | cons m muts ih =>
    rw [length_cons] at htotal
    rw [foldl_cons]
    cases hignored : ignoredRpcCode m.code with
    | true =>
      have hone : packOne cfg total p m = { p with batchCount := p.batchCount + 1 } := by
        simp [packOne, hignored]
      have hsizes : shippableSizes cfg (m :: muts) = shippableSizes cfg muts := by
        simp [shippableSizes, hignored]
      rw [hone, hsizes]
      exact ih ⟨hopen.bytes, hopen.below⟩ (by dsimp only; omega)
    | false =>
      have hsizes : shippableSizes cfg (m :: muts) =
          cfg.size m.message :: shippableSizes cfg muts := by
        simp [shippableSizes, hignored]
      have hbytes : (p.batchBytes + cfg.size m.message) % 2 ^ 32 =
          batchBytes (p.batchRequest.map (fun e => cfg.size e.rawMessage) ++
            [cfg.size m.message]) := by
        simp [hopen.bytes, batchBytes]
      have hcount : ¬ p.batchCount + 1 = total := by omega
      rw [hsizes, packOne_of_not_ignored hignored]
      by_cases hfull : cfg.batchLimit ≤ (p.batchBytes + cfg.size m.message) % 2 ^ 32
      · rw [if_pos (.inr hfull), ih (openBatch_of_empty rfl rfl) (by dsimp only; omega),
          fillsBatches_iff_rest hopen.below (hbytes ▸ hfull)]
        simp
      · have hbelow := belowLimit_append hopen.below (hbytes ▸ not_le.mp hfull)
        rw [if_neg (not_or.mpr ⟨hcount, hfull⟩), ih ⟨?_, ?_⟩ (by dsimp only; omega)]
        · simp [entryOf]
        · simpa [entryOf] using hbytes
        · simpa [entryOf] using hbelow

/-- The last batch of a set is closed: by its last mutation, or because it is full. -/
def ClosesLastBatch (cfg : Config P) (muts : List (MutationTuple P)) : Prop :=
  (∃ m, muts.getLast? = some m ∧ ignoredRpcCode m.code = false) ∨
    FillsBatches cfg.batchLimit (shippableSizes cfg muts)

theorem pack_closed_iff (cfg : Config P) (muts : List (MutationTuple P)) :
    (pack cfg muts).batchRequest = [] ↔ ClosesLastBatch cfg muts := by
  rcases eq_nil_or_concat muts with rfl | ⟨front, m, rfl⟩
  · exact ⟨fun _ => Or.inr FillsBatches.nil, fun _ => rfl⟩
  · have hopen : OpenBatch cfg ({} : Packing P) := openBatch_of_empty rfl rfl
    have hfront : (front.foldl (packOne cfg (front.length + 1)) {}).batchRequest = [] ↔
        FillsBatches cfg.batchLimit (shippableSizes cfg front) := by
      simpa using foldl_packOne_closed_iff hopen (by simp)
    have hcount := foldl_packOne_batchCount cfg (front.length + 1) front {}
    unfold pack
    rw [concat_eq_append, length_append, length_singleton, foldl_append, foldl_cons, foldl_nil]
    cases hignored : ignoredRpcCode m.code with
    | true =>
      have hsizes : shippableSizes cfg (front ++ [m]) = shippableSizes cfg front := by
        simp [shippableSizes, hignored]
      rw [ClosesLastBatch, hsizes]
      simp [packOne, hignored, hfront]
    | false =>
      have hlast : (packOne cfg (front.length + 1)
          (front.foldl (packOne cfg (front.length + 1)) {}) m).batchRequest = [] := by
        simp [packOne, hignored, hcount]
      exact ⟨fun _ => Or.inl ⟨m, by simp, hignored⟩, fun _ => hlast⟩

/-! ### What every event preserves -/

/-- The state of a duplicator that delivers `requests`. Every queue has one request
outstanding or one call of `send` scheduled; no request is lost or doubled; and the
callback has been called exactly when no queue is left. -/
structure Delivering (requests : List (Request P)) (s : State P) : Prop where
  tokens : s.outstanding.map Prod.fst ++ s.scheduled ~ s.inflights.keys
  queued : ∀ hash ∈ s.scheduled, Queues.queue s.inflights hash ≠ []
  conserved : waiting s.inflights ++ (s.outstanding.map Prod.snd ++ s.acknowledged) ~
    requests
  called : s.callbacks.length = if s.inflights.keys = [] then 1 else 0

section Delivering

variable {requests : List (Request P)} {s : State P}

variable {hash : UInt64}

variable (h : Delivering requests s)
include h

variable {request : Request P}

theorem Delivering.outstanding_nodup : (s.outstanding.map fst).Nodup :=
  (h.tokens.nodup_iff.mpr s.inflights.keys_nodup).of_append_left

theorem Delivering.mem_keys (hmem : (hash, request) ∈ s.outstanding) :
    hash ∈ s.inflights.keys :=
  h.tokens.subset (mem_append_left _ (mem_map_of_mem hmem))

theorem Delivering.scheduled_mem_keys (hmem : hash ∈ s.scheduled) :
    hash ∈ s.inflights.keys :=
  h.tokens.subset (mem_append_right _ hmem)

theorem Delivering.callbacks_eq_nil (hmem : hash ∈ s.inflights.keys) : s.callbacks = [] := by
  have hcalled := h.called
  rw [if_neg (ne_nil_of_mem hmem)] at hcalled
  exact length_eq_zero_iff.mp hcalled

theorem Delivering.exists_front (hmem : hash ∈ s.scheduled) :
    ∃ request queue, s.inflights.lookup hash = some (request :: queue) := by
  have hne := h.queued hash hmem
  unfold queue at hne
  cases hlookup : s.inflights.lookup hash with
  | none => simp [hlookup] at hne
  | some queue =>
    cases queue with
    | nil => simp [hlookup] at hne
    | cons request queue => exact ⟨request, queue, rfl⟩

theorem Delivering.exists_token (hcalled : s.callbacks = []) :
    (∃ hash request, (hash, request) ∈ s.outstanding) ∨ ∃ hash, hash ∈ s.scheduled := by
  have hkeys : s.inflights.keys ≠ [] := by
    intro hnil
    have := h.called
    simp [hnil, hcalled] at this
  obtain ⟨hash, hmem⟩ := exists_mem_of_ne_nil _ hkeys
  rcases mem_append.mp (h.tokens.symm.subset hmem) with hout | hsched
  · obtain ⟨⟨hash', request⟩, hmem', -⟩ := mem_map.mp hout
    exact Or.inl ⟨hash', request, hmem'⟩
  · exact Or.inr ⟨hash, hsched⟩

theorem Delivering.idle (hcalled : s.callbacks ≠ []) :
    s.inflights.keys = [] ∧ s.outstanding = [] := by
  have hkeys : s.inflights.keys = [] := by
    by_contra hne
    have := h.called
    simp [hne] at this
    exact hcalled this
  have htokens := h.tokens
  rw [hkeys, perm_nil, append_eq_nil_iff, map_eq_nil_iff] at htokens
  exact ⟨hkeys, htokens.1⟩

theorem Delivering.acknowledged_perm (hcalled : s.callbacks ≠ []) : s.acknowledged ~ requests := by
  obtain ⟨hkeys, hout⟩ := h.idle hcalled
  have hentries : s.inflights.entries = [] := map_eq_nil_iff.mp hkeys
  have hwaiting : waiting s.inflights = [] := by simp [waiting, hentries]
  simpa [hwaiting, hout] using h.conserved

theorem Delivering.sent {queue : List (Request P)} (hmem : hash ∈ s.scheduled)
    (hlookup : s.inflights.lookup hash = some (request :: queue)) :
    Delivering requests
      { s with
        scheduled := s.scheduled.erase hash
        inflights := s.inflights.insert hash queue
        outstanding := s.outstanding ++ [(hash, request)] } where
  tokens := by
    refine List.Perm.trans ?_ (keys_insert_perm (h.scheduled_mem_keys hmem) queue).symm
    refine List.Perm.trans ?_ h.tokens
    rw [map_append, append_assoc]
    exact (perm_cons_erase hmem).symm.append_left _
  queued := by
    intro hash' hsched
    have hnodup : s.scheduled.Nodup :=
      (h.tokens.nodup_iff.mpr s.inflights.keys_nodup).of_append_right
    obtain ⟨hne, hold⟩ := hnodup.mem_erase_iff.mp hsched
    rw [queue_insert_of_ne _ hne]
    exact h.queued hash' hold
  conserved := by
    refine (waiting_insert_perm ?_).symm.trans h.conserved
    have hqueue : Queues.queue s.inflights hash = request :: queue := by
      simp [Queues.queue, hlookup]
    have hmove : request :: ((queue ++ s.outstanding.map snd) ++ s.acknowledged) ~
        (queue ++ s.outstanding.map snd) ++ request :: s.acknowledged :=
      perm_middle.symm
    simpa [hqueue] using hmove
  called := by
    have hkey := h.scheduled_mem_keys hmem
    rw [if_neg (keys_insert_ne_nil _ _ _), h.callbacks_eq_nil hkey]
    rfl

end Delivering

/-! ### One event -/

theorem send_eq_some_iff {s t : State P} {hash : UInt64} :
    send s hash = some t ↔
      ∃ request queue, s.inflights.lookup hash = some (request :: queue) ∧
        t = { s with
          inflights := s.inflights.insert hash queue
          outstanding := s.outstanding ++ [(hash, request)] } := by
  unfold send
  constructor
  · intro h
    split at h
    · rename_i request queue hlookup
      exact ⟨request, queue, hlookup, (some.inj h).symm⟩
    · cases h
  · rintro ⟨request, queue, hlookup, rfl⟩
    rw [hlookup]

variable [DecidableEq P]

/-- **Inversion of a step.** A reply retries its request, lets the next one of its queue be
sent, closes its queue, or closes the last queue and calls the callback; a scheduled task
sends the first request of its queue. -/
inductive StepCases (cfg : Config P) (s : State P) : Event P → State P → Prop where
  | retry {hash : UInt64} {request : Request P} (hmem : (hash, request) ∈ s.outstanding) :
      StepCases cfg s (.reply hash request false)
        { s with
          outstanding := s.outstanding.erase (hash, request)
          inflights := s.inflights.insert hash (request :: Queues.queue s.inflights hash)
          scheduled := s.scheduled ++ [hash] }
  | next {hash : UInt64} {request : Request P} (hmem : (hash, request) ∈ s.outstanding)
      (hqueue : Queues.queue s.inflights hash ≠ []) :
      StepCases cfg s (.reply hash request true)
        { s with
          outstanding := s.outstanding.erase (hash, request)
          acknowledged := s.acknowledged ++ [request]
          totalShippedSize := s.totalShippedSize + cfg.wireSize request
          scheduled := s.scheduled ++ [hash] }
  | close {hash : UInt64} {request : Request P} (hmem : (hash, request) ∈ s.outstanding)
      (hqueue : Queues.queue s.inflights hash = [])
      (hkeys : (s.inflights.erase hash).keys ≠ []) :
      StepCases cfg s (.reply hash request true)
        { s with
          outstanding := s.outstanding.erase (hash, request)
          acknowledged := s.acknowledged ++ [request]
          totalShippedSize := s.totalShippedSize + cfg.wireSize request
          inflights := s.inflights.erase hash }
  | finish {hash : UInt64} {request : Request P} (hmem : (hash, request) ∈ s.outstanding)
      (hqueue : Queues.queue s.inflights hash = [])
      (hkeys : (s.inflights.erase hash).keys = []) :
      StepCases cfg s (.reply hash request true)
        { s with
          outstanding := s.outstanding.erase (hash, request)
          acknowledged := s.acknowledged ++ [request]
          totalShippedSize := s.totalShippedSize + cfg.wireSize request
          inflights := s.inflights.erase hash
          callbacks := s.callbacks ++ [s.totalShippedSize + cfg.wireSize request] }
  | sent {hash : UInt64} {request : Request P} {queue : List (Request P)}
      (hmem : hash ∈ s.scheduled) (hlookup : s.inflights.lookup hash = some (request :: queue)) :
      StepCases cfg s (.runScheduled hash)
        { s with
          scheduled := s.scheduled.erase hash
          inflights := s.inflights.insert hash queue
          outstanding := s.outstanding ++ [(hash, request)] }

theorem step_cases {s t : State P} (h : step cfg s e = some t) : StepCases cfg s e t := by
  cases e with
  | reply hash request ok =>
    obtain ⟨hmem, h⟩ := ite_none_right_eq_some.mp h
    cases some.inj h
    cases ok with
    | false => exact StepCases.retry hmem
    | true =>
      by_cases hqueue : queue s.inflights hash = []
      · by_cases hkeys : (s.inflights.erase hash).keys = []
        · simp only [onDuplicateReply, if_true, hqueue, hkeys]
          exact StepCases.finish hmem hqueue hkeys
        · simp only [onDuplicateReply, if_true, hqueue, hkeys, if_false]
          exact StepCases.close hmem hqueue hkeys
      · simp only [onDuplicateReply, if_true, hqueue, if_false]
        exact StepCases.next hmem hqueue
  | fatal hash request => cases h
  | runScheduled hash =>
    obtain ⟨hmem, h⟩ := ite_none_right_eq_some.mp h
    obtain ⟨request, queue, hlookup, rfl⟩ := send_eq_some_iff.mp h
    exact StepCases.sent hmem hlookup

/-! ### Steps and runs -/

section Delivering

variable {requests : List (Request P)} {s : State P}

variable {hash : UInt64} {request : Request P}

variable (hmem : (hash, request) ∈ s.outstanding)
include hmem

theorem outstanding_perm :
    s.outstanding ~ (hash, request) :: s.outstanding.erase (hash, request) :=
  perm_cons_erase hmem

variable (h : Delivering requests s)
include h

theorem Delivering.tokens_erase :
    (s.outstanding.erase (hash, request)).map fst ++ s.scheduled ~
      s.inflights.keys.erase hash := by
  have hcons : hash :: ((s.outstanding.erase (hash, request)).map fst ++ s.scheduled) ~
      s.inflights.keys :=
    (((outstanding_perm hmem).map fst).append_right s.scheduled).symm.trans h.tokens
  simpa using hcons.erase hash

theorem Delivering.not_scheduled : hash ∉ s.scheduled := by
  intro hsched
  have hnodup : (s.inflights.keys.erase hash).Nodup := s.inflights.keys_nodup.erase hash
  have hmem' : hash ∈ s.inflights.keys.erase hash :=
    (h.tokens_erase hmem).subset (mem_append_right _ hsched)
  exact s.inflights.keys_nodup.not_mem_erase hmem'

omit h in
theorem snd_outstanding_perm (bag : List (Request P)) :
    s.outstanding.map snd ++ bag ~
      request :: ((s.outstanding.erase (hash, request)).map snd ++ bag) :=
  ((outstanding_perm hmem).map snd).append_right bag

theorem Delivering.retry :
    Delivering requests
      { s with
        outstanding := s.outstanding.erase (hash, request)
        inflights := s.inflights.insert hash (request :: queue s.inflights hash)
        scheduled := s.scheduled ++ [hash] } where
  tokens := by
    rw [AList.keys_insert, ← append_assoc]
    exact (perm_append_singleton _ _).trans ((h.tokens_erase hmem).cons hash)
  queued := by
    intro hash' hsched
    by_cases heq : hash' = hash
    · subst heq
      simp [queue_insert]
    · rw [queue_insert_of_ne _ heq]
      exact h.queued hash' (by simpa [heq] using hsched)
  conserved := by
    refine (waiting_insert_perm ?_).symm.trans h.conserved
    simpa using (snd_outstanding_perm hmem s.acknowledged).append_left
      (queue s.inflights hash) |>.trans perm_middle
  called := by
    rw [if_neg (keys_insert_ne_nil _ _ _), h.callbacks_eq_nil (h.mem_keys hmem)]
    rfl

theorem Delivering.next (hqueue : queue s.inflights hash ≠ []) (size : Nat) :
    Delivering requests
      { s with
        outstanding := s.outstanding.erase (hash, request)
        acknowledged := s.acknowledged ++ [request]
        totalShippedSize := size
        scheduled := s.scheduled ++ [hash] } where
  tokens := by
    rw [← append_assoc]
    exact ((perm_append_singleton _ _).trans ((h.tokens_erase hmem).cons hash)).trans
      (perm_cons_erase (h.mem_keys hmem)).symm
  queued := by exact forall_mem_concat h.queued hqueue
  conserved := by
    refine List.Perm.trans (List.Perm.append_left _ ?_) h.conserved
    rw [← append_assoc]
    exact (perm_append_singleton _ _).trans (snd_outstanding_perm hmem s.acknowledged).symm
  called := h.called

/-- A queue that is done: its last request is acknowledged and its entry erased. -/
theorem Delivering.closed (hqueue : queue s.inflights hash = []) (size : Nat)
    {callbacks : List Nat}
    (hcalled : callbacks.length = if (s.inflights.erase hash).keys = [] then 1 else 0) :
    Delivering requests
      { s with
        outstanding := s.outstanding.erase (hash, request)
        acknowledged := s.acknowledged ++ [request]
        totalShippedSize := size
        inflights := s.inflights.erase hash
        callbacks := callbacks } where
  tokens := by
    rw [AList.keys_erase]
    exact h.tokens_erase hmem
  queued := by
    intro hash' hsched
    have hne : hash' ≠ hash := fun heq => h.not_scheduled hmem (heq ▸ hsched)
    rw [queue_erase_of_ne _ hne]
    exact h.queued hash' hsched
  conserved := by
    have hwaiting : waiting s.inflights ~ waiting (s.inflights.erase hash) := by
      simpa [hqueue] using waiting_perm s.inflights hash
    refine List.Perm.trans (List.Perm.append hwaiting.symm ?_) h.conserved
    rw [← append_assoc]
    exact (perm_append_singleton _ _).trans (snd_outstanding_perm hmem s.acknowledged).symm
  called := hcalled

end Delivering

variable {requests : List (Request P)} {s t : State P}

theorem delivering_step (hstep : step cfg s e = some t) (h : Delivering requests s) :
    Delivering requests t := by
  cases step_cases hstep with
  | retry hmem => exact h.retry hmem
  | next hmem hqueue => exact h.next hmem hqueue _
  | close hmem hqueue hkeys =>
    refine h.closed hmem hqueue _ ?_
    rw [if_neg hkeys, h.callbacks_eq_nil (h.mem_keys hmem)]
    rfl
  | finish hmem hqueue hkeys =>
    refine h.closed hmem hqueue _ ?_
    rw [if_pos hkeys, h.callbacks_eq_nil (h.mem_keys hmem)]
    rfl
  | sent hmem hlookup => exact h.sent hmem hlookup

theorem callbacks_of_step (hstep : step cfg s e = some t) (hnil : t.callbacks = []) :
    s.callbacks = [] := by
  cases step_cases hstep with
  | finish => simp at hnil
  | _ => exact hnil

/-- The work left: two units for a request that waits or is outstanding, one for a
scheduled call. -/
def workLeft (s : State P) : Nat :=
  2 * (waiting s.inflights).length + 2 * s.outstanding.length + s.scheduled.length

theorem workLeft_step (hstep : step cfg s e = some t) :
    workLeft t + 1 ≤ workLeft s + 2 * e.failures := by
  cases step_cases hstep with
  | @retry hash request hmem =>
    have hout := (outstanding_perm hmem).length_eq
    have hwait := length_waiting_insert s.inflights hash (request :: Queues.queue s.inflights hash)
    simp only [length_cons] at hout hwait
    simp only [workLeft, length_append, length_singleton, Event.failures]
    omega
  | @next hash request hmem hqueue =>
    have hout := (outstanding_perm hmem).length_eq
    simp only [length_cons] at hout
    simp only [workLeft, length_append, length_singleton, Event.failures]
    omega
  | @close hash request hmem hqueue hkeys | @finish hash request hmem hqueue hkeys =>
    have hout := (outstanding_perm hmem).length_eq
    have hwait := (waiting_perm s.inflights hash).length_eq
    simp only [length_cons, hqueue, nil_append] at hout hwait
    simp only [workLeft, Event.failures]
    omega
  | @sent hash request queue hmem hlookup =>
    have hsched := (perm_cons_erase hmem).length_eq
    have hwait := length_waiting_insert s.inflights hash queue
    have hqueue : Queues.queue s.inflights hash = request :: queue := by
      simp [Queues.queue, hlookup]
    simp only [length_cons, hqueue] at hsched hwait
    simp only [workLeft, length_append, length_singleton, Event.failures]
    omega

theorem exists_step (h : Delivering requests s) (hcalled : s.callbacks = []) :
    ∃ e t, step cfg s e = some t ∧ workLeft t < workLeft s := by
  rcases h.exists_token hcalled with ⟨hash, request, hmem⟩ | ⟨hash, hmem⟩
  · have hstep : step cfg s (.reply hash request true) =
        some (onDuplicateReply cfg s hash request true) := by simp [step, hmem]
    have hwork := workLeft_step hstep
    simp only [Event.failures] at hwork
    exact ⟨_, _, hstep, by omega⟩
  · obtain ⟨request, queue, hlookup⟩ := h.exists_front hmem
    have hstep : step cfg s (.runScheduled hash) =
        some { s with
          scheduled := s.scheduled.erase hash
          inflights := s.inflights.insert hash queue
          outstanding := s.outstanding ++ [(hash, request)] } := by
      simp only [step, hmem, if_true]
      exact send_eq_some_iff.mpr ⟨request, queue, hlookup, rfl⟩
    have hwork := workLeft_step hstep
    simp only [Event.failures] at hwork
    exact ⟨_, _, hstep, by omega⟩

/-! ### The first sends -/

omit [DecidableEq P] in
theorem foldlM_send {hashes : List UInt64} (hnodup : hashes.Nodup)
    (hqueues : ∀ hash ∈ hashes, Queues.queue s.inflights hash ≠ []) :
    ∃ t, hashes.foldlM send s = some t ∧
      t.outstanding.map fst = s.outstanding.map fst ++ hashes ∧
      t.inflights.keys ~ s.inflights.keys ∧
      waiting t.inflights ++ (t.outstanding.map snd ++ t.acknowledged) ~
        waiting s.inflights ++ (s.outstanding.map snd ++ s.acknowledged) ∧
      t.scheduled = s.scheduled ∧ t.callbacks = s.callbacks := by
  induction hashes generalizing s with
  | nil => exact ⟨s, rfl, by simp, List.Perm.refl _, List.Perm.refl _, rfl, rfl⟩
  | cons hash hashes ih =>
    obtain ⟨hfresh, hnodup⟩ := nodup_cons.mp hnodup
    have hqueue := hqueues hash mem_cons_self
    obtain ⟨request, queue, hq⟩ := exists_cons_of_ne_nil hqueue
    have hlookup : s.inflights.lookup hash = some (request :: queue) := by
      cases hl : s.inflights.lookup hash with
      | none => simp [Queues.queue, hl] at hq
      | some q => simpa [Queues.queue, hl] using hq
    have hsend := send_eq_some_iff.mpr ⟨request, queue, hlookup, rfl⟩
    obtain ⟨t, ht, hfst, hkeys, hconserved, hsched, hcalled⟩ :=
      ih (s := { s with
        inflights := s.inflights.insert hash queue
        outstanding := s.outstanding ++ [(hash, request)] }) hnodup (by
          intro hash' hmem
          have hne : hash' ≠ hash := fun heq => hfresh (heq ▸ hmem)
          rw [queue_insert_of_ne _ hne]
          exact hqueues hash' (mem_cons_of_mem _ hmem))
    refine ⟨t, ?_, by simp [hfst], ?_, ?_, hsched, hcalled⟩
    · rw [foldlM_cons, hsend]
      exact ht
    · exact hkeys.trans (keys_insert_perm (mem_keys_of_queue_ne_nil hqueue) queue)
    · refine hconserved.trans (waiting_insert_perm ?_).symm
      have hmove : request :: ((queue ++ s.outstanding.map snd) ++ s.acknowledged) ~
          (queue ++ s.outstanding.map snd) ++ request :: s.acknowledged :=
        perm_middle.symm
      simpa [hq] using hmove

omit [DecidableEq P] in
theorem duplicate_delivering (cfg : Config P) (muts : List (MutationTuple P)) :
    ∃ s, duplicate cfg muts = some s ∧ Delivering (waiting (pack cfg muts).inflights) s := by
  unfold duplicate
  by_cases hkeys : (pack cfg muts).inflights.keys = []
  · refine ⟨_, by simp only [hkeys, if_true]; rfl, ?_⟩
    exact
      { tokens := by simp [hkeys]
        queued := by simp
        conserved := by simp
        called := by simp [hkeys] }
  · obtain ⟨t, ht, hfst, htkeys, hconserved, hsched, hcalled⟩ :=
      foldlM_send (s := { inflights := (pack cfg muts).inflights })
        (pack cfg muts).inflights.keys_nodup (pack_queues cfg muts)
    refine ⟨t, by simp only [hkeys, if_false]; exact ht, ?_⟩
    have hne : t.inflights.keys ≠ [] := fun hnil => hkeys (by simpa [hnil] using htkeys.symm)
    exact
      { tokens := by simpa [hfst, hsched] using htkeys.symm
        queued := by simp [hsched]
        conserved := by simpa using hconserved
        called := by simp [hne, hcalled] }

/-! ### Exactly when nothing is dropped -/

/-- Nothing of a set is dropped. Whatever happens after `duplicate`: the callback is called
at most once; when it is called, the acknowledged requests contain the entry of every
mutation that is not ignored, each exactly once; when nothing more can happen, it has been
called; and only failures can prolong a run. -/
def NothingDropped (cfg : Config P) (muts : List (MutationTuple P)) : Prop :=
  ∃ s, duplicate cfg muts = some s ∧ ∀ es t, run (step cfg) s es = some t →
    t.callbacks.length ≤ 1 ∧
    (t.callbacks ≠ [] → t.acknowledged.flatten ~ shippable cfg muts) ∧
    (Quiescent (step cfg) t → t.callbacks.length = 1) ∧
    es.length ≤ workLeft s + (es.map fun e => 2 * e.failures).sum

/-- **Run lemma.** What holds of every run from `duplicate`, whatever was queued. -/
theorem delivering_run {es : List (Event P)} (hrun : run (step cfg) s es = some t)
    (h : Delivering requests s) : Delivering requests t :=
  run_invariant (fun _ _ _ => delivering_step) hrun h

/-- **Requests are conserved**: whatever replies come and fail, every packed request waits, is
outstanding or has been acknowledged, each once, and no hash has two outstanding requests. -/
theorem requests_are_conserved (cfg : Config P) (muts : List (MutationTuple P)) :
    ∃ s, duplicate cfg muts = some s ∧ ∀ es t, run (step cfg) s es = some t →
      waiting t.inflights ++ (t.outstanding.map Prod.snd ++ t.acknowledged) ~
          waiting (pack cfg muts).inflights ∧ (t.outstanding.map Prod.fst).Nodup := by
  obtain ⟨s, hs, hdelivering⟩ := duplicate_delivering cfg muts
  refine ⟨s, hs, fun es t hrun => ?_⟩
  have ht := delivering_run hrun hdelivering
  exact ⟨ht.conserved, ht.outstanding_nodup⟩

/-- **Exactly when nothing is dropped.** -/
theorem nothingDropped_iff (cfg : Config P) (muts : List (MutationTuple P)) :
    NothingDropped cfg muts ↔ ClosesLastBatch cfg muts := by
  obtain ⟨s, hs, hdelivering⟩ := duplicate_delivering cfg muts
  have hentries := pack_entries cfg muts
  rw [← pack_closed_iff]
  constructor
  · rintro ⟨s', hs', hruns⟩
    cases mem_unique hs hs'
    -- let every request succeed, and compare what was acknowledged with what was packed
    have hreach : ∃ es t, run (step cfg) s es = some t ∧ t.callbacks ≠ [] := by
      refine exists_run_until workLeft (fun _ _ _ => delivering_step) ?_
        hdelivering
      intro u hu
      by_cases hcalled : u.callbacks = []
      · exact Or.inr (exists_step hu hcalled)
      · exact Or.inl hcalled
    obtain ⟨es, t, hrun, hcalled⟩ := hreach
    have hacked := ((delivering_run hrun hdelivering).acknowledged_perm hcalled).flatten
    have hall := (hruns es t hrun).2.1 hcalled
    have hlen := (hacked.symm.trans (hall.trans hentries.symm)).length_eq
    rw [length_append] at hlen
    exact length_eq_zero_iff.mp (by omega)
  · intro hclosed
    rw [hclosed, append_nil] at hentries
    refine ⟨s, hs, fun es t hrun => ?_⟩
    have ht := delivering_run hrun hdelivering
    refine ⟨?_, ?_, ?_, ?_⟩
    · rw [ht.called]
      split <;> omega
    · intro hcalled
      exact (ht.acknowledged_perm hcalled).flatten.trans hentries
    · intro hquiet
      by_contra hcount
      have hnil : t.callbacks = [] := by
        have hcalled := ht.called
        split at hcalled
        · exact absurd hcalled hcount
        · exact length_eq_zero_iff.mp hcalled
      have hnext : ∃ e u, step cfg t e = some u ∧ workLeft u < workLeft t := exists_step ht hnil
      obtain ⟨e, u, hstep, -⟩ := hnext
      rw [hquiet e] at hstep
      cases hstep
    · have hlen := run_length_le (fun _ _ _ => delivering_step)
        (fun _ _ _ hstep _ => workLeft_step hstep) hrun hdelivering
      omega

/-! ### The progress of the pipeline -/

/-- The stage `ship_mutation` of the pipeline: the duplicator, the decree of the set it
ships, and the progress of the duplication. What was acknowledged and what was shipped
before is kept for the proofs. -/
structure ShipMutation (P : Type) where
  sender : State P := { inflights := ∅, callbacks := [0] }
  lastDecree : Int := invalidDecree
  progress : Progress
  acknowledged : List (Request P) := []
  shipped : List (Int × List (MutationTuple P)) := []

/-- The stage is given a set, its duplicator takes a step, or the meta server answers with
the decree it has confirmed. -/
inductive ShipEvent (P : Type) where
  | run (lastDecree : Int) (muts : List (MutationTuple P))
  | duplicator (e : Event P)
  | confirm (confirmed : Int)

namespace ShipMutation

/-- A call of `replica_duplicator::update_progress`; its callers check that it succeeds. The
flag of the checkpoint, which nothing reads here, is kept. -/
def report (s : ShipMutation P) (confirmed last : Int) : Option (ShipMutation P) :=
  match s.progress.update confirmed last s.progress.checkpointHasPrepared with
  | (.ok _, progress) => some { s with progress := progress }
  | (.error _, _) => none

/-- `ship_mutation::update_progress`, from the callback of `duplicate`. -/
def updateProgress (s : ShipMutation P) : Option (ShipMutation P) :=
  if s.sender.callbacks = [] then some s else s.report invalidDecree s.lastDecree

/-- `ship_mutation::run`, the events of its duplicator, and the confirmations. The next set
comes after the callback; an empty one reports its decree at once, as `duplicate` does when
it has no requests. -/
def step (cfg : Config P) (s : ShipMutation P) : ShipEvent P → Option (ShipMutation P)
  | .run lastDecree muts =>
    if s.sender.callbacks = [] then none
    else
      (duplicate cfg muts).bind fun sender =>
        updateProgress
          { s with
            sender := sender
            lastDecree := lastDecree
            acknowledged := s.acknowledged ++ s.sender.acknowledged
            shipped := s.shipped ++ [(lastDecree, muts)] }
  | .duplicator e =>
    (Duplication.step cfg s.sender e).bind fun sender => updateProgress { s with sender := sender }
  | .confirm confirmed => s.report confirmed s.progress.lastDecree

/-- The sets go up in their decrees, and each closes its last batch. -/
def Closes (cfg : Config P) (s : ShipMutation P) : ShipEvent P → Prop
  | .run lastDecree muts => s.progress.lastDecree < lastDecree ∧ ClosesLastBatch cfg muts
  | _ => True

/-- The confirmed decree does not pass the last one, and that passes no write that was not
acknowledged. -/
def Confirmed (cfg : Config P) (s : ShipMutation P) : Prop :=
  s.progress.confirmedDecree ≤ s.progress.lastDecree ∧
    ∀ x ∈ s.shipped, x.1 ≤ s.progress.lastDecree →
      shippable cfg x.2 ⊆ (s.acknowledged ++ s.sender.acknowledged).flatten

/-- All sets but the last are acknowledged; the last one is being delivered, and its decree
is ahead of the progress until the callback. -/
structure Sound (cfg : Config P) (s : ShipMutation P) : Prop where
  delivering : ∃ muts requests, Delivering requests s.sender ∧
    requests.flatten ~ shippable cfg muts ∧ ∀ x ∈ s.shipped,
      x = (s.lastDecree, muts) ∨ shippable cfg x.2 ⊆ s.acknowledged.flatten
  ahead : s.sender.callbacks = [] → s.progress.lastDecree < s.lastDecree
  confirmed_le : s.progress.confirmedDecree ≤ s.progress.lastDecree

variable {cfg : Config P} {s t : ShipMutation P}

omit [DecidableEq P] in
theorem Sound.shipped_subset (h : Sound cfg s) (hcalled : s.sender.callbacks ≠ []) {x}
    (hx : x ∈ s.shipped) :
    shippable cfg x.2 ⊆ (s.acknowledged ++ s.sender.acknowledged).flatten := by
  obtain ⟨muts, requests, hdelivering, hperm, hshipped⟩ := h.delivering
  rw [flatten_append]
  rcases hshipped x hx with rfl | hold
  · have hacked := (hdelivering.acknowledged_perm hcalled).flatten.trans hperm
    exact fun entry hentry => mem_append_right _ (hacked.symm.subset hentry)
  · exact fun entry hentry => mem_append_left _ (hold hentry)

omit [DecidableEq P] in
theorem Sound.confirmed (h : Sound cfg s) : Confirmed cfg s := by
  refine ⟨h.confirmed_le, fun x hx hle => ?_⟩
  by_cases hcalled : s.sender.callbacks = []
  · obtain ⟨muts, requests, -, -, hshipped⟩ := h.delivering
    rw [flatten_append]
    rcases hshipped x hx with rfl | hold
    · exact absurd (h.ahead hcalled) (not_lt.mpr hle)
    · exact fun entry hentry => mem_append_left _ (hold hentry)
  · exact h.shipped_subset hcalled hx

omit [DecidableEq P] in
/-- A report moves the last decree to the reported one, which may be that of the set only
after its callback. -/
theorem Sound.report (h : Sound cfg s) {confirmed last : Int}
    (hlast : s.sender.callbacks = [] → last < s.lastDecree)
    (hreport : s.report confirmed last = some t) : Sound cfg t := by
  unfold ShipMutation.report at hreport
  split at hreport
  · rename_i hupdate
    cases hreport
    obtain ⟨hle, hmax⟩ := Progress.of_update_ok hupdate
    exact ⟨h.delivering, fun hnil => hmax ▸ max_lt (h.ahead hnil) (hlast hnil), hle⟩
  · cases hreport

omit [DecidableEq P] in
theorem Sound.updateProgress (hupdate : s.updateProgress = some t) (h : Sound cfg s) :
    Sound cfg t := by
  unfold ShipMutation.updateProgress at hupdate
  split at hupdate
  · cases hupdate
    exact h
  · rename_i hcalled
    exact h.report (fun hnil => absurd hnil hcalled) hupdate

theorem Sound.step {e : ShipEvent P} (hstep : step cfg s e = some t) (hcloses : Closes cfg s e)
    (h : Sound cfg s) : Sound cfg t := by
  cases e with
  | run lastDecree muts =>
    obtain ⟨hcalled, hstep⟩ := ite_none_left_eq_some.mp hstep
    obtain ⟨sender, hsender, hupdate⟩ := bind_eq_some_iff.mp hstep
    obtain ⟨sender', hsender', hdelivering⟩ := duplicate_delivering cfg muts
    cases mem_unique hsender hsender'
    refine Sound.updateProgress hupdate
      ⟨⟨muts, _, hdelivering, ?_, ?_⟩, fun _ => hcloses.1, h.confirmed_le⟩
    · have hentries := pack_entries cfg muts
      rwa [(pack_closed_iff cfg muts).mpr hcloses.2, append_nil] at hentries
    · exact forall_mem_concat (fun x hx => .inr (h.shipped_subset hcalled hx)) (.inl rfl)
  | duplicator e =>
    obtain ⟨sender, hsender, hupdate⟩ := bind_eq_some_iff.mp hstep
    obtain ⟨muts, requests, hdelivering, hrest⟩ := h.delivering
    have hnext := delivering_step hsender hdelivering
    exact Sound.updateProgress hupdate ⟨⟨muts, requests, hnext, hrest⟩,
      fun hnil => h.ahead (callbacks_of_step hsender hnil), h.confirmed_le⟩
  | confirm confirmed => exact h.report h.ahead hstep

end ShipMutation

/-- **Nothing is dropped** exactly when the set closes its last batch, and then the progress
never passes a write that was not acknowledged. -/
theorem nothing_is_dropped (cfg : Config P) :
    (∀ muts, NothingDropped cfg muts ↔ ClosesLastBatch cfg muts) ∧
      ∀ (progress : Progress) es t, progress.confirmedDecree ≤ progress.lastDecree →
        run (ShipMutation.step cfg) { progress } es = some t →
        StepsMeet (ShipMutation.step cfg) (ShipMutation.Closes cfg) { progress } es →
          t.Confirmed cfg := by
  refine ⟨nothingDropped_iff cfg, fun progress es t hle hrun hcloses => ?_⟩
  have hinitial : ShipMutation.Sound cfg { progress } := by
    obtain ⟨s, hs, hdelivering⟩ := duplicate_delivering cfg []
    cases hs
    exact ⟨⟨[], _, hdelivering, .refl _, by simp⟩, by simp, hle⟩
  exact (run_invariant_of_steps (fun _ _ _ => .step) hrun hcloses hinitial).confirmed

end

/-- A put of ten bytes, and a write that was itself duplicated from another cluster. -/
def putThenDuplicate : List (MutationTuple Nat) :=
  [{ timestamp := 1, code := .put, address := 0, message := 10 },
    { timestamp := 2, code := .duplicate, address := 1, message := 10 }]

def defaultConfig : Config Nat where
  size := id
  hash := fun _ _ => 0
  clusterId := 1
  wireSize := fun request => (request.map (·.rawMessage)).sum

/-- A put alone: its decree is reported with the acknowledgement, and then confirmed. -/
def shipsPut : List (ShipEvent Nat) :=
  [.run 5 (putThenDuplicate.take 1),
    .duplicator (.reply 0 (shippable defaultConfig putThenDuplicate) true), .confirm 5]

theorem nothing_is_dropped_put :
    (run (ShipMutation.step defaultConfig) { progress := {} } shipsPut).any
      (fun t => t.progress.confirmedDecree = 5 ∧ t.acknowledged ++ t.sender.acknowledged ≠ []) ∧
    ∀ t, run (ShipMutation.step defaultConfig) { progress := {} } shipsPut = some t →
      t.Confirmed defaultConfig :=
  ⟨by decide, fun t hrun => (nothing_is_dropped defaultConfig).2 {} _ t (by decide) hrun
    ⟨⟨by decide, .inl ⟨_, rfl, rfl⟩⟩,
      fun _ _ => ⟨trivial, fun _ _ => ⟨trivial, fun _ _ => trivial⟩⟩⟩⟩

/-- **The last batch is dropped.** The callback is called at once, with nothing sent. -/
theorem last_batch_dropped :
    duplicate defaultConfig putThenDuplicate =
        some { inflights := (pack defaultConfig putThenDuplicate).inflights, callbacks := [0] } ∧
      (shippable defaultConfig putThenDuplicate).length = 1 ∧
        ¬ NothingDropped defaultConfig putThenDuplicate := by
  have hstart : duplicate defaultConfig putThenDuplicate =
      some { inflights := (pack defaultConfig putThenDuplicate).inflights, callbacks := [0] } := rfl
  refine ⟨hstart, rfl, ?_⟩
  rintro ⟨s, hs, hruns⟩
  cases mem_unique hstart hs
  have hall := (hruns [] _ rfl).2.1 (by simp)
  exact absurd hall.length_eq (by decide)

end Pegasus.Duplication
