/-
Sets of mutations to ship (`Pegasus.Duplication.TupleSet`), after `mutation_batch.cpp`
(`add_mutation_if_valid`) and `mutation_duplicator.h` (`mutation_tuple_cmp`).

A batch of the log becomes a `mutation_tuple_set`: a set ordered by timestamp and, among
equal timestamps, by the address of the payload. `duplicate` then cuts the set into
requests in this order.

* `loadSet_perm`, `loadSet_sorted`: a set holds the valid writes of its mutations, in the
  order of the comparison.
* `queue_pack`: the requests that `duplicate` queues are the batches of the set, each
  under the hash of its last mutation.
-/

import Pegasus.Duplication.Shipping
import Pegasus.Replica.Mutation

namespace Pegasus.Duplication

open List
open scoped List
open Pegasus.Replica (Mutation MutationUpdate)

open Queues

section Load

variable {P W : Type}

/-! ### Loading a set -/

def mutationTupleCmp (lhs rhs : MutationTuple P) : Bool :=
  if lhs.timestamp = rhs.timestamp then decide (lhs.address < rhs.address)
  else decide (lhs.timestamp < rhs.timestamp)

/-- `mutation_tuple_set::emplace`: an equivalent element is kept. -/
def emplace (set : List (MutationTuple P)) (t : MutationTuple P) : List (MutationTuple P) :=
  match set with
  | [] => [t]
  | x :: set =>
    if mutationTupleCmp t x then t :: x :: set
    else if mutationTupleCmp x t then x :: emplace set t
    else x :: set

/-- The tuple of one update, if it is valid: empty writes and writes that are not idempotent
are ignored. Only an empty write has no payload. -/
def tupleOf (address : P → Nat) (timestamp : Int) (update : MutationUpdate P) :
    Option (MutationTuple P) :=
  if update.code = .writeEmpty then none
  else if hidempotent : update.code.isIdempotent = true then
    update.data.map fun data =>
      { timestamp := timestamp.toNat
        code := update.code
        address := address data
        message := data
        idempotent := hidempotent }
  else none

def addMutationIfValid (address : P → Nat) (startDecree : Int) (set : List (MutationTuple P))
    (mu : Mutation P W) : List (MutationTuple P) :=
  if mu.header.decree < startDecree then set
  else
    mu.updates.foldl
      (fun set update =>
        match tupleOf address mu.header.timestamp update with
        | some t => emplace set t
        | none => set)
      set

def loadSet (address : P → Nat) (startDecree : Int) (mutations : List (Mutation P W)) :
    List (MutationTuple P) :=
  mutations.foldl (addMutationIfValid address startDecree) []

def tuplesOf (address : P → Nat) (mutations : List (Mutation P W)) : List (MutationTuple P) :=
  mutations.flatMap fun mu => mu.updates.filterMap (tupleOf address mu.header.timestamp)

variable {a b : MutationTuple P} {set : List (MutationTuple P)} {t : MutationTuple P}
  {address : P → Nat} {startDecree : Int} {mutations : List (Mutation P W)}

theorem mutationTupleCmp_iff :
    mutationTupleCmp a b = true ↔
      a.timestamp < b.timestamp ∨ a.timestamp = b.timestamp ∧ a.address < b.address := by
  unfold mutationTupleCmp
  split
  · rename_i heq
    simp [heq]
  · rename_i hne
    simp [hne]

theorem mutationTupleCmp_trans {c : MutationTuple P} (hab : mutationTupleCmp a b = true)
    (hbc : mutationTupleCmp b c = true) : mutationTupleCmp a c = true := by
  rw [mutationTupleCmp_iff] at *
  omega

theorem mutationTupleCmp_asymm (hab : mutationTupleCmp a b = true) :
    mutationTupleCmp b a ≠ true := by
  intro hba
  rw [mutationTupleCmp_iff] at hab hba
  omega

theorem mem_of_mem_emplace {x : MutationTuple P} (h : x ∈ emplace set t) : x = t ∨ x ∈ set := by
  induction set with
  | nil => exact Or.inl (mem_singleton.mp h)
  | cons y set ih =>
    unfold emplace at h
    split at h
    · exact mem_cons.mp h
    · split at h
      · rcases mem_cons.mp h with rfl | hmem
        · exact Or.inr mem_cons_self
        · exact (ih hmem).imp_right (mem_cons_of_mem _)
      · exact Or.inr h

theorem emplace_sorted (h : set.Pairwise fun a b => mutationTupleCmp a b = true) :
    (emplace set t).Pairwise fun a b => mutationTupleCmp a b = true := by
  induction set with
  | nil => exact pairwise_singleton _ _
  | cons y set ih =>
    obtain ⟨hy, hset⟩ := pairwise_cons.mp h
    unfold emplace
    split
    · rename_i hty
      refine pairwise_cons.mpr ⟨fun x hx => ?_, h⟩
      rcases mem_cons.mp hx with rfl | hmem
      · exact hty
      · exact mutationTupleCmp_trans hty (hy x hmem)
    · split
      · rename_i hyt
        refine pairwise_cons.mpr ⟨fun x hx => ?_, ih hset⟩
        rcases mem_of_mem_emplace hx with rfl | hmem
        · exact hyt
        · exact hy x hmem
      · exact h

/-- Payloads that live at different addresses are never equivalent. -/
theorem emplace_perm (h : ∀ x ∈ set, x.address ≠ t.address) : emplace set t ~ t :: set := by
  induction set with
  | nil => exact List.Perm.refl _
  | cons y set ih =>
    unfold emplace
    split
    · exact List.Perm.refl _
    · rename_i hty
      split
      · exact ((ih fun x hx => h x (mem_cons_of_mem _ hx)).cons y).trans (List.Perm.swap t y set)
      · rename_i hyt
        have haddress := h y mem_cons_self
        rw [mutationTupleCmp_iff] at hty hyt
        omega

theorem foldl_emplace_sorted (tuples : List (MutationTuple P))
    (h : set.Pairwise fun a b => mutationTupleCmp a b = true) :
    (tuples.foldl emplace set).Pairwise fun a b => mutationTupleCmp a b = true := by
  induction tuples generalizing set with
  | nil => exact h
  | cons t tuples ih => exact ih (emplace_sorted h)

theorem foldl_emplace_perm {tuples : List (MutationTuple P)}
    (h : ((set ++ tuples).map (·.address)).Nodup) :
    tuples.foldl emplace set ~ set ++ tuples := by
  induction tuples generalizing set with
  | nil => simp
  | cons t tuples ih =>
    have hdisjoint : ∀ x ∈ set, x.address ≠ t.address := by
      intro x hx heq
      rw [map_append, map_cons] at h
      exact (nodup_append.mp h).2.2 x.address (mem_map_of_mem hx) t.address mem_cons_self heq
    have hone : emplace set t ~ set ++ [t] :=
      (emplace_perm hdisjoint).trans (perm_append_singleton t set).symm
    have hrest : emplace set t ++ tuples ~ set ++ t :: tuples := by
      simpa using hone.append_right tuples
    have hnodup : ((emplace set t ++ tuples).map (·.address)).Nodup := (hrest.map _).nodup_iff.mpr h
    exact (ih hnodup).trans hrest

theorem foldl_updates_eq (address : P → Nat) (timestamp : Int) (updates : List (MutationUpdate P))
    (set : List (MutationTuple P)) :
    updates.foldl
        (fun set update =>
          match tupleOf address timestamp update with
          | some t => emplace set t
          | none => set)
        set =
      (updates.filterMap (tupleOf address timestamp)).foldl emplace set := by
  induction updates generalizing set with
  | nil => rfl
  | cons update updates ih =>
    rw [foldl_cons, ih]
    cases htuple : tupleOf address timestamp update with
    | none => rw [filterMap_cons_none htuple]
    | some t => rw [filterMap_cons_some htuple, foldl_cons]

variable (h : ∀ mu ∈ mutations, startDecree ≤ mu.header.decree)
include h

theorem foldl_addMutationIfValid (set : List (MutationTuple P)) :
    mutations.foldl (addMutationIfValid address startDecree) set =
      (tuplesOf address mutations).foldl emplace set := by
  induction mutations generalizing set with
  | nil => rfl
  | cons mu mutations ih =>
    have hmu : ¬ mu.header.decree < startDecree := by
      have := h mu mem_cons_self
      omega
    rw [foldl_cons, ih fun mu' hmu' => h mu' (mem_cons_of_mem _ hmu'),
      addMutationIfValid, if_neg hmu, foldl_updates_eq, ← foldl_append]
    rfl

/-- **A set holds the valid writes of its mutations.** -/
theorem loadSet_perm (hnodup : ((tuplesOf address mutations).map (·.address)).Nodup) :
    loadSet address startDecree mutations ~ tuplesOf address mutations := by
  rw [loadSet, foldl_addMutationIfValid h]
  have hperm : (tuplesOf address mutations).foldl emplace [] ~ [] ++ tuplesOf address mutations :=
    foldl_emplace_perm (by simpa using hnodup)
  simpa using hperm

/-- **A set is ordered by timestamp and address.** -/
theorem loadSet_sorted :
    (loadSet address startDecree mutations).Pairwise fun a b => mutationTupleCmp a b = true := by
  rw [loadSet, foldl_addMutationIfValid h]
  exact foldl_emplace_sorted _ List.Pairwise.nil

end Load

/-! ### The batches of a set -/

section Batches

variable {P : Type}

/-- The consecutive batches of a set, after the open batch `current`: a batch ends when it
reaches the limit, and with the set. -/
def batchesFrom (cfg : Config P) :
    List (MutationTuple P) → List (MutationTuple P) → List (List (MutationTuple P))
  | [], [] => []
  | m :: current, [] => [m :: current]
  | current, m :: muts =>
    if cfg.batchLimit ≤ batchBytes ((current ++ [m]).map fun m => cfg.size m.message) then
      (current ++ [m]) :: batchesFrom cfg [] muts
    else batchesFrom cfg (current ++ [m]) muts

def batches (cfg : Config P) (muts : List (MutationTuple P)) : List (List (MutationTuple P)) :=
  batchesFrom cfg [] muts

/-- The hash under which a batch is queued: that of its last mutation. -/
def batchHash (cfg : Config P) (batch : List (MutationTuple P)) : Option UInt64 :=
  batch.getLast?.map fun m => cfg.hash m.code m.message

variable {cfg : Config P}

variable {current muts : List (MutationTuple P)} {total : Nat} {p : Packing P}

theorem batchesFrom_nil (h : current ≠ []) : batchesFrom cfg current [] = [current] := by
  cases current with
  | nil => exact absurd rfl h
  | cons m current => rfl

theorem batchesFrom_cons (cfg : Config P) (current : List (MutationTuple P)) (m : MutationTuple P)
    (muts : List (MutationTuple P)) :
    batchesFrom cfg current (m :: muts) =
      if cfg.batchLimit ≤ batchBytes ((current ++ [m]).map fun m => cfg.size m.message) then
        (current ++ [m]) :: batchesFrom cfg [] muts
      else
        batchesFrom cfg (current ++ [m]) muts := by
  cases current <;> rfl

theorem flatten_batchesFrom (cfg : Config P) (current muts : List (MutationTuple P)) :
    (batchesFrom cfg current muts).flatten = current ++ muts := by
  induction muts generalizing current with
  | nil =>
    cases current with
    | nil => rfl
    | cons m current => simp [batchesFrom]
  | cons m muts ih =>
    rw [batchesFrom_cons]
    split
    · simp [ih]
    · simp [ih]

theorem flatten_batches (cfg : Config P) (muts : List (MutationTuple P)) :
    (batches cfg muts).flatten = muts := flatten_batchesFrom cfg [] muts

theorem batchesFrom_ne_nil : ∀ batch ∈ batchesFrom cfg current muts, batch ≠ [] := by
  induction muts generalizing current with
  | nil =>
    intro batch hbatch
    cases current with
    | nil => simp [batchesFrom] at hbatch
    | cons m current =>
      rw [mem_singleton.mp hbatch]
      simp
  | cons m muts ih =>
    intro batch hbatch
    rw [batchesFrom_cons] at hbatch
    split at hbatch
    · rcases mem_cons.mp hbatch with rfl | hmem
      · simp
      · exact ih batch hmem
    · exact ih batch hbatch

/-- The requests of the batches that are queued under a hash. -/
def requestsUnder (cfg : Config P) (hash : UInt64) (bs : List (List (MutationTuple P))) :
    List (Request P) :=
  (bs.filter fun batch => batchHash cfg batch = some hash).map fun batch => batch.map (entryOf cfg)

theorem queue_pushBack (inflights : Inflights P) (hash hash' : UInt64) (request : Request P) :
    queue (pushBack inflights hash request) hash' =
      queue inflights hash' ++ if hash = hash' then [request] else [] := by
  by_cases heq : hash = hash'
  · subst heq
    simp [pushBack, queue_insert]
  · simp [pushBack, queue_insert_of_ne _ (Ne.symm heq), heq]

theorem requestsUnder_cons (hash : UInt64) (current : List (MutationTuple P))
    (m : MutationTuple P) (bs : List (List (MutationTuple P))) :
    requestsUnder cfg hash ((current ++ [m]) :: bs) =
      (if cfg.hash m.code m.message = hash then [(current ++ [m]).map (entryOf cfg)] else []) ++
        requestsUnder cfg hash bs := by
  by_cases heq : cfg.hash m.code m.message = hash
  · simp [requestsUnder, batchHash, heq]
  · simp [requestsUnder, batchHash, heq]

theorem foldl_packOne_queue (hcodes : ∀ m ∈ muts, ignoredRpcCode m.code = false)
    (hrequest : p.batchRequest = current.map (entryOf cfg))
    (hbytes : p.batchBytes = batchBytes (current.map fun m => cfg.size m.message))
    (htotal : p.batchCount + muts.length = total) (hopen : muts = [] → current = [])
    (hash : UInt64) :
    queue (muts.foldl (packOne cfg total) p).inflights hash =
      queue p.inflights hash ++ requestsUnder cfg hash (batchesFrom cfg current muts) := by
  induction muts generalizing current p with
  | nil =>
    rw [hopen rfl]
    simp [batchesFrom, requestsUnder]
  | cons m muts ih =>
    have hcode := hcodes m mem_cons_self
    have hcodes' : ∀ m' ∈ muts, ignoredRpcCode m'.code = false :=
      fun m' hm' => hcodes m' (mem_cons_of_mem _ hm')
    have hsum : (p.batchBytes + cfg.size m.message) % 2 ^ 32 =
        batchBytes ((current ++ [m]).map fun m => cfg.size m.message) := by
      simp [hbytes, batchBytes]
    have hbatch : p.batchRequest ++ [entryOf cfg m] = (current ++ [m]).map (entryOf cfg) := by
      simp [hrequest]
    rw [length_cons] at htotal
    rw [foldl_cons, batchesFrom_cons, packOne_of_not_ignored hcode, hbatch]
    by_cases hfull : cfg.batchLimit ≤ batchBytes ((current ++ [m]).map fun m => cfg.size m.message)
    · rw [if_pos hfull, if_pos (.inr (hsum ▸ hfull)),
        @ih [] _ hcodes' rfl rfl (by dsimp only; omega) (fun _ => rfl), queue_pushBack,
        requestsUnder_cons, append_assoc]
    · rw [if_neg hfull]
      cases muts with
      | nil =>
        -- the last mutation closes the batch it is in
        have hlast : p.batchCount + 1 = total := by simpa using htotal
        rw [if_pos (.inl hlast), foldl_nil,
          batchesFrom_nil (by simp), queue_pushBack, requestsUnder_cons]
        simp [requestsUnder]
      | cons m' muts =>
        rw [length_cons] at htotal
        rw [if_neg (not_or.mpr ⟨by omega, hsum ▸ hfull⟩)]
        exact ih hcodes' rfl hsum (by dsimp only [length_cons]; omega) (by simp)

/-- **The queues of a set.** A set of plain writes is queued batch by batch, each under the
hash of its last mutation. -/
theorem queue_pack (hcodes : ∀ m ∈ muts, ignoredRpcCode m.code = false) (hash : UInt64) :
    queue (pack cfg muts).inflights hash = requestsUnder cfg hash (batches cfg muts) := by
  have hqueue : queue (muts.foldl (packOne cfg muts.length) {}).inflights hash =
      queue ({} : Packing P).inflights hash ++
        requestsUnder cfg hash (batchesFrom cfg [] muts) :=
    foldl_packOne_queue hcodes rfl rfl (by simp) (fun _ => rfl) hash
  simpa [pack, batches, queue] using hqueue

end Batches

end Pegasus.Duplication
