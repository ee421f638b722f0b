/-
Maps of queues (`Pegasus.Lib.Queues`): finite maps from keys to lists, seen as one
bag of waiting elements.

`waiting m` lists everything that waits in some queue of `m`. The lemmas say what
replacing and erasing one queue does to it, up to order.
-/

import Mathlib

namespace Queues

open List
open scoped List

variable {K V : Type}

def waiting (m : AList fun _ : K => List V) : List V := m.entries.flatMap fun e => e.2

@[simp] theorem waiting_empty : waiting (∅ : AList fun _ : K => List V) = [] := rfl

variable [DecidableEq K]

def queue (m : AList fun _ : K => List V) (k : K) : List V := (m.lookup k).getD []

variable {k k' : K} (m : AList fun _ : K => List V)

theorem queue_insert (k : K) (q : List V) : queue (m.insert k q) k = q := by simp [queue]

theorem queue_insert_of_ne (h : k' ≠ k) (q : List V) : queue (m.insert k q) k' = queue m k' := by
  simp [queue, AList.lookup_insert_ne h]

theorem queue_erase_of_ne (h : k' ≠ k) : queue (m.erase k) k' = queue m k' := by
  simp [queue, AList.lookup_erase_ne h]

theorem waiting_insert (k : K) (q : List V) :
    waiting (m.insert k q) = q ++ waiting (m.erase k) := rfl

theorem waiting_perm (k : K) : waiting m ~ queue m k ++ waiting (m.erase k) := by
  cases hlookup : m.lookup k with
  | none =>
    have hmem : k ∉ m.entries.keys := by
      intro hk
      have : (m.lookup k).isSome := AList.lookup_isSome.mpr hk
      simp [hlookup] at this
    have herase : (m.erase k).entries = m.entries := kerase_of_notMem_keys hmem
    simp [queue, hlookup, waiting, herase]
  | some q =>
    have hmem : k ∈ m.entries.keys := AList.lookup_isSome.mp (by simp [hlookup])
    obtain ⟨q', l₁, l₂, hl₁, hentries, herase⟩ := exists_of_kerase hmem
    have hq : q' = q := by
      have : m.entries.dlookup k = some q' := by
        rw [hentries, dlookup_append, dlookup_eq_none.mpr hl₁]
        simp
      exact Option.some.inj (this.symm.trans hlookup)
    subst hq
    have herase' : (m.erase k).entries = l₁ ++ l₂ := herase
    simp only [queue, hlookup, Option.getD_some, waiting, herase', hentries, flatMap_append,
      flatMap_cons]
    exact perm_append_comm_assoc _ _ _

variable {m}

/-- Replacing a queue: elements may move between the queue and a bag beside the map. -/
theorem waiting_insert_perm {q bag bag' : List V} (h : queue m k ++ bag ~ q ++ bag') :
    waiting m ++ bag ~ waiting (m.insert k q) ++ bag' := by
  rw [waiting_insert]
  calc
    waiting m ++ bag ~ (queue m k ++ waiting (m.erase k)) ++ bag :=
      (waiting_perm m k).append_right _
    _ ~ (queue m k ++ bag) ++ waiting (m.erase k) := by
      simp only [append_assoc]
      exact perm_append_comm.append_left _
    _ ~ (q ++ bag') ++ waiting (m.erase k) := h.append_right _
    _ ~ (q ++ waiting (m.erase k)) ++ bag' := by
      simp only [append_assoc]
      exact perm_append_comm.append_left _

theorem length_waiting_insert (m : AList fun _ : K => List V) (k : K) (q : List V) :
    (waiting (m.insert k q)).length + (queue m k).length = (waiting m).length + q.length := by
  have h : queue m k ++ q ~ q ++ queue m k := perm_append_comm
  have hlen := (waiting_insert_perm h).length_eq
  simp only [length_append] at hlen
  omega

theorem mem_keys_of_queue_ne_nil (h : queue m k ≠ []) : k ∈ m.keys := by
  by_contra hk
  have hlookup : m.lookup k = none := AList.lookup_eq_none.mpr hk
  simp [queue, hlookup] at h

theorem keys_insert_perm (h : k ∈ m.keys) (q : List V) : (m.insert k q).keys ~ m.keys := by
  rw [AList.keys_insert]
  exact (perm_cons_erase h).symm

theorem keys_insert_ne_nil (m : AList fun _ : K => List V) (k : K) (q : List V) :
    (m.insert k q).keys ≠ [] := by
  simp [AList.keys_insert]

end Queues
