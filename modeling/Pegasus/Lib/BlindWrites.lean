/-
Blind writes (`Pegasus.Lib.BlindWrites`): writes that assign values to keys without
reading them, applied in batches by a copy of a store.

A write has a position in the log it comes from. A copy that applies batches of these
writes, possibly some batch more than once, ends with the values of the log as soon as
it has applied every write and kept the order of the log key by key.

* `KeyOrder`: what a copy must respect: inside a batch, and between two different batches,
  writes of one key keep their order.
* `applyAll_flatten_eq`: then both stores agree on every key.
-/

import Mathlib

namespace BlindWrites

open List

variable {K V : Type}

/-- The assignments of one write, in order, and its position in the log. -/
structure Write (K V : Type) where
  position : Nat
  assigns : List (K × V)

def Write.Touches (w : Write K V) (k : K) : Prop := k ∈ w.assigns.map Prod.fst

def SharesKey (w w' : Write K V) : Prop := ∃ k, w.Touches k ∧ w'.Touches k

theorem SharesKey.symm {w w' : Write K V} (h : SharesKey w w') : SharesKey w' w := by
  obtain ⟨k, hw, hw'⟩ := h
  exact ⟨k, hw', hw⟩

def InOrder (w w' : Write K V) : Prop := SharesKey w w' → w.position < w'.position

/-- Two batches, applied in this order, keep the order of the log. -/
def BatchesInOrder (batch batch' : List (Write K V)) : Prop :=
  ∀ w ∈ batch, ∀ w' ∈ batch', InOrder w w'

/-- **Order by key.** A batch may be applied again, but no batch is applied after another
one that has a later write of a common key. -/
structure KeyOrder (history : List (List (Write K V))) : Prop where
  within : ∀ batch ∈ history, batch.Pairwise InOrder
  across : history.Pairwise fun batch batch' => batch = batch' ∨ BatchesInOrder batch batch'

theorem keyOrder_nil : KeyOrder ([] : List (List (Write K V))) := by
  constructor
  · simp
  · exact List.Pairwise.nil

variable {history : List (List (Write K V))} {log : List (Write K V)}

theorem KeyOrder.append (h : KeyOrder history) {batch : List (Write K V)}
    (hwithin : batch.Pairwise InOrder)
    (hacross : ∀ old ∈ history, old = batch ∨ BatchesInOrder old batch) :
    KeyOrder (history ++ [batch]) := by
  constructor
  · intro b hb
    rcases mem_append.mp hb with hold | hnew
    · exact h.within b hold
    · rw [mem_singleton.mp hnew]
      exact hwithin
  · refine pairwise_append.mpr ⟨h.across, pairwise_singleton _ _, ?_⟩
    intro old hold new hnew
    rw [mem_singleton.mp hnew]
    exact hacross old hold

section Apply

variable [DecidableEq K]

def assign (f : K → V) (a : K × V) : K → V := Function.update f a.1 a.2

def Write.apply (f : K → V) (w : Write K V) : K → V := w.assigns.foldl assign f

def applyAll (f : K → V) (ws : List (Write K V)) : K → V := ws.foldl Write.apply f

variable (f : K → V)

@[simp] theorem applyAll_nil : applyAll f [] = f := rfl

theorem applyAll_append (ws ws' : List (Write K V)) :
    applyAll f (ws ++ ws') = applyAll (applyAll f ws) ws' := foldl_append

theorem applyAll_cons (w : Write K V) (ws : List (Write K V)) :
    applyAll f (w :: ws) = applyAll (w.apply f) ws := rfl

theorem applyAll_eq_foldl (ws : List (Write K V)) :
    applyAll f ws = (ws.flatMap Write.assigns).foldl assign f := by
  induction ws generalizing f with
  | nil => rfl
  | cons w ws ih => rw [applyAll_cons, ih, flatMap_cons, foldl_append, Write.apply]

variable {assigns : List (K × V)} {k : K} {w : Write K V}

theorem foldl_assign_of_notMem (h : k ∉ assigns.map Prod.fst) (f : K → V) :
    assigns.foldl assign f k = f k := by
  induction assigns generalizing f with
  | nil => rfl
  | cons a assigns ih =>
    simp only [map_cons, mem_cons, not_or] at h
    rw [foldl_cons, ih h.2, assign, Function.update_of_ne h.1]

theorem Write.apply_of_not_touches (h : ¬ w.Touches k) (f : K → V) :
    w.apply f k = f k := foldl_assign_of_notMem h f

theorem foldl_assign_congr (assigns : List (K × V)) {f g : K → V} (h : f k = g k) :
    assigns.foldl assign f k = assigns.foldl assign g k := by
  induction assigns generalizing f g with
  | nil => exact h
  | cons a assigns ih =>
    rw [foldl_cons, foldl_cons]
    refine ih ?_
    by_cases hk : k = a.1
    · simp [assign, hk]
    · simp [assign, Function.update_of_ne hk, h]

theorem foldl_assign_of_mem (h : k ∈ assigns.map Prod.fst) (f g : K → V) :
    assigns.foldl assign f k = assigns.foldl assign g k := by
  induction assigns generalizing f g with
  | nil => simp at h
  | cons a assigns ih =>
    by_cases hrest : k ∈ assigns.map Prod.fst
    · exact ih hrest _ _
    · have hk : k = a.1 := by simpa [hrest] using h
      subst hk
      exact foldl_assign_congr assigns (by simp [assign])

theorem Write.apply_of_touches (h : w.Touches k) (f g : K → V) :
    w.apply f k = w.apply g k := foldl_assign_of_mem h f g

theorem applyAll_of_not_touches {ws : List (Write K V)} (h : ∀ w ∈ ws, ¬ w.Touches k) (f : K → V) :
    applyAll f ws k = f k := by
  induction ws generalizing f with
  | nil => rfl
  | cons w ws ih =>
    rw [applyAll_cons, ih (fun w' hw' => h w' (mem_cons_of_mem _ hw')),
      Write.apply_of_not_touches (h w mem_cons_self)]

theorem applyAll_of_last {front back : List (Write K V)} (htouch : w.Touches k)
    (hback : ∀ w' ∈ back, ¬ w'.Touches k) (f g : K → V) :
    applyAll f (front ++ w :: back) k = w.apply g k := by
  rw [applyAll_append, applyAll_cons, applyAll_of_not_touches hback]
  exact Write.apply_of_touches htouch _ _

end Apply

/-! ### The last write of a key -/

theorem exists_last {α : Type} {p : α → Prop} {l : List α} (h : ∃ x ∈ l, p x) :
    ∃ front x back, l = front ++ x :: back ∧ p x ∧ ∀ y ∈ back, ¬ p y := by
  induction l with
  | nil => simp at h
  | cons y l ih =>
    by_cases hl : ∃ x ∈ l, p x
    · obtain ⟨front, x, back, rfl, hx, hback⟩ := ih hl
      exact ⟨y :: front, x, back, rfl, hx, hback⟩
    · have hy : p y := by
        obtain ⟨x, hx, hpx⟩ := h
        rcases mem_cons.mp hx with rfl | hmem
        · exact hpx
        · exact absurd ⟨x, hmem, hpx⟩ hl
      exact ⟨[], y, l, rfl, hy, fun x hx hpx => hl ⟨x, hx, hpx⟩⟩

variable (horder : KeyOrder history) (hlog : log.Pairwise fun w w' => w.position < w'.position)
  (hsub : ∀ batch ∈ history, ∀ w ∈ batch, w ∈ log) (hall : ∀ w ∈ log, ∃ batch ∈ history, w ∈ batch)
include horder hlog hsub hall

theorem KeyOrder.exists_last_write {k : K} (hk : ∃ w ∈ log, w.Touches k) :
    ∃ w front back front' back', log = front ++ w :: back ∧
      history.flatten = front' ++ w :: back' ∧ w.Touches k ∧
        (∀ w' ∈ back, ¬ w'.Touches k) ∧ ∀ w' ∈ back', ¬ w'.Touches k := by
  obtain ⟨front, m, back, hsplit, hm, hback⟩ := exists_last hk
  have hmlog : m ∈ log := by simp [hsplit]
  have hmax : ∀ w ∈ log, w.Touches k → w ≠ m → w.position < m.position := by
    intro w hw hwk hne
    rw [hsplit] at hw hlog
    rcases mem_append.mp hw with hfront | hrest
    · exact (pairwise_append.mp hlog).2.2 w hfront m mem_cons_self
    · rcases mem_cons.mp hrest with rfl | hmem
      · exact absurd rfl hne
      · exact absurd hwk (hback w hmem)
  obtain ⟨batchM, hbatchM, hmBatch⟩ := hall m hmlog
  -- the last batch that touches the key, and its last write that does
  obtain ⟨older, batch, newer, hhist, ⟨w, hw⟩, hnewer⟩ :=
    exists_last (p := fun batch : List (Write K V) => ∃ w ∈ batch, w.Touches k)
      ⟨batchM, hbatchM, m, hmBatch, hm⟩
  obtain ⟨front', w, back', hbatch, hwk, hback'⟩ :=
    exists_last (p := fun w : Write K V => w.Touches k) ⟨w, hw⟩
  have hmem : batch ∈ history := by simp [hhist]
  have hwmem : w ∈ batch := by simp [hbatch]
  have hwlog : w ∈ log := hsub batch hmem w hwmem
  have hshare : SharesKey m w := ⟨k, hm, hwk⟩
  have hin : m ∈ batch → w = m := by
    intro hmIn
    by_contra hne
    have hlt := hmax w hwlog hwk hne
    have hpair := horder.within batch hmem
    rw [hbatch] at hmIn hpair
    rcases mem_append.mp hmIn with hfront | hrest
    · have := (pairwise_append.mp hpair).2.2 m hfront w mem_cons_self hshare
      omega
    · rcases mem_cons.mp hrest with heq | hmem'
      · exact hne heq.symm
      · exact hback' m hmem' hm
  have hwm : w = m := by
    rw [hhist] at hbatchM
    rcases mem_append.mp hbatchM with hold | hrest
    · have hacross := horder.across
      rw [hhist] at hacross
      rcases (pairwise_append.mp hacross).2.2 batchM hold batch mem_cons_self with
        heq | hlt
      · exact hin (heq ▸ hmBatch)
      · by_contra hne
        have hle := hlt m hmBatch w hwmem hshare
        have hgt := hmax w hwlog hwk hne
        omega
    · rcases mem_cons.mp hrest with heq | hnew
      · exact hin (heq ▸ hmBatch)
      · exact absurd ⟨m, hmBatch, hm⟩ (hnewer batchM hnew)
  subst hwm
  refine ⟨w, front, back, older.flatten ++ front', back' ++ newer.flatten, hsplit, ?_, hm, hback, ?_⟩
  · simp [hhist, hbatch]
  · intro w' hw'
    rcases mem_append.mp hw' with hsame | hlater
    · exact hback' w' hsame
    · obtain ⟨b, hb, hwb⟩ := mem_flatten.mp hlater
      exact fun htouch => hnewer b hb ⟨w', hwb, htouch⟩

/-- **Agreement.** A copy that has applied every write of the log, and nothing else, in
the order of the log key by key, holds the values of the log. -/
theorem KeyOrder.applyAll_flatten_eq [DecidableEq K] (f : K → V) (k : K) :
    applyAll f history.flatten k = applyAll f log k := by
  by_cases hk : ∃ w ∈ log, w.Touches k
  · obtain ⟨w, front, back, front', back', hsplit, hsplit', hwk, hback, hback'⟩ :=
      horder.exists_last_write hlog hsub hall hk
    rw [hsplit, hsplit', applyAll_of_last hwk hback' f f, applyAll_of_last hwk hback f f]
  · have hnone : ∀ w ∈ log, ¬ w.Touches k := fun w hw htouch => hk ⟨w, hw, htouch⟩
    rw [applyAll_of_not_touches hnone, applyAll_of_not_touches]
    intro w hw
    obtain ⟨batch, hbatch, hwb⟩ := mem_flatten.mp hw
    exact hnone w (hsub batch hbatch w hwb)

end BlindWrites
