/-
What the answers of a server stand for (`Pegasus.Scan.Batches`).

A batch takes records from the front of the iterator. What it has found, and what the iterator still
owes, make up what the iterator owed before.

- `scanLoop_spec`, `getScannerLoop_eq`: the two loops;
- `Answers`: an answer stands for a list of records, some of which are still to come;
- `onScan_answers`, `onGetScanner_answers`: the two handlers.
-/

import Pegasus.Scan.Exchange

namespace Pegasus.Scan

open List Query

variable {Key Value Partition : Type} [LinearOrder Key] (q : Query Key Value Partition)
  (h : Partition)

/-- What an iterator is to return: the normal records before the end of the range. -/
def Query.owed (iterator : List (Key × Value)) : List (Key × Value) :=
  iterator.filter fun record => q.isBehind record = false ∧ q.validate h record = .normal

def Increasing (records : List (Key × Value)) : Prop := records.Pairwise fun r r' => r.1 < r'.1

variable {q h}

variable {record : Key × Value} {iterator : List (Key × Value)} {maxIterationCount : Nat}

theorem isBehind_iff : q.isBehind record = true ↔
    q.stopKey < record.1 ∨ (record.1 = q.stopKey ∧ q.stopInclusive = false) := by
  simp [isBehind]

theorem isBehind_of_lt (hlt : q.stopKey < record.1) :
    q.isBehind record = true := isBehind_iff.mpr (.inl hlt)

theorem owed_eq_nil (hlt : ∀ record ∈ iterator, q.stopKey < record.1) : q.owed h iterator = [] := by
  rw [owed, filter_eq_nil_iff]
  intro record hrecord
  simp [isBehind_of_lt (hlt record hrecord)]

theorem owed_cons {rest : List (Key × Value)} (hbehind : q.isBehind record = false) :
    q.owed h (record :: rest) = q.pick h record ++ q.owed h rest := by
  by_cases hnormal : q.validate h record = .normal <;>
    simp [owed, pick, hbehind, hnormal]

structure LoopEnd.Spec (q : Query Key Value Partition) (h : Partition)
    (iterator : List (Key × Value)) (e : LoopEnd Key Value) : Prop where
  owed : q.owed h iterator = e.found ++ if e.complete then [] else q.owed h e.iterator
  rest : e.iterator <:+ iterator
  below : e.complete = false → ∀ record ∈ e.found, record.1 < q.stopKey
  few : e.found.length ≤ iterator.length
  used : e.complete = false → e.found.length + e.iterator.length ≤ iterator.length

theorem length_pick_le (record : Key × Value) : (q.pick h record).length ≤ 1 := by
  unfold pick
  split_ifs <;> simp

/-- **The loop of a batch** returns what the iterator owes, up to the point where it stops. -/
theorem scanLoop_spec (batchCount maxCount : Nat) (hsorted : Increasing iterator)
    (count iterated : Nat) :
    (scanLoop q h batchCount maxCount count iterated iterator).Spec q h iterator := by
  induction iterator generalizing count iterated with
  | nil => exact ⟨rfl, suffix_rfl, by simp [scanLoop], by simp [scanLoop], by simp [scanLoop]⟩
  | cons record rest ih =>
    obtain ⟨hhead, htail⟩ := pairwise_cons.mp hsorted
    unfold scanLoop
    by_cases hgo : count < batchCount ∧ iterated < maxCount
    swap
    · rw [if_neg hgo]
      exact ⟨by simp, suffix_rfl, by simp, by simp, by simp⟩
    rw [if_pos hgo]
    by_cases hbehind : q.isBehind record = true
    · -- the range ends before the record
      rw [if_pos hbehind]
      refine ⟨?_, suffix_rfl, by simp, by simp, by simp⟩
      have hrest : q.owed h rest = [] := owed_eq_nil fun r hr =>
        lt_of_le_of_lt (by rcases isBehind_iff.mp hbehind with h | h; exacts [h.le, h.1.ge])
          (hhead r hr)
      have : q.owed h (record :: rest) = q.owed h rest := by simp [owed, hbehind]
      simp [this, hrest]
    rw [if_neg hbehind]
    replace hbehind : q.isBehind record = false := by simpa using hbehind
    by_cases hstop : record.1 = q.stopKey
    · -- the record is the last of the range
      rw [if_pos hstop]
      refine ⟨?_, suffix_rfl, by simp, ?_, by simp⟩
      · rw [owed_cons hbehind, owed_eq_nil fun r hr => hstop ▸ hhead r hr]
        simp
      · exact (length_pick_le record).trans (by simp)
    · rw [if_neg hstop]
      have ih := ih htail (count + (q.pick h record).length) (iterated + 1)
      refine ⟨?_, ?_, ?_, ?_, ?_⟩
      · rw [owed_cons hbehind, ih.owed, ← append_assoc]
        rfl
      · exact ih.rest.trans (suffix_cons _ _)
      · intro hcomplete r hr
        rcases mem_append.mp hr with hr | hr
        · -- the record itself lies strictly inside the range
          obtain rfl : r = record := by
            unfold pick at hr
            split_ifs at hr
            · exact mem_singleton.mp hr
            · cases hr
          rcases lt_trichotomy r.1 q.stopKey with hlt | heq | hgt
          · exact hlt
          · exact absurd heq hstop
          · simp [isBehind_of_lt hgt] at hbehind
        · exact ih.below hcomplete r hr
      · have := ih.few
        have := length_pick_le (q := q) (h := h) record
        simp only [LoopEnd.after, length_append, length_cons]
        omega
      · intro hcomplete
        have := ih.used hcomplete
        have := length_pick_le (q := q) (h := h) record
        simp only [LoopEnd.after, length_append, length_cons]
        omega

theorem length_scanLoop_lt {batchCount maxCount : Nat} (hbatch : 0 < batchCount)
    (hmax : 0 < maxCount) (hsorted : Increasing iterator) (hne : iterator ≠ [])
    (hcomplete : (scanLoop q h batchCount maxCount 0 0 iterator).complete = false) :
    (scanLoop q h batchCount maxCount 0 0 iterator).iterator.length < iterator.length := by
  cases iterator with
  | nil => exact absurd rfl hne
  | cons record rest =>
    unfold scanLoop at hcomplete ⊢
    rw [if_pos ⟨hbatch, hmax⟩] at hcomplete ⊢
    by_cases hbehind : q.isBehind record = true
    · simp [if_pos hbehind] at hcomplete
    rw [if_neg hbehind] at hcomplete ⊢
    by_cases hstop : record.1 = q.stopKey
    · simp [if_pos hstop] at hcomplete
    rw [if_neg hstop] at hcomplete ⊢
    have hrest := (scanLoop_spec (q := q) (h := h) batchCount maxCount
      (pairwise_cons.mp hsorted).2 (0 + (q.pick h record).length) 1).rest.length_le
    simp only [LoopEnd.after, length_cons]
    simp only [zero_add] at hrest ⊢
    omega

/-! ### The handlers -/

def isAfter (startKey : Key) (startInclusive : Bool) (key : Key) : Prop :=
  startKey < key ∨ (key = startKey ∧ startInclusive = true)

instance (startKey : Key) (startInclusive : Bool) (key : Key) :
    Decidable (isAfter startKey startInclusive key) :=
  inferInstanceAs (Decidable (_ ∨ _))

def Query.restFrom (q : Query Key Value Partition) (h : Partition) (data : Data Key Value)
    (startKey : Key) (startInclusive : Bool) : List (Key × Value) :=
  q.owed h (data.records.filter fun record => isAfter startKey startInclusive record.1)

theorem dropWhile_eq_filter {records : List (Key × Value)} (hsorted : Increasing records)
    (startKey : Key) : (records.dropWhile fun record => record.1 < startKey) =
      records.filter fun record => isAfter startKey true record.1 := by
  induction records with
  | nil => rfl
  | cons record rest ih =>
    obtain ⟨hhead, htail⟩ := pairwise_cons.mp hsorted
    by_cases hlt : record.1 < startKey
    · have hnot : ¬ isAfter startKey true record.1 := by
        rintro (hgt | ⟨heq, -⟩)
        · exact lt_asymm hlt hgt
        · exact hlt.ne heq
      rw [dropWhile_cons_of_pos (by simpa using hlt), filter_cons_of_neg (by simpa using hnot)]
      exact ih htail
    · rw [dropWhile_cons_of_neg (by simpa using hlt), eq_comm, filter_eq_self]
      intro r hr
      have hle : startKey ≤ r.1 := by
        rcases mem_cons.mp hr with rfl | hr
        · exact not_lt.mp hlt
        · exact (not_lt.mp hlt).trans (hhead r hr).le
      rcases hle.lt_or_eq with hlt | heq
      · simp [isAfter, hlt]
      · simp [isAfter, heq]

theorem getScannerLoop_eq (data : Data Key Value) {batchCount maxCount : Nat}
    (hbatch : 0 < batchCount) (hmax : 0 < maxCount) (startKey : Key) (startInclusive : Bool) :
    ∃ iterator, iterator <:+ data.records ∧
      q.owed h iterator = q.restFrom h data startKey startInclusive ∧
      getScannerLoop q h batchCount maxCount (if startInclusive then none else some startKey)
          (data.records.dropWhile fun record => record.1 < startKey) =
        scanLoop q h batchCount maxCount 0 0 iterator := by
  have hseek := dropWhile_eq_filter data.sorted startKey
  have hsuffix : (data.records.dropWhile fun record => record.1 < startKey) <:+ data.records :=
    dropWhile_suffix _
  generalize hit : (data.records.dropWhile fun record => record.1 < startKey) = it at *
  have hsorted : Increasing it := data.sorted.sublist hsuffix.sublist
  cases startInclusive with
  | true =>
    refine ⟨it, hsuffix, by rw [restFrom, hseek], ?_⟩
    cases it <;> simp [getScannerLoop, scanLoop]
  | false =>
    have hrest : q.restFrom h data startKey false =
        q.owed h (it.filter fun record => startKey < record.1) := by
      rw [restFrom, hseek, filter_filter]
      congr 1
      refine filter_congr fun record _ => ?_
      by_cases hlt : startKey < record.1 <;> simp [isAfter, hlt]
    cases it with
    | nil => exact ⟨[], nil_suffix, by simp [hrest], rfl⟩
    | cons record rest =>
      obtain ⟨hhead, -⟩ := pairwise_cons.mp hsorted
      have hafter : isAfter startKey true record.1 := by
        have hmem : record ∈ data.records.filter fun record => isAfter startKey true record.1 :=
          hseek ▸ mem_cons_self
        simpa using (mem_filter.mp hmem).2
      rcases hafter with hlt | ⟨heq, -⟩
      · -- the start key is not there
        refine ⟨record :: rest, hsuffix, ?_, ?_⟩
        · rw [hrest, filter_eq_self.mpr]
          intro r hr
          rcases mem_cons.mp hr with rfl | hr
          · simpa using hlt
          · simpa using hlt.trans (hhead r hr)
        · simp [getScannerLoop, hlt.ne]
      · have hall : ((record :: rest).filter fun r => startKey < r.1) = rest := by
          rw [filter_cons_of_neg (by simp [heq]), filter_eq_self]
          intro r hr
          simpa using heq ▸ hhead r hr
        by_cases hbehind : q.isBehind record = true
        · refine ⟨record :: rest, hsuffix, ?_, by simp [getScannerLoop, hbehind]⟩
          rw [hrest, hall]
          simp [owed, hbehind]
        · refine ⟨rest, (suffix_cons _ _).trans hsuffix, by rw [hrest, hall], ?_⟩
          simp [getScannerLoop, hbehind, hbatch, hmax, heq]

/-- What an answer stands for: the records it returns, or counts, and those that its context still
owes. -/
structure Answers (q : Query Key Value Partition) (h : Partition) (cache : ContextCache Key Value)
    (wanted : List (Key × Value)) (steps : Nat) (served : Served Key Value) : Prop where
  response : ∃ response, served.response = some response ∧
    response.kvs = (if q.onlyReturnCount then [] else served.found) ∧
    response.kvCount = (if q.onlyReturnCount then some served.found.length else none) ∧
    ((response.contextId = .completed ∧ served.found = wanted ∧ served.cache = cache ∧
        served.found.length ≤ steps) ∨
      ∃ context, response.contextId = .valid cache.counter ∧
        served.cache = (cache.put context).2 ∧ served.found ++ q.owed h context.iterator = wanted ∧
        (∀ record ∈ served.found, record.1 < q.stopKey) ∧
        context.iterator ≠ [] ∧ Increasing context.iterator ∧ 0 < context.batchSize ∧
        served.found.length + context.iterator.length ≤ steps ∧ context.iterator.length < steps)

variable {cache : ContextCache Key Value}

theorem finish_answers (hsorted : Increasing iterator)
    {batchSize : Int} (hbatchSize : 0 < batchSize) {b m : Nat} (hb : 0 < b) (hm : 0 < m) :
    Answers q h cache (q.owed h iterator) iterator.length
      (finish q cache batchSize (scanLoop q h b m 0 0 iterator)) := by
  have hspec := scanLoop_spec (q := q) (h := h) b m hsorted 0 0
  have hprogress := length_scanLoop_lt (q := q) (h := h) hb hm hsorted
  generalize scanLoop q h b m 0 0 iterator = e at *
  unfold finish
  by_cases hmore : e.iterator ≠ [] ∧ e.complete = false
  · simp only [if_pos hmore]
    have hne : iterator ≠ [] := by
      rintro rfl
      exact hmore.1 (suffix_nil.mp hspec.rest)
    refine ⟨_, rfl, rfl, rfl, .inr ⟨⟨e.iterator, batchSize⟩, rfl, rfl, ?_, ?_, hmore.1, ?_,
      hbatchSize, hspec.used hmore.2, hprogress hne hmore.2⟩⟩
    · rw [hspec.owed, hmore.2]
      rfl
    · exact hspec.below hmore.2
    · exact hsorted.sublist hspec.rest.sublist
  · simp only [if_neg hmore]
    refine ⟨_, rfl, rfl, rfl, .inl ⟨rfl, ?_, rfl, hspec.few⟩⟩
    rw [hspec.owed]
    by_cases hcomplete : e.complete = true
    · simp [hcomplete]
    · have hnil : e.iterator = [] := by
        by_contra hne
        exact hmore ⟨hne, by simpa using hcomplete⟩
      simp [hnil, owed]

theorem batchCount_pos (hmax : 0 < maxIterationCount) (batchSize : Int) :
    0 < batchCount maxIterationCount batchSize := by
  unfold batchCount
  split_ifs <;> omega

theorem onScan_answers (hmax : 0 < maxIterationCount)
    {handle : Nat} {context : ScanContext Key Value}
    (hcontext : cache.contexts handle = some context) (hsorted : Increasing context.iterator)
    (hbatchSize : 0 < context.batchSize) :
    Answers q h (cache.erase handle) (q.owed h context.iterator) context.iterator.length
      (onScan q h maxIterationCount cache handle) := by
  unfold onScan
  rw [hcontext]
  exact finish_answers hsorted hbatchSize (batchCount_pos hmax _) (batchCount_pos hmax _)

theorem restFrom_seekStart (data : Data Key Value) (startKey : Key) (startInclusive : Bool) :
    q.restFrom h data (q.seekStart startKey startInclusive).1
        (q.seekStart startKey startInclusive).2 =
      q.restFrom h data startKey startInclusive := by
  unfold seekStart
  cases hleast : q.prefixStartKey with
  | none => rfl
  | some least =>
    dsimp only
    split_ifs with hlt
    · simp only [restFrom, owed, filter_filter]
      refine filter_congr fun record _ => ?_
      by_cases hnormal : q.validate h record = .normal
      · have hle := q.prefixStartKey_le h record hnormal least (by simp [hleast])
        have hafter : isAfter startKey startInclusive record.1 := .inl (hlt.trans_le hle)
        have hafter' : isAfter least true record.1 := by
          rcases hle.lt_or_eq with h | h
          · exact .inl h
          · exact .inr ⟨h.symm, rfl⟩
        simp [hafter, hafter']
      · simp [hnormal]
    · rfl

theorem onGetScanner_answers (hmax : 0 < maxIterationCount) (data : Data Key Value)
    (cache : ContextCache Key Value) {startKey : Key} {startInclusive : Bool}
    (hseek : (q.seekStart startKey startInclusive).1 = startKey ∨ q.seeksAnywhere = true)
    (hrange : isAfter (q.seekStart startKey startInclusive).1
      ((q.seekStart startKey startInclusive).2 && q.stopInclusive) q.stopKey) :
    ∃ served, onGetScanner q h maxIterationCount data cache startKey startInclusive = some served ∧
      ∃ steps ≤ data.records.length,
        Answers q h cache (q.restFrom h data startKey startInclusive) steps served := by
  rw [← restFrom_seekStart]
  unfold onGetScanner
  generalize q.seekStart startKey startInclusive = start at *
  have hseek' : ¬ (start.1 ≠ startKey ∧ q.seeksAnywhere = false) := by
    rintro ⟨hne, hbound⟩
    rcases hseek with heq | hany
    · exact hne heq
    · simp [hany] at hbound
  have hrange' : ¬ (q.stopKey < start.1 ∨
      (start.1 = q.stopKey ∧ (start.2 = false ∨ q.stopInclusive = false))) := by
    rintro (hlt | ⟨heq, hexclusive⟩)
    · rcases hrange with hgt | ⟨heq, -⟩
      · exact lt_asymm hlt hgt
      · exact hlt.ne heq
    · rcases hrange with hgt | ⟨-, hinclusive⟩
      · exact hgt.ne heq
      · rcases hexclusive with h | h <;> simp [h] at hinclusive
  simp only [if_neg hseek', if_neg hrange']
  obtain ⟨iterator, hsuffix, howed, hloop⟩ := getScannerLoop_eq (q := q) (h := h) data
    (batchCount_pos hmax q.batchSize) hmax start.1 start.2
  refine ⟨_, rfl, iterator.length, hsuffix.length_le, ?_⟩
  rw [hloop, ← howed]
  exact finish_answers (data.sorted.sublist hsuffix.sublist)
    (by exact_mod_cast batchCount_pos hmax q.batchSize) (batchCount_pos hmax _) hmax

end Pegasus.Scan
