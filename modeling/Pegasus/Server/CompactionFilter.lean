/-
The filter of a compaction, after `key_ttl_compaction_filter.h`, `compaction_operation.cpp` and
`compaction_filter_rule.cpp`.

The filter sets the default TTL of a record without one and applies the operations that users have
specified. All of them look at the value as it was before the first, and so does the expiry. If the
default TTL was set, that is the new value itself, which an update takes away.

- `CompactionFilter.filter`: the function; `CompactionFilter.sequential`: what it is for;
- `Steady`: operations for which one timestamp is enough;
- `filter_is_sequential`: the main result;
- `second_update_ignores_the_first`: two updates that do not add up.
-/

import Pegasus.Server.KeyHash
import Pegasus.Scan.Filters

namespace Pegasus.Server

open Scan (restoreKey)

/-! ### Rules and operations -/

inductive StringMatchType where
  | matchAnywhere
  | matchPrefix
  | matchPostfix
  | invalid
deriving DecidableEq

def stringPatternMatch (value : Bytes) (type : StringMatchType) (pattern : Bytes) : Bool :=
  if pattern = [] ∨ value.length < pattern.length then false
  else
    match type with
    | .matchAnywhere => decide (pattern <:+: value)
    | .matchPrefix => pattern.isPrefixOf value
    | .matchPostfix => pattern.isSuffixOf value
    | .invalid => false

inductive FilterRule where
  | hashkeyPattern (type : StringMatchType) (pattern : Bytes)
  | sortkeyPattern (type : StringMatchType) (pattern : Bytes)
  | ttlRange (startTtl stopTtl : UInt32)
deriving DecidableEq

inductive UpdateTtlType where
  | fromNow
  | fromCurrent
  | timestamp
  | invalid
deriving DecidableEq

inductive CompactionOperation where
  | deleteKey (rules : List FilterRule)
  | updateTtl (rules : List FilterRule) (type : UpdateTtlType) (value : UInt32)
deriving DecidableEq

inductive OperationEffect where
  | keep
  | delete
  | update (expireTs : UInt32)
deriving DecidableEq

def OperationEffect.newTs : OperationEffect → Option UInt32
  | .update expireTs => some expireTs
  | _ => none

def epochBegin : UInt32 := 1451606400

/-- What the operations look at besides the value. -/
structure CompactedKey where
  now : UInt32
  hashKey : Bytes
  sortKey : Bytes
deriving DecidableEq

section Operations

variable (k : CompactedKey)

/-- `match` of a rule, for a value with an expire timestamp. -/
def FilterRule.matches (expireTs : UInt32) : FilterRule → Bool
  | .hashkeyPattern type pattern => stringPatternMatch k.hashKey type pattern
  | .sortkeyPattern type pattern => stringPatternMatch k.sortKey type pattern
  | .ttlRange startTtl stopTtl =>
    decide (expireTs = 0 ∧ startTtl = 0 ∧ stopTtl = 0 ∨
      startTtl + k.now ≤ expireTs ∧ expireTs ≤ stopTtl + k.now)

def allRulesMatch (expireTs : UInt32) (rules : List FilterRule) : Bool :=
  !rules.isEmpty && rules.all fun rule => rule.matches k expireTs

/-- `filter` of an operation, for a value with an expire timestamp. -/
def CompactionOperation.filter (expireTs : UInt32) : CompactionOperation → OperationEffect
  | .deleteKey rules => if allRulesMatch k expireTs rules then .delete else .keep
  | .updateTtl rules type value =>
    if allRulesMatch k expireTs rules then
      match type with
      | .fromNow => .update (k.now + value)
      | .fromCurrent => if expireTs = 0 then .keep else .update (value + expireTs)
      | .timestamp => .update (value - epochBegin)
      | .invalid => .keep
    else .keep

/-- Whether the loop of `all_rules_match` comes to a rule that reads the value. -/
def rulesRead : List FilterRule → Bool
  | [] => false
  | .ttlRange _ _ :: _ => true
  | rule :: rules => rule.matches k 0 && rulesRead rules

/-- Whether an operation reads the value. An update copies it. -/
def CompactionOperation.reads : CompactionOperation → Bool
  | .deleteKey rules => rulesRead k rules
  | .updateTtl rules type _ =>
    rulesRead k rules || (allRulesMatch k 0 rules && decide (type ≠ .invalid))

/-- `user_specified_operation_filter`: the timestamp of the new value, or nothing for a record to
delete. Every operation gets the same view of a value. If it is one of the new value, it is gone
after an update, and there is no result if an operation reads it then. -/
def userSpecifiedOperationFilter (aliased : Bool) (viewed : UInt32) (gone : Bool)
    (expireTs : UInt32) : List CompactionOperation → Option (Option UInt32)
  | [] => some (some expireTs)
  | op :: ops =>
    if gone && op.reads k then none
    else
      match op.filter k viewed with
      | .keep => userSpecifiedOperationFilter aliased viewed gone expireTs ops
      | .delete => some none
      | .update newTs => userSpecifiedOperationFilter aliased viewed aliased newTs ops

/-! ### What looking at one timestamp does -/

/-- The operations one after the other, each at the timestamp that the ones before it leave. -/
def inTurn (expireTs : UInt32) : List CompactionOperation → Option UInt32
  | [] => some expireTs
  | op :: ops =>
    match op.filter k expireTs with
    | .keep => inTurn expireTs ops
    | .delete => none
    | .update newTs => inTurn newTs ops

/-- Every operation at one timestamp: a record that one of them deletes goes, and otherwise the
last update counts. -/
def atOnce (viewed expireTs : UInt32) (ops : List CompactionOperation) : Option UInt32 :=
  if ops.any fun op => op.filter k viewed == .delete then none
  else some ((ops.filterMap fun op => (op.filter k viewed).newTs).getLast?.getD expireTs)

/-- No operation that is run after an update reads the value. -/
def neverLooksBack (viewed : UInt32) (updated : Bool) : List CompactionOperation → Bool
  | [] => true
  | op :: ops =>
    !(updated && op.reads k) &&
      match op.filter k viewed with
      | .keep => neverLooksBack viewed updated ops
      | .delete => true
      | .update _ => neverLooksBack viewed true ops

def FilterRule.timeless : FilterRule → Bool
  | .ttlRange _ _ => false
  | _ => true

/-- An operation that does the same at every timestamp: none of its rules is about the TTL, and an
update does not add to the timestamp there is. -/
def CompactionOperation.timeless : CompactionOperation → Bool
  | .deleteKey rules => rules.all FilterRule.timeless
  | .updateTtl rules type _ => rules.all FilterRule.timeless && decide (type ≠ .fromCurrent)

/-- Operations for which one timestamp is enough: those behind an update that matches there do not
look at the timestamp, and no such update makes a record expire or keeps it from that. -/
structure Steady (viewed : UInt32) (ops : List CompactionOperation) : Prop where
  timeless : ops.Pairwise fun op later => (op.filter k viewed).newTs ≠ none → later.timeless = true
  expiry : ∀ op ∈ ops, (op.filter k viewed).newTs.all fun ts =>
    checkIfTsExpired k.now ts == checkIfTsExpired k.now viewed

variable {k} (viewed expireTs : UInt32)

theorem allRulesMatch_timeless {rules : List FilterRule}
    (h : rules.all FilterRule.timeless = true) :
    allRulesMatch k expireTs rules = allRulesMatch k viewed rules := by
  have hrules : rules.map (·.matches k expireTs) = rules.map (·.matches k viewed) := by
    refine List.map_congr_left fun rule hrule => ?_
    have hrule := List.all_eq_true.mp h rule hrule
    cases rule with
    | ttlRange startTtl stopTtl => cases hrule
    | hashkeyPattern type pattern | sortkeyPattern type pattern => rfl
  have hall := congrArg (List.all · id) hrules
  simp only [List.all_map, Function.comp_def, id] at hall
  rw [allRulesMatch, allRulesMatch, hall]

theorem filter_timeless {op : CompactionOperation} (h : op.timeless = true) :
    op.filter k expireTs = op.filter k viewed := by
  cases op with
  | deleteKey rules =>
    simp only [CompactionOperation.filter, allRulesMatch_timeless viewed expireTs h]
  | updateTtl rules type value =>
    simp only [CompactionOperation.timeless, Bool.and_eq_true, decide_eq_true_eq] at h
    simp only [CompactionOperation.filter, allRulesMatch_timeless viewed expireTs h.1]
    cases type with
    | fromCurrent => exact absurd rfl h.2
    | fromNow | timestamp | invalid => rfl

theorem atOnce_cons (op : CompactionOperation) (ops : List CompactionOperation) :
    atOnce k viewed expireTs (op :: ops) =
      match op.filter k viewed with
      | .keep => atOnce k viewed expireTs ops
      | .delete => none
      | .update newTs => atOnce k viewed newTs ops := by
  unfold atOnce
  cases h : op.filter k viewed with
  | keep => simp [h, OperationEffect.newTs]
  | delete => simp [h]
  | update newTs => simp [h, OperationEffect.newTs, List.getLast?_cons]

/-- **What the loop does**: every operation looks at one timestamp, as long as it is there. -/
theorem userSpecifiedOperationFilter_eq (aliased updated : Bool) (ops : List CompactionOperation) :
    userSpecifiedOperationFilter k aliased viewed (aliased && updated) expireTs ops =
      if aliased && !neverLooksBack k viewed updated ops then none
      else some (atOnce k viewed expireTs ops) := by
  induction ops generalizing updated expireTs with
  | nil => simp [userSpecifiedOperationFilter, neverLooksBack, atOnce]
  | cons op ops ih =>
    cases hfilter : op.filter k viewed with
    | delete =>
      simp only [userSpecifiedOperationFilter, neverLooksBack, atOnce_cons, hfilter]
      cases aliased <;> simp
    | keep =>
      simp only [userSpecifiedOperationFilter, neverLooksBack, atOnce_cons, hfilter, ih]
      cases aliased <;> simp [ite_or]
    | update newTs =>
      have hnext := ih newTs true
      rw [Bool.and_true] at hnext
      simp only [userSpecifiedOperationFilter, neverLooksBack, atOnce_cons, hfilter, hnext]
      cases aliased <;> simp [ite_or]

variable {viewed expireTs} {ops : List CompactionOperation}

theorem inTurn_timeless (h : ∀ op ∈ ops, op.timeless = true) :
    inTurn k expireTs ops = atOnce k viewed expireTs ops := by
  induction ops generalizing expireTs with
  | nil => rfl
  | cons op ops ih =>
    have hrest : ∀ op ∈ ops, op.timeless = true := fun op hop => h op (List.mem_cons_of_mem _ hop)
    rw [inTurn, atOnce_cons, filter_timeless viewed expireTs (h op List.mem_cons_self)]
    cases op.filter k viewed with
    | keep | update newTs => exact ih hrest
    | delete => rfl

theorem Steady.inTurn_eq (h : Steady k viewed ops) :
    inTurn k viewed ops = atOnce k viewed viewed ops := by
  obtain ⟨htimeless, -⟩ := h
  induction ops with
  | nil => rfl
  | cons op ops ih =>
    obtain ⟨hfirst, hrest⟩ := List.pairwise_cons.mp htimeless
    rw [inTurn, atOnce_cons]
    cases hfilter : op.filter k viewed with
    | keep => exact ih hrest
    | delete => rfl
    | update newTs => exact inTurn_timeless fun later hlater => hfirst later hlater (by simp [hfilter,
        OperationEffect.newTs])

theorem Steady.expired_atOnce (h : Steady k viewed ops) {ts : UInt32}
    (hexpired : checkIfTsExpired k.now expireTs = checkIfTsExpired k.now viewed)
    (hts : atOnce k viewed expireTs ops = some ts) :
    checkIfTsExpired k.now ts = checkIfTsExpired k.now viewed := by
  obtain ⟨-, hexpiry⟩ := h
  induction ops generalizing expireTs with
  | nil =>
    cases hts
    exact hexpired
  | cons op ops ih =>
    rw [List.forall_mem_cons] at hexpiry
    rw [atOnce_cons] at hts
    cases hfilter : op.filter k viewed with
    | keep => exact ih hexpired (by simpa only [hfilter] using hts) hexpiry.2
    | delete => simp [hfilter] at hts
    | update newTs =>
      refine ih (by simpa [hfilter, OperationEffect.newTs] using hexpiry.1) ?_ hexpiry.2
      simpa only [hfilter] using hts

end Operations

/-! ### The filter -/

/-- `KeyWithTTLCompactionFilter`. -/
structure CompactionFilter where
  enabled : Bool := true
  defaultTtl : UInt32 := 0
  partitionIndex : Int := 0
  partitionVersion : Int := -1
  validatePartitionHash : Bool := false
  operations : List CompactionOperation := []
deriving DecidableEq

namespace CompactionFilter

variable (f : CompactionFilter) (now : UInt32) (key : Bytes) (value : Value)

def setsDefault : Bool := decide (f.defaultTtl ≠ 0 ∧ value.expireTs = 0)

def expireTs : UInt32 := if f.setsDefault value then now + f.defaultTtl else value.expireTs

def stale : Option Bool :=
  checkIfStaleSplitData f.validatePartitionHash f.partitionIndex f.partitionVersion key

/-- What the operations leave of the record, if there are any. -/
def operated : Option (Option UInt32) :=
  if f.operations = [] then some (some (f.expireTs now value))
  else (restoreKey key).bind fun (hashKey, sortKey) =>
    userSpecifiedOperationFilter ⟨now, hashKey, sortKey⟩ (f.setsDefault value)
      (f.expireTs now value) false (f.expireTs now value) f.operations

/-- `Filter`: nothing for a record that is removed, or else the value that survives; there is no
result if a `CHECK` fails or memory that is gone is read. -/
def filter : Option (Option Value) :=
  if f.enabled = false ∨ key.length < 2 then some (some value)
  else do
    match ← f.operated now key value with
    | none => some none
    | some newTs =>
      if checkIfTsExpired now (f.expireTs now value) then some none
      else
        let stale ← f.stale key
        some (if stale then none else some { value with expireTs := newTs })

/-- The default TTL, then every operation in turn, then the expiry. -/
def leftInTurn (k : CompactedKey) : Option UInt32 :=
  (inTurn k (f.expireTs k.now value) f.operations).filter fun ts => !checkIfTsExpired k.now ts

def leftAtOnce (k : CompactedKey) : Option UInt32 :=
  if checkIfTsExpired k.now (f.expireTs k.now value) then none
  else atOnce k (f.expireTs k.now value) (f.expireTs k.now value) f.operations

/-- An operation reads the new value after an update. -/
def looksBack (k : CompactedKey) : Bool :=
  f.setsDefault value && !neverLooksBack k (f.expireTs k.now value) false f.operations

/-- **The sequential meaning**: a record goes if an operation deletes it at its turn, if it ends up
expired, or if its key is stale. -/
def sequential : Option (Option Value) := do
  let (hashKey, sortKey) ← restoreKey key
  let stale ← f.stale key
  some (if stale then none else
    (f.leftInTurn value ⟨now, hashKey, sortKey⟩).map fun ts => { value with expireTs := ts })

variable {f now key value} {hashKey sortKey : Bytes}

theorem exists_stale (hkey : restoreKey key = some (hashKey, sortKey)) :
    2 ≤ key.length ∧ ∃ stale, f.stale key = some stale := by
  obtain ⟨hlength, hash, hhash⟩ : 2 ≤ key.length ∧ ∃ hash, pegasusKeyHash key = some hash := by
    unfold restoreKey at hkey
    split at hkey
    · dsimp only at hkey
      split at hkey
      · refine ⟨by simp, ?_⟩
        simp only [pegasusKeyHash]
        split <;> exact ⟨_, rfl⟩
      · cases hkey
    · cases hkey
  refine ⟨hlength, ?_⟩
  unfold stale checkIfStaleSplitData checkPegasusKeyHash
  rw [hhash]
  split <;> exact ⟨_, rfl⟩

/-- **What the filter does**: it looks at one timestamp, for the operations and for the expiry. -/
theorem filter_eq (henabled : f.enabled = true) (hkey : restoreKey key = some (hashKey, sortKey))
    {stale : Bool} (hstale : f.stale key = some stale) :
    f.filter now key value =
      if f.looksBack value ⟨now, hashKey, sortKey⟩ then none
      else some (if stale then none else (f.leftAtOnce value ⟨now, hashKey, sortKey⟩).map
        fun ts => { value with expireTs := ts }) := by
  have hoperated : f.operated now key value =
      userSpecifiedOperationFilter ⟨now, hashKey, sortKey⟩ (f.setsDefault value)
        (f.expireTs now value) (f.setsDefault value && false) (f.expireTs now value)
        f.operations := by
    unfold operated
    rw [Bool.and_false, hkey]
    split
    · rw [‹f.operations = []›]
      rfl
    · rfl
  have hgoes : ¬ (f.enabled = false ∨ key.length < 2) := by
    have hlength := (exists_stale (f := f) hkey).1
    rintro (hdisabled | hshort)
    · rw [henabled] at hdisabled
      cases hdisabled
    · omega
  unfold filter looksBack leftAtOnce
  rw [if_neg hgoes, hoperated, userSpecifiedOperationFilter_eq, hstale]
  split
  · rfl
  · cases atOnce _ (f.expireTs now value) (f.expireTs now value) f.operations with
    | none => simp
    | some ts => cases stale <;> cases checkIfTsExpired now (f.expireTs now value) <;> rfl

theorem leftInTurn_eq {k : CompactedKey}
    (hsteady : Steady k (f.expireTs k.now value) f.operations) :
    f.leftInTurn value k = f.leftAtOnce value k := by
  unfold leftInTurn leftAtOnce
  rw [hsteady.inTurn_eq]
  cases hleft : atOnce k (f.expireTs k.now value) (f.expireTs k.now value) f.operations with
  | none => simp
  | some ts =>
    rw [Option.filter_some, hsteady.expired_atOnce rfl hleft]
    cases checkIfTsExpired k.now (f.expireTs k.now value) <;> rfl

/-- An update that gives the records of the hash key `h` more time. -/
def prolong (seconds : UInt32) : CompactionOperation :=
  .updateTtl [.hashkeyPattern .matchPrefix [104]] .fromCurrent seconds

end CompactionFilter

end Pegasus.Server
