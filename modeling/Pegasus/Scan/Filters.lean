/-
The queries of a client scan (`Pegasus.Scan.Filters`), after `pegasus_scanner_impl.cpp`,
`pegasus_server_impl.cpp` and `pegasus_key_schema.h`.

- `validateKeyValueForScan`: which records a scan returns;
- `prefixStartKey_le_of_normal`: a prefix of the hash key bounds the keys from below;
- `ScanOptions.query`: the query of the exchange for the options of a scanner;
- `scan_restarts_after_loss`, `empty_answer_repeats`: two scans of three records.
-/

import Pegasus.Server.KeyHash
import Pegasus.Scan.Delivery

namespace Pegasus.Scan

open TransitionSystem List
open Pegasus.Server

/-! ### Keys -/

structure RawKey where
  bytes : Bytes
deriving DecidableEq

/-- The order of the database compares bytes as unsigned characters. -/
def RawKey.rank (key : RawKey) : List Nat := key.bytes.map UInt8.toNat

theorem RawKey.rank_injective : Function.Injective RawKey.rank := by
  rintro ⟨a⟩ ⟨b⟩ hab
  have hinj : Function.Injective UInt8.toNat := fun _ _ => UInt8.toNat_inj.mp
  exact congrArg _ (map_injective_iff.mpr hinj hab)

instance : LinearOrder RawKey := LinearOrder.lift' RawKey.rank RawKey.rank_injective

theorem RawKey.le_iff {a b : RawKey} : a ≤ b ↔ a.rank ≤ b.rank := Iff.rfl

/-- `pegasus_restore_key`. It aborts on a key that is shorter than it says. -/
def restoreKey : Bytes → Option (Bytes × Bytes)
  | high :: low :: rest =>
    let hashKeyLen := 256 * high.toNat + low.toNat
    if hashKeyLen ≤ rest.length then some (rest.take hashKeyLen, rest.drop hashKeyLen) else none
  | _ => none

/-! ### Filters -/

/-- `filter_type`, as far as it is supported. -/
inductive FilterType where
  | noFilter
  | matchAnywhere
  | matchPrefix
  | matchPostfix
deriving DecidableEq

def validateFilter (filterType : FilterType) (pattern value : Bytes) : Bool :=
  match filterType with
  | .noFilter => true
  | .matchAnywhere => pattern == [] || decide (pattern <:+: value)
  | .matchPrefix => pattern == [] || pattern.isPrefixOf value
  | .matchPostfix => pattern == [] || pattern.isSuffixOf value

/-- What a partition checks the ownership of a key with. -/
structure PartitionInfo where
  partitionIndex : Int
  partitionVersion : Int
  validatePartitionHash : Bool
deriving DecidableEq

/-- `scan_options`, the range of the scanner, and the clock. -/
structure ScanOptions where
  startKey : RawKey
  startInclusive : Bool
  stopKey : RawKey
  stopInclusive : Bool
  batchSize : Int
  onlyReturnCount : Bool
  hashKeyFilterType : FilterType := .noFilter
  hashKeyFilterPattern : Bytes := []
  sortKeyFilterType : FilterType := .noFilter
  sortKeyFilterPattern : Bytes := []
  validatePartitionHash : Bool := false
  fullScan : Bool := false
  /-- Whether the data of the table has a prefix extractor. -/
  hasPrefixExtractor : Bool := true
  epochNow : UInt32 := 0
  /-- A longer pattern cannot be made a key. -/
  short : hashKeyFilterPattern.length < 65535 := by decide

def validateKeyValueForScan (o : ScanOptions) (info : PartitionInfo) (key : Bytes) (value : Value) :
    Option RangeIterationState := do
  if checkIfTsExpired o.epochNow value.expireTs then return .expired
  if ← scanHashInvalid o.validatePartitionHash info.validatePartitionHash info.partitionIndex
      info.partitionVersion key then return .hashInvalid
  if o.hashKeyFilterType ≠ .noFilter ∨ o.sortKeyFilterType ≠ .noFilter then
    let (hashKey, sortKey) ← restoreKey key
    if validateFilter o.hashKeyFilterType o.hashKeyFilterPattern hashKey = false then
      return .filtered
    if validateFilter o.sortKeyFilterType o.sortKeyFilterPattern sortKey = false then
      return .filtered
  return .normal

def ScanOptions.prefixStartKey (o : ScanOptions) : Option RawKey :=
  if o.hashKeyFilterType = .matchPrefix ∧ 0 < o.hashKeyFilterPattern.length then
    (generateKey o.hashKeyFilterPattern []).map RawKey.mk
  else none

theorem le_append (a t : List Nat) : a ≤ a ++ t := by
  induction a with
  | nil =>
    cases t with
    | nil => exact le_rfl
    | cons x t => exact le_of_lt List.Lex.nil
  | cons x a ih => exact List.cons_le_cons x ih

theorem generateKey_le {pattern hashKey sortKey key least : Bytes}
    (hkey : restoreKey key = some (hashKey, sortKey)) (hbegins : pattern <+: hashKey)
    (hleast : generateKey pattern [] = some least) : RawKey.mk least ≤ RawKey.mk key := by
  unfold restoreKey at hkey
  split at hkey
  · rename_i high low rest
    dsimp only at hkey
    split_ifs at hkey with hlength
    cases hkey
    obtain ⟨hshort, rfl⟩ := of_guard hleast
    have hle := hbegins.length_le
    rw [length_take, min_eq_left hlength] at hle
    have hhigh : (UInt8.ofNat (pattern.length / 256)).toNat = pattern.length / 256 :=
      by rw [UInt8.toNat_ofNat']; omega
    have hlow : (UInt8.ofNat (pattern.length % 256)).toNat = pattern.length % 256 :=
      by rw [UInt8.toNat_ofNat']; omega
    have hlowBound := low.toNat_lt
    rw [RawKey.le_iff]
    simp only [RawKey.rank, map_cons, hhigh, hlow, append_nil]
    -- a shorter pattern has the smaller length, one of the same length is the hash key
    rcases hle.lt_or_eq with hlt | heq
    · by_cases hsame : pattern.length / 256 = high.toNat
      · rw [hsame]
        exact le_of_lt (List.Lex.cons (List.Lex.rel (by omega)))
      · exact le_of_lt (List.Lex.rel (by omega))
    · have hhigh_eq : pattern.length / 256 = high.toNat := by omega
      have hlow_eq : pattern.length % 256 = low.toNat := by omega
      obtain ⟨t, ht⟩ := hbegins.trans (List.take_prefix _ _)
      rw [hhigh_eq, hlow_eq, ← ht, map_append]
      exact List.cons_le_cons _ (List.cons_le_cons _ (le_append _ _))
  · cases hkey

variable {o : ScanOptions} {info : PartitionInfo} {value : Value}

theorem validateFilter_of_normal {key : Bytes}
    (hnormal : validateKeyValueForScan o info key value = some .normal)
    (hfilter : o.hashKeyFilterType ≠ .noFilter) :
    ∃ hashKey sortKey, restoreKey key = some (hashKey, sortKey) ∧
      validateFilter o.hashKeyFilterType o.hashKeyFilterPattern hashKey = true := by
  unfold validateKeyValueForScan at hnormal
  by_cases hexpired : checkIfTsExpired o.epochNow value.expireTs = true
  · simp [hexpired] at hnormal
  simp only [hexpired, Bool.false_eq_true, if_false, Option.bind_eq_bind, Option.bind_eq_some_iff]
    at hnormal
  obtain ⟨invalid, -, hnormal⟩ := hnormal
  cases invalid with
  | true => simp at hnormal
  | false =>
    simp only [Bool.false_eq_true, if_false, hfilter, ne_eq, not_false_eq_true, true_or, if_true,
      Option.bind_eq_some_iff] at hnormal
    obtain ⟨⟨hashKey, sortKey⟩, hrestore, hnormal⟩ := hnormal
    refine ⟨hashKey, sortKey, hrestore, ?_⟩
    by_contra hpasses
    have hrefused : validateFilter o.hashKeyFilterType o.hashKeyFilterPattern hashKey = false := by
      simpa using hpasses
    simp [hrefused] at hnormal

theorem prefixStartKey_le_of_normal {key : RawKey}
    (hnormal : validateKeyValueForScan o info key.bytes value = some .normal) {least : RawKey}
    (hleast : least ∈ o.prefixStartKey) : least ≤ key := by
  unfold ScanOptions.prefixStartKey at hleast
  split_ifs at hleast with hbegins
  · obtain ⟨bytes, hbytes, rfl⟩ := Option.map_eq_some_iff.mp hleast
    obtain ⟨hashKey, sortKey, hrestore, hpasses⟩ :=
      validateFilter_of_normal hnormal (by simp [hbegins.1])
    have hne : o.hashKeyFilterPattern ≠ [] := length_pos_iff.mp hbegins.2
    simp only [validateFilter, hbegins.1, Bool.or_eq_true, beq_iff_eq, hne, false_or,
      isPrefixOf_iff_prefix] at hpasses
    exact generateKey_le hrestore hpasses hbytes
  · cases hleast

/-- The query of a scanner. A stored key is as long as it says, so the check does not abort. -/
def ScanOptions.query {Partition : Type} (o : ScanOptions) (infos : Partition → PartitionInfo) :
    Query RawKey Value Partition where
  startKey := o.startKey
  startInclusive := o.startInclusive
  stopKey := o.stopKey
  stopInclusive := o.stopInclusive
  batchSize := o.batchSize
  onlyReturnCount := o.onlyReturnCount
  validate h record := (validateKeyValueForScan o (infos h) record.1.bytes record.2).getD .filtered
  prefixStartKey := o.prefixStartKey
  seeksAnywhere := !o.hasPrefixExtractor || o.fullScan
  prefixStartKey_le := by
    intro h record hnormal least hleast
    cases hstate : validateKeyValueForScan o (infos h) record.1.bytes record.2 with
    | none => simp [hstate] at hnormal
    | some state =>
      rw [hstate, Option.getD_some] at hnormal
      exact prefixStartKey_le_of_normal (hnormal ▸ hstate) hleast

/-! ### Two scans -/

/-- A record under the hash key `h`, which does not expire. -/
def recordAt (sortKey : Bytes) : RawKey × Value := (⟨[0, 1, 104] ++ sortKey⟩, ⟨0, none, []⟩)

def threeRecords : Servers RawKey Value Unit where
  data _ := ⟨[recordAt [97, 120], recordAt [98], recordAt [99, 120]], by decide⟩
  maxIterationCount := 1000

def withX : Query RawKey Value Unit :=
  ScanOptions.query
    { startKey := ⟨[0, 1, 104]⟩
      startInclusive := true
      stopKey := ⟨[0, 1, 105]⟩
      stopInclusive := false
      batchSize := 1
      onlyReturnCount := false
      sortKeyFilterType := .matchAnywhere
      sortKeyFilterPattern := [120] } fun _ => ⟨0, 0, false⟩

def newScanner : Exchange RawKey Value Unit where
  splits := [()]
  caches _ := { counter := 7 }

/-- The context is lost while the scanner holds a record, and the scan goes on after it. -/
theorem scan_restarts_after_loss :
    ∃ s, run (Exchange.step withX threeRecords) newScanner
        [.turn, .turn, .serve, .turn, .lose () 7, .turn, .serve, .turn, .serve, .turn, .turn] =
          some s ∧ s.finished = true ∧ s.delivered = [recordAt [97, 120], recordAt [99, 120]] := by
  have hinit : newScanner.Initial := by
    refine ⟨rfl, rfl, rfl, rfl, rfl, fun _ _ => rfl, rfl, rfl, rfl⟩
  have hseekable : newScanner.splits ≠ [] → withX.Seekable :=
    fun _ => ⟨.inl (by decide), by decide⟩
  have hbenign : StepsMeet (Exchange.step withX threeRecords) Exchange.Benign
      newScanner [.turn, .turn, .serve, .turn, .lose () 7, .turn, .serve, .turn, .serve, .turn,
        .turn] := by
    iterate 4 refine stepsMeet_cons trivial rfl ?_
    refine stepsMeet_cons (fun _ _ => .inl (cons_ne_nil _ _)) rfl ?_
    iterate 6 refine stepsMeet_cons trivial rfl ?_
    trivial
  have hmost : ∀ p, Exchange.size threeRecords p ≤ 3 := fun _ => le_rfl
  have h := Exchange.delivered_exactly_once withX threeRecords (by decide) hinit hseekable rfl
    hbenign hmost
  exact ⟨_, rfl, rfl, (h.2.1 rfl).2 rfl⟩

/-- **A context lost after an empty answer makes the scan start over.** The second answer is empty,
since its record is filtered. Its context is lost, and the first record is delivered again. -/
theorem empty_answer_repeats :
    (run (Exchange.step withX threeRecords) newScanner
      [.turn, .turn, .serve, .turn, .turn, .serve, .turn, .lose () 8, .serve, .turn, .serve,
        .turn]).map Exchange.delivered = some [recordAt [97, 120], recordAt [97, 120]] ∧
      expected withX threeRecords () = [recordAt [97, 120], recordAt [99, 120]] := by
  decide

end Pegasus.Scan
