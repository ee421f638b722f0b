/-
Which partition a key belongs to, after `pegasus_key_schema.h`, `partition_resolver.cpp`,
`key_ttl_compaction_filter.h`, `replica_split_manager.h` and the checks of the meta server on
partition counts.

A client takes the hash of a key modulo the partition count. A replica masks the hash with its
partition version, one less than the partition count, and compares with its own index: before
it serves a request, in a scan, and in a compaction, which drops what does not belong to it.

- `routingAgrees_iff`: both ways agree for the tables whose first partition count is a power of
  two.
-/

import Pegasus.Lib.Crc
import Pegasus.Server.Storage

namespace Pegasus.Server

/-! ### Hashes -/

def crc64Poly : BitVec 64 := 0x9a6c9329ac4bc9b5#64

/-- `crc64_calc`, from an initial check of 0. -/
def crc64Calc (bytes : Bytes) : UInt64 := ⟨Crc.compute crc64Poly bytes 0#64⟩

/-- `pegasus_key_hash`. It aborts on a key that is shorter than it says. -/
def pegasusKeyHash : Bytes → Option UInt64
  | high :: low :: rest =>
    let hashKeyLen := 256 * high.toNat + low.toNat
    if 0 < hashKeyLen then
      if hashKeyLen ≤ rest.length then some (crc64Calc (rest.take hashKeyLen)) else none
    else some (crc64Calc rest)
  | _ => none

/-- The `int32_t` operand of a `uint64_t` operation. -/
def extendSign (x : Int) : Nat := (x % 2 ^ 64).toNat

def checkPegasusKeyHash (key : Bytes) (pidx partitionVersion : Int) : Option Bool :=
  (pegasusKeyHash key).map fun hash =>
    decide (hash.toNat &&& extendSign partitionVersion = extendSign pidx)

def checkPartitionHash (partitionHash : UInt64) (pidx partitionVersion : Int) : Bool :=
  decide (extendSign partitionVersion &&& partitionHash.toNat = extendSign pidx)

/-! ### Clients -/

/-- `partition_resolver::get_partition_index`, for a positive count. -/
def getPartitionIndex (partitionCount : Nat) (partitionHash : UInt64) : Nat :=
  partitionHash.toNat % partitionCount

def singleHash (hashKey sortKey : Bytes) : Option UInt64 :=
  (generateKey hashKey sortKey).bind pegasusKeyHash

/-- The hash a client sends a multi write with. It refuses an empty hash key. -/
def multiHash (hashKey : Bytes) : Option UInt64 :=
  if hashKey = [] then none else (generateKey hashKey []).bind pegasusKeyHash

/-! ### Replicas -/

def checkIfStaleSplitData (validatePartitionHash : Bool) (pidx partitionVersion : Int)
    (key : Bytes) : Option Bool :=
  if validatePartitionHash = false ∨ key.length < 2 ∨ partitionVersion < 0 ∨
      partitionVersion < pidx then
    some false
  else (checkPegasusKeyHash key pidx partitionVersion).map not

/-- Whether `validate_key_value_for_scan` gives `kHashInvalid`, for a record that has not expired. -/
def scanHashInvalid (requestValidateHash validatePartitionHash : Bool) (pidx partitionVersion : Int)
    (key : Bytes) : Option Bool :=
  if requestValidateHash && validatePartitionHash then
    if partitionVersion < 0 ∨ partitionVersion < pidx then some true
    else (checkPegasusKeyHash key pidx partitionVersion).map not
  else some false

/-- How `CHECK_REQUEST_IF_SPLITTING` ends. -/
inductive RequestCheck where
  | served
  | splitting
  | parentPartitionMisused
deriving DecidableEq

def checkRequestIfSplitting (validatePartitionHash : Bool) (pidx partitionVersion : Int)
    (partitionHash : UInt64) : RequestCheck :=
  if validatePartitionHash = false then .served
  else if partitionVersion = -1 then .splitting
  else if checkPartitionHash partitionHash pidx partitionVersion then .served
  else .parentPartitionMisused

/-! ### Tables -/

structure PartitionCount where
  value : Nat
  pos : 0 < value
  lt : value < 2 ^ 31

/-- The partition count that `create_app` accepts. -/
def createApp (requested : Int32) : Option PartitionCount :=
  if h : 0 < requested.toInt then
    some ⟨requested.toInt.toNat, by omega, by have := requested.toInt_lt; omega⟩
  else none

namespace PartitionCount

/-- A completed split. The count has to fit: the partitions cannot be resized to a negative
count. -/
def split (count : PartitionCount) : Option PartitionCount :=
  if h : count.value * 2 < 2 ^ 31 then some ⟨count.value * 2, by have := count.pos; omega, h⟩
  else none

def splits : Nat → PartitionCount → Option PartitionCount
  | 0, count => some count
  | n + 1, count => count.split.bind (splits n)

def version (count : PartitionCount) : Int := count.value - 1

/-- **Client routing agrees with ownership**: every key has a hash, whose partition is the only one
to own the key, and there no check judges the key stale, invalid or misused. -/
def RoutingAgrees (count : PartitionCount) : Prop :=
  ∀ hashKey sortKey raw, generateKey hashKey sortKey = some raw →
    ∃ hash, singleHash hashKey sortKey = some hash ∧
      (hashKey ≠ [] → multiHash hashKey = some hash) ∧
      (∀ pidx : Nat, pidx < count.value →
        (checkPegasusKeyHash raw pidx count.version = some true ↔
            pidx = getPartitionIndex count.value hash) ∧
          (checkPartitionHash hash pidx count.version = true ↔
            pidx = getPartitionIndex count.value hash)) ∧
      (∀ validate,
        checkIfStaleSplitData validate (getPartitionIndex count.value hash) count.version raw =
          some false ∧
        checkRequestIfSplitting validate (getPartitionIndex count.value hash) count.version hash =
          .served ∧
        ∀ requested, scanHashInvalid requested validate (getPartitionIndex count.value hash)
          count.version raw = some false)

end PartitionCount

/-! ### The hash of a key -/

variable {hashKey sortKey raw : Bytes}

theorem pegasusKeyHash_generateKey (hraw : generateKey hashKey sortKey = some raw) :
    pegasusKeyHash raw = some (crc64Calc (if hashKey = [] then sortKey else hashKey)) := by
  unfold generateKey at hraw
  split at hraw
  · rename_i hlength
    cases hraw
    have hlen : 256 * (UInt8.ofNat (hashKey.length / 256)).toNat +
        (UInt8.ofNat (hashKey.length % 256)).toNat = hashKey.length := by
      simp only [UInt8.toNat_ofNat']
      omega
    rw [pegasusKeyHash, hlen]
    cases hashKey with
    | nil => simp
    | cons b rest => simp
  · cases hraw

theorem multiHash_eq (hraw : generateKey hashKey sortKey = some raw) (hne : hashKey ≠ []) :
    multiHash hashKey = pegasusKeyHash raw := by
  have hlength : hashKey.length < 65535 := by
    by_contra h
    simp [generateKey, h] at hraw
  rw [multiHash, if_neg hne, pegasusKeyHash_generateKey hraw, if_neg hne]
  obtain ⟨tmp, htmp⟩ : ∃ tmp, generateKey hashKey [] = some tmp := by simp [generateKey, hlength]
  rw [htmp, Option.bind_some, pegasusKeyHash_generateKey htmp, if_neg hne]

theorem exists_hashKey (hash : UInt64) :
    ∃ hashKey raw, generateKey hashKey [] = some raw ∧ pegasusKeyHash raw = some hash := by
  have hpoly : crc64Poly.msb = true := by decide
  obtain ⟨hashKey, hlength, hcompute⟩ := Crc.compute_surjective (n := 8) hpoly 0#64 hash.toBitVec
  obtain ⟨raw, hraw⟩ : ∃ raw, generateKey hashKey [] = some raw := by simp [generateKey, hlength]
  refine ⟨hashKey, raw, hraw, ?_⟩
  have hne : hashKey ≠ [] := by
    rintro rfl
    simp at hlength
  rw [pegasusKeyHash_generateKey hraw, if_neg hne, crc64Calc]
  exact congrArg some (UInt64.toBitVec_inj.mp hcompute)

/-! ### Masks and remainders -/

theorem extendSign_natCast {n : Nat} (hn : n < 2 ^ 64) : extendSign (n : Int) = n := by
  unfold extendSign
  omega

namespace PartitionCount

variable {count final : PartitionCount}

theorem extendSign_version (count : PartitionCount) :
    extendSign count.version = count.value - 1 := by
  have := count.pos
  have := count.lt
  unfold extendSign version
  omega

variable {pidx n : Nat}

theorem checkPegasusKeyHash_eq {raw : Bytes} {hash : UInt64}
    (hhash : pegasusKeyHash raw = some hash) (hpidx : pidx < count.value) :
    checkPegasusKeyHash raw pidx count.version =
      some (decide (hash.toNat &&& (count.value - 1) = pidx)) := by
  have := count.lt
  rw [checkPegasusKeyHash, hhash, extendSign_version, extendSign_natCast (by omega)]
  rfl

theorem checkPartitionHash_eq (hash : UInt64) (hpidx : pidx < count.value) :
    checkPartitionHash hash pidx count.version =
      decide (hash.toNat &&& (count.value - 1) = pidx) := by
  have := count.lt
  rw [checkPartitionHash, extendSign_version, extendSign_natCast (by omega), Nat.and_comm]

theorem routingAgrees_iff_mask : RoutingAgrees count ↔
    ∀ hash : UInt64, hash.toNat &&& (count.value - 1) = hash.toNat % count.value := by
  have hindex : ∀ hash, getPartitionIndex count.value hash < count.value :=
    fun hash => Nat.mod_lt _ count.pos
  constructor
  · intro agrees hash
    obtain ⟨hashKey, raw, hraw, hhash⟩ := exists_hashKey hash
    obtain ⟨hash', hsingle, _, howner, _⟩ := agrees hashKey [] raw hraw
    obtain rfl : hash = hash' := by
      rw [singleHash, hraw, Option.bind_some, hhash] at hsingle
      exact Option.some.inj hsingle
    have hcheck := (howner _ (hindex hash)).2.mpr rfl
    rw [checkPartitionHash_eq hash (hindex hash)] at hcheck
    exact of_decide_eq_true hcheck
  · intro hmask hashKey sortKey raw hraw
    obtain ⟨hash, hhash⟩ : ∃ hash, pegasusKeyHash raw = some hash :=
      ⟨_, pegasusKeyHash_generateKey hraw⟩
    have hcheck := checkPegasusKeyHash_eq hhash (hindex hash)
    have hserved := checkPartitionHash_eq hash (hindex hash)
    have howned : hash.toNat &&& (count.value - 1) = getPartitionIndex count.value hash :=
      hmask hash
    rw [decide_eq_true howned] at hcheck hserved
    refine ⟨hash, by rw [singleHash, hraw, Option.bind_some, hhash],
      fun hne => (multiHash_eq hraw hne).trans hhash, ?_, ?_⟩
    · intro pidx hpidx
      rw [checkPegasusKeyHash_eq hhash hpidx, checkPartitionHash_eq hash hpidx, howned]
      simp [eq_comm]
    · have hversion : ¬ count.version < getPartitionIndex count.value hash := by
        have := hindex hash
        unfold version
        omega
      have hnonneg : ¬ count.version < 0 := by
        have := count.pos
        unfold version
        omega
      intro validate
      refine ⟨?_, ?_, fun requested => ?_⟩
      · unfold checkIfStaleSplitData
        split
        · rfl
        · rw [hcheck]
          rfl
      · unfold checkRequestIfSplitting
        have hsplitting : ¬ count.version = -1 := by omega
        rw [if_neg hsplitting, hserved]
        simp
      · unfold scanHashInvalid
        rw [if_neg (not_or.mpr ⟨hnonneg, hversion⟩), hcheck]
        simp

/-- Masking is taking the remainder for the powers of two only. -/
theorem mask_iff_isPowerOfTwo (count : PartitionCount) :
    (∀ hash : UInt64, hash.toNat &&& (count.value - 1) = hash.toNat % count.value) ↔
      count.value.isPowerOfTwo := by
  constructor
  · intro hmask
    -- the count itself, as a hash
    have hcount := hmask (UInt64.ofNat count.value)
    have hlt := count.lt
    have hword : (UInt64.ofNat count.value).toNat = count.value := by
      rw [UInt64.toNat_ofNat']
      omega
    rw [hword, Nat.mod_self] at hcount
    exact (Nat.and_sub_one_eq_zero_iff_isPowerOfTwo count.pos.ne').mp hcount
  · rintro ⟨k, hk⟩ hash
    rw [hk, Nat.and_two_pow_sub_one_eq_mod]

theorem value_splits (hsplits : count.splits n = some final) :
    final.value = count.value * 2 ^ n := by
  induction n generalizing count with
  | zero =>
    cases hsplits
    simp
  | succ n ih =>
    obtain ⟨next, hsplit, hrest⟩ := Option.bind_eq_some_iff.mp hsplits
    unfold split at hsplit
    split at hsplit
    · cases hsplit
      rw [ih hrest, pow_succ']
      simp [Nat.mul_assoc]
    · cases hsplit

theorem isPowerOfTwo_splits (hsplits : count.splits n = some final) :
    final.value.isPowerOfTwo ↔ count.value.isPowerOfTwo := by
  rw [value_splits hsplits]
  constructor
  · rintro ⟨k, hk⟩
    obtain ⟨j, _, hj⟩ := (Nat.dvd_prime_pow Nat.prime_two).mp ⟨2 ^ n, hk.symm⟩
    exact ⟨j, hj⟩
  · rintro ⟨k, hk⟩
    exact ⟨k + n, by rw [hk, pow_add]⟩

/-- **Splits divide the keys of a partition**: a key belongs to it just if it belongs, after any
number of splits, to a partition that comes from it. -/
theorem splits_divide_keys (hpower : count.value.isPowerOfTwo)
    (hsplits : count.splits n = some final) {raw : Bytes} {hash : UInt64}
    (hhash : pegasusKeyHash raw = some hash) (hpidx : pidx < count.value) :
    checkPegasusKeyHash raw pidx count.version = some true ↔
      ∃ child : Nat, child < final.value ∧ child % count.value = pidx ∧
        checkPegasusKeyHash raw child final.version = some true := by
  have hmask := (mask_iff_isPowerOfTwo final).mpr ((isPowerOfTwo_splits hsplits).mpr hpower) hash
  have hmod : hash.toNat % final.value % count.value = hash.toNat % count.value := by
    rw [value_splits hsplits, Nat.mod_mul_right_mod]
  rw [checkPegasusKeyHash_eq hhash hpidx, (mask_iff_isPowerOfTwo count).mpr hpower, ← hmod]
  constructor
  · intro hparent
    have hlt := Nat.mod_lt hash.toNat final.pos
    refine ⟨_, hlt, of_decide_eq_true (Option.some.inj hparent), ?_⟩
    rw [checkPegasusKeyHash_eq hhash hlt, hmask, decide_eq_true rfl]
  · rintro ⟨child, hlt, rfl, hchild⟩
    rw [checkPegasusKeyHash_eq hhash hlt, hmask] at hchild
    rw [of_decide_eq_true (Option.some.inj hchild), decide_eq_true rfl]

theorem splits_divide_keys_four : ∃ child : Nat, child < 8 ∧ child % 4 = 0 ∧
    checkPegasusKeyHash [0, 1, 0] child 7 = some true :=
  have hsplits : splits 1 ⟨4, by decide, by decide⟩ = some ⟨8, by decide, by decide⟩ := rfl
  have hraw : generateKey [0] [] = some [0, 1, 0] := rfl
  (splits_divide_keys ⟨2, rfl⟩ hsplits (pegasusKeyHash_generateKey hraw) (by decide)).mp
    (by decide +kernel)

/-- **Client routing and ownership**: after any number of splits they agree exactly for the tables
that were created with a power of two as their partition count. -/
theorem routingAgrees_iff (requested : Int32) (n : Nat)
    (hcreate : createApp requested = some count) (hsplits : count.splits n = some final) :
    final.RoutingAgrees ↔ ∃ k, requested.toInt = 2 ^ k := by
  have hvalue : (count.value : Int) = requested.toInt := by
    unfold createApp at hcreate
    split at hcreate
    · cases hcreate
      simp only [Int.toNat_of_nonneg (le_of_lt ‹_›)]
    · cases hcreate
  rw [routingAgrees_iff_mask, mask_iff_isPowerOfTwo, isPowerOfTwo_splits hsplits, ← hvalue]
  constructor
  · rintro ⟨k, hk⟩
    exact ⟨k, by rw [hk]; simp⟩
  · rintro ⟨k, hk⟩
    exact ⟨k, by exact_mod_cast hk⟩

/-- A table of 4 partitions, after one split. -/
theorem routingAgrees_four_split :
    createApp 4 = some ⟨4, by decide, by decide⟩ ∧
      splits 1 ⟨4, by decide, by decide⟩ = some ⟨8, by decide, by decide⟩ ∧
      RoutingAgrees ⟨8, by decide, by decide⟩ :=
  ⟨rfl, rfl, (routingAgrees_iff 4 1 rfl rfl).mpr ⟨2, rfl⟩⟩

/-- A table of 3 partitions, after one split: the key with the hash key of one zero byte is written
to partition 2 and dropped by the next compaction there. -/
theorem live_key_dropped_after_split :
    createApp 3 = some ⟨3, by decide, by decide⟩ ∧
      splits 1 ⟨3, by decide, by decide⟩ = some ⟨6, by decide, by decide⟩ ∧
      generateKey [0] [] = some [0, 1, 0] ∧
      (singleHash [0] []).map (getPartitionIndex 6) = some 2 ∧
      checkIfStaleSplitData true 2 5 [0, 1, 0] = some true ∧
      ¬ RoutingAgrees ⟨6, by decide, by decide⟩ := by
  have hindex : (singleHash [0] []).map (getPartitionIndex 6) = some 2 := by decide +kernel
  have hstale : checkIfStaleSplitData true 2 5 [0, 1, 0] = some true := by decide +kernel
  refine ⟨rfl, rfl, rfl, hindex, hstale, fun agrees => ?_⟩
  obtain ⟨hash, hsingle, _, _, hchecks⟩ := agrees [0] [] [0, 1, 0] rfl
  rw [hsingle] at hindex
  have hfresh := (hchecks true).1
  rw [Option.some.inj hindex] at hfresh
  exact Bool.noConfusion (Option.some.inj (hfresh.symm.trans hstale))

end PartitionCount

end Pegasus.Server
