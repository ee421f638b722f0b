/-
The layout of raw values, after `value_schema_v0.cpp`, `value_schema_v1.cpp`, `value_schema_v2.cpp`
and `value_schema_manager.cpp`.

A raw value begins with its expire timestamp in versions 0 and 1, and with a byte that has its top
bit set in version 2. The manager looks at the top bit of the first byte: if it is set, the other
bits are taken for the version, and otherwise the version is the one of the table. In versions 0 and
1 the top bit is that of the timestamp.

- `generateValue`, `getValueSchema`, `extractTimestamp`, `extractTimeTag`, `extractUserData`,
  `updateExpireTs`: the functions of the schemas;
- `getValueSchema_generateValue_iff`: when the manager chooses the version of a value;
- `values_describe_themselves_iff`: the main result;
- `late_timestamp_is_taken_for_a_version`: a timestamp with the top bit.
-/

import Pegasus.Lib.Bytes
import Pegasus.Server.Storage

namespace Pegasus.Server

open List

/-! ### Words in network order -/

namespace BigEndian

def write (width x : Nat) : Bytes := (ByteString.ofNat width x).reverse

/-- The word that `data_input` reads; `none` if there are not enough bytes. -/
def read (width offset : Nat) (bytes : Bytes) : Option Nat :=
  if offset + width ≤ bytes.length then
    some (ByteString.toNat ((bytes.drop offset).take width).reverse)
  else none

@[simp] theorem length_write (width x : Nat) : (write width x).length = width := by simp [write]

theorem read_append {front : Bytes} {offset : Nat} (hoffset : front.length = offset) {width x : Nat}
    (hx : x < 256 ^ width) (back : Bytes) :
    read width offset (front ++ (write width x ++ back)) = some x := by
  unfold read
  rw [if_pos (by simp only [length_append, length_write]; omega), drop_left' hoffset,
    take_left' (length_write width x), write, reverse_reverse, ByteString.toNat_ofNat,
    Nat.mod_eq_of_lt hx]

end BigEndian

/-! ### The schemas -/

/-- `data_version`. -/
inductive SchemaVersion where
  | v0
  | v1
  | v2
deriving DecidableEq

/-- The fields of a value. Version 0 does not store the timetag. -/
structure ValueParams where
  expireTs : UInt32
  timeTag : UInt64
  userData : Bytes

namespace SchemaVersion

/-- `version()` of a schema. -/
def number : SchemaVersion → Nat
  | v0 => 0
  | v1 => 1
  | v2 => 2

/-- What stands in front of the expire timestamp: in version 2 the version itself. -/
def versionBytes : SchemaVersion → Bytes
  | v0 => []
  | v1 => []
  | v2 => [0x80 ||| 2]

def timeTagBytes (timeTag : UInt64) : SchemaVersion → Bytes
  | v0 => []
  | v1 => BigEndian.write 8 timeTag.toNat
  | v2 => BigEndian.write 8 timeTag.toNat

def userDataOffset : SchemaVersion → Nat
  | v0 => 4
  | v1 => 4 + 8
  | v2 => 1 + 4 + 8

def generateValue (v : SchemaVersion) (p : ValueParams) : Bytes :=
  v.versionBytes ++ (BigEndian.write 4 p.expireTs.toNat ++ (v.timeTagBytes p.timeTag ++ p.userData))

def extractTimestamp (v : SchemaVersion) (value : Bytes) : Option UInt32 :=
  (BigEndian.read 4 v.versionBytes.length value).map UInt32.ofNat

/-- `extract_time_tag`; version 0 has none and aborts. -/
def extractTimeTag (v : SchemaVersion) (value : Bytes) : Option UInt64 :=
  match v with
  | v0 => none
  | v1 => (BigEndian.read 8 4 value).map UInt64.ofNat
  | v2 => (BigEndian.read 8 5 value).map UInt64.ofNat

def extractUserData (v : SchemaVersion) (value : Bytes) : Option Bytes :=
  if v.userDataOffset ≤ value.length then some (value.drop v.userDataOffset) else none

/-- `update_field` with an expire timestamp, which is `update_expire_ts`. -/
def updateExpireTs (v : SchemaVersion) (value : Bytes) (expireTs : UInt32) : Option Bytes :=
  let offset := v.versionBytes.length
  if offset + 4 ≤ value.length then
    some (value.take offset ++ (BigEndian.write 4 expireTs.toNat ++ value.drop (offset + 4)))
  else none

def ofNumber? : Nat → Option SchemaVersion
  | 0 => some v0
  | 1 => some v1
  | 2 => some v2
  | _ => none

def getValueSchema (metaCfDataVersion : UInt32) (value : Bytes) : Option SchemaVersion :=
  value.head?.bind fun first =>
    if first &&& 0x80 ≠ 0 then
      -- an unknown version is read with the latest schema
      some ((ofNumber? (first &&& 0x7f).toNat).getD v2)
    else ofNumber? metaCfDataVersion.toNat

/-! ### Round trips -/

variable (v : SchemaVersion) (p : ValueParams)

theorem extractTimestamp_generateValue :
    v.extractTimestamp (v.generateValue p) = some p.expireTs := by
  unfold extractTimestamp generateValue
  rw [BigEndian.read_append rfl (by simpa using p.expireTs.toNat_lt)]
  simp

theorem extractTimeTag_generateValue (hv : v ≠ .v0) :
    v.extractTimeTag (v.generateValue p) = some p.timeTag := by
  have hlt : p.timeTag.toNat < 256 ^ 8 := by simpa using p.timeTag.toNat_lt
  cases v with
  | v0 => exact absurd rfl hv
  | v1 =>
    have hread := BigEndian.read_append (BigEndian.length_write 4 p.expireTs.toNat) hlt p.userData
    simp only [extractTimeTag, generateValue, versionBytes, timeTagBytes, nil_append, hread,
      Option.map_some, UInt64.ofNat_toNat]
  | v2 =>
    have hlength : ([0x80 ||| 2] ++ BigEndian.write 4 p.expireTs.toNat : Bytes).length = 5 := by
      simp
    have hread := BigEndian.read_append hlength hlt p.userData
    rw [append_assoc] at hread
    simp only [extractTimeTag, generateValue, versionBytes, timeTagBytes, hread, Option.map_some,
      UInt64.ofNat_toNat]

theorem length_header : (v.versionBytes ++ (BigEndian.write 4 p.expireTs.toNat ++
    v.timeTagBytes p.timeTag)).length = v.userDataOffset := by
  cases v <;> simp [versionBytes, timeTagBytes, userDataOffset]

theorem extractUserData_generateValue :
    v.extractUserData (v.generateValue p) = some p.userData := by
  have hheader : v.generateValue p = (v.versionBytes ++ (BigEndian.write 4 p.expireTs.toNat ++
      v.timeTagBytes p.timeTag)) ++ p.userData := by
    simp only [generateValue, append_assoc]
  unfold extractUserData
  rw [hheader, if_pos (by rw [length_append, length_header]; omega), drop_left' (length_header v p)]

theorem updateExpireTs_generateValue (expireTs : UInt32) :
    v.updateExpireTs (v.generateValue p) expireTs =
      some (v.generateValue { p with expireTs := expireTs }) := by
  have hdrop : (v.generateValue p).drop (v.versionBytes.length + 4) =
      v.timeTagBytes p.timeTag ++ p.userData := by
    unfold generateValue
    rw [← append_assoc]
    exact drop_left' (by simp)
  unfold updateExpireTs
  simp only [hdrop]
  rw [if_pos (by simp only [generateValue, length_append, BigEndian.length_write]; omega)]
  simp only [generateValue, take_left]

/-! ### The choice of the schema -/

theorem ofNumber?_number : ofNumber? v.number = some v := by cases v <;> rfl

theorem ofNumber?_getD_eq_iff {n : Nat} (hv : v ≠ .v2) :
    (ofNumber? n).getD .v2 = v ↔ n = v.number := by
  rcases n with _ | _ | _ | n
  · cases v <;> simp_all [ofNumber?, number]
  · cases v <;> simp_all [ofNumber?, number]
  · cases v <;> simp_all [ofNumber?, number]
  · cases v <;> simp_all [ofNumber?, number]

theorem topBit_iff (b : UInt8) : b &&& 0x80 ≠ 0 ↔ 128 ≤ b.toNat := by
  have hall : ∀ x : BitVec 8, x &&& 0x80#8 ≠ 0#8 ↔ 128 ≤ x.toNat := by decide
  rw [ne_eq, ← UInt8.toBitVec_inj]
  exact hall b.toBitVec

theorem toNat_lowBits (b : UInt8) : (b &&& 0x7f).toNat = b.toNat % 128 := by
  have hall : ∀ x : BitVec 8, (x &&& 0x7f#8).toNat = x.toNat % 128 := by decide
  exact hall b.toBitVec

/-- The manager can tell the version of a value with this timestamp: the version is 2, the top bit
of the timestamp is not set, or its first byte happens to be the mark of the version. -/
def Recognisable (v : SchemaVersion) (expireTs : UInt32) : Prop :=
  v = .v2 ∨ expireTs.toNat < 2 ^ 31 ∨ expireTs.toNat / 2 ^ 24 = 128 + v.number

theorem head?_generateValue (hv : v ≠ .v2) : ∃ first : UInt8,
    (v.generateValue p).head? = some first ∧ first.toNat = p.expireTs.toNat / 2 ^ 24 := by
  have hlt := p.expireTs.toNat_lt
  refine ⟨UInt8.ofNat (p.expireTs.toNat / 256 / 256 / 256), ?_, ?_⟩
  · cases v with
    | v0 => rfl
    | v1 => rfl
    | v2 => exact absurd rfl hv
  · rw [UInt8.toNat_ofNat', Nat.div_div_eq_div_mul, Nat.div_div_eq_div_mul]
    omega

theorem getValueSchema_generateValue_iff {metaCfDataVersion : UInt32}
    (hmeta : v ≠ .v2 → metaCfDataVersion.toNat = v.number) :
    getValueSchema metaCfDataVersion (v.generateValue p) = some v ↔ Recognisable v p.expireTs := by
  by_cases hv : v = .v2
  · subst hv
    constructor
    · intro _
      exact .inl rfl
    · intro _
      rfl
  · obtain ⟨first, hhead, hfirst⟩ := head?_generateValue v p hv
    have hlt := p.expireTs.toNat_lt
    unfold getValueSchema Recognisable
    rw [hhead, Option.bind_some, toNat_lowBits, hmeta hv, ofNumber?_number]
    by_cases htop : 128 ≤ first.toNat
    · rw [if_pos ((topBit_iff first).mpr htop), Option.some_inj, ofNumber?_getD_eq_iff v hv]
      have hnumber : v.number < 128 := by cases v <;> decide
      constructor
      · intro heq
        exact .inr (.inr (by omega))
      · rintro (h | h | h)
        · exact absurd h hv
        · omega
        · omega
    · rw [if_neg (mt (topBit_iff first).mp htop)]
      constructor
      · intro _
        exact .inr (.inl (by omega))
      · intro _
        rfl

/-! ### The main result -/

/-- What holds of a value of a version and of the value after its timestamp is updated: the manager
chooses the version, and what was stored is read back. -/
structure DescribesItself (metaCfDataVersion expireTs : UInt32) : Prop where
  chosen : getValueSchema metaCfDataVersion (v.generateValue p) = some v
  timestamp : v.extractTimestamp (v.generateValue p) = some p.expireTs
  timeTag : v ≠ .v0 → v.extractTimeTag (v.generateValue p) = some p.timeTag
  userData : v.extractUserData (v.generateValue p) = some p.userData
  updated : ∃ value, v.updateExpireTs (v.generateValue p) expireTs = some value ∧
    getValueSchema metaCfDataVersion value = some v ∧ v.extractTimestamp value = some expireTs ∧
      (v ≠ .v0 → v.extractTimeTag value = some p.timeTag) ∧
        v.extractUserData value = some p.userData

/-- **Values describe themselves** if and only if the manager can tell their version by the
timestamp, before and after the update. The version of the table is that of the value, unless the
value is of version 2. -/
theorem values_describe_themselves_iff (metaCfDataVersion expireTs : UInt32)
    (hmeta : v ≠ .v2 → metaCfDataVersion.toNat = v.number) :
    DescribesItself v p metaCfDataVersion expireTs ↔
      Recognisable v p.expireTs ∧ Recognisable v expireTs := by
  have hnew := getValueSchema_generateValue_iff v { p with expireTs := expireTs } hmeta
  rw [← getValueSchema_generateValue_iff v p hmeta, ← hnew]
  constructor
  · intro h
    obtain ⟨value, hupdate, hchosen, -⟩ := h.updated
    rw [updateExpireTs_generateValue, Option.some_inj] at hupdate
    exact ⟨h.chosen, hupdate ▸ hchosen⟩
  · rintro ⟨hold, hnew⟩
    refine ⟨hold, extractTimestamp_generateValue v p, extractTimeTag_generateValue v p,
      extractUserData_generateValue v p, _, updateExpireTs_generateValue v p expireTs, hnew, ?_⟩
    exact ⟨extractTimestamp_generateValue v _, extractTimeTag_generateValue v _,
      extractUserData_generateValue v _⟩

theorem values_describe_themselves_one :
    DescribesItself .v1 ⟨1000, 7, [0x61]⟩ 1 2000 :=
  (values_describe_themselves_iff .v1 ⟨1000, 7, [0x61]⟩ 1 2000 (fun _ => rfl)).mpr
    ⟨.inr (.inl (by decide)), .inr (.inl (by decide))⟩

/-- A value of version 1 that expires at `2 ^ 31` is taken for one of version 0, so that its timetag
is read as user data. -/
theorem late_timestamp_is_taken_for_a_version :
    getValueSchema 1 (generateValue .v1 ⟨0x80000000, 7, [0x61]⟩) = some .v0 ∧
      extractUserData .v0 (generateValue .v1 ⟨0x80000000, 7, [0x61]⟩) =
        some [0, 0, 0, 0, 0, 0, 0, 7, 0x61] := by
  decide

end SchemaVersion

end Pegasus.Server
