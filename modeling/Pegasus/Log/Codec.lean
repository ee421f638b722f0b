/-
Mutations as bytes (`Pegasus.Log.Codec`), after `mutation.cpp`, `crc.cpp`,
`binary_reader.cpp` and `binary_writer.cpp`.

A mutation is written as its header, the number of its updates, a preamble for each update
(the name of its task code, its serialization type and the length of its data) and then the
data of the updates. Lengths are `int`s, so that a longer string is written with a length
that wraps around.

- `readFrom_writeTo`: a mutation whose lengths fit is read back as it was written, whatever
  follows it.
-/

import Pegasus.Lib.Bytes
import Pegasus.Lib.Crc

namespace Pegasus.Log

open List Reads

structure MutationHeader where
  pid : UInt64
  ballot : Int64
  decree : Int64
  logOffset : Int64 := 0
  lastCommittedDecree : Int64
  timestamp : Int64
deriving DecidableEq

/-- `mutation_update`. A task code is its number in the registry. -/
structure MutationUpdate where
  code : Nat
  serializationType : Int32
  data : ByteString
deriving DecidableEq

structure MutationData where
  header : MutationHeader
  updates : List MutationUpdate
deriving DecidableEq

/-! ### Task codes -/

/-- `task_code_mgr`: the names of the registered task codes. A name is registered once. -/
structure TaskCodes where
  names : List ByteString
  nodup : names.Nodup

/-- `TASK_CODE_INVALID`, the first code that is registered. -/
def taskCodeInvalid : Nat := 0

/-- What `get_name` returns for a number that no code has: "unknown". -/
def unknownName : ByteString := [0x75, 0x6e, 0x6b, 0x6e, 0x6f, 0x77, 0x6e]

namespace TaskCodes

variable (codes : TaskCodes)

def toString (code : Nat) : ByteString := codes.names.getD code unknownName

def tryGet (name : ByteString) (default : Nat) : Nat := 
  if name ∈ codes.names then codes.names.idxOf name else default

def Registered (code : Nat) : Prop := code < codes.names.length ∧ code ≠ taskCodeInvalid

instance (code : Nat) : Decidable (codes.Registered code) := inferInstanceAs (Decidable (_ ∧ _))

theorem tryGet_toString {code : Nat} (registered : codes.Registered code) (default : Nat) :
    codes.tryGet (codes.toString code) default = code := by
  have hname : codes.toString code = codes.names.get ⟨code, registered.1⟩ :=
    getD_eq_getElem _ _ registered.1
  rw [tryGet, hname, if_pos (get_mem _ _)]
  exact codes.nodup.idxOf_getElem code registered.1

end TaskCodes

/-! ### The checksum -/

/-- `crc32_POLY`. -/
def crcPoly : BitVec 32 := 0x82f63b78

/-- `crc32_calc`, which goes on from the checksum of what comes before. -/
def crc32Calc (bytes : ByteString) (init : UInt32) : UInt32 :=
  ⟨Crc.compute crcPoly bytes init.toBitVec⟩

theorem crc32Calc_append (front back : ByteString) (init : UInt32) :
    crc32Calc (front ++ back) init = crc32Calc back (crc32Calc front init) := by
  simp [crc32Calc, Crc.compute]

@[simp] theorem crc32Calc_nil (init : UInt32) : crc32Calc [] init = init := by
  simp [crc32Calc, Crc.compute]

theorem crc32Calc_flatten (blobs : List ByteString) (init : UInt32) :
    blobs.foldl (fun crc blob => crc32Calc blob crc) init = crc32Calc blobs.flatten init := by
  induction blobs generalizing init with
  | nil => simp
  | cons blob rest ih => rw [foldl_cons, ih, flatten_cons, crc32Calc_append]

/-! ### Writing -/

namespace MutationHeader

/-- `mutation::write_mutation_header`. The version is 0. -/
def bytes (header : MutationHeader) : ByteString :=
  Pod.bytes (0 : Int64) ++ Pod.bytes header.pid ++ Pod.bytes header.ballot ++
    Pod.bytes header.decree ++ Pod.bytes header.logOffset ++
    Pod.bytes header.lastCommittedDecree ++ Pod.bytes header.timestamp

end MutationHeader

namespace MutationUpdate

/-- What is written of an update before the data of the updates. -/
def preamble (codes : TaskCodes) (update : MutationUpdate) : ByteString :=
  Pod.bytes (Int32.ofNat (codes.toString update.code).length) ++ codes.toString update.code ++
    Pod.bytes update.serializationType ++ Pod.bytes (Int32.ofNat update.data.length)

end MutationUpdate

open MutationUpdate

namespace MutationData

variable (codes : TaskCodes)

def front (mu : MutationData) : ByteString :=
  mu.header.bytes ++ Pod.bytes (Int32.ofNat mu.updates.length) ++
    mu.updates.flatMap (MutationUpdate.preamble codes)

/-- `mutation::write_to`: the blobs that are handed to the inserter. -/
def writeTo (mu : MutationData) : List ByteString :=
  mu.front codes :: mu.updates.map MutationUpdate.data

def bytes (mu : MutationData) : ByteString := (mu.writeTo codes).flatten

/-- What the log keeps with a mutation: the offset at which it is written. -/
def withLogOffset (mu : MutationData) (offset : Int64) : MutationData :=
  { mu with header := { mu.header with logOffset := offset } }

end MutationData

open MutationData

/-! ### Reading -/

/-- `mutation::read_mutation_header`. In old logs the version is a pointer, and the timestamp is
missing. -/
def readMutationHeader : Reader MutationHeader := do
  let version ← Reader.pod Int64
  let pid ← Reader.pod UInt64
  let ballot ← Reader.pod Int64
  let decree ← Reader.pod Int64
  let logOffset ← Reader.pod Int64
  let lastCommittedDecree ← Reader.pod Int64
  let last ← Reader.pod Int64
  if version = 0 then
    return { pid, ballot, decree, logOffset, lastCommittedDecree, timestamp := last }
  else if 64 < version then
    return { pid, ballot, decree, logOffset, lastCommittedDecree, timestamp := 0 }
  else failure

/-- `binary_reader::read` of a given length. A negative length is out of every bound. -/
def readBytes (length : Int32) : Reader ByteString :=
  if length < 0 then failure else Reader.take length.toInt.toNat

/-- The first part of an update: its code, its serialization type and the length of its data. The
`CHECK` refuses names that are not registered. -/
def readPreamble (codes : TaskCodes) : Reader (Nat × Int32 × Int32) := do
  let length ← Reader.pod Int32
  let name ← readBytes length
  let code := codes.tryGet name taskCodeInvalid
  guard (code ≠ taskCodeInvalid)
  let serializationType ← Reader.pod Int32
  let length ← Reader.pod Int32
  return (code, serializationType, length)

def readUpdate (preamble : Nat × Int32 × Int32) : Reader MutationUpdate := do
  let data ← readBytes preamble.2.2
  return { code := preamble.1, serializationType := preamble.2.1, data := data }

def readFrom (codes : TaskCodes) : Reader MutationData := do
  let header ← readMutationHeader
  let size ← Reader.pod Int32
  guard (0 ≤ size)
  let preambles ← Reader.each (fun _ => readPreamble codes) (List.replicate size.toInt.toNat ())
  let updates ← Reader.each readUpdate preambles
  return { header := header, updates := updates }

/-! ### The round trip -/

/-- The lengths of a mutation fit in an `int`, and its task codes are registered. -/
structure MutationData.Storable (codes : TaskCodes) (mu : MutationData) : Prop where
  registered : ∀ update ∈ mu.updates, codes.Registered update.code
  short : (mu.bytes codes).length < 2 ^ 31

section RoundTrip

variable {codes : TaskCodes}
variable {n : Nat} {update : MutationUpdate}

theorem ofNat_neg (hlong : 2 ^ 31 ≤ n) (hn : n < 2 ^ 32) : Int32.ofNat n < 0 := by
  rw [Int32.lt_iff_toInt_lt, Int32.toInt_ofNat', Int.bmod, Int32.size]
  simp only [Int32.toInt_zero]
  omega

theorem reads_readBytes {bytes : ByteString} (hshort : bytes.length < 2 ^ 31) :
    Reads (readBytes (Int32.ofNat bytes.length)) bytes bytes := by
  rw [readBytes, if_neg (Int32.not_lt.mpr (Int32.zero_le_ofNat_of_lt hshort)),
    Int32.toInt_ofNat_of_lt hshort]
  exact take bytes

theorem reads_header (header : MutationHeader) : Reads readMutationHeader header.bytes header := by
  simp only [MutationHeader.bytes, append_assoc]
  refine (pod _).bind ((pod _).bind ((pod _).bind ((pod _).bind
    ((pod _).bind ((pod _).bind ((pod _).finish ?_))))))
  exact pure header

theorem reads_preamble (registered : codes.Registered update.code)
    (hname : (codes.toString update.code).length < 2 ^ 31) :
    Reads (readPreamble codes) (update.preamble codes)
      (update.code, update.serializationType, Int32.ofNat update.data.length) := by
  simp only [preamble, append_assoc]
  refine (pod _).bind ((reads_readBytes hname).bind ?_)
  rw [codes.tryGet_toString registered]
  exact (checked registered.2).bind ((pod _).bind ((pod _).map _))

def MutationUpdate.key (update : MutationUpdate) : Nat × Int32 × Int32 :=
  (update.code, update.serializationType, Int32.ofNat update.data.length)

theorem reads_update (hdata : update.data.length < 2 ^ 31) :
    Reads (readUpdate update.key) update.data update :=
  (reads_readBytes hdata).map _

theorem preamble_le_bytes {mu : MutationData} :
    (mu.updates.flatMap (preamble codes)).length ≤ (mu.bytes codes).length := by
  simp only [bytes, writeTo, front, flatten_cons, length_append]
  omega

theorem bytes_pos (codes : TaskCodes) (mu : MutationData) : 0 < (mu.bytes codes).length := by
  simp only [bytes, writeTo, front, MutationHeader.bytes,
    flatten_cons, length_append, Pod.length_bytes, Pod.width]
  omega

namespace MutationData.Storable

variable {mu : MutationData}

variable {update : MutationUpdate}

variable (storable : mu.Storable codes)
include storable

theorem data_short (hupdate : update ∈ mu.updates) : update.data.length < 2 ^ 31 := by
  have hmem : update.data ∈ mu.writeTo codes := mem_cons_of_mem _ (mem_map_of_mem hupdate)
  exact (sublist_flatten_of_mem hmem).length_le.trans_lt storable.short

theorem name_short (hupdate : update ∈ mu.updates) :
    (codes.toString update.code).length < 2 ^ 31 := by
  have hname : (codes.toString update.code).length ≤ (update.preamble codes).length := by
    simp only [preamble, length_append]
    omega
  have hmem : update.preamble codes ∈ mu.updates.map (preamble codes) := mem_map_of_mem hupdate
  have hle := (sublist_flatten_of_mem hmem).length_le
  rw [← flatMap_def] at hle
  exact (hname.trans (hle.trans preamble_le_bytes)).trans_lt storable.short

theorem count_short : mu.updates.length < 2 ^ 31 := by
  have hsum : mu.updates.length ≤ (mu.updates.flatMap (preamble codes)).length := by
    rw [length_flatMap, ← length_map (f := fun u => (u.preamble codes).length)]
    refine length_le_sum_of_one_le _ fun n hn => ?_
    obtain ⟨update, -, rfl⟩ := mem_map.mp hn
    simp only [preamble, length_append, Pod.length_bytes, Pod.width]
    omega
  exact (hsum.trans preamble_le_bytes).trans_lt storable.short

end MutationData.Storable

/-- **A mutation is read back as it was written.** -/
theorem readFrom_writeTo {mu : MutationData} (storable : mu.Storable codes) :
    Reads (readFrom codes) (mu.bytes codes) mu := by
  have hpreambles : Reads (Reader.each (fun _ => readPreamble codes)
      (mu.updates.map fun _ => ())) (mu.updates.flatMap (preamble codes))
      (mu.updates.map key) :=
    each mu.updates fun update hupdate =>
      reads_preamble (storable.registered update hupdate) (storable.name_short hupdate)
  have hdata : Reads (Reader.each readUpdate (mu.updates.map key))
      (mu.updates.flatMap data) (mu.updates.map id) :=
    each mu.updates fun update hupdate => reads_update (storable.data_short hupdate)
  rw [map_id] at hdata
  have hcount : List.replicate (Int32.ofNat mu.updates.length).toInt.toNat () =
      mu.updates.map fun _ => () := by
    rw [Int32.toInt_ofNat_of_lt storable.count_short, Int.toNat_natCast, map_const']
  simp only [bytes, writeTo, front, flatten_cons, append_assoc]
  refine (reads_header mu.header).bind ((pod _).bind ?_)
  refine (checked (Int32.zero_le_ofNat_of_lt storable.count_short)).bind ?_
  rw [hcount, ← flatMap_def]
  exact hpreambles.bind (hdata.map _)

end RoundTrip

end Pegasus.Log
