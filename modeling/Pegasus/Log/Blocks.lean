/-
Blocks of the private log (`Pegasus.Log.Blocks`), after `log_block.cpp` and `log_file.cpp`.

A block is a header, with the length and the checksum of its body, and the body. The checksum
goes on from one block of a file to the next. The first block of a file holds the header of
the file; the others hold mutations, which are gathered by an appender until they are written.

- `readNextLogBlock_sealed`: a block is read back as it was written, if its length fits in an
  `int`;
- `readNextLogBlock_torn`: a part of a block at the end of a file is recognised as such.
-/

import Pegasus.Log.Codec

namespace Pegasus.Log

open List

/-- The values of `error_code` that reading a log returns. -/
inductive ErrorCode where
  | ok
  | handleEof
  | incompleteData
  | invalidData
  | objectNotFound
deriving DecidableEq

/-- The number that headers of blocks and of files start with. -/
def magic : UInt32 := 0xdeadbeef

structure LogBlockHeader where
  magic : UInt32 := Log.magic
  /-- The length of the body. -/
  length : Int32 := 0
  bodyCrc : UInt32 := 0
  /-- Where the block starts in its file. It is never read. -/
  localOffset : UInt32 := 0
deriving DecidableEq

/-- `sizeof(log_block_header)`. -/
def blockHeaderSize : Nat := 16

def LogBlockHeader.bytes (header : LogBlockHeader) : ByteString :=
  Pod.bytes header.magic ++ Pod.bytes header.length ++ Pod.bytes header.bodyCrc ++
    Pod.bytes header.localOffset

def readLogBlockHeader : Reader LogBlockHeader := do
  let magic ← Reader.pod UInt32
  let length ← Reader.pod Int32
  let bodyCrc ← Reader.pod UInt32
  let localOffset ← Reader.pod UInt32
  return { magic, length, bodyCrc, localOffset }

/-! ### Blocks in memory -/

/-- `log_block`: the blobs that follow the header. -/
structure LogBlock where
  startOffset : Int
  blobs : List ByteString := []
  /-- The mutations that the blobs are of, which the source only keeps in the appender. -/
  mutations : List MutationData := []
deriving DecidableEq

namespace LogBlock

def body (block : LogBlock) : ByteString := block.blobs.flatten

def size (block : LogBlock) : Nat := blockHeaderSize + (block.blobs.map List.length).sum

/-- The header that `commit_log_blocks` gives to a block of a file, after blocks with a checksum. -/
def header (fileStart : Int) (crc : UInt32) (block : LogBlock) : LogBlockHeader where
  length := Int32.ofNat (block.size - blockHeaderSize)
  bodyCrc := block.blobs.foldl (fun crc blob => crc32Calc blob crc) crc
  localOffset := UInt32.ofInt (block.startOffset - fileStart)

def bytes (fileStart : Int) (crc : UInt32) (block : LogBlock) : ByteString :=
  (block.header fileStart crc).bytes ++ block.body

theorem size_eq (block : LogBlock) : block.size = blockHeaderSize + block.body.length := by
  simp [size, body, length_flatten]

end LogBlock

/-- `log_appender`: full blocks, and the last one, to which mutations are added. -/
structure LogAppender where
  full : List LogBlock := []
  last : LogBlock
deriving DecidableEq

namespace LogAppender

/-- `DEFAULT_MAX_BLOCK_BYTES`. -/
def maxBlockBytes : Nat := 1024 * 1024

def new (startOffset : Int) : LogAppender where
  last := { startOffset := startOffset }

def allBlocks (pending : LogAppender) : List LogBlock := pending.full ++ [pending.last]

def size (pending : LogAppender) : Nat := (pending.allBlocks.map LogBlock.size).sum

/-- `log_appender::start_offset`, that of the first block. -/
def startOffset (pending : LogAppender) : Int := (pending.full.head?.getD pending.last).startOffset

/-- The first part of `append_mutation`: a last block that is large enough is closed. -/
def closeFullBlock (pending : LogAppender) : LogAppender :=
  if maxBlockBytes < pending.last.size then
    { full := pending.full ++ [pending.last]
      last := { startOffset := pending.last.startOffset + pending.last.size } }
  else pending

/-- The mutation with the offset at which `append_mutation` puts it. -/
def place (pending : LogAppender) (mu : MutationData) : MutationData :=
  mu.withLogOffset
    (Int64.ofInt (pending.closeFullBlock.last.startOffset + pending.closeFullBlock.last.size))

def appendMutation (codes : TaskCodes) (pending : LogAppender) (mu : MutationData) :
    LogAppender :=
  { pending.closeFullBlock with
    last :=
      { pending.closeFullBlock.last with
        blobs := pending.closeFullBlock.last.blobs ++ (pending.place mu).writeTo codes
        mutations := pending.closeFullBlock.last.mutations ++ [pending.place mu] } }

end LogAppender

/-! ### Blocks in a file -/

/-- What `commit_log_blocks` writes for blocks, and the checksum after them. -/
def commitLogBlocks (fileStart : Int) : UInt32 → List LogBlock → ByteString × UInt32
  | crc, [] => ([], crc)
  | crc, block :: rest =>
    let (more, crc') := commitLogBlocks fileStart (block.header fileStart crc).bodyCrc rest
    (block.bytes fileStart crc ++ more, crc')

/-- The size of each of the two buffers of a `file_streamer`. -/
def streamBufferBytes : Nat := 1024 * 1024

/-- Where the buffers of a stream start when it has read up to a place: a buffer that was read
out is filled with what follows the other one. -/
def advanceBuffers (stream place : Nat) : Nat :=
  if place < stream + streamBufferBytes then stream
  else if place < stream + 2 * streamBufferBytes then stream + streamBufferBytes
  else place

/-- The bytes after a place that the stream has room for once it has read up to there. -/
def buffered (stream place : Nat) : Nat :=
  advanceBuffers stream place + 2 * streamBufferBytes - place

/-- `log_file::read_next_log_block` of a file of which these bytes are left, with room for
`buffered` of those after the header in the buffers. A negative length, taken as a size, drains
the buffers. If the file goes on behind them, the stream reads past the memory it has taken for
the block: there is no result. -/
def readNextLogBlock (buffered : Nat) (crc : UInt32) (left : ByteString) :
    Option (Except ErrorCode (ByteString × UInt32)) :=
  match readLogBlockHeader left with
  | none => some (.error (if left = [] then .handleEof else .incompleteData))
  | some (header, left) =>
    if header.magic ≠ magic then some (.error .invalidData)
    else if header.length < 0 then
      if left.length ≤ buffered then some (.error .incompleteData) else none
    else
      let body := left.take header.length.toInt.toNat
      if body.length ≠ header.length.toInt.toNat then some (.error .incompleteData)
      else if crc32Calc body crc ≠ header.bodyCrc then some (.error .invalidData)
      else some (.ok (body, crc32Calc body crc))

section Reading

variable {fileStart : Int} {crc : UInt32} {block : LogBlock} {buffered : Nat}

theorem reads_blockHeader (header : LogBlockHeader) :
    Reads readLogBlockHeader header.bytes header := by
  simp only [LogBlockHeader.bytes, append_assoc]
  exact (Reads.pod _).bind ((Reads.pod _).bind ((Reads.pod _).bind ((Reads.pod _).map _)))

theorem takes_blockHeader : Takes readLogBlockHeader blockHeaderSize :=
  Takes.pod.bind fun _ => Takes.pod.bind fun _ => Takes.pod.bind fun _ => Takes.pod.bind fun _ =>
    Takes.pure _

theorem length_header (header : LogBlockHeader) : header.bytes.length = blockHeaderSize := by
  simp only [LogBlockHeader.bytes, length_append, Pod.length_bytes, Pod.width]
  rfl

namespace LogBlock

theorem header_length : (block.header fileStart crc).length = Int32.ofNat block.body.length := by
  simp [header, size_eq]

theorem header_bodyCrc : (block.header fileStart crc).bodyCrc = crc32Calc block.body crc :=
  crc32Calc_flatten block.blobs crc

theorem length_bytes : (block.bytes fileStart crc).length = block.size := by
  rw [bytes, length_append, length_header, size_eq]

end LogBlock

variable (hshort : block.body.length < 2 ^ 31)
include hshort

theorem readNextLogBlock_header (left : ByteString) :
    readNextLogBlock buffered crc ((block.header fileStart crc).bytes ++ left) =
      if (left.take block.body.length).length ≠ block.body.length then some (.error .incompleteData)
      else if crc32Calc (left.take block.body.length) crc ≠ crc32Calc block.body crc then
        some (.error .invalidData)
      else some (.ok (left.take block.body.length, crc32Calc (left.take block.body.length) crc)) := by
  have hmagic : (block.header fileStart crc).magic = magic := rfl
  rw [readNextLogBlock, reads_blockHeader]
  simp only [hmagic, LogBlock.header_length, LogBlock.header_bodyCrc, Int32.toInt_ofNat_of_lt hshort,
    Int.toNat_natCast, ne_eq, not_true_eq_false, if_false,
    Int32.not_lt.mpr (Int32.zero_le_ofNat_of_lt hshort)]

omit hshort in
theorem readNextLogBlock_long (hlong : 2 ^ 31 ≤ block.body.length)
    (hlength : block.body.length < 2 ^ 32) {left : ByteString} (hleft : buffered < left.length) :
    readNextLogBlock buffered crc ((block.header fileStart crc).bytes ++ left) = none := by
  have hmagic : (block.header fileStart crc).magic = magic := rfl
  have hneg : (block.header fileStart crc).length < 0 := by
    rw [LogBlock.header_length]
    exact ofNat_neg hlong hlength
  rw [readNextLogBlock, reads_blockHeader]
  simp only [hmagic, hneg, not_le.mpr hleft, ne_eq, not_true_eq_false, if_false, if_true]

/-- **A block is read back as it was written.** -/
theorem readNextLogBlock_sealed (rest : ByteString) :
    readNextLogBlock buffered crc (block.bytes fileStart crc ++ rest) =
      some (.ok (block.body, crc32Calc block.body crc)) := by
  rw [LogBlock.bytes, append_assoc, readNextLogBlock_header hshort]
  simp

/-- **A torn block is recognised.** Of a block that is cut off, nothing is read. -/
theorem readNextLogBlock_torn {torn : ByteString} (hpre : torn <+: block.bytes fileStart crc)
    (hcut : torn.length < (block.bytes fileStart crc).length) :
    readNextLogBlock buffered crc torn =
      some (.error (if torn = [] then .handleEof else .incompleteData)) := by
  by_cases hheader : torn.length < blockHeaderSize
  · rw [readNextLogBlock, takes_blockHeader.eq_none hheader]
  · -- the header is there, and a part of the body
    have htorn : torn = (block.header fileStart crc).bytes ++
        block.body.take (torn.length - blockHeaderSize) := by
      have htake := prefix_iff_eq_take.mp hpre
      rwa [LogBlock.bytes, take_append, length_header,
        take_of_length_le (by rw [length_header]; omega)] at htake
    have hnonempty : torn ≠ [] := by
      rintro rfl
      simp [blockHeaderSize] at hheader
    rw [if_neg hnonempty, htorn, readNextLogBlock_header hshort, if_pos]
    rw [LogBlock.length_bytes, LogBlock.size_eq] at hcut
    simp only [length_take]
    omega

end Reading

end Pegasus.Log
