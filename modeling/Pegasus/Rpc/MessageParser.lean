/-
The parsers of received messages, after `message_parser.cpp`, `dsn_message_parser.cpp` and
`thrift_message_parser.cpp`.

A session reads bytes into the buffer of a reader and then calls its parser until it gives no more
message. Lengths on the wire are 32-bit words. They are added in 32 bits, offsets into a buffer are
signed, and so is the number of bytes that a parser asks for.

- `MessageReader`: the buffer of a session;
- `Dsn.getMessageOnReceive`, `Thrift.getMessageOnReceive`: one call of a parser; `none` stands for a
  range outside of the received bytes, a failed `CHECK` or an exception;
- `Session.read`: a read and the calls after it.
-/

import Pegasus.Lib.Framing
import Pegasus.Lib.Run
import Pegasus.Log.Codec

namespace Pegasus.Rpc

open Framing (Result)

/-! ### The reader -/

/-- A value as `unsigned int`. -/
@[irreducible] def toUnsigned (n : Int) : Nat := (n % 2 ^ 32).toNat

/-- A value as `int`. -/
@[irreducible] def toSigned (n : Int) : Int := (n + 2 ^ 31) % 2 ^ 32 - 2 ^ 31

structure MessageReader where
  /-- The occupied part of `_buffer`. -/
  buffer : ByteString := []
  /-- The length of `_buffer`. -/
  length : Nat := 0
  /-- `_buffer_block_size`. -/
  blockSize : Nat

namespace MessageReader

/-- `read_buffer_ptr`. Its `CHECK` holds by the choice of the size. -/
def readBufferPtr (r : MessageReader) (readNext : Int) : MessageReader :=
  let wanted := (toUnsigned readNext + r.buffer.length) % 2 ^ 32
  if r.length < wanted then { r with length := max wanted r.blockSize } else r

def markRead (r : MessageReader) (chunk : ByteString) : MessageReader :=
  { r with buffer := r.buffer ++ chunk }

/-- The reader when a parser has taken bytes from its front. -/
def consumeTo (r : MessageReader) (rest : ByteString) : MessageReader :=
  { r with buffer := rest, length := r.length - (r.buffer.length - rest.length) }

end MessageReader

/-- `blob::range` of an offset, which is an `int`; `none` if the range lies outside. The length is
right modulo `2 ^ 32`; from `2 ^ 31` on the pointer is wrong, which an empty range survives. -/
def range (buffer : ByteString) (offset : Nat) : Option ByteString :=
  if offset ≤ buffer.length ∧ (offset < 2 ^ 31 ∨ offset = buffer.length) then
    some (buffer.drop offset)
  else none

/-- What `blob::range` leaves in the reader behind a message. A message of `2 ^ 31` bytes or more is
the last one in the buffer, since `read_buffer_ptr` made the buffer as long as the message: what is
left is empty, and nobody follows its pointer. -/
def behind (buffer : ByteString) (size : Nat) : ByteString := buffer.drop size

/-! ### Messages with a dsn header -/

namespace Dsn

/-- `sizeof(message_header)`. -/
def HEADER_SIZE : Nat := 192

def CRC_INVALID : UInt32 := 0

def word (header : ByteString) (offset : Nat) : UInt32 :=
  UInt32.ofNat (ByteString.toNat ((header.drop offset).take 4))

def hdrCrc32 (header : ByteString) : UInt32 := word header 12

def bodyLength (header : ByteString) : UInt32 := word header 16

def bodyCrc32 (header : ByteString) : UInt32 := word header 20

/-- A received message: the bytes of its header and of its body. -/
structure Message where
  header : ByteString
  body : ByteString
deriving DecidableEq

/-- `is_right_header`: the check is computed with `CRC_INVALID` in its own place. -/
def isRightHeader (header : ByteString) : Bool :=
  hdrCrc32 header = CRC_INVALID ∨
    hdrCrc32 header = Log.crc32Calc (header.take 12 ++ [0, 0, 0, 0] ++ header.drop 16) 0

/-- `is_right_body`, of a message with one buffer; `none` if its `CHECK` fails. -/
def isRightBody (m : Message) : Option Bool :=
  if bodyCrc32 m.header = CRC_INVALID then some true
  else if m.body.length ≠ (bodyLength m.header).toNat then none
  else some (bodyCrc32 m.header = Log.crc32Calc m.body 0)

/-- `dsn_message_parser::get_message_on_receive`; the state is `_header_checked`. -/
def getMessageOnReceive (headerChecked : Bool) (buffer : ByteString) :
    Option (Result Bool UInt8 Message) :=
  if buffer.length < HEADER_SIZE then
    some ⟨headerChecked, buffer, none, toSigned (HEADER_SIZE - buffer.length)⟩
  else
    let header := buffer.take HEADER_SIZE
    if headerChecked = false ∧ isRightHeader header = false then
      some ⟨headerChecked, buffer, none, -1⟩
    else
      let msgSz := (HEADER_SIZE + (bodyLength header).toNat) % 2 ^ 32
      if buffer.length < msgSz then some ⟨true, buffer, none, toSigned (msgSz - buffer.length)⟩
      else do
        -- the body is the range of the message behind the header
        let body ← range (buffer.take msgSz) HEADER_SIZE
        let right ← isRightBody ⟨header, body⟩
        if right = false then some ⟨true, buffer, none, -1⟩
        else
          let rest := behind buffer msgSz
          some ⟨false, rest, some ⟨header, body⟩,
            if HEADER_SIZE ≤ rest.length then 0 else HEADER_SIZE - rest.length⟩

end Dsn

/-! ### Thrift requests -/

namespace Thrift

/-- What `TBinaryProtocol::readMessageBegin` reads. -/
structure MessageBegin where
  name : ByteString
  type : Int
  seqid : Int
deriving DecidableEq

/-- `thrift_request_meta_v1`. -/
structure RequestMetaV1 where
  appId : Int := 0
  partitionIndex : Int := 0
  clientTimeout : Int := 0
  clientPartitionHash : Int := 0
  isBackupRequest : Bool := false
deriving DecidableEq

/-- The thrift library and the code it generates: `none` stands for an exception. -/
structure Protocol where
  readMessageBegin : ByteString → Option MessageBegin
  readMeta : ByteString → Option RequestMetaV1

structure RequestMetaV0 where
  hdrCrc32 : Nat := 0
  bodyLength : Nat := 0
  bodyCrc32 : Nat := 0
  appId : Nat := 0
  partitionIndex : Nat := 0
  clientTimeout : Nat := 0
  clientThreadHash : Nat := 0
  clientPartitionHash : Nat := 0
deriving DecidableEq

/-- The fields of the message that come from the header. -/
inductive Meta where
  | v0 (fields : RequestMetaV0)
  | v1 (fields : RequestMetaV1)
deriving DecidableEq

/-- A received message: `id`, `rpc_name`, the fields of the header, and the body. -/
structure Message where
  id : Int
  rpcName : ByteString
  fields : Meta
  body : ByteString
deriving DecidableEq

/-- `_header_version` with the variables of the version. -/
inductive State where
  | noHeader
  | v0 (fields : RequestMetaV0)
  | v1 (metaLength bodyLength : Nat) (fields : Option RequestMetaV1)
deriving DecidableEq

def HEADER_LENGTH_V0 : Nat := 48

def HEADER_LENGTH_V1 : Nat := 16

def THFT_HDR_VERSION_LENGTH : Nat := 8

def THFT : ByteString := [0x54, 0x48, 0x46, 0x54]

def readWord (buffer : ByteString) (offset width : Nat) : Nat :=
  ByteString.toNat ((buffer.drop offset).take width).reverse

def parseRequestMetaV0 (buffer : ByteString) : RequestMetaV0 where
  hdrCrc32 := readWord buffer 12 4
  bodyLength := readWord buffer 16 4
  bodyCrc32 := readWord buffer 20 4
  appId := readWord buffer 24 4
  partitionIndex := readWord buffer 28 4
  clientTimeout := readWord buffer 32 4
  clientThreadHash := readWord buffer 36 4
  clientPartitionHash := readWord buffer 40 8

inductive Header where
  | wait (readNext : Int)
  | bad
  | parsed (state : State) (rest : ByteString)

def parseRequestHeader (buffer : ByteString) : Header :=
  if buffer.length < THFT_HDR_VERSION_LENGTH then .wait (THFT_HDR_VERSION_LENGTH - buffer.length)
  else if buffer.take 4 ≠ THFT then .bad
  else
    match readWord buffer 4 4 with
    | 0 =>
      if buffer.length < HEADER_LENGTH_V0 then .wait (HEADER_LENGTH_V0 - buffer.length)
      else if readWord buffer 8 4 ≠ HEADER_LENGTH_V0 then .bad
      else .parsed (.v0 (parseRequestMetaV0 buffer)) (buffer.drop HEADER_LENGTH_V0)
    | 1 =>
      if buffer.length < HEADER_LENGTH_V1 then .wait (HEADER_LENGTH_V1 - buffer.length)
      else .parsed (.v1 (readWord buffer 8 4) (readWord buffer 12 4) none)
        (buffer.drop HEADER_LENGTH_V1)
    | _ => .bad

/-- The type of a request: `T_CALL` or `T_ONEWAY`. -/
def MessageBegin.isRequest (b : MessageBegin) : Bool := b.type = 1 ∨ b.type = 4

/-- `rpc_name`, a string of at most 47 characters. -/
def MessageBegin.rpcName (b : MessageBegin) : ByteString := (b.name.takeWhile (· ≠ 0)).take 47

variable (P : Protocol)

/-- The end of `parse_request_body_v0` and `parse_request_body_v1`: the message of a body, with
`create_message_from_request_blob`. -/
def finish (fields : Meta) (body rest : ByteString) (headerLength : Nat) :
    Option (Result State UInt8 Message) :=
  (P.readMessageBegin body).map fun b =>
    if b.isRequest then
      ⟨.noHeader, rest, some ⟨b.seqid, b.rpcName, fields, body⟩,
        if headerLength ≤ rest.length then 0 else headerLength - rest.length⟩
    else ⟨.noHeader, rest, none, -1⟩

def parseRequestBodyV0 (fields : RequestMetaV0) (buffer : ByteString) :
    Option (Result State UInt8 Message) :=
  if buffer.length < fields.bodyLength then
    some ⟨.v0 fields, buffer, none, toSigned (fields.bodyLength - buffer.length)⟩
  else
    finish P (.v0 fields) (buffer.take fields.bodyLength) (behind buffer fields.bodyLength)
      HEADER_LENGTH_V0

/-- `parse_request_body_v1`, when the meta has been parsed. -/
def parseRequestBodyV1 (metaLength bodyLength : Nat) (fields : RequestMetaV1)
    (buffer : ByteString) : Option (Result State UInt8 Message) := do
  let blob ← range buffer metaLength
  if blob.length < bodyLength then
    some ⟨.v1 metaLength bodyLength (some fields), buffer, none,
      toSigned (bodyLength - blob.length)⟩
  else
    finish P (.v1 fields) (blob.take bodyLength)
      (behind buffer ((metaLength + bodyLength) % 2 ^ 32)) HEADER_LENGTH_V1

/-- The part of `get_message_on_receive` behind the header. -/
def parseRequestBody (state : State) (buffer : ByteString) :
    Option (Result State UInt8 Message) :=
  match state with
  | .noHeader => none
  | .v0 fields => parseRequestBodyV0 P fields buffer
  | .v1 metaLength bodyLength (some fields) =>
    parseRequestBodyV1 P metaLength bodyLength fields buffer
  | .v1 metaLength bodyLength none =>
    if buffer.length < metaLength then
      some ⟨.v1 metaLength bodyLength none, buffer, none, toSigned (metaLength - buffer.length)⟩
    else do
      -- the meta is read from the whole buffer
      let fields ← P.readMeta buffer
      parseRequestBodyV1 P metaLength bodyLength fields buffer

def getMessageOnReceive (state : State) (buffer : ByteString) :
    Option (Result State UInt8 Message) :=
  if state = .noHeader then
    match parseRequestHeader buffer with
    | .wait readNext => some ⟨.noHeader, buffer, none, readNext⟩
    | .bad => some ⟨.noHeader, buffer, none, -1⟩
    | .parsed state rest => parseRequestBody P state rest
  else parseRequestBody P state buffer

end Thrift

/-! ### Sessions -/

/-- A session: the state of its parser, its reader, what the parser has asked for, and the messages
it has given. -/
structure Session (σ M : Type) where
  state : σ
  reader : MessageReader
  readNext : Int
  received : List M := []

namespace Session

variable {σ M : Type} (receive : σ → ByteString → Option (Result σ UInt8 M))

def opened (s : Session σ M) : MessageReader := s.reader.readBufferPtr s.readNext

/-- Bytes arrive, and the parser is called until it gives no message. A session whose parser has
asked for `-1` is closed. -/
def read (s : Session σ M) (chunk : ByteString) : Option (Session σ M) :=
  if s.readNext = -1 then none
  else
    let reader := s.opened.markRead chunk
    (Framing.drain receive (reader.buffer.length + 1) s.state reader.buffer).map fun p =>
      { state := p.2.state, reader := reader.consumeTo p.2.rest, readNext := p.2.readNext,
        received := s.received ++ p.1 }

end Session

end Pegasus.Rpc
