/-
The parser of Redis requests, after `redis_parser.cpp`.

Requests come in messages of any size. The parser keeps a queue of messages with a cursor in the
first one, the number of bytes it has not read, and what it has of the current request. It reads as
far as it can each time a message arrives.

- `DataStream`: the queue of messages, with `peek`, `eat` and `eatAll`;
- `parseStep`, `parseStream`, `parse`: the loop over the states;
- `readStep`, `reader`: the same over the unread bytes, as one list;
- `parseStep_refines`: every turn of the loop is a step of the reader;
- `feed_reads`: messages are read as their concatenation.
-/

import Pegasus.Lib.Incremental
import Pegasus.Server.Convert

namespace Pegasus.Redis

open List Option
open Server (Bytes buf2int64)
open Incremental (Outcome Config StreamReader)

def CR : UInt8 := 13

def LF : UInt8 := 10

inductive ParserStatus where
  | startArray
  | inArraySize
  | startBulkString
  | inBulkStringSize
  | startBulkStringData
deriving DecidableEq

structure RedisBulkString where
  length : Int := -1
  data : Bytes := []
deriving DecidableEq

structure RedisRequest where
  subRequestCount : Int := 0
  subRequests : List RedisBulkString := []
deriving DecidableEq

structure Content where
  status : ParserStatus := .startArray
  currentStr : RedisBulkString := {}
  currentMsg : RedisRequest := {}
  currentSize : Bytes := []
deriving DecidableEq

/-- The messages that have arrived; the first one is being read if there is a current buffer. -/
structure DataStream where
  recvBuffers : List Bytes := []
  totalLength : Nat := 0
  currentBuffer : Option Bytes := none
  currentCursor : Nat := 0
deriving DecidableEq

namespace DataStream

def appendMessage (msg : Bytes) (s : DataStream) : DataStream :=
  { s with recvBuffers := s.recvBuffers ++ [msg], totalLength := s.totalLength + msg.length }

/-- The first message is read. A message without a body fails the check of `read_next`. -/
def readFront (s : DataStream) : Option DataStream :=
  match s.recvBuffers with
  | [] => none
  | msg :: _ =>
    if msg = [] then none else some { s with currentBuffer := some msg, currentCursor := 0 }

def prepareCurrentBuffer (s : DataStream) : Option DataStream :=
  match s.currentBuffer with
  | none => s.readFront
  | some buffer =>
    if buffer.length ≤ s.currentCursor then
      -- the message is consumed: it has one buffer
      { s with recvBuffers := s.recvBuffers.tail, currentBuffer := none }.readFront
    else some s

def peek (s : DataStream) : Option (UInt8 × DataStream) := do
  let s ← s.prepareCurrentBuffer
  let buffer ← s.currentBuffer
  let t ← buffer[s.currentCursor]?
  return (t, s)

def eat (c : UInt8) (s : DataStream) : Option (Bool × DataStream) := do
  let (t, s) ← s.peek
  if t = c then
    return (true, { s with currentCursor := s.currentCursor + 1, totalLength := s.totalLength - 1 })
  else return (false, s)

/-- The loop of `eat_all`; every turn copies a byte at least. -/
def eatAllLoop : Nat → Nat → DataStream → Option (Bytes × DataStream)
  | _, 0, s => some ([], s)
  | 0, _ + 1, _ => none
  | fuel + 1, length + 1, s => do
    let s ← s.prepareCurrentBuffer
    let buffer ← s.currentBuffer
    let eatSize := min (buffer.length - s.currentCursor) (length + 1)
    let (dest, s') ← eatAllLoop fuel (length + 1 - eatSize)
      { s with currentCursor := s.currentCursor + eatSize }
    return ((buffer.drop s.currentCursor).take eatSize ++ dest, s')

def eatAll (length : Nat) (s : DataStream) : Option (Bytes × DataStream) :=
  eatAllLoop length length { s with totalLength := s.totalLength - length }

def unread (s : DataStream) : Bytes :=
  match s.currentBuffer with
  | none => s.recvBuffers.flatten
  | some buffer => buffer.drop s.currentCursor ++ s.recvBuffers.tail.flatten

/-- The current buffer is the first message, and no message is empty. -/
structure Ordered (s : DataStream) : Prop where
  buffers : ∀ msg ∈ s.recvBuffers, msg ≠ []
  current : ∀ buffer, s.currentBuffer = some buffer → s.recvBuffers.head? = some buffer

structure Sound (s : DataStream) : Prop extends s.Ordered where
  total : s.totalLength = s.unread.length

variable {s s' : DataStream} {b : UInt8} {bs : Bytes}

theorem Sound.appendMessage (h : s.Sound) {msg : Bytes} (hmsg : msg ≠ []) :
    (s.appendMessage msg).Sound ∧ (s.appendMessage msg).unread = s.unread ++ msg := by
  have hunread : (s.appendMessage msg).unread = s.unread ++ msg := by
    cases hcurrent : s.currentBuffer with
    | none => simp [unread, DataStream.appendMessage, hcurrent]
    | some buffer =>
      obtain ⟨rest, hrest⟩ := List.head?_eq_some_iff.mp (h.current buffer hcurrent)
      simp [unread, DataStream.appendMessage, hcurrent, hrest]
  refine ⟨⟨⟨?_, ?_⟩, ?_⟩, hunread⟩
  · exact forall_mem_concat h.buffers hmsg
  · intro buffer hbuffer
    simp [DataStream.appendMessage, List.head?_append, h.current buffer hbuffer]
  · rw [hunread, length_append, ← h.total]
    rfl

/-- Before a byte is read, the current buffer has one. -/
structure Prepared (s s' : DataStream) : Prop where
  ordered : s'.Ordered
  unread : s'.unread = s.unread
  total : s'.totalLength = s.totalLength
  current : ∃ buffer, s'.currentBuffer = some buffer ∧ s'.currentCursor < buffer.length

theorem Prepared.sound (h : Prepared s s') (hsound : s.Sound) : s'.Sound :=
  ⟨h.ordered, by rw [h.total, h.unread, hsound.total]⟩

theorem readFront_prepared (hbuffers : ∀ msg ∈ s.recvBuffers, msg ≠ [])
    (hcurrent : s.currentBuffer = none) (hne : s.unread ≠ []) :
    ∃ s', s.readFront = some s' ∧ Prepared s s' := by
  cases hrecv : s.recvBuffers with
  | nil => simp [DataStream.unread, hcurrent, hrecv] at hne
  | cons msg rest =>
    have hmsg : msg ≠ [] := hbuffers msg (by simp [hrecv])
    refine ⟨{ s with currentBuffer := some msg, currentCursor := 0 }, ?_, ⟨hbuffers, ?_⟩,
      ?_, rfl, msg, rfl, length_pos_iff.mpr hmsg⟩
    · simp [readFront, hrecv, hmsg]
    · intro buffer hbuffer
      simpa [hrecv] using hbuffer
    · simp [DataStream.unread, hcurrent, hrecv]

theorem prepareCurrentBuffer_prepared (h : s.Ordered) (hne : s.unread ≠ []) :
    ∃ s', s.prepareCurrentBuffer = some s' ∧ Prepared s s' := by
  cases hcurrent : s.currentBuffer with
  | none =>
    simp only [prepareCurrentBuffer, hcurrent]
    exact readFront_prepared h.buffers hcurrent hne
  | some buffer =>
    simp only [prepareCurrentBuffer, hcurrent]
    split
    · rename_i hread
      have hunread : ({ s with
          recvBuffers := s.recvBuffers.tail, currentBuffer := none } : DataStream).unread =
            s.unread := by
        simp [DataStream.unread, hcurrent, drop_eq_nil_of_le hread]
      obtain ⟨s', hs', hprepared⟩ := readFront_prepared
        (s := { s with recvBuffers := s.recvBuffers.tail, currentBuffer := none })
        (fun msg hmsg => h.buffers msg (mem_of_mem_tail hmsg)) rfl (by rwa [hunread])
      exact ⟨s', hs', hprepared.ordered, hprepared.unread.trans hunread, hprepared.total,
        hprepared.current⟩
    · rename_i hread
      exact ⟨s, rfl, h, rfl, rfl, buffer, hcurrent, Nat.not_le.mp hread⟩

theorem unread_advance {buffer : Bytes} (hcurrent : s.currentBuffer = some buffer)
    (n total : Nat) : s.unread = (buffer.drop s.currentCursor).take n ++
      ({ s with currentCursor := s.currentCursor + n, totalLength := total } :
        DataStream).unread := by
  simp only [DataStream.unread, hcurrent]
  rw [← append_assoc, ← drop_drop, take_append_drop]

theorem peek_eq (h : s.Ordered) (hne : s.unread = b :: bs) :
    ∃ s', s.peek = some (b, s') ∧ Prepared s s' := by
  obtain ⟨s', hs', hprepared⟩ := prepareCurrentBuffer_prepared h (by simp [hne])
  obtain ⟨buffer, hbuffer, hcursor⟩ := hprepared.current
  have hb : buffer[s'.currentCursor]? = some b := by
    have hunread := hprepared.unread.trans hne
    simp only [DataStream.unread, hbuffer, drop_eq_getElem_cons hcursor, cons_append] at hunread
    rw [List.getElem?_eq_getElem hcursor]
    exact congrArg some (List.cons.inj hunread).1
  refine ⟨s', ?_, hprepared⟩
  simp [peek, hs', hbuffer, hb]

theorem eat_eq (h : s.Sound) (hne : s.unread = b :: bs) :
    ∃ s', s.eat b = some (true, s') ∧ s'.Sound ∧ s'.unread = bs := by
  obtain ⟨s₁, hpeek, hprepared⟩ := peek_eq h.toOrdered hne
  obtain ⟨buffer, hbuffer, hcursor⟩ := hprepared.current
  have hrest : ({ s₁ with
      currentCursor := s₁.currentCursor + 1
      totalLength := s₁.totalLength - 1 } : DataStream).unread = bs := by
    have hunread := unread_advance hbuffer 1 (s₁.totalLength - 1)
    rw [hprepared.unread, hne, drop_eq_getElem_cons hcursor, take_succ_cons, take_zero] at hunread
    exact (List.cons.inj hunread).2.symm
  refine ⟨{ s₁ with
      currentCursor := s₁.currentCursor + 1
      totalLength := s₁.totalLength - 1 }, by simp [eat, hpeek],
    ⟨⟨hprepared.ordered.buffers, hprepared.ordered.current⟩, ?_⟩, hrest⟩
  rw [hrest, hprepared.total, h.total, hne]
  rfl

theorem eat_ne (h : s.Ordered) (hne : s.unread = b :: bs) {c : UInt8} (hc : b ≠ c) :
    ∃ s', s.eat c = some (false, s') := by
  obtain ⟨s', hpeek, -⟩ := peek_eq h hne
  exact ⟨s', by simp [eat, hpeek, hc]⟩

theorem eatAllLoop_eq {dest : Bytes} {fuel : Nat} (hfuel : dest.length ≤ fuel) (h : s.Ordered)
    (hunread : s.unread = dest ++ bs) :
    ∃ s', eatAllLoop fuel dest.length s = some (dest, s') ∧ s'.Ordered ∧ s'.unread = bs ∧
      s'.totalLength = s.totalLength := by
  induction fuel generalizing s dest with
  | zero =>
    obtain rfl := length_eq_zero_iff.mp (Nat.le_zero.mp hfuel)
    exact ⟨s, rfl, h, hunread, rfl⟩
  | succ fuel ih =>
    cases dest with
    | nil => exact ⟨s, rfl, h, hunread, rfl⟩
    | cons d dest =>
      obtain ⟨s₁, hs₁, hprepared⟩ := prepareCurrentBuffer_prepared h (by simp [hunread])
      obtain ⟨buffer, hbuffer, hcursor⟩ := hprepared.current
      -- this turn copies what the current buffer has, the next ones the rest
      obtain ⟨n, hn⟩ : ∃ n, n = min (buffer.length - s₁.currentCursor) (dest.length + 1) := ⟨_, rfl⟩
      have hsplit := unread_advance hbuffer n s₁.totalLength
      rw [hprepared.unread, hunread] at hsplit
      obtain ⟨rest, hdest, hrest⟩ : ∃ rest,
          d :: dest = (buffer.drop s₁.currentCursor).take n ++ rest ∧
          ({ s₁ with currentCursor := s₁.currentCursor + n } : DataStream).unread = rest ++ bs := by
        rcases append_eq_append_iff.mp hsplit with ⟨rest, h₁, h₂⟩ | ⟨rest, h₁, h₂⟩
        · -- the copied part is not longer than what is asked for
          have hlen := congrArg List.length h₁
          simp only [length_take, length_drop, length_append, length_cons] at hlen
          obtain rfl : rest = [] := length_eq_zero_iff.mp (by omega)
          exact ⟨[], by simpa using h₁.symm, by simpa using h₂.symm⟩
        · exact ⟨rest, h₁, h₂⟩
      have hlen := congrArg List.length hdest
      simp only [length_take, length_drop, length_append, length_cons] at hlen
      have hfuel' : dest.length + 1 ≤ fuel + 1 := hfuel
      obtain ⟨s', hs', hordered, hread, htotal⟩ := ih
        (s := { s₁ with currentCursor := s₁.currentCursor + n }) (by omega : rest.length ≤ fuel)
        ⟨hprepared.ordered.buffers, hprepared.ordered.current⟩ hrest
      rw [hbuffer] at hs'
      refine ⟨s', ?_, hordered, hread, htotal.trans hprepared.total⟩
      have hremaining : dest.length + 1 - n = rest.length := by omega
      simp only [length_cons, eatAllLoop, hs₁, hbuffer, bind_eq_bind,
        bind_some, ← hn, hremaining, hs', Option.pure_def]
      rw [← hdest]

theorem eatAll_eq {dest : Bytes} (h : s.Sound) (hunread : s.unread = dest ++ bs) :
    ∃ s', s.eatAll dest.length = some (dest, s') ∧ s'.Sound ∧ s'.unread = bs := by
  obtain ⟨s', hs', hordered, hread, htotal⟩ := eatAllLoop_eq
    (s := { s with totalLength := s.totalLength - dest.length }) le_rfl
    ⟨h.buffers, h.current⟩ hunread
  refine ⟨s', hs', ⟨hordered, ?_⟩, hread⟩
  rw [htotal, hread]
  change s.totalLength - dest.length = _
  rw [h.total, hunread, length_append, Nat.add_sub_cancel_left]

end DataStream

open DataStream

/-- The range of `int32_t`. -/
def int32Min : Int := -(2 ^ 31)

def int32Max : Int := 2 ^ 31 - 1

def buf2int32 (buf : Bytes) : Option Int :=
  (buf2int64 buf).filter fun v => int32Min ≤ v ∧ v ≤ int32Max

namespace Content

/-- `end_array_size`, if it returns true. -/
def endArraySize (c : Content) : Option Content := do
  let count ← buf2int32 c.currentSize
  if count ≤ 0 then none
  else
    return { c with
      currentMsg := { c.currentMsg with subRequestCount := count }
      currentSize := []
      status := .startBulkString }

/-- `append_current_bulk_string`, with the request it hands over. -/
def appendCurrentBulkString (c : Content) : Content × List RedisRequest :=
  let request := { c.currentMsg with subRequests := c.currentMsg.subRequests ++ [c.currentStr] }
  if (request.subRequests.length : Int) = request.subRequestCount then
    ({ c with currentMsg := {}, status := .startArray }, [request])
  else ({ c with currentMsg := request, status := .startBulkString }, [])

/-- `end_bulk_string_size`, if it returns true. -/
def endBulkStringSize (c : Content) : Option (Content × List RedisRequest) := do
  let length ← buf2int32 c.currentSize
  let c := { c with currentStr := { length := length, data := [] }, currentSize := [] }
  if length = -1 then return c.appendCurrentBulkString
  else if 0 ≤ length then return ({ c with status := .startBulkStringData }, [])
  else none

def endSize (c : Content) : Option (Content × List RedisRequest) :=
  if c.status = .inArraySize then c.endArraySize.map fun c => (c, [])
  else c.endBulkStringSize

end Content

/-- `_current_str.length + 2`, which is an addition of `int`; the length is not negative where it is
computed. -/
def dataLength (length : Int) : Option Nat :=
  if length.toNat + 2 < 2 ^ 31 then some (length.toNat + 2) else none

/-- The parser, and the requests that `handle_command` was called with. -/
structure Parser where
  content : Content := {}
  stream : DataStream := {}
  handled : List RedisRequest := []
deriving DecidableEq

/-- How a turn of the loop ends: with the next turn, or with a return. -/
inductive Turn where
  | next
  | returnTrue
  | returnFalse
deriving DecidableEq

namespace Parser

def token (c : UInt8) (status : ParserStatus) (p : Parser) : Option (Turn × Parser) := do
  let (ok, stream) ← p.stream.eat c
  let p := { p with stream := stream }
  if ok then return (.next, { p with content := { p.content with status := status } })
  else return (.returnFalse, p)

/-- `CR`, `LF`, and what follows them. -/
def crlf (after : Option (Content × List RedisRequest)) (p : Parser) :
    Option (Turn × Parser) := do
  let (ok, stream) ← p.stream.eat CR
  if !ok then return (.returnFalse, { p with stream := stream })
  let (ok, stream) ← stream.eat LF
  if !ok then return (.returnFalse, { p with stream := stream })
  match after with
  | some (content, out) =>
    return (.next, { content := content, stream := stream, handled := p.handled ++ out })
  | none => return (.returnFalse, { p with stream := stream })

/-- A turn of the loop of `parse_stream`; `none` is a failed check or an overflow. -/
def parseStep (p : Parser) : Option (Turn × Parser) :=
  match p.content.status with
  | .startArray => p.token 42 .inArraySize
  | .startBulkString => p.token 36 .inBulkStringSize
  | .inArraySize | .inBulkStringSize => do
    let (t, stream) ← p.stream.peek
    let p := { p with stream := stream }
    if t = CR then
      if 1 < p.stream.totalLength then p.crlf p.content.endSize
      else return (.returnTrue, p)
    else
      let (_, stream) ← p.stream.eat t
      let content := { p.content with currentSize := p.content.currentSize ++ [t] }
      return (.next, { p with content := content, stream := stream })
  | .startBulkStringData => do
    let total ← dataLength p.content.currentStr.length
    if total ≤ p.stream.totalLength then
      if 0 < p.content.currentStr.length then
        let (data, stream) ← p.stream.eatAll p.content.currentStr.length.toNat
        let content := { p.content with currentStr := { p.content.currentStr with data := data } }
        { p with stream := stream }.crlf (some content.appendCurrentBulkString)
      else p.crlf (some p.content.appendCurrentBulkString)
    else return (.returnTrue, p)

/-- The loop of `parse_stream`; every turn takes a byte at least. -/
def parseLoop : Nat → Parser → Option (Bool × Parser)
  | 0, p => if p.stream.totalLength = 0 then some (true, p) else none
  | fuel + 1, p =>
    if p.stream.totalLength = 0 then some (true, p)
    else
      match p.parseStep with
      | some (.next, p) => parseLoop fuel p
      | some (.returnTrue, p) => some (true, p)
      | some (.returnFalse, p) => some (false, p)
      | none => none

def parseStream (p : Parser) : Option (Bool × Parser) := parseLoop p.stream.totalLength p

def resetParser (p : Parser) : Parser :=
  { p with content := { currentStr := p.content.currentStr }, stream := {} }

def parse (msg : Bytes) (p : Parser) : Option (Bool × Parser) :=
  match { p with stream := p.stream.appendMessage msg }.parseStream with
  | some (true, p) => some (true, p)
  | some (false, p) => some (false, p.resetParser)
  | none => none

def feed : Parser → List Bytes → Option (Bool × Parser)
  | p, [] => some (true, p)
  | p, msg :: msgs =>
    match p.parse msg with
    | some (true, p) => feed p msgs
    | some (false, p) => some (false, p)
    | none => none

end Parser

/-! ### The reader of the unread bytes -/

def readToken (c : UInt8) (status : ParserStatus) (content : Content) (b : UInt8) (bs : Bytes) :
    Outcome Content UInt8 RedisRequest :=
  if b = c then .go { content with status := status } bs [] else .refuse

def readCrlf (after : Option (Content × List RedisRequest)) :
    Bytes → Outcome Content UInt8 RedisRequest
  | x :: y :: rest =>
    if x = CR ∧ y = LF then
      match after with
      | some (content, out) => .go content rest out
      | none => .refuse
    else .refuse
  | _ => .wait

/-- The bytes of a string; an empty one keeps what its size has left. -/
def readData (str : RedisBulkString) (bs : Bytes) : Bytes :=
  if 0 < str.length then bs.take str.length.toNat else str.data

def readStep (c : Content) : Bytes → Outcome Content UInt8 RedisRequest
  | [] => .wait
  | b :: bs =>
    match c.status with
    | .startArray => readToken 42 .inArraySize c b bs
    | .startBulkString => readToken 36 .inBulkStringSize c b bs
    | .inArraySize | .inBulkStringSize =>
      if b = CR then readCrlf c.endSize (b :: bs)
      else .go { c with currentSize := c.currentSize ++ [b] } bs []
    | .startBulkStringData =>
      match dataLength c.currentStr.length with
      | none => .fault
      | some total =>
        if total ≤ (b :: bs).length then
          let data := readData c.currentStr (b :: bs)
          let content := { c with currentStr := { c.currentStr with data := data } }
          readCrlf (some content.appendCurrentBulkString)
            ((b :: bs).drop c.currentStr.length.toNat)
        else .wait

section Stability

variable {c c' : Content} {bs rest more : Bytes} {out : List RedisRequest}
  {after : Option (Content × List RedisRequest)}

theorem readCrlf_append (h : 2 ≤ bs.length) (more : Bytes) :
    readCrlf after (bs ++ more) =
      match readCrlf after bs with
      | .go c rest out => .go c (rest ++ more) out
      | outcome => outcome := by
  match bs, h with
  | x :: y :: bs, _ =>
    simp only [cons_append, readCrlf]
    split
    · split <;> rfl
    · rfl

/-- What a step decides, waiting apart, it decides with more bytes as well. -/
theorem readStep_append (h : readStep c bs ≠ .wait) (more : Bytes) :
    readStep c (bs ++ more) =
      match readStep c bs with
      | .go c rest out => .go c (rest ++ more) out
      | outcome => outcome := by
  cases bs with
  | nil => exact absurd rfl h
  | cons b bs =>
    simp only [cons_append, readStep] at h ⊢
    cases hstatus : c.status with
    | startArray | startBulkString =>
      simp only [readToken]
      split <;> rfl
    | inArraySize | inBulkStringSize =>
      simp only [hstatus] at h ⊢
      split
      · rename_i hb
        rw [if_pos hb] at h
        cases bs with
        | nil => exact absurd rfl h
        | cons b' bs => exact readCrlf_append (show 2 ≤ (b :: b' :: bs).length by simp) more
      · rfl
    | startBulkStringData =>
      simp only [hstatus] at h ⊢
      cases hlength : dataLength c.currentStr.length with
      | none => rfl
      | some total =>
        simp only [hlength] at h ⊢
        by_cases htotal : total ≤ (b :: bs).length
        · have hmore : total ≤ (b :: (bs ++ more)).length := by
            simp only [length_cons, length_append] at htotal ⊢
            omega
          have hdata : c.currentStr.length.toNat + 2 ≤ (b :: bs).length := by
            obtain ⟨-, hlength⟩ := ite_none_right_eq_some.mp hlength
            rwa [← some.inj hlength] at htotal
          have hread : readData c.currentStr (b :: bs ++ more) =
              readData c.currentStr (b :: bs) := by
            unfold readData
            rw [take_append_of_le_length (by omega)]
          rw [if_pos htotal, if_pos hmore, ← cons_append, hread,
            drop_append_of_le_length (by omega)]
          exact readCrlf_append (by rw [length_drop]; omega) more
        · rw [if_neg htotal] at h
          exact absurd rfl h

theorem readCrlf_length (h : readCrlf after bs = .go c rest out) : rest.length < bs.length := by
  unfold readCrlf at h
  split at h
  · split at h
    · split at h
      · cases h
        simp only [length_cons]
        omega
      · cases h
    · cases h
  · cases h

theorem readStep_length (h : readStep c bs = .go c' rest out) : rest.length < bs.length := by
  cases bs with
  | nil => cases h
  | cons b bs =>
    simp only [readStep] at h
    cases hstatus : c.status with
    | startArray | startBulkString =>
      simp only [hstatus, readToken] at h
      split at h
      · cases h
        simp
      · cases h
    | inArraySize | inBulkStringSize =>
      simp only [hstatus] at h
      split at h
      · exact readCrlf_length h
      · cases h
        simp
    | startBulkStringData =>
      simp only [hstatus] at h
      split at h
      · cases h
      · split at h
        · refine (readCrlf_length h).trans_le ?_
          rw [length_drop]
          omega
        · cases h

theorem readStep_go_append {c c' : Content} {bs rest : Bytes} {out : List RedisRequest}
    (more : Bytes) (h : readStep c bs = .go c' rest out) :
    readStep c (bs ++ more) = .go c' (rest ++ more) out := by
  rw [readStep_append (by simp [h]) more, h]

variable {c : Content} {bs : Bytes}

theorem readStep_refuse_append (more : Bytes)
    (h : readStep c bs = .refuse) : readStep c (bs ++ more) = .refuse := by
  rw [readStep_append (by simp [h]) more, h]

theorem readStep_fault_append (more : Bytes)
    (h : readStep c bs = .fault) : readStep c (bs ++ more) = .fault := by
  rw [readStep_append (by simp [h]) more, h]

end Stability

def reader : StreamReader Content UInt8 RedisRequest where
  step := readStep
  go_append := readStep_go_append
  refuse_append := readStep_refuse_append
  fault_append := readStep_fault_append
  go_length := readStep_length

namespace Parser

def config (p : Parser) : Config Content UInt8 RedisRequest :=
  ⟨p.content, p.stream.unread, p.handled⟩

variable {p : Parser} {b : UInt8} {bs : Bytes}

/-- A turn of the loop does what the step of the reader does. -/
inductive Refines (p : Parser) :
    Outcome Content UInt8 RedisRequest → Option (Turn × Parser) → Prop where
  | next {p' : Parser} {content : Content} {rest : Bytes} {out : List RedisRequest}
      (hsound : p'.stream.Sound) (hcontent : p'.content = content)
      (hunread : p'.stream.unread = rest) (hhandled : p'.handled = p.handled ++ out) :
      Refines p (.go content rest out) (some (.next, p'))
  | returnTrue {p' : Parser} (hsound : p'.stream.Sound) (hconfig : p'.config = p.config) :
      Refines p .wait (some (.returnTrue, p'))
  | returnFalse {p' : Parser} (hhandled : p'.handled = p.handled) :
      Refines p .refuse (some (.returnFalse, p'))
  | overflow : Refines p .fault none

variable (h : p.stream.Sound) (hunread : p.stream.unread = b :: bs)
include h hunread

theorem token_refines (c : UInt8) (status : ParserStatus) :
    Refines p (readToken c status p.content b bs) (p.token c status) := by
  unfold readToken
  split
  · rename_i hb
    obtain ⟨s, hs, hsound, hrest⟩ := eat_eq h hunread
    rw [hb] at hs
    simp only [token, hs, bind_eq_bind, bind_some, if_true, Option.pure_def]
    exact .next hsound rfl hrest (by simp)
  · rename_i hb
    obtain ⟨s, hs⟩ := eat_ne h.toOrdered hunread hb
    simp only [token, hs, bind_eq_bind, bind_some, Bool.false_eq_true, if_false, Option.pure_def]
    exact .returnFalse rfl

omit hunread h in
theorem crlf_refines {q : Parser} (h : q.stream.Sound) (hlength : 2 ≤ q.stream.unread.length)
    (hhandled : q.handled = p.handled) (after : Option (Content × List RedisRequest)) :
    Refines p (readCrlf after q.stream.unread) (q.crlf after) := by
  obtain ⟨x, y, rest, hunread⟩ : ∃ x y rest, q.stream.unread = x :: y :: rest := by
    match hq : q.stream.unread, hlength with
    | x :: y :: rest, _ => exact ⟨x, y, rest, rfl⟩
  rw [hunread]
  by_cases hx : x = CR
  · obtain ⟨s, hs, hsound, hrest⟩ := eat_eq h hunread
    rw [hx] at hs
    by_cases hy : y = LF
    · obtain ⟨s', hs', hsound', hrest'⟩ := eat_eq hsound hrest
      rw [hy] at hs'
      cases after with
      | none =>
        simp only [readCrlf, hx, hy, crlf, hs, hs', bind_eq_bind, bind_some]
        exact .returnFalse hhandled
      | some next =>
        simp only [readCrlf, hx, hy, crlf, hs, hs', bind_eq_bind, bind_some]
        exact .next hsound' rfl hrest' (by simp [hhandled])
    · obtain ⟨s', hs'⟩ := eat_ne hsound.toOrdered hrest hy
      simp only [readCrlf, hx, hy, crlf, hs, hs', bind_eq_bind, bind_some]
      exact .returnFalse hhandled
  · obtain ⟨s, hs⟩ := eat_ne h.toOrdered hunread hx
    simp only [readCrlf, hx, crlf, hs, bind_eq_bind, bind_some]
    exact .returnFalse hhandled

theorem sizeStep_refines
    (hstatus : p.content.status = .inArraySize ∨ p.content.status = .inBulkStringSize) :
    Refines p (readStep p.content (b :: bs)) p.parseStep := by
  have hstep : p.parseStep = (do
      let (t, stream) ← p.stream.peek
      let p := { p with stream := stream }
      if t = CR then
        if 1 < p.stream.totalLength then p.crlf p.content.endSize
        else return (.returnTrue, p)
      else
        let (_, stream) ← p.stream.eat t
        let content := { p.content with currentSize := p.content.currentSize ++ [t] }
        return (.next, { p with content := content, stream := stream })) := by
    rcases hstatus with hstatus | hstatus <;> simp only [parseStep, hstatus]
  have hread : readStep p.content (b :: bs) =
      if b = CR then readCrlf p.content.endSize (b :: bs)
      else .go { p.content with currentSize := p.content.currentSize ++ [b] } bs [] := by
    rcases hstatus with hstatus | hstatus <;> simp only [readStep, hstatus]
  obtain ⟨s, hpeek, hprepared⟩ := peek_eq h.toOrdered hunread
  have hsound := hprepared.sound h
  have hsame := hprepared.unread.trans hunread
  rw [hstep, hread]
  simp only [hpeek, bind_eq_bind, bind_some]
  split
  · have htotal := hsound.total
    rw [hsame] at htotal
    cases bs with
    | nil =>
      rw [if_neg (by rw [htotal]; simp)]
      exact .returnTrue hsound (by simp [config, hprepared.unread])
    | cons b' bs =>
      rw [if_pos (by rw [htotal]; simp), ← hsame]
      exact crlf_refines (p := p) (q := { p with stream := s }) hsound (by simp [hsame]) rfl _
  · obtain ⟨s', hs', hsound', hrest⟩ := eat_eq hsound hsame
    simp only [hs', bind_some]
    exact .next hsound' rfl hrest (by simp)

theorem dataStep_refines (hstatus : p.content.status = .startBulkStringData) :
    Refines p (readStep p.content (b :: bs)) p.parseStep := by
  simp only [readStep, parseStep, hstatus]
  have htotal : p.stream.totalLength = (b :: bs).length := by rw [h.total, hunread]
  cases hlength : dataLength p.content.currentStr.length with
  | none => exact .overflow
  | some total =>
    have hdata : total = p.content.currentStr.length.toNat + 2 := by
      obtain ⟨-, hlength⟩ := ite_none_right_eq_some.mp hlength
      exact (some.inj hlength).symm
    simp only [bind_eq_bind, bind_some, htotal]
    split
    · rename_i hle
      have hdrop : 2 ≤ ((b :: bs).drop p.content.currentStr.length.toNat).length := by
        rw [length_drop]
        omega
      split
      · have hsplit : p.stream.unread = (b :: bs).take p.content.currentStr.length.toNat ++
            (b :: bs).drop p.content.currentStr.length.toNat := by
          rw [hunread, take_append_drop]
        obtain ⟨s, hs, hsound, hrest⟩ := eatAll_eq h hsplit
        rw [length_take, Nat.min_eq_left (by omega)] at hs
        simp only [hs, bind_some]
        rw [← hrest] at hdrop ⊢
        rw [readData, if_pos ‹_›]
        exact crlf_refines (p := p) (q := { p with stream := s }) hsound hdrop rfl _
      · rename_i hzero
        have hnone : p.content.currentStr.length.toNat = 0 := by omega
        rw [readData, if_neg hzero, hnone, drop_zero, ← hunread]
        rw [hnone, drop_zero, ← hunread] at hdrop
        exact crlf_refines h hdrop rfl _
    · exact .returnTrue h rfl

omit hunread

theorem parseStep_refines (hne : p.stream.totalLength ≠ 0) :
    Refines p (readStep p.content p.stream.unread) p.parseStep := by
  obtain ⟨b, bs, hunread⟩ : ∃ b bs, p.stream.unread = b :: bs := by
    rw [h.total] at hne
    exact exists_cons_of_length_pos (Nat.pos_of_ne_zero hne)
  rw [hunread]
  cases hstatus : p.content.status with
  | startArray =>
    simp only [readStep, parseStep, hstatus]
    exact token_refines h hunread 42 .inArraySize
  | startBulkString =>
    simp only [readStep, parseStep, hstatus]
    exact token_refines h hunread 36 .inBulkStringSize
  | inArraySize => exact sizeStep_refines h hunread (.inl hstatus)
  | inBulkStringSize => exact sizeStep_refines h hunread (.inr hstatus)
  | startBulkStringData => exact dataStep_refines h hunread hstatus

omit h in
def Reads (c : Config Content UInt8 RedisRequest) : Option (Bool × Parser) → Prop
  | some (true, p) => p.stream.Sound ∧ reader.outcome p.config = .wait ∧ reader.Steps c p.config
  | some (false, p) => ∃ c', reader.Steps c c' ∧ reader.outcome c' = .refuse ∧ p.handled = c'.out
  | none => ∃ c', reader.Steps c c' ∧ reader.outcome c' = .fault

omit h in
theorem Reads.of_steps {c c' : Config Content UInt8 RedisRequest}
    {result : Option (Bool × Parser)} (hsteps : reader.Steps c c') (h : Reads c' result) :
    Reads c result := by
  match result, h with
  | some (true, p), ⟨hsound, hwait, h⟩ => exact ⟨hsound, hwait, hsteps.trans h⟩
  | some (false, p), ⟨c'', h, hrefuse, hhandled⟩ => exact ⟨c'', hsteps.trans h, hrefuse, hhandled⟩
  | none, ⟨c'', h, hfault⟩ => exact ⟨c'', hsteps.trans h, hfault⟩

theorem outcome_of_total (hzero : p.stream.totalLength = 0) : reader.outcome p.config = .wait := by
  rw [h.total, length_eq_zero_iff] at hzero
  change readStep p.content p.stream.unread = .wait
  rw [hzero]
  rfl

theorem parseLoop_reads {fuel : Nat} (hfuel : p.stream.totalLength ≤ fuel) :
    Reads p.config (parseLoop fuel p) := by
  induction fuel generalizing p with
  | zero =>
    have hzero := Nat.le_zero.mp hfuel
    rw [parseLoop, if_pos hzero]
    exact ⟨h, outcome_of_total h hzero, .refl⟩
  | succ fuel ih =>
    rw [parseLoop]
    split
    · rename_i hzero
      exact ⟨h, outcome_of_total h hzero, .refl⟩
    · rename_i hne
      have hstep := parseStep_refines h hne
      generalize hoc : readStep p.content p.stream.unread = outcome at hstep
      generalize p.parseStep = result at hstep
      cases hstep with
      | @next p' content rest out hsound hcontent hunread hhandled =>
        subst hcontent hunread
        have hlt := readStep_length hoc
        rw [← hsound.total, ← h.total] at hlt
        have hnext : reader.Next p.config p'.config := ⟨out, hoc, hhandled⟩
        exact .of_steps (.single hnext) (ih hsound (by omega))
      | @returnTrue p' hsound hconfig =>
        refine ⟨hsound, ?_, ?_⟩
        · rw [hconfig]
          exact hoc
        · rw [hconfig]
      | returnFalse hhandled => exact ⟨p.config, .refl, hoc, hhandled⟩
      | overflow => exact ⟨p.config, .refl, hoc⟩

omit h in
def IsReset (p : Parser) : Prop :=
  p.content.status = .startArray ∧ p.content.currentSize = [] ∧ p.content.currentMsg = {} ∧
    p.stream = {}

theorem parse_reads {msg : Bytes} (hmsg : msg ≠ []) :
    Reads (p.config.append msg) (p.parse msg) ∧
      ∀ p', p.parse msg = some (false, p') → p'.IsReset := by
  obtain ⟨hsound, hunread⟩ := h.appendMessage hmsg
  have hreads := parseLoop_reads (p := { p with stream := p.stream.appendMessage msg }) hsound
    le_rfl
  have hconfig : ({ p with stream := p.stream.appendMessage msg } : Parser).config =
      p.config.append msg := by
    simp only [config, Config.append, hunread]
  rw [hconfig] at hreads
  unfold parse parseStream
  split
  · rename_i p' hp'
    rw [hp'] at hreads
    exact ⟨hreads, by simp⟩
  · rename_i p' hp'
    rw [hp'] at hreads
    refine ⟨hreads, ?_⟩
    rintro _ ⟨⟩
    exact ⟨rfl, rfl, rfl, rfl⟩
  · rename_i hp'
    rw [hp'] at hreads
    exact ⟨hreads, by simp⟩

/-- **Messages are read as their concatenation**, up to the first one that is refused. -/
theorem feed_reads {msgs : List Bytes} (hwait : reader.outcome p.config = .wait)
    (hmsgs : ∀ msg ∈ msgs, msg ≠ []) :
    Reads (p.config.append msgs.flatten) (feed p msgs) ∧
      ∀ p', feed p msgs = some (false, p') → p'.IsReset := by
  induction msgs generalizing p with
  | nil =>
    have hnil : p.config.append [] = p.config := by simp [Config.append]
    rw [flatten_nil, hnil]
    exact ⟨⟨h, hwait, .refl⟩, by simp [feed]⟩
  | cons msg msgs ih =>
    obtain ⟨hreads, hreset⟩ := parse_reads h (hmsgs msg (by simp))
    have happend : p.config.append (msg :: msgs).flatten =
        (p.config.append msg).append msgs.flatten := by
      simp [Config.append]
    rw [happend, feed]
    split
    · rename_i p' hp'
      rw [hp'] at hreads
      obtain ⟨hsound, hwait', hsteps⟩ := hreads
      obtain ⟨hrest, hreset'⟩ := ih hsound hwait' fun m hm => hmsgs m (by simp [hm])
      exact ⟨.of_steps (StreamReader.steps_append hsteps _) hrest, hreset'⟩
    · rename_i p' hp'
      rw [hp'] at hreads
      obtain ⟨c', hsteps, hrefuse, hhandled⟩ := hreads
      refine ⟨⟨c'.append msgs.flatten, StreamReader.steps_append hsteps _,
        StreamReader.outcome_append_refuse hrefuse _, hhandled⟩, ?_⟩
      rintro _ ⟨⟩
      exact hreset p' hp'
    · rename_i hp'
      rw [hp'] at hreads
      obtain ⟨c', hsteps, hfault⟩ := hreads
      exact ⟨⟨c'.append msgs.flatten, StreamReader.steps_append hsteps _,
        StreamReader.outcome_append_fault hfault _⟩, by simp⟩

end Parser

end Pegasus.Redis
