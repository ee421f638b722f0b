/-
The parsers of received messages on arbitrary bytes.

A call gives a message that lies inside the received bytes, closes the session, or asks for the
bytes that are missing, as long as what the bytes announce is shorter than `2 ^ 31` and the thrift
library does not throw. The sum of the announced lengths is taken in 32 bits and used as an `int`
without a check, and exceptions of the library are not caught.

- `Framed`: what a call may do;
- `hostile_streams_are_framed`: the main result, for every reachable state;
- `wrapped_length_leaves_the_buffer`: an announced length that wraps to zero.
-/

import Pegasus.Rpc.Chunks

namespace Pegasus.Rpc

open TransitionSystem List Option
open Framing (Result)

/-! ### Calls on a stream -/

section Calls

variable {σ M : Type} (receive : σ → ByteString → Option (Result σ UInt8 M))

inductive ParserEvent where
  | bytes (chunk : ByteString)
  | call

/-- The state of the parser and the received bytes it has left. -/
def ParserEvent.step (p : σ × ByteString) : ParserEvent → Option (σ × ByteString)
  | .bytes chunk => some (p.1, p.2 ++ chunk)
  | .call => (receive p.1 p.2).map fun r => (r.state, r.rest)

variable {receive}

/-- A call gives a message that lies inside the received bytes, closes the session, or asks for the
number of bytes that are missing. -/
def Framed (body : M → ByteString) (Lacks : Int → Prop) (buffer : ByteString)
    (call : Option (Result σ UInt8 M)) : Prop :=
  ∃ r, call = some r ∧
    ((∃ m front, r.msg = some m ∧ buffer = front ++ body m ++ r.rest) ∨
      (r.msg = none ∧ r.readNext = -1) ∨ r.msg = none ∧ 0 < r.readNext ∧ Lacks r.readNext)

end Calls

theorem range_of_le {buffer : ByteString} {offset : Nat} (h : offset < 2 ^ 31)
    (hle : offset ≤ buffer.length) : range buffer offset = some (buffer.drop offset) := by
  rw [range, if_pos ⟨hle, .inl h⟩]

/-! ### Messages with a dsn header -/

namespace Dsn

/-- The length that the received bytes announce: of the header, until it is there. -/
def announced (buffer : ByteString) : Nat :=
  if buffer.length < HEADER_SIZE then HEADER_SIZE
  else HEADER_SIZE + (bodyLength (buffer.take HEADER_SIZE)).toNat

theorem isRightBody_of_length {m : Message} (h : m.body.length = (bodyLength m.header).toNat) :
    ∃ right, isRightBody m = some right := by
  unfold isRightBody
  split
  · exact ⟨_, rfl⟩
  · rw [if_neg (not_not.mpr h)]
    exact ⟨_, rfl⟩

theorem framed (headerChecked : Bool) {buffer : ByteString} (h : announced buffer < 2 ^ 31) :
    Framed Message.body (· = announced buffer - buffer.length) buffer
      (getMessageOnReceive headerChecked buffer) := by
  unfold Framed getMessageOnReceive
  unfold announced at h ⊢
  by_cases hshort : buffer.length < HEADER_SIZE
  · rw [if_pos hshort] at h ⊢
    rw [if_pos hshort, ← Nat.cast_sub hshort.le, toSigned_of_lt (by omega)]
    exact ⟨_, rfl, .inr (.inr ⟨rfl, by simp only; omega, rfl⟩)⟩
  · rw [if_neg hshort] at h ⊢
    rw [if_neg hshort]
    simp only
    rw [Nat.mod_eq_of_lt (by omega)]
    generalize hL : (bodyLength (buffer.take HEADER_SIZE)).toNat = L at h
    by_cases hbad : headerChecked = false ∧ isRightHeader (buffer.take HEADER_SIZE) = false
    · rw [if_pos hbad]
      exact ⟨_, rfl, .inr (.inl ⟨rfl, rfl⟩)⟩
    · rw [if_neg hbad]
      by_cases hlt : buffer.length < HEADER_SIZE + L
      · rw [if_pos hlt, ← Nat.cast_sub hlt.le, toSigned_of_lt (by omega)]
        exact ⟨_, rfl, .inr (.inr ⟨rfl, by simp only; omega, rfl⟩)⟩
      · have hle : HEADER_SIZE + L ≤ buffer.length := not_lt.mp hlt
        have hlength : (buffer.take (HEADER_SIZE + L)).length = HEADER_SIZE + L :=
          length_take_of_le hle
        rw [if_neg hlt, range_of_le (by omega) (by omega), bind_eq_bind, bind_some]
        obtain ⟨right, hright⟩ := isRightBody_of_length
          (m := ⟨buffer.take HEADER_SIZE, (buffer.take (HEADER_SIZE + L)).drop HEADER_SIZE⟩)
          (by simp only [length_drop, hlength, hL]; omega)
        rw [hright, bind_eq_bind, bind_some]
        cases right with
        | false => exact ⟨_, rfl, .inr (.inl ⟨rfl, rfl⟩)⟩
        | true =>
          rw [if_neg (by decide), behind]
          refine ⟨_, rfl, .inl ⟨_, buffer.take HEADER_SIZE, rfl, ?_⟩⟩
          have hfront : (buffer.take (HEADER_SIZE + L)).take HEADER_SIZE =
              buffer.take HEADER_SIZE := by
            rw [take_take, Nat.min_eq_left (by omega)]
          rw [← hfront, take_append_drop, take_append_drop]

end Dsn

/-! ### Thrift requests -/

namespace Thrift

variable (P : Protocol)

/-- The state and the buffer of a call once the header is read, if it is there and right. -/
def behindHeader (s : State) (buffer : ByteString) : Option (State × ByteString) :=
  if s = .noHeader then
    match parseRequestHeader buffer with
    | .parsed state rest => some (state, rest)
    | _ => none
  else some (s, buffer)

def missingHeader (buffer : ByteString) : Int :=
  if buffer.length < THFT_HDR_VERSION_LENGTH then THFT_HDR_VERSION_LENGTH - buffer.length
  else if readWord buffer 4 4 = 0 then HEADER_LENGTH_V0 - buffer.length
  else HEADER_LENGTH_V1 - buffer.length

/-- How much of the announced request is missing behind the header. -/
def State.missing (buffer : ByteString) : State → Int
  | .noHeader => missingHeader buffer
  | .v0 fields => fields.bodyLength - buffer.length
  | .v1 metaLength bodyLength _ => (metaLength + bodyLength : Nat) - buffer.length

/-- The meta is not there, and there is a body behind it. -/
def State.MetaMissing (buffer : ByteString) : State → Prop
  | .v1 metaLength bodyLength none => buffer.length < metaLength ∧ 0 < bodyLength
  | _ => False

/-- How much of the part that is read is missing: of the meta as long as it is not there. -/
def State.missingPart (buffer : ByteString) : State → Int
  | .v1 metaLength bodyLength none =>
    if buffer.length < metaLength then metaLength - buffer.length
    else (metaLength + bodyLength : Nat) - buffer.length
  | s => s.missing buffer

/-- What a request announces is an `int`, and the library does not throw on it. -/
def State.Readable (buffer : ByteString) : State → Prop
  | .noHeader => True
  | .v0 fields => fields.bodyLength < 2 ^ 31 ∧
      (fields.bodyLength ≤ buffer.length →
        (P.readMessageBegin (buffer.take fields.bodyLength)).isSome)
  | .v1 metaLength bodyLength fields => metaLength + bodyLength < 2 ^ 31 ∧
      (fields = none → metaLength ≤ buffer.length → (P.readMeta buffer).isSome) ∧
        (metaLength + bodyLength ≤ buffer.length →
          (P.readMessageBegin ((buffer.drop metaLength).take bodyLength)).isSome)

def State.Kept (buffer : ByteString) : State → Prop
  | .v1 metaLength _ (some _) => metaLength ≤ buffer.length
  | _ => True

/-- The number of bytes that a call may ask for: what is missing of the announced request, or of its
meta when this is not there. -/
def State.Lacks (s : State) (buffer : ByteString) (readNext : Int) : Prop :=
  readNext = s.missingPart buffer ∧ (¬ s.MetaMissing buffer → readNext = s.missing buffer)

variable {P} {buffer : ByteString}

variable {rest : ByteString} {s : State} {r : Result State UInt8 Message}
variable {fields : Meta} {headerLength metaLength bodyLength : Nat}

theorem finish_framed {body front : ByteString} {Lacks : Int → Prop}
    (hbody : (P.readMessageBegin body).isSome) (hbuffer : buffer = front ++ body ++ rest) :
    Framed Message.body Lacks buffer (finish P fields body rest headerLength) := by
  obtain ⟨b, hb⟩ := isSome_iff_exists.mp hbody
  unfold Framed finish
  rw [hb, map_some]
  by_cases hrequest : b.isRequest = true
  · rw [if_pos hrequest]
    exact ⟨_, rfl, .inl ⟨_, front, rfl, hbuffer⟩⟩
  · rw [if_neg hrequest]
    exact ⟨_, rfl, .inr (.inl ⟨rfl, rfl⟩)⟩

theorem framedV0 {fields : RequestMetaV0} (h : (State.v0 fields).Readable P buffer) :
    Framed Message.body ((State.v0 fields).Lacks buffer) buffer
      (parseRequestBodyV0 P fields buffer) := by
  obtain ⟨hlength, hbody⟩ := h
  by_cases hlt : buffer.length < fields.bodyLength
  · refine ⟨_, parseRequestBodyV0_short hlt, .inr (.inr ⟨rfl, ?_⟩)⟩
    simp only
    rw [toSigned_of_lt (by omega), Nat.cast_sub hlt.le]
    exact ⟨by omega, rfl, fun _ => rfl⟩
  · have hle : fields.bodyLength ≤ buffer.length := not_lt.mp hlt
    have hcall : parseRequestBodyV0 P fields buffer = finish P (.v0 fields)
        (buffer.take fields.bodyLength) (buffer.drop fields.bodyLength) HEADER_LENGTH_V0 := by
      unfold parseRequestBodyV0
      rw [if_neg hlt, behind]
    have hbuffer : buffer = [] ++ buffer.take fields.bodyLength ++
        buffer.drop fields.bodyLength := by
      rw [nil_append, take_append_drop]
    rw [hcall]
    exact finish_framed (hbody hle) hbuffer

theorem framedV1 {fields : RequestMetaV1} {parsed : Option RequestMetaV1}
    (hmeta : metaLength ≤ buffer.length)
    (h : (State.v1 metaLength bodyLength parsed).Readable P buffer) :
    Framed Message.body ((State.v1 metaLength bodyLength parsed).Lacks buffer) buffer
      (parseRequestBodyV1 P metaLength bodyLength fields buffer) := by
  obtain ⟨hlength, -, hbody⟩ := h
  have hrange : range buffer metaLength = some (buffer.drop metaLength) :=
    range_of_le (by omega) hmeta
  have hblob : (buffer.drop metaLength).length = buffer.length - metaLength := length_drop
  by_cases hlt : (buffer.drop metaLength).length < bodyLength
  · have hcall : parseRequestBodyV1 P metaLength bodyLength fields buffer =
        some ⟨.v1 metaLength bodyLength (some fields), buffer, none,
          ((metaLength + bodyLength - buffer.length : Nat) : Int)⟩ := by
      unfold parseRequestBodyV1
      rw [hrange, bind_eq_bind, bind_some, if_pos hlt, ← Nat.cast_sub hlt.le,
        toSigned_of_lt (by omega), hblob]
      congr 3
      omega
    refine ⟨_, hcall, .inr (.inr ⟨rfl, by simp only; omega, ?_⟩)⟩
    have hmissing : ((metaLength + bodyLength - buffer.length : Nat) : Int) =
        (metaLength + bodyLength : Nat) - buffer.length := by omega
    refine ⟨hmissing.trans ?_, fun _ => hmissing⟩
    cases parsed with
    | none => simp only [State.missingPart, if_neg (not_lt.mpr hmeta)]
    | some _ => rfl
  · have hle : metaLength + bodyLength ≤ buffer.length := by omega
    have hcall : parseRequestBodyV1 P metaLength bodyLength fields buffer = finish P (.v1 fields)
        ((buffer.drop metaLength).take bodyLength) (buffer.drop (metaLength + bodyLength))
        HEADER_LENGTH_V1 := by
      unfold parseRequestBodyV1
      rw [hrange, bind_eq_bind, bind_some, if_neg hlt, Nat.mod_eq_of_lt (by omega), behind]
    have hbuffer : buffer = buffer.take metaLength ++ (buffer.drop metaLength).take bodyLength ++
        buffer.drop (metaLength + bodyLength) := by
      rw [← take_add, take_append_drop]
    rw [hcall]
    exact finish_framed (hbody hle) hbuffer

theorem framed_parseRequestBody (hs : s ≠ .noHeader) (hkept : s.Kept buffer)
    (h : s.Readable P buffer) :
    Framed Message.body (s.Lacks buffer) buffer (parseRequestBody P s buffer) := by
  cases s with
  | noHeader => exact absurd rfl hs
  | v0 fields => exact framedV0 h
  | v1 metaLength bodyLength parsed =>
    cases parsed with
    | some fields => exact framedV1 hkept h
    | none =>
      by_cases hlt : buffer.length < metaLength
      · have hlength := h.1
        have hcall : parseRequestBody P (.v1 metaLength bodyLength none) buffer =
            some ⟨.v1 metaLength bodyLength none, buffer, none,
              ((metaLength - buffer.length : Nat) : Int)⟩ := by
          unfold parseRequestBody
          simp only
          rw [if_pos hlt, ← Nat.cast_sub hlt.le, toSigned_of_lt (by omega)]
        rw [hcall]
        refine ⟨_, rfl, .inr (.inr ⟨rfl, by simp only; omega, ?_, fun hthere => ?_⟩)⟩
        · simp only [State.missingPart, if_pos hlt]
          omega
        · have hnone : bodyLength = 0 := by
            simp only [State.MetaMissing, not_and, not_lt] at hthere
            exact Nat.le_zero.mp (hthere hlt)
          simp only [State.missing, hnone]
          omega
      · obtain ⟨fields, hfields⟩ := isSome_iff_exists.mp (h.2.1 rfl (not_lt.mp hlt))
        have hcall : parseRequestBody P (.v1 metaLength bodyLength none) buffer =
            parseRequestBodyV1 P metaLength bodyLength fields buffer := by
          unfold parseRequestBody
          simp only
          rw [if_neg hlt, hfields, bind_eq_bind, bind_some]
        rw [hcall]
        exact framedV1 (not_lt.mp hlt) h

theorem parseRequestHeader_cases (buffer : ByteString) :
    (∃ readNext, parseRequestHeader buffer = .wait readNext ∧ 0 < readNext ∧
      readNext = missingHeader buffer) ∨ parseRequestHeader buffer = .bad ∨
        ∃ state front rest, parseRequestHeader buffer = .parsed state rest ∧
          buffer = front ++ rest ∧ state ≠ .noHeader ∧ state.Kept rest := by
  unfold parseRequestHeader missingHeader
  by_cases hshort : buffer.length < THFT_HDR_VERSION_LENGTH
  · rw [if_pos hshort, if_pos hshort]
    exact .inl ⟨_, rfl, by omega, rfl⟩
  · rw [if_neg hshort, if_neg hshort]
    by_cases hthft : buffer.take 4 = THFT
    · rw [if_neg (not_not.mpr hthft)]
      split
      · rename_i hversion
        rw [if_pos hversion]
        by_cases hlt : buffer.length < HEADER_LENGTH_V0
        · rw [if_pos hlt]
          exact .inl ⟨_, rfl, by omega, rfl⟩
        · rw [if_neg hlt]
          by_cases hlength : readWord buffer 8 4 = HEADER_LENGTH_V0
          · rw [if_neg (not_not.mpr hlength)]
            exact .inr (.inr ⟨_, _, _, rfl, (take_append_drop _ _).symm, by simp, trivial⟩)
          · rw [if_pos hlength]
            exact .inr (.inl rfl)
      · rename_i hversion
        have hne : ¬ readWord buffer 4 4 = 0 := by omega
        rw [if_neg hne]
        by_cases hlt : buffer.length < HEADER_LENGTH_V1
        · rw [if_pos hlt]
          exact .inl ⟨_, rfl, by omega, rfl⟩
        · rw [if_neg hlt]
          exact .inr (.inr ⟨_, _, _, rfl, (take_append_drop _ _).symm, by simp, trivial⟩)
      · exact .inr (.inl rfl)
    · rw [if_pos hthft]
      exact .inr (.inl rfl)

/-- What a call may ask for: what is missing of the header, or of the request behind it. -/
def CallLacks (s : State) (buffer : ByteString) (readNext : Int) : Prop :=
  match behindHeader s buffer with
  | none => readNext = missingHeader buffer
  | some (state, rest) => state.Lacks rest readNext

def CallReadable (P : Protocol) (s : State) (buffer : ByteString) : Prop :=
  ∀ state rest, behindHeader s buffer = some (state, rest) → state.Readable P rest

theorem framed (hkept : s.Kept buffer) (h : CallReadable P s buffer) :
    Framed Message.body (CallLacks s buffer) buffer (getMessageOnReceive P s buffer) := by
  unfold CallReadable CallLacks behindHeader at *
  unfold getMessageOnReceive
  by_cases hs : s = .noHeader
  · rw [if_pos hs] at h ⊢
    rw [if_pos hs]
    rcases parseRequestHeader_cases buffer with
      ⟨readNext, hwait, hpos, hmissing⟩ | hbad | ⟨state, front, rest, hparsed, hbuffer, hne, hkept⟩
    · rw [hwait]
      exact ⟨_, rfl, .inr (.inr ⟨rfl, hpos, hmissing⟩)⟩
    · rw [hbad]
      exact ⟨_, rfl, .inr (.inl ⟨rfl, rfl⟩)⟩
    · rw [hparsed] at h ⊢
      obtain ⟨r, hcall, hframed⟩ := framed_parseRequestBody hne hkept (h state rest rfl)
      refine ⟨r, hcall, hframed.imp_left ?_⟩
      rintro ⟨m, front', hm, hrest⟩
      exact ⟨m, front ++ front', hm, by rw [hbuffer, hrest]; simp only [append_assoc]⟩
  · rw [if_neg hs] at h ⊢
    rw [if_neg hs]
    exact framed_parseRequestBody hs hkept (h s buffer rfl)

/-! A meta that has been parsed stays in the buffer. -/

theorem finish_state {body : ByteString} (h : finish P fields body rest headerLength = some r) :
    r.state = .noHeader := by
  obtain ⟨b, -, rfl⟩ := map_eq_some_iff.mp h
  split <;> rfl

theorem le_of_range {offset : Nat} (h : range buffer offset = some rest) :
    offset ≤ buffer.length := by
  obtain ⟨⟨hle, -⟩, -⟩ := ite_none_right_eq_some.mp h
  exact hle

theorem kept_parseRequestBodyV1 {fields : RequestMetaV1}
    (h : parseRequestBodyV1 P metaLength bodyLength fields buffer = some r) :
    r.state.Kept r.rest := by
  obtain ⟨blob, hblob, h⟩ := bind_eq_some_iff.mp h
  by_cases hlt : blob.length < bodyLength
  · rw [if_pos hlt] at h
    cases h
    exact le_of_range hblob
  · rw [if_neg hlt] at h
    rw [finish_state h]
    trivial

theorem kept_parseRequestBody (h : parseRequestBody P s buffer = some r) : r.state.Kept r.rest := by
  cases s with
  | noHeader => cases h
  | v0 fields =>
    have h' : parseRequestBodyV0 P fields buffer = some r := h
    unfold parseRequestBodyV0 at h'
    by_cases hlt : buffer.length < fields.bodyLength
    · rw [if_pos hlt] at h'
      cases h'
      trivial
    · rw [if_neg hlt] at h'
      rw [finish_state h']
      trivial
  | v1 metaLength bodyLength parsed =>
    cases parsed with
    | some fields => exact kept_parseRequestBodyV1 h
    | none =>
      unfold parseRequestBody at h
      simp only at h
      by_cases hlt : buffer.length < metaLength
      · rw [if_pos hlt] at h
        cases h
        trivial
      · rw [if_neg hlt] at h
        obtain ⟨fields, -, h⟩ := bind_eq_some_iff.mp h
        exact kept_parseRequestBodyV1 h

theorem kept_getMessageOnReceive (h : getMessageOnReceive P s buffer = some r) :
    r.state.Kept r.rest := by
  unfold getMessageOnReceive at h
  by_cases hs : s = .noHeader
  · rw [if_pos hs] at h
    cases hheader : parseRequestHeader buffer with
    | wait readNext =>
      rw [hheader] at h
      cases h
      trivial
    | bad =>
      rw [hheader] at h
      cases h
      trivial
    | parsed state rest =>
      rw [hheader] at h
      exact kept_parseRequestBody h
  · rw [if_neg hs] at h
    exact kept_parseRequestBody h

end Thrift

/-! ### Whole streams -/

theorem Thrift.kept_of_run {P : Thrift.Protocol} {events : List ParserEvent}
    {p : Thrift.State × ByteString}
    (hrun : run (ParserEvent.step (Thrift.getMessageOnReceive P)) (.noHeader, [])
      events = some p) : p.1.Kept p.2 := by
  refine run_invariant (I := fun p => p.1.Kept p.2) ?_ hrun trivial
  rintro ⟨s, buffer⟩ event q hstep hkept
  cases event with
  | bytes chunk =>
    cases hstep
    cases s with
    | noHeader => trivial
    | v0 fields => trivial
    | v1 metaLength bodyLength parsed =>
      cases parsed with
      | none => trivial
      | some fields =>
        have hle : metaLength ≤ buffer.length := hkept
        have hgoal : metaLength ≤ (buffer ++ chunk).length := by
          rw [length_append]
          omega
        exact hgoal
  | call =>
    obtain ⟨r, hcall, rfl⟩ := map_eq_some_iff.mp hstep
    exact Thrift.kept_getMessageOnReceive hcall

/-- **A hostile stream cannot break the framing, as long as what it announces is short.** Whatever
bytes have arrived and however often the parser has been called, the next call gives a message whose
body lies inside the received bytes, closes the session, or asks for the positive number of bytes
that are missing, if the announced length is less than `2 ^ 31` and, for a thrift request, the
library does not throw on its meta and its body. Of a thrift request of version 1 whose meta is not
there, the missing bytes of the meta are asked for. -/
theorem hostile_streams_are_framed (events : List ParserEvent) :
    (∀ headerChecked buffer, run (ParserEvent.step Dsn.getMessageOnReceive)
        (false, []) events = some (headerChecked, buffer) → Dsn.announced buffer < 2 ^ 31 →
          Framed Dsn.Message.body (· = Dsn.announced buffer - buffer.length) buffer
            (Dsn.getMessageOnReceive headerChecked buffer)) ∧
      ∀ P state buffer, run (ParserEvent.step (Thrift.getMessageOnReceive P))
        (.noHeader, []) events = some (state, buffer) → Thrift.CallReadable P state buffer →
          Framed Thrift.Message.body (Thrift.CallLacks state buffer) buffer
            (Thrift.getMessageOnReceive P state buffer) := by
  constructor
  · intro headerChecked buffer _ hannounced
    exact Dsn.framed headerChecked hannounced
  · intro P state buffer hrun hreadable
    exact Thrift.framed (Thrift.kept_of_run hrun) hreadable

def Thrift.getRequest : ByteString := Thrift.headerV0 { bodyLength := 16 } ++ Thrift.getBody

theorem Thrift.callReadable_getRequest : CallReadable binary .noHeader getRequest := by
  have hfits : ({ bodyLength := 16 } : RequestMetaV0).Fits :=
    ⟨by decide, by decide, by decide, by decide, by decide, by decide, by decide, by decide⟩
  intro state rest h
  unfold behindHeader getRequest at h
  rw [if_pos rfl, parseRequestHeader_headerV0 hfits] at h
  cases h
  refine ⟨by norm_num, fun _ => ?_⟩
  exact isSome_iff_exists.mpr ⟨_, readBinaryBegin_getBody⟩

/-- A header arrives in two parts, with a call between them, and a request of the library at once. -/
theorem hostile_streams_are_framed_short :
    Framed Dsn.Message.body (· = Dsn.announced Dsn.emptyMessage.header -
      Dsn.emptyMessage.header.length) Dsn.emptyMessage.header
        (Dsn.getMessageOnReceive false Dsn.emptyMessage.header) ∧
      Framed Thrift.Message.body (Thrift.CallLacks .noHeader Thrift.getRequest)
        Thrift.getRequest
        (Thrift.getMessageOnReceive Thrift.binary .noHeader Thrift.getRequest) :=
  ⟨(hostile_streams_are_framed [.bytes (Dsn.emptyMessage.header.take 100), .call,
      .bytes (Dsn.emptyMessage.header.drop 100)]).1 _ _ (by decide +kernel) (by decide +kernel),
    (hostile_streams_are_framed [.bytes Thrift.getRequest]).2 _ _ _ rfl
      Thrift.callReadable_getRequest⟩

theorem Dsn.receive_wrappedHeader : getMessageOnReceive false wrappedHeader = none := by
  have hnone : (getMessageOnReceive false wrappedHeader).isNone = true := by decide +kernel
  exact isNone_iff_eq_none.mp hnone

/-- The size of the message wraps to zero, so it seems to be there when its header is, and its body
would begin behind the end of its zero bytes. -/
theorem wrapped_length_leaves_the_buffer :
    run (ParserEvent.step Dsn.getMessageOnReceive) (false, [])
      [.bytes Dsn.wrappedHeader] = some (false, Dsn.wrappedHeader) ∧
    ¬ Framed Dsn.Message.body (· = Dsn.announced Dsn.wrappedHeader - Dsn.wrappedHeader.length)
      Dsn.wrappedHeader (Dsn.getMessageOnReceive false Dsn.wrappedHeader) := by
  refine ⟨rfl, ?_⟩
  rintro ⟨r, hcall, -⟩
  rw [Dsn.receive_wrappedHeader] at hcall
  cases hcall

end Pegasus.Rpc
