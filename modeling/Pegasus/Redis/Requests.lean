/-
What the Redis parser makes of a stream, against the encoding of RESP arrays of bulk strings.

The requests of an encoding are handed over however it is cut into messages, as long as their sizes
are within `int`. A stream that is not the beginning of an encoding is refused where its malformed
request shows: at a byte that cannot stand there, or at the end of a size or of a string. Sizes are
read as `strtoll` reads them, so that other texts than decimal numbers count as well.

- `encode`: the encoding; `InRange`: the sizes that `int` can hold;
- `Opened`, `MalformedRequest`: a request that is open, and one that is refused;
- `requests_of_any_split`: the main result.
-/

import Pegasus.Redis.Parser

namespace Pegasus.Redis

open List Content
open Server (Bytes createFromNumeric)
open Incremental (Outcome Config StreamReader)

/-- A RESP array of bulk strings; `none` is the nil string. -/
abbrev RespArray := List (Option Bytes)

def encodeString : Option Bytes → Bytes
  | none => 36 :: (createFromNumeric (-1) ++ [CR, LF])
  | some data => 36 :: (createFromNumeric data.length ++ [CR, LF] ++ (data ++ [CR, LF]))

def encodeArray (a : RespArray) : Bytes :=
  42 :: (createFromNumeric a.length ++ [CR, LF]) ++ a.flatMap encodeString

def encode (arrays : List RespArray) : Bytes := arrays.flatMap encodeArray

def bulkString : Option Bytes → RedisBulkString
  | none => { length := -1, data := [] }
  | some data => { length := data.length, data := data }

def request (a : RespArray) : RedisRequest := ⟨a.length, a.map bulkString⟩

/-- The length of a string and of its end is an `int`. -/
def StringInRange (s : Option Bytes) : Prop := ∀ data ∈ s, data.length + 2 < 2 ^ 31

/-- The sizes of an array are within `int`. -/
def InRange (a : RespArray) : Prop := a.length < 2 ^ 31 ∧ ∀ s ∈ a, StringInRange s

/-! ### Requests as the parser reads them -/

/-- A string whose size is a text that `buf2int32` reads. -/
inductive StringText : RedisBulkString → Bytes → Prop where
  | nil {text : Bytes} (htext : CR ∉ text) (hsize : buf2int32 text = some (-1)) :
      StringText { length := -1, data := [] } (36 :: (text ++ [CR, LF]))
  | data {text data : Bytes} (htext : CR ∉ text) (hsize : buf2int32 text = some (data.length : Int))
      (hfits : data.length + 2 < 2 ^ 31) :
      StringText { length := data.length, data := data }
        (36 :: (text ++ [CR, LF] ++ (data ++ [CR, LF])))

/-- The bytes of a request with some of its strings, of which more are to come. -/
inductive Opened (count : Int) : List RedisBulkString → Bytes → Prop where
  | header {text : Bytes} (htext : CR ∉ text) (hsize : buf2int32 text = some count)
      (hcount : 0 < count) : Opened count [] (42 :: (text ++ [CR, LF]))
  | string {strs : List RedisBulkString} {str : RedisBulkString} {bytes next : Bytes}
      (hopened : Opened count strs bytes) (hstr : StringText str next)
      (hmore : ((strs ++ [str]).length : Int) ≠ count) :
      Opened count (strs ++ [str]) (bytes ++ next)

inductive MalformedString : Bytes → Prop where
  | start {b : UInt8} {rest : Bytes} (hb : b ≠ 36) : MalformedString (b :: rest)
  | sizeEnd {text rest : Bytes} {b : UInt8} (htext : CR ∉ text) (hb : b ≠ LF) :
      MalformedString (36 :: (text ++ CR :: b :: rest))
  | size {text rest : Bytes} (htext : CR ∉ text)
      (hsize : ∀ v, buf2int32 text = some v → v < -1) :
      MalformedString (36 :: (text ++ CR :: LF :: rest))
  | dataEnd {text data rest : Bytes} {x y : UInt8} (htext : CR ∉ text)
      (hsize : buf2int32 text = some (data.length : Int)) (hfits : data.length + 2 < 2 ^ 31)
      (hend : ¬ (x = CR ∧ y = LF)) :
      MalformedString (36 :: (text ++ CR :: LF :: (data ++ x :: y :: rest)))

inductive MalformedRequest : Bytes → Prop where
  | start {b : UInt8} {rest : Bytes} (hb : b ≠ 42) : MalformedRequest (b :: rest)
  | sizeEnd {text rest : Bytes} {b : UInt8} (htext : CR ∉ text) (hb : b ≠ LF) :
      MalformedRequest (42 :: (text ++ CR :: b :: rest))
  | size {text rest : Bytes} (htext : CR ∉ text)
      (hsize : ∀ v, buf2int32 text = some v → v ≤ 0) :
      MalformedRequest (42 :: (text ++ CR :: LF :: rest))
  | string {count : Int} {strs : List RedisBulkString} {bytes rest : Bytes}
      (hopened : Opened count strs bytes) (hstr : MalformedString rest) :
      MalformedRequest (bytes ++ rest)

/-! ### Steps over the parts of a request -/

def idle (str : RedisBulkString) : Content := { currentStr := str }

def opened (str : RedisBulkString) (count : Int) (strs : List RedisBulkString) : Content :=
  { status := .startBulkString, currentStr := str, currentMsg := ⟨count, strs⟩ }

def inArraySize (str : RedisBulkString) (text : Bytes) : Content :=
  { status := .inArraySize, currentStr := str, currentSize := text }

def inStringSize (str : RedisBulkString) (count : Int) (strs : List RedisBulkString)
    (text : Bytes) : Content :=
  { status := .inBulkStringSize, currentStr := str, currentMsg := ⟨count, strs⟩,
    currentSize := text }

def inData (length : Int) (count : Int) (strs : List RedisBulkString) : Content :=
  { status := .startBulkStringData, currentStr := ⟨length, []⟩, currentMsg := ⟨count, strs⟩ }

def appended (str : RedisBulkString) (count : Int) (strs : List RedisBulkString) :
    Content × List RedisRequest :=
  if ((strs ++ [str]).length : Int) = count then (idle str, [⟨count, strs ++ [str]⟩])
  else (opened str count (strs ++ [str]), [])

/-- The bytes that were read since the last request was handed over. -/
inductive ReadSoFar : Content → Bytes → Prop where
  | idle {str : RedisBulkString} : ReadSoFar (idle str) []
  | arraySize {str : RedisBulkString} {text : Bytes} (htext : CR ∉ text) :
      ReadSoFar (inArraySize str text) (42 :: text)
  | opened {str : RedisBulkString} {count : Int} {strs : List RedisBulkString} {bytes : Bytes}
      (h : Opened count strs bytes) : ReadSoFar (opened str count strs) bytes
  | stringSize {str : RedisBulkString} {count : Int} {strs : List RedisBulkString}
      {bytes text : Bytes} (h : Opened count strs bytes) (htext : CR ∉ text) :
      ReadSoFar (inStringSize str count strs text) (bytes ++ 36 :: text)
  | data {count : Int} {strs : List RedisBulkString} {bytes text : Bytes} {n : Nat}
      (h : Opened count strs bytes) (htext : CR ∉ text) (hsize : buf2int32 text = some (n : Int)) :
      ReadSoFar (inData n count strs) (bytes ++ 36 :: (text ++ [CR, LF]))

section Parts

variable {c : Content} {text rest : Bytes} {out : List RedisRequest} {str : RedisBulkString}
  {count : Int} {strs : List RedisBulkString}
variable {status : ParserStatus} {outcome : Outcome Content UInt8 RedisRequest}
  {after : Option (Content × List RedisRequest)} {content : Content}

theorem appendCurrentBulkString_eq :
    appendCurrentBulkString
      { status := status, currentStr := str, currentMsg := ⟨count, strs⟩ } =
        appended str count strs := by
  simp only [appendCurrentBulkString, appended, idle, opened]

variable {c' : Content} {bs bytes text : Bytes}

theorem steps_single {rest : Bytes} {out' : List RedisRequest}
    (h : readStep c bs = .go c' rest out') (out : List RedisRequest) :
    reader.Steps ⟨c, bs, out⟩ ⟨c', rest, out ++ out'⟩ :=
  .single ⟨out', h, rfl⟩

theorem steps_size (hstatus : c.status = .inArraySize ∨ c.status = .inBulkStringSize)
    (htext : CR ∉ text) (rest : Bytes) (out : List RedisRequest) :
    reader.Steps ⟨c, text ++ rest, out⟩
      ⟨{ c with currentSize := c.currentSize ++ text }, rest, out⟩ := by
  induction text generalizing c with
  | nil => rw [nil_append, append_nil]
  | cons b text ih =>
    have hb : b ≠ CR := fun h => htext (by simp [h])
    have hstep : readStep c (b :: (text ++ rest)) =
        .go { c with currentSize := c.currentSize ++ [b] } (text ++ rest) [] := by
      rcases hstatus with hstatus | hstatus <;> simp [readStep, hstatus, hb]
    have hrest := ih (c := { c with currentSize := c.currentSize ++ [b] }) hstatus
      (fun h => htext (by simp [h]))
    have hfirst := steps_single hstep out
    simp only [append_nil, append_assoc, singleton_append] at hfirst hrest
    exact hfirst.trans hrest

theorem readStep_crlf (hstatus : c.status = .inArraySize ∨ c.status = .inBulkStringSize)
    {b : UInt8} : readStep c (CR :: b :: rest) = readCrlf c.endSize (CR :: b :: rest) := by
  rcases hstatus with hstatus | hstatus <;> simp [readStep, hstatus]

theorem steps_token_size {token : UInt8}
    (htoken : ∀ bs, readStep c (token :: bs) = .go { c with status := status } bs [])
    (hstatus : status = .inArraySize ∨ status = .inBulkStringSize) (hsize : c.currentSize = [])
    (htext : CR ∉ text) :
    reader.Steps ⟨c, token :: (text ++ rest), out⟩
      ⟨{ c with status := status, currentSize := text }, rest, out⟩ := by
  have hfirst := steps_single (htoken (text ++ rest)) out
  have hrest := steps_size (c := { c with status := status }) hstatus htext rest out
  simp only [append_nil, hsize, nil_append] at hfirst hrest
  exact hfirst.trans hrest

variable (str : RedisBulkString)

theorem steps_arraySize (htext : CR ∉ text) (rest : Bytes) :
    reader.Steps ⟨idle str, 42 :: (text ++ rest), out⟩ ⟨inArraySize str text, rest, out⟩ :=
  steps_token_size (fun _ => rfl) (.inl rfl) rfl htext

theorem steps_stringSize (count : Int) (strs : List RedisBulkString) (htext : CR ∉ text)
    (rest : Bytes) :
    reader.Steps ⟨opened str count strs, 36 :: (text ++ rest), out⟩
      ⟨inStringSize str count strs text, rest, out⟩ :=
  steps_token_size (fun _ => rfl) (.inr rfl) rfl htext

theorem steps_header (htext : CR ∉ text) (hsize : buf2int32 text = some count)
    (hcount : 0 < count) :
    reader.Steps ⟨idle str, 42 :: (text ++ [CR, LF]) ++ rest, out⟩
      ⟨opened str count [], rest, out⟩ := by
  have hend : readStep (inArraySize str text) (CR :: LF :: rest) =
      .go (opened str count []) rest [] := by
    rw [readStep_crlf (.inl rfl)]
    simp [readCrlf, endSize, endArraySize, inArraySize, hsize, Int.not_le.mpr hcount, opened]
  have hlast := steps_single hend out
  rw [append_nil] at hlast
  simpa using (steps_arraySize str htext (CR :: LF :: rest)).trans hlast

theorem steps_dataSize (count : Int) (strs : List RedisBulkString) (htext : CR ∉ text) {n : Nat}
    (hsize : buf2int32 text = some (n : Int)) (rest : Bytes) :
    reader.Steps ⟨opened str count strs, 36 :: (text ++ CR :: LF :: rest), out⟩
      ⟨inData n count strs, rest, out⟩ := by
  have hend : readStep (inStringSize str count strs text) (CR :: LF :: rest) =
      .go (inData n count strs) rest [] := by
    rw [readStep_crlf (.inr rfl)]
    have hn : (n : Int) ≠ -1 := by omega
    simp [readCrlf, endSize, endBulkStringSize, inStringSize, inData, hsize, hn]
  have hlast := steps_single hend out
  rw [append_nil] at hlast
  exact (steps_stringSize str count strs htext _).trans hlast

variable {str}

theorem readStep_data {data : Bytes} {x y : UInt8} (hfits : data.length + 2 < 2 ^ 31) :
    readStep (inData data.length count strs) (data ++ x :: y :: rest) =
      readCrlf (some (appended ⟨data.length, data⟩ count strs)) (x :: y :: rest) := by
  obtain ⟨b, bs, hbs⟩ : ∃ b bs, data ++ x :: y :: rest = b :: bs := exists_cons_of_ne_nil (by simp)
  have hlength : data.length + 2 ≤ (b :: bs).length := by
    rw [← hbs]
    simp
  have htotal : dataLength data.length = some (data.length + 2) := by
    rw [dataLength, Int.toNat_natCast, if_pos hfits]
  have hdata : readData ⟨data.length, []⟩ (b :: bs) = data := by
    rw [readData, ← hbs, Int.toNat_natCast, take_left]
    split
    · rfl
    · rename_i hzero
      simp only [Int.natCast_pos, Nat.pos_iff_ne_zero, not_not] at hzero
      exact (length_eq_zero_iff.mp hzero).symm
  have hdrop : (b :: bs).drop data.length = x :: y :: rest := by rw [← hbs, drop_left]
  rw [hbs]
  simp only [readStep, inData, htotal, if_pos hlength, Int.toNat_natCast, hdata, hdrop,
    appendCurrentBulkString_eq]

theorem StringText.steps (h : StringText str bytes) (str' : RedisBulkString) (count : Int)
    (strs : List RedisBulkString) (rest : Bytes) (out : List RedisRequest) :
    reader.Steps ⟨opened str' count strs, bytes ++ rest, out⟩
      ⟨(appended str count strs).1, rest, out ++ (appended str count strs).2⟩ := by
  cases h with
  | @nil text htext hsize =>
    have hend : readStep (inStringSize str' count strs text) (CR :: LF :: rest) =
        .go (appended ⟨-1, []⟩ count strs).1 rest (appended ⟨-1, []⟩ count strs).2 := by
      rw [readStep_crlf (.inr rfl)]
      simp [readCrlf, endSize, endBulkStringSize, inStringSize, hsize, appendCurrentBulkString_eq]
    simpa using (steps_stringSize str' count strs htext (CR :: LF :: rest)).trans
      (steps_single hend out)
  | @data text data htext hsize hfits =>
    have hend : readStep (inData data.length count strs) (data ++ CR :: LF :: rest) =
        .go (appended ⟨data.length, data⟩ count strs).1 rest
          (appended ⟨data.length, data⟩ count strs).2 := by
      rw [readStep_data hfits]
      simp [readCrlf]
    simpa using (steps_dataSize str' count strs htext hsize (data ++ CR :: LF :: rest)).trans
      (steps_single hend out)

theorem StringText.steps_more (h : StringText str bytes) (str' : RedisBulkString)
    (hmore : ((strs ++ [str]).length : Int) ≠ count) :
    reader.Steps ⟨opened str' count strs, bytes ++ rest, out⟩
      ⟨opened str count (strs ++ [str]), rest, out⟩ := by
  have hsteps := h.steps str' count strs rest out
  rwa [appended, if_neg hmore, append_nil] at hsteps

theorem Opened.steps (h : Opened count strs bytes) (str : RedisBulkString) (rest : Bytes) :
    ∃ str', reader.Steps ⟨idle str, bytes ++ rest, out⟩ ⟨opened str' count strs, rest, out⟩ := by
  induction h generalizing rest with
  | header htext hsize hcount => exact ⟨str, steps_header str htext hsize hcount⟩
  | @string strs next bytes tail _ hstr hmore ih =>
    obtain ⟨str', hsteps⟩ := ih (tail ++ rest)
    rw [append_assoc]
    exact ⟨next, hsteps.trans (hstr.steps_more str' hmore)⟩

/-! ### What is refused -/

/-- The reading of a stream stops with an outcome, with nothing more handed over. -/
def Stops (c : Content) (bs : Bytes) (out : List RedisRequest)
    (outcome : Outcome Content UInt8 RedisRequest) : Prop :=
  ∃ c', reader.Steps ⟨c, bs, out⟩ c' ∧ reader.outcome c' = outcome ∧ c'.out = out

theorem Stops.of_steps {c : Content} {bs' : Bytes}
    (hsteps : reader.Steps ⟨c, bs, out⟩ ⟨c', bs', out⟩) (h : Stops c' bs' out outcome) :
    Stops c bs out outcome := by
  obtain ⟨c'', hsteps', houtcome, hout⟩ := h
  exact ⟨c'', hsteps.trans hsteps', houtcome, hout⟩

theorem stops_now (h : readStep c bs = outcome) : Stops c bs out outcome :=
  ⟨⟨c, bs, out⟩, .refl, h, rfl⟩

theorem endStringSize_eq_none (hsize : ∀ v, buf2int32 text = some v → v < -1) :
    (inStringSize str count strs text).endSize = none := by
  cases hvalue : buf2int32 text with
  | none => simp [endSize, endBulkStringSize, inStringSize, hvalue]
  | some v =>
    have hv := hsize v hvalue
    have hone : v ≠ -1 := by omega
    have hneg : ¬ 0 ≤ v := by omega
    simp [endSize, endBulkStringSize, inStringSize, hvalue, hone, hneg]

theorem endArraySize_eq_none (hsize : ∀ v, buf2int32 text = some v → v ≤ 0) :
    (inArraySize str text).endSize = none := by
  cases hvalue : buf2int32 text with
  | none => simp [endSize, endArraySize, inArraySize, hvalue]
  | some v => simp [endSize, endArraySize, inArraySize, hvalue, hsize v hvalue]

theorem MalformedString.refused (h : MalformedString bs) (str : RedisBulkString) :
    Stops (opened str count strs) bs out .refuse := by
  cases h with
  | @start b rest hb =>
    apply stops_now
    simp [readStep, opened, readToken, hb]
  | @sizeEnd text rest b htext hb =>
    refine .of_steps (steps_stringSize str count strs htext _) ?_
    apply stops_now
    rw [readStep_crlf (.inr rfl)]
    simp [readCrlf, hb]
  | @size text rest htext hsize =>
    refine .of_steps (steps_stringSize str count strs htext _) ?_
    apply stops_now
    rw [readStep_crlf (.inr rfl), endStringSize_eq_none hsize]
    simp [readCrlf]
  | @dataEnd text data rest x y htext hsize hfits hend =>
    refine .of_steps (steps_dataSize str count strs htext hsize _) ?_
    apply stops_now
    rw [readStep_data hfits]
    simp [readCrlf, hend]

/-- **A malformed request is refused**, and nothing of it is handed over. -/
theorem MalformedRequest.refused (h : MalformedRequest bs) (str : RedisBulkString) :
    Stops (idle str) bs out .refuse := by
  cases h with
  | @start b rest hb =>
    apply stops_now
    simp [readStep, idle, readToken, hb]
  | @sizeEnd text rest b htext hb =>
    refine .of_steps (steps_arraySize str htext _) ?_
    apply stops_now
    rw [readStep_crlf (.inl rfl)]
    simp [readCrlf, hb]
  | @size text rest htext hsize =>
    refine .of_steps (steps_arraySize str htext _) ?_
    apply stops_now
    rw [readStep_crlf (.inl rfl), endArraySize_eq_none hsize]
    simp [readCrlf]
  | string hopened hstr =>
    obtain ⟨str', hsteps⟩ := hopened.steps str _
    exact .of_steps hsteps (hstr.refused str')

theorem readCrlf_eq_go (h : readCrlf after bs = .go c rest out) :
    after = some (c, out) ∧ bs = CR :: LF :: rest := by
  unfold readCrlf at h
  split at h
  · split at h
    · rename_i hend
      split at h
      · cases h
        rw [hend.1, hend.2]
        exact ⟨rfl, rfl⟩
      · cases h
    · cases h
  · cases h

theorem readCrlf_eq_refuse (h : readCrlf after bs = .refuse) :
    ∃ x y rest, bs = x :: y :: rest ∧ (¬ (x = CR ∧ y = LF) ∨ after = none) := by
  unfold readCrlf at h
  split at h
  · rename_i x y rest
    split at h
    · split at h
      · cases h
      · exact ⟨x, y, rest, rfl, .inr rfl⟩
    · rename_i hend
      exact ⟨x, y, rest, rfl, .inl hend⟩
  · cases h

theorem readCrlf_cr_refuse (h : readCrlf after (CR :: bs) = .refuse) :
    ∃ y rest, bs = y :: rest ∧ (y ≠ LF ∨ y = LF ∧ after = none) := by
  obtain ⟨x, y, rest, hbs, hend⟩ := readCrlf_eq_refuse h
  obtain ⟨rfl, rfl⟩ := List.cons.inj hbs
  grind

theorem Opened.appended {next : Bytes} (h : Opened count strs bytes) (hstr : StringText str next)
    (hnone : (appended str count strs).2 = []) :
    ReadSoFar (Redis.appended str count strs).1 (bytes ++ next) := by
  unfold Redis.appended at hnone ⊢
  split
  · rename_i hlast
    rw [if_pos hlast] at hnone
    cases hnone
  · rename_i hmore
    exact .opened (h.string hstr hmore)

theorem endStringSize_eq_some
    (h : (inStringSize str count strs text).endSize = some (content, out)) :
    buf2int32 text = some (-1) ∧ (content, out) = appended ⟨-1, []⟩ count strs ∨
      ∃ n : Nat, buf2int32 text = some (n : Int) ∧ content = inData n count strs ∧ out = [] := by
  simp only [endSize, inStringSize, endBulkStringSize, reduceCtorEq, if_false,
    Option.bind_eq_bind, Option.bind_eq_some_iff] at h
  obtain ⟨v, hvalue, h⟩ := h
  split at h
  · rename_i hv
    rw [hv] at hvalue h
    exact .inl ⟨hvalue, ((Option.some.inj h).symm.trans appendCurrentBulkString_eq)⟩
  · split at h
    · rename_i hv
      obtain ⟨n, rfl⟩ := Int.eq_ofNat_of_zero_le hv
      cases h
      exact .inr ⟨n, hvalue, rfl, rfl⟩
    · cases h

theorem endArraySize_eq_some (h : (inArraySize str text).endSize = some (content, out)) :
    ∃ count, buf2int32 text = some count ∧ 0 < count ∧ content = opened str count [] ∧
      out = [] := by
  simp only [endSize, inArraySize, if_true, Option.map_eq_some_iff, Prod.mk.injEq,
    endArraySize, Option.bind_eq_bind, Option.bind_eq_some_iff] at h
  obtain ⟨content', ⟨count, hvalue, h⟩, rfl, rfl⟩ := h
  split at h
  · cases h
  · rename_i hcount
    cases h
    exact ⟨count, hvalue, Int.not_le.mp hcount, rfl, rfl⟩

theorem inData_decides {n : Nat} {b : UInt8}
    (hwait : readStep (inData n count strs) (b :: bs) ≠ .wait)
    (hfault : readStep (inData n count strs) (b :: bs) ≠ .fault) :
    ∃ data x y rest, b :: bs = data ++ x :: y :: rest ∧ data.length = n ∧
      data.length + 2 < 2 ^ 31 := by
  simp only [readStep, inData] at hwait hfault
  cases hlength : dataLength n with
  | none =>
    rw [hlength] at hfault
    exact absurd rfl hfault
  | some total =>
    simp only [hlength] at hwait
    have hdata : n + 2 < 2 ^ 31 ∧ n + 2 = total := by simpa [dataLength] using hlength
    by_cases htotal : total ≤ (b :: bs).length
    · have htake : ((b :: bs).take n).length = n := by
        rw [length_take]
        omega
      have hdrop : 2 ≤ ((b :: bs).drop n).length := by
        rw [length_drop]
        omega
      obtain ⟨x, y, rest, hrest⟩ : ∃ x y rest, (b :: bs).drop n = x :: y :: rest := by
        rcases hlist : (b :: bs).drop n with _ | ⟨x, _ | ⟨y, rest⟩⟩
        · simp [hlist] at hdrop
        · simp [hlist] at hdrop
        · exact ⟨x, y, rest, rfl⟩
      refine ⟨(b :: bs).take n, x, y, rest, ?_, htake, by rw [htake]; exact hdata.1⟩
      rw [← hrest, take_append_drop]
    · rw [if_neg htotal] at hwait
      exact absurd rfl hwait

theorem ReadSoFar.step (h : ReadSoFar c bytes) (hstep : readStep c bs = .go c' rest []) :
    ∃ read, bs = read ++ rest ∧ ReadSoFar c' (bytes ++ read) := by
  cases bs with
  | nil => cases hstep
  | cons b bs =>
    cases h with
    | idle =>
      simp only [readStep, Redis.idle, readToken] at hstep
      split at hstep
      · rename_i hb
        cases hstep
        exact ⟨[b], rfl, hb ▸ .arraySize (by simp)⟩
      · cases hstep
    | @arraySize str text htext =>
      rw [readStep] at hstep
      simp only [inArraySize] at hstep
      split at hstep
      · obtain ⟨hafter, hbs⟩ := readCrlf_eq_go hstep
        obtain ⟨count, hsize, hcount, rfl, -⟩ := endArraySize_eq_some hafter
        exact ⟨[CR, LF], hbs, .opened (.header htext hsize hcount)⟩
      · rename_i hb
        cases hstep
        have hread : ReadSoFar (inArraySize str (text ++ [b])) (42 :: (text ++ [b])) :=
          .arraySize (by simp [htext, Ne.symm hb])
        exact ⟨[b], rfl, hread⟩
    | @opened str count strs _ hopened =>
      simp only [readStep, Redis.opened, readToken] at hstep
      split at hstep
      · rename_i hb
        cases hstep
        have hread : ReadSoFar (inStringSize str count strs []) (bytes ++ [36]) :=
          .stringSize hopened (by simp)
        exact ⟨[b], rfl, hb ▸ hread⟩
      · cases hstep
    | @stringSize str count strs bytes text hopened htext =>
      rw [readStep] at hstep
      simp only [inStringSize] at hstep
      split at hstep
      · obtain ⟨hafter, hbs⟩ := readCrlf_eq_go hstep
        rcases endStringSize_eq_some hafter with ⟨hsize, happended⟩ | ⟨n, hsize, rfl, -⟩
        · have hread := hopened.appended (StringText.nil htext hsize) (by rw [← happended])
          rw [← happended] at hread
          exact ⟨[CR, LF], hbs, by simpa using hread⟩
        · have hread := ReadSoFar.data hopened htext hsize
          exact ⟨[CR, LF], hbs, by simpa using hread⟩
      · rename_i hb
        cases hstep
        have hread : ReadSoFar (inStringSize str count strs (text ++ [b]))
            (bytes ++ 36 :: (text ++ [b])) :=
          .stringSize hopened (by simp [htext, Ne.symm hb])
        rw [inStringSize] at hread
        exact ⟨[b], rfl, by simpa using hread⟩
    | @data count strs bytes text n hopened htext hsize =>
      obtain ⟨data, x, y, tail, hbs, rfl, hfits⟩ := inData_decides
        (by rw [hstep]; simp) (by rw [hstep]; simp)
      rw [hbs, readStep_data hfits] at hstep
      obtain ⟨hafter, hend⟩ := readCrlf_eq_go hstep
      have happended := Option.some.inj hafter
      have hread := hopened.appended (.data htext hsize hfits) (by rw [happended])
      rw [happended] at hread
      refine ⟨data ++ [CR, LF], ?_, by simpa using hread⟩
      rw [hbs, hend]
      simp

theorem ReadSoFar.malformed (h : ReadSoFar c bytes) (hstep : readStep c bs = .refuse) :
    MalformedRequest (bytes ++ bs) := by
  cases bs with
  | nil => cases hstep
  | cons b bs =>
    cases h with
    | idle =>
      simp only [readStep, Redis.idle, readToken] at hstep
      split at hstep
      · cases hstep
      · rename_i hb
        exact .start hb
    | @arraySize str text htext =>
      rw [readStep] at hstep
      simp only [inArraySize] at hstep
      split at hstep
      · rename_i hb
        subst hb
        obtain ⟨y, rest, rfl, hy | ⟨rfl, hend⟩⟩ := readCrlf_cr_refuse hstep
        · exact .sizeEnd htext hy
        · refine .size htext fun v hv => ?_
          by_contra hpos
          simp [endSize, endArraySize, hv, hpos] at hend
      · cases hstep
    | @opened str count strs _ hopened =>
      simp only [readStep, Redis.opened, readToken] at hstep
      split at hstep
      · cases hstep
      · rename_i hb
        exact .string hopened (.start hb)
    | @stringSize str count strs bytes text hopened htext =>
      rw [append_assoc]
      refine .string hopened ?_
      rw [readStep] at hstep
      simp only [inStringSize] at hstep
      split at hstep
      · rename_i hb
        subst hb
        obtain ⟨y, rest, rfl, hy | ⟨rfl, hend⟩⟩ := readCrlf_cr_refuse hstep
        · exact .sizeEnd htext hy
        · refine .size htext fun v hv => ?_
          by_contra hsize
          have hsize' : v ≠ -1 → 0 ≤ v := by omega
          by_cases hone : v = -1 <;> simp_all [endSize, endBulkStringSize]
      · cases hstep
    | @data count strs bytes text n hopened htext hsize =>
      obtain ⟨data, x, y, tail, hbs, rfl, hfits⟩ := inData_decides
        (by rw [hstep]; simp) (by rw [hstep]; simp)
      rw [hbs, readStep_data hfits] at hstep
      obtain ⟨x', y', tail', hend, hne | hnone⟩ := readCrlf_eq_refuse hstep
      · simp only [List.cons.injEq] at hend
        obtain ⟨rfl, rfl, rfl⟩ := hend
        rw [hbs]
        have hstring : MalformedString (36 :: (text ++ CR :: LF :: (data ++ x :: y :: tail))) :=
          .dataEnd htext hsize hfits hne
        simpa using MalformedRequest.string hopened hstring
      · cases hnone

theorem out_grows {c c' : Config Content UInt8 RedisRequest} (h : reader.Steps c c') :
    c.out <+: c'.out := by
  induction h with
  | refl => exact prefix_rfl
  | tail _ hnext ih =>
    obtain ⟨out, -, hout⟩ := hnext
    exact ih.trans (hout ▸ prefix_append _ _)

theorem malformed_of_refused {c : Content} (hread : ReadSoFar c bytes)
    (h : Stops c bs out .refuse) : MalformedRequest (bytes ++ bs) := by
  obtain ⟨c', hsteps, hrefuse, hout⟩ := h
  generalize hc : (⟨c, bs, out⟩ : Config Content UInt8 RedisRequest) = start at hsteps
  induction hsteps using Relation.ReflTransGen.head_induction_on generalizing c bytes bs with
  | refl =>
    subst hc
    exact hread.malformed hrefuse
  | @head start next hnext hsteps ih =>
    subst hc
    obtain ⟨out', hgo, hout'⟩ := hnext
    -- nothing is handed over on the way
    have hlength := (out_grows hsteps).length_le
    rw [hout', hout, length_append] at hlength
    obtain rfl : out' = [] := length_eq_zero_iff.mp (by simpa using hlength)
    rw [append_nil] at hout'
    obtain ⟨read, rfl, hread'⟩ := hread.step hgo
    rw [← append_assoc]
    exact ih hread' (Incremental.Config.ext rfl rfl hout'.symm)

end Parts

/-! ### Requests of the encoding -/

theorem cr_notMem_createFromNumeric (v : Int) : CR ∉ createFromNumeric v := by
  intro h
  rcases Server.mem_createFromNumeric h with h | h
  · exact absurd h (by decide)
  · exact absurd h.1 (by decide)

theorem buf2int32_createFromNumeric (v : Int) :
    buf2int32 (createFromNumeric v) = if int32Min ≤ v ∧ v ≤ int32Max then some v else none := by
  have hmin : Server.int64Min ≤ int32Min := by decide
  have hmax : int32Max ≤ Server.int64Max := by decide
  rw [buf2int32, Server.buf2int64_createFromNumeric_eq]
  by_cases h : int32Min ≤ v ∧ v ≤ int32Max
  · rw [if_pos h, if_pos ⟨hmin.trans h.1, h.2.trans hmax⟩]
    simp [Option.filter, h]
  · rw [if_neg h]
    split
    · simpa [Option.filter] using h
    · rfl

theorem buf2int32_length {n : Nat} (h : n < 2 ^ 31) :
    buf2int32 (createFromNumeric n) = some (n : Int) := by
  rw [buf2int32_createFromNumeric, if_pos]
  simp only [int32Min, int32Max]
  omega

theorem buf2int32_length_eq_none {n : Nat} (h : ¬ n < 2 ^ 31) :
    buf2int32 (createFromNumeric n) = none := by
  rw [buf2int32_createFromNumeric, if_neg]
  simp only [int32Min, int32Max]
  omega

theorem stringText_encodeString {s : Option Bytes} (h : StringInRange s) :
    StringText (bulkString s) (encodeString s) := by
  cases s with
  | none => exact .nil (cr_notMem_createFromNumeric _) (by decide)
  | some data =>
    have hfits := h data rfl
    exact .data (cr_notMem_createFromNumeric _) (buf2int32_length (by omega)) hfits

theorem length_concat (strs : List RedisBulkString) (str : RedisBulkString) :
    ((strs ++ [str]).length : Int) = strs.length + 1 := by
  simp

section Arrays

variable {rest : Bytes} {out : List RedisRequest} {count : Int} {strs : List RedisBulkString}

variable {a : RespArray} {arrays : List RespArray}

theorem steps_strings (hne : a ≠ []) (h : ∀ s ∈ a, StringInRange s)
    (hcount : (strs.length + a.length : Int) = count) (str : RedisBulkString) :
    ∃ str', reader.Steps ⟨opened str count strs, a.flatMap encodeString ++ rest, out⟩
      ⟨idle str', rest, out ++ [⟨count, strs ++ a.map bulkString⟩]⟩ := by
  induction a generalizing strs str with
  | nil => exact absurd rfl hne
  | cons s a ih =>
    have hsteps := (stringText_encodeString (h s (by simp))).steps str count strs
      (a.flatMap encodeString ++ rest) out
    rw [flatMap_cons, append_assoc]
    cases a with
    | nil =>
      rw [appended, if_pos (by simpa using hcount)] at hsteps
      exact ⟨bulkString s, hsteps⟩
    | cons s' a =>
      simp only [length_cons, Nat.cast_add, Nat.cast_one] at hcount
      have hlength := length_concat strs (bulkString s)
      rw [appended, if_neg (by omega), append_nil] at hsteps
      have hcount' : (((strs ++ [bulkString s]).length : Int) + (s' :: a).length) = count := by
        simp only [length_cons, Nat.cast_add, Nat.cast_one]
        omega
      obtain ⟨str', hrest⟩ := ih (by simp) (fun x hx => h x (mem_cons_of_mem _ hx)) hcount'
        (bulkString s)
      exact ⟨str', by simpa using hsteps.trans hrest⟩

theorem opened_header (hne : a ≠ []) (h : a.length < 2 ^ 31) :
    Opened a.length [] (42 :: (createFromNumeric a.length ++ [CR, LF])) :=
  .header (cr_notMem_createFromNumeric _) (buf2int32_length h)
    (by exact_mod_cast length_pos_iff.mpr hne)

/-- **A request of the encoding is handed over.** -/
theorem steps_encodeArray (hne : a ≠ []) (h : InRange a) (str : RedisBulkString) :
    ∃ str', reader.Steps ⟨idle str, encodeArray a ++ rest, out⟩
      ⟨idle str', rest, out ++ [request a]⟩ := by
  obtain ⟨str₁, hheader⟩ := (opened_header hne h.1).steps str (a.flatMap encodeString ++ rest)
  have hcount : ((([] : List RedisBulkString).length : Int) + a.length) = a.length := by simp
  obtain ⟨str₂, hstrings⟩ := steps_strings hne h.2 hcount str₁
  exact ⟨str₂, by simpa [encodeArray, request] using hheader.trans hstrings⟩

theorem steps_encode (hne : ∀ a ∈ arrays, a ≠ []) (h : ∀ a ∈ arrays, InRange a)
    (str : RedisBulkString) (rest : Bytes) (out : List RedisRequest) :
    ∃ str', reader.Steps ⟨idle str, encode arrays ++ rest, out⟩
      ⟨idle str', rest, out ++ arrays.map request⟩ := by
  induction arrays generalizing str out with
  | nil =>
    simp only [encode, flatMap_nil, nil_append, map_nil, append_nil]
    exact ⟨str, .refl⟩
  | cons a arrays ih =>
    obtain ⟨str₁, hfirst⟩ := steps_encodeArray (hne a (by simp)) (h a (by simp)) str
    obtain ⟨str₂, hrest⟩ := ih (fun x hx => hne x (by simp [hx])) (fun x hx => h x (by simp [hx]))
      str₁ (out ++ [request a])
    exact ⟨str₂, by simpa [encode] using hfirst.trans hrest⟩

theorem stops_of_string {data : Bytes} (h : ¬ data.length + 2 < 2 ^ 31) (str : RedisBulkString) :
    Stops (opened str count strs) (encodeString (some data) ++ rest) out .refuse ∨
      Stops (opened str count strs) (encodeString (some data) ++ rest) out .fault := by
  have hbytes : encodeString (some data) ++ rest =
      36 :: (createFromNumeric data.length ++ CR :: LF :: (data ++ CR :: LF :: rest)) := by
    simp [encodeString]
  rw [hbytes]
  by_cases hsize : data.length < 2 ^ 31
  · right
    refine .of_steps (steps_dataSize str count strs (cr_notMem_createFromNumeric _)
      (buf2int32_length hsize) _) ?_
    have hstep : readStep (inData data.length count strs) (data ++ CR :: LF :: rest) = .fault := by
      obtain ⟨b, bs, hbs⟩ : ∃ b bs, data ++ CR :: LF :: rest = b :: bs :=
        exists_cons_of_ne_nil (by simp)
      have htotal : dataLength data.length = none := by rw [dataLength, Int.toNat_natCast, if_neg h]
      rw [hbs]
      simp only [readStep, inData, htotal]
    exact stops_now hstep
  · left
    refine MalformedString.refused (.size (cr_notMem_createFromNumeric _) fun v hv => ?_) str
    rw [buf2int32_length_eq_none hsize] at hv
    cases hv

theorem stops_of_strings (h : ∃ s ∈ a, ¬ StringInRange s)
    (hcount : (strs.length + a.length : Int) = count) (str : RedisBulkString) :
    Stops (opened str count strs) (a.flatMap encodeString ++ rest) out .refuse ∨
      Stops (opened str count strs) (a.flatMap encodeString ++ rest) out .fault := by
  induction a generalizing strs str with
  | nil => simp at h
  | cons s a ih =>
    rw [flatMap_cons, append_assoc]
    by_cases hs : StringInRange s
    · have hrest : ∃ s' ∈ a, ¬ StringInRange s' := by
        obtain ⟨s', hs', hbad⟩ := h
        rcases mem_cons.mp hs' with rfl | hs'
        · exact absurd hs hbad
        · exact ⟨s', hs', hbad⟩
      obtain ⟨s', hs', -⟩ := id hrest
      have hpos := length_pos_of_mem hs'
      simp only [length_cons, Nat.cast_add, Nat.cast_one] at hcount
      have hlength := length_concat strs (bulkString s)
      have hsteps : reader.Steps
          ⟨opened str count strs, encodeString s ++ (a.flatMap encodeString ++ rest), out⟩
          ⟨opened (bulkString s) count (strs ++ [bulkString s]),
            a.flatMap encodeString ++ rest, out⟩ :=
        (stringText_encodeString hs).steps_more str (by omega)
      exact (ih hrest (by omega) (bulkString s)).imp (.of_steps hsteps) (.of_steps hsteps)
    · unfold StringInRange at hs
      push Not at hs
      obtain ⟨data, rfl, hlong⟩ := hs
      exact stops_of_string (by omega) str

/-- **A request whose sizes do not fit is not handed over.** -/
theorem stops_of_not_inRange (hne : a ≠ []) (h : ¬ InRange a) (str : RedisBulkString) :
    Stops (idle str) (encodeArray a ++ rest) out .refuse ∨
      Stops (idle str) (encodeArray a ++ rest) out .fault := by
  by_cases hlength : a.length < 2 ^ 31
  · have hstrings : ∃ s ∈ a, ¬ StringInRange s := by
      by_contra hall
      push Not at hall
      exact h ⟨hlength, hall⟩
    obtain ⟨str', hheader⟩ := (opened_header hne hlength).steps str (a.flatMap encodeString ++ rest)
    have hcount : ((([] : List RedisBulkString).length : Int) + a.length) = a.length := by simp
    rw [encodeArray, append_assoc]
    exact (stops_of_strings hstrings hcount str').imp (.of_steps hheader) (.of_steps hheader)
  · left
    have hbytes : encodeArray a ++ rest =
        42 :: (createFromNumeric a.length ++ CR :: LF :: (a.flatMap encodeString ++ rest)) := by
      simp [encodeArray]
    rw [hbytes]
    refine MalformedRequest.refused (.size (cr_notMem_createFromNumeric _) fun v hv => ?_) str
    rw [buf2int32_length_eq_none hlength] at hv
    cases hv

theorem stops_of_encode (hne : ∀ a ∈ arrays, a ≠ []) (h : ∃ a ∈ arrays, ¬ InRange a)
    (str : RedisBulkString) (rest : Bytes) (out : List RedisRequest) :
    ∃ c', reader.Steps ⟨idle str, encode arrays ++ rest, out⟩ c' ∧
      (reader.outcome c' = .refuse ∨ reader.outcome c' = .fault) ∧
      c'.out.length < out.length + arrays.length := by
  induction arrays generalizing str out with
  | nil => simp at h
  | cons a arrays ih =>
    have hbytes : encode (a :: arrays) ++ rest = encodeArray a ++ (encode arrays ++ rest) := by
      simp [encode]
    rw [hbytes]
    by_cases ha : InRange a
    · have hrest : ∃ a' ∈ arrays, ¬ InRange a' := by
        obtain ⟨a', ha', hbad⟩ := h
        rcases mem_cons.mp ha' with rfl | ha'
        · exact absurd ha hbad
        · exact ⟨a', ha', hbad⟩
      obtain ⟨str₁, hfirst⟩ := steps_encodeArray (hne a (by simp)) ha str
      obtain ⟨c', hsteps, houtcome, hlength⟩ := ih (fun x hx => hne x (by simp [hx])) hrest str₁
        (out ++ [request a])
      refine ⟨c', hfirst.trans hsteps, houtcome, ?_⟩
      simp only [length_append, length_cons, length_nil] at hlength ⊢
      omega
    · rcases stops_of_not_inRange (hne a (by simp)) ha str with
        ⟨c', hsteps, houtcome, hout⟩ | ⟨c', hsteps, houtcome, hout⟩
      · exact ⟨c', hsteps, .inl houtcome, by simp [hout]⟩
      · exact ⟨c', hsteps, .inr houtcome, by simp [hout]⟩

end Arrays

/-! ### Messages -/

section Messages

variable {msgs : List Bytes} {c : Config Content UInt8 RedisRequest}

def stream (msgs : List Bytes) : Config Content UInt8 RedisRequest := ⟨idle {}, msgs.flatten, []⟩

theorem sound_new : ({} : DataStream).Sound := ⟨⟨by simp, by simp⟩, rfl⟩

variable (hmsgs : ∀ msg ∈ msgs, msg ≠ [])
include hmsgs

theorem feed_stream :
    Parser.Reads (stream msgs) (Parser.feed {} msgs) ∧
      ∀ p, Parser.feed {} msgs = some (false, p) → p.IsReset :=
  Parser.feed_reads sound_new rfl hmsgs

theorem feed_of_final (hfinal : reader.Final (stream msgs) c) :
    (∃ p, Parser.feed {} msgs = some (true, p) ∧ reader.outcome c = .wait ∧ p.handled = c.out) ∨
      (∃ p, Parser.feed {} msgs = some (false, p) ∧ reader.outcome c = .refuse ∧ p.IsReset ∧
        p.handled = c.out) ∨
      (Parser.feed {} msgs = none ∧ reader.outcome c = .fault) := by
  obtain ⟨hreads, hreset⟩ := feed_stream hmsgs
  match hfeed : Parser.feed {} msgs, hreads with
  | some (true, p), ⟨_, hwait, hsteps⟩ =>
    have heq := StreamReader.final_unique hfinal ⟨hsteps, StreamReader.halted_of_wait hwait⟩
    exact .inl ⟨p, rfl, heq ▸ hwait, by rw [heq]; rfl⟩
  | some (false, p), ⟨c', hsteps, hrefuse, hhandled⟩ =>
    have heq := StreamReader.final_unique hfinal ⟨hsteps, StreamReader.halted_of_refuse hrefuse⟩
    exact .inr (.inl ⟨p, rfl, heq ▸ hrefuse, hreset p hfeed, by rw [hhandled, heq]⟩)
  | none, ⟨c', hsteps, hfault⟩ =>
    have heq := StreamReader.final_unique hfinal ⟨hsteps, StreamReader.halted_of_fault hfault⟩
    exact .inr (.inr ⟨rfl, heq ▸ hfault⟩)

theorem feed_of_wait (hsteps : reader.Steps (stream msgs) c) (hwait : reader.outcome c = .wait) :
    ∃ p, Parser.feed {} msgs = some (true, p) ∧ p.handled = c.out := by
  have hfinal := feed_of_final hmsgs ⟨hsteps, StreamReader.halted_of_wait hwait⟩
  simpa [hwait] using hfinal

theorem feed_of_refuse (hsteps : reader.Steps (stream msgs) c)
    (hrefuse : reader.outcome c = .refuse) :
    ∃ p, Parser.feed {} msgs = some (false, p) ∧ p.IsReset ∧ p.handled = c.out := by
  have hfinal := feed_of_final hmsgs ⟨hsteps, StreamReader.halted_of_refuse hrefuse⟩
  simpa [hrefuse] using hfinal

omit hmsgs

/-- A request that does not fit stops the parser before all requests are handed over. -/
theorem inRange_of_handled {arrays : List RespArray} (tail : Bytes) (hne : ∀ a ∈ arrays, a ≠ [])
    (hstream : msgs.flatten = encode arrays ++ tail) (hfinal : reader.Final (stream msgs) c)
    (hout : c.out = arrays.map request) : ∀ a ∈ arrays, InRange a := by
  by_contra hbad
  push Not at hbad
  obtain ⟨c', hsteps, houtcome, hlength⟩ := stops_of_encode hne hbad {} tail []
  rw [← hstream] at hsteps
  have hhalted : reader.Halted c' := by
    rcases houtcome with h | h
    · exact StreamReader.halted_of_refuse h
    · exact StreamReader.halted_of_fault h
  rw [← StreamReader.final_unique hfinal ⟨hsteps, hhalted⟩, hout] at hlength
  simp at hlength

end Messages

theorem head_of_beginning {arrays : List RespArray} {b : UInt8} {bs : Bytes}
    (h : b :: bs <+: encode arrays) :
    b = 42 ∧ ∀ d ds, bs = d :: ds → 48 ≤ d.toNat ∧ d.toNat ≤ 57 := by
  obtain ⟨more, hmore⟩ := h
  cases arrays with
  | nil => simp [encode] at hmore
  | cons a arrays =>
    obtain ⟨c, cs, hdigits⟩ := exists_cons_of_ne_nil (Nat.toDigits_ne_nil (b := 10) (n := a.length))
    have hdigit : c.isDigit = true :=
      Nat.isDigit_of_mem_toDigits (by decide) le_rfl (hdigits ▸ mem_cons_self)
    have hnonneg : ¬ (a.length : Int) < 0 := by omega
    simp only [encode, flatMap_cons, encodeArray, createFromNumeric, hnonneg, if_false,
      Int.natAbs_natCast, hdigits, map_cons, nil_append, cons_append,
      List.cons.injEq] at hmore
    obtain ⟨rfl, hrest⟩ := hmore
    refine ⟨rfl, ?_⟩
    rintro d ds rfl
    rw [(List.cons.inj hrest).1, Server.toNat_toUInt8 hdigit]
    exact Server.toNat_of_isDigit hdigit

theorem not_handled_of_long {data : Bytes} (h : ¬ data.length + 2 < 2 ^ 31) :
    ¬ ∃ p, Parser.feed {} [encode [[some data]]] = some (true, p) ∧
      p.handled = [request [some data]] := by
  rintro ⟨p, hfeed, hhandled⟩
  have hmsgs : ∀ msg ∈ [encode [[some data]]], msg ≠ [] := by simp [encode, encodeArray]
  have hreads := (feed_stream hmsgs).1
  rw [hfeed] at hreads
  obtain ⟨-, hwait, hsteps⟩ := hreads
  have hne : ∀ a ∈ ([[some data]] : List RespArray), a ≠ [] := by simp
  have hfits := inRange_of_handled [] hne (by simp) ⟨hsteps, StreamReader.halted_of_wait hwait⟩
    hhandled
  exact h ((hfits _ mem_cons_self).2 _ mem_cons_self _ rfl)

/-- A stream is some requests and a rest that does not begin with a whole request. -/
def Precede (arrays : List RespArray) (rest bytes : Bytes) : Prop :=
  (∀ a ∈ arrays, a ≠ []) ∧ bytes = encode arrays ++ rest ∧
    ∀ a : RespArray, a ≠ [] → ¬ encodeArray a <+: rest

/-- The whole requests of a stream fit, and what follows them is refused. -/
def Refusable (bytes : Bytes) : Prop :=
  ∃ arrays rest, Precede arrays rest bytes ∧ (∀ a ∈ arrays, InRange a) ∧ MalformedRequest rest

/-- **Requests do not depend on the messages.** The requests of an encoding are handed over, in
order, however it is cut into messages, if and only if their sizes are within `int`. A stream that
is not the beginning of an encoding is refused, after the requests before the malformed one and
with the parser reset, if and only if these fit and the malformed one has arrived up to the byte
that shows it. -/
theorem requests_of_any_split (msgs : List Bytes) (hmsgs : ∀ msg ∈ msgs, msg ≠ []) :
    (∀ arrays : List RespArray, (∀ a ∈ arrays, a ≠ []) → msgs.flatten = encode arrays →
      ((∃ p, Parser.feed {} msgs = some (true, p) ∧ p.handled = arrays.map request) ↔
        ∀ a ∈ arrays, InRange a)) ∧
    ((¬ ∃ arrays : List RespArray, (∀ a ∈ arrays, a ≠ []) ∧ msgs.flatten <+: encode arrays) →
      ((∃ p arrays rest, Parser.feed {} msgs = some (false, p) ∧ p.IsReset ∧
          Precede arrays rest msgs.flatten ∧ p.handled = arrays.map request) ↔
        Refusable msgs.flatten)) := by
  constructor
  · intro arrays hne hstream
    constructor
    · rintro ⟨p, hfeed, hhandled⟩
      have hreads := (feed_stream hmsgs).1
      rw [hfeed] at hreads
      obtain ⟨-, hwait, hsteps⟩ := hreads
      exact inRange_of_handled [] hne (by simpa using hstream)
        ⟨hsteps, StreamReader.halted_of_wait hwait⟩ hhandled
    · intro hfits
      obtain ⟨str, hsteps⟩ := steps_encode hne hfits {} [] []
      rw [append_nil, ← hstream] at hsteps
      exact feed_of_wait hmsgs hsteps rfl
  · intro _
    constructor
    · rintro ⟨p, arrays, rest, hfeed, -, hprecede, hhandled⟩
      have hreads := (feed_stream hmsgs).1
      rw [hfeed] at hreads
      obtain ⟨c, hsteps, hrefuse, hout⟩ := hreads
      have hfinal : reader.Final (stream msgs) c := ⟨hsteps, StreamReader.halted_of_refuse hrefuse⟩
      have hfits := inRange_of_handled rest hprecede.1 hprecede.2.1 hfinal
        (hout.symm.trans hhandled)
      refine ⟨arrays, rest, hprecede, hfits, ?_⟩
      -- the reading of the rest ends where the reading of the stream does
      obtain ⟨str, hsteps'⟩ := steps_encode hprecede.1 hfits {} rest []
      rw [← hprecede.2.1] at hsteps'
      obtain ⟨c', hfinal'⟩ := StreamReader.exists_final (r := reader)
        ⟨idle str, rest, [] ++ arrays.map request⟩
      have heq := StreamReader.final_unique hfinal (.of_steps hsteps' hfinal')
      rw [← heq] at hfinal'
      exact malformed_of_refused .idle
        ⟨c, hfinal'.1, hrefuse, by rw [← hout, hhandled, nil_append]⟩
    · rintro ⟨arrays, rest, hprecede, hfits, hmalformed⟩
      obtain ⟨str, hsteps⟩ := steps_encode hprecede.1 hfits {} rest []
      rw [← hprecede.2.1] at hsteps
      have hstops : Stops (idle str) rest ([] ++ arrays.map request) .refuse :=
        hmalformed.refused str
      obtain ⟨c, hsteps', hrefuse, hout⟩ := hstops
      obtain ⟨p, hfeed, hreset, hhandled⟩ := feed_of_refuse hmsgs (hsteps.trans hsteps') hrefuse
      exact ⟨p, arrays, rest, hfeed, hreset, hprecede, by rw [hhandled, hout, nil_append]⟩

/-- One request in two messages, and a stream that is refused at once. -/
theorem requests_of_any_split_two :
    (∃ p, Parser.feed {} [[42, 49, 13], [10, 36, 49, 13, 10, 97, 13, 10]] = some (true, p) ∧
      p.handled = [request [some [97]]]) ∧
    (∃ p arrays rest, Parser.feed {} [[120]] = some (false, p) ∧ p.IsReset ∧
      Precede arrays rest [120] ∧ p.handled = arrays.map request) := by
  have hrest : ∀ bs : Bytes, ¬ 42 :: bs <+: [120] := by
    rintro bs ⟨more, hmore⟩
    cases hmore
  constructor
  · refine ((requests_of_any_split [[42, 49, 13], [10, 36, 49, 13, 10, 97, 13, 10]]
      (by decide)).1 [[some [97]]] (by decide) (by decide)).mpr ?_
    simp [InRange, StringInRange]
  · refine ((requests_of_any_split [[120]] (by decide)).2 ?_).mpr
      ⟨[], [120], ⟨by simp, rfl, fun a _ => hrest _⟩, by simp, .start (by decide)⟩
    rintro ⟨arrays, -, h⟩
    exact absurd (head_of_beginning h).1 (by decide)

/-- A size with a sign is not part of an encoding, and its request is handed over; a size that is no
number is not refused before its end arrives; and the length of a long string overflows. -/
theorem sign_unfinished_size_and_long_string :
    ((¬ ∃ arrays : List RespArray, (∀ a ∈ arrays, a ≠ []) ∧
        [42, 43, 49, 13, 10, 36, 49, 13, 10, 97, 13, 10] <+: encode arrays) ∧
      (Parser.feed {} [[42, 43, 49, 13, 10, 36, 49, 13, 10, 97, 13, 10]]).map
        (fun r => (r.1, r.2.handled)) = some (true, [request [some [97]]])) ∧
    ((¬ ∃ arrays : List RespArray, (∀ a ∈ arrays, a ≠ []) ∧ [42, 120] <+: encode arrays) ∧
      (Parser.feed {} [[42, 120]]).map (fun r => (r.1, r.2.handled)) = some (true, [])) ∧
    ¬ ∃ p, Parser.feed {} [encode [[some (List.replicate (2 ^ 31 - 2) 0)]]] = some (true, p) ∧
      p.handled = [request [some (List.replicate (2 ^ 31 - 2) 0)]] := by
  refine ⟨⟨?_, by decide⟩, ⟨?_, by decide⟩, ?_⟩
  · rintro ⟨arrays, -, h⟩
    exact absurd ((head_of_beginning h).2 43 _ rfl).1 (by decide)
  · rintro ⟨arrays, -, h⟩
    exact absurd ((head_of_beginning h).2 120 _ rfl).2 (by decide)
  · exact not_handled_of_long (by rw [length_replicate]; decide)

end Pegasus.Redis
