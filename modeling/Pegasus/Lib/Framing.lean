/-
Parsers that are called on a buffer that grows (`Pegasus.Lib.Framing`).

A call gives a message and takes its bytes from the buffer, or it gives none and may take the front
of a message into its own state. The calls are repeated until one of them gives none. For a format
it is enough to say what a call does when the buffer completes the current message, and what it does
when it does not: the messages of a stream then do not depend on how it was cut.

- `drain`: the calls after a read;
- `Format`: what a call does with whole messages and with their fronts;
- `Format.Reading`: where the parser stands in a stream of messages;
- `Format.drain_spec`: the calls after a read give the messages that the buffer completes.
-/

import Mathlib

namespace Framing

open List

variable {σ α M : Type}

/-- What a call returns: the state and the buffer after it, a message if there is one, and how many
bytes it asks for. -/
structure Result (σ α M : Type) where
  state : σ
  rest : List α
  msg : Option M
  readNext : Int

/-- The calls after a read, up to the first that gives no message. -/
def drain (receive : σ → List α → Option (Result σ α M)) :
    Nat → σ → List α → Option (List M × Result σ α M)
  | 0, _, _ => none
  | fuel + 1, s, buffer =>
    match receive s buffer with
    | none => none
    | some r =>
      match r.msg with
      | none => some ([], r)
      | some m => (drain receive fuel r.state r.rest).map fun p => (m :: p.1, p.2)

/-- A format: `Front m s buffer raw` says that after the bytes `raw` of the message `m` the parser
is in the state `s` and has left `buffer`. A message that is not `Small` fails, when it is complete
at the latest. -/
structure Format (receive : σ → List α → Option (Result σ α M)) (encode : M → List α)
    (Valid Small : M → Prop) (start : σ) where
  Front : M → σ → List α → List α → Prop
  front_start : ∀ {m}, Valid m → Front m start [] []
  encode_ne : ∀ {m}, Valid m → encode m ≠ []
  empty : ∃ readNext, readNext ≠ -1 ∧ receive start [] = some ⟨start, [], none, readNext⟩
  complete : ∀ {m s buffer raw more rest}, Valid m → Front m s buffer raw →
    raw ++ more = encode m ++ rest → Small m →
      ∃ readNext, receive s (buffer ++ more) = some ⟨start, rest, some m, readNext⟩
  fails : ∀ {m s buffer raw more rest}, Valid m → Front m s buffer raw →
    raw ++ more = encode m ++ rest → ¬ Small m → receive s (buffer ++ more) = none
  incomplete : ∀ {m s buffer raw more tail}, Valid m → Front m s buffer raw →
    encode m = raw ++ more ++ tail → tail ≠ [] →
      (¬ Small m ∧ receive s (buffer ++ more) = none) ∨ ∃ s' buffer' readNext,
        (Small m → readNext ≠ -1) ∧
          receive s (buffer ++ more) = some ⟨s', buffer', none, readNext⟩ ∧
            Front m s' buffer' (raw ++ more)

namespace Format

variable {receive : σ → List α → Option (Result σ α M)} {encode : M → List α}
  {Valid Small : M → Prop} {start : σ}

/-- The parser stands in front of the first message of `ms`, of which it has seen `raw`. -/
inductive Reading (F : Format receive encode Valid Small start) (ms : List M) :
    σ → List α → List α → Prop where
  | between (h : ms = []) : Reading F ms start [] []
  | inside {m : M} {rest : List M} {s : σ} {buffer raw : List α} (h : ms = m :: rest)
      (front : F.Front m s buffer raw) (hlt : raw.length < (encode m).length) :
      Reading F ms s buffer raw

variable {F : Format receive encode Valid Small start} {ms : List M}

theorem reading_start (F : Format receive encode Valid Small start)
    (hvalid : ∀ m ∈ ms, Valid m) : F.Reading ms start [] [] := by
  cases ms with
  | nil => exact .between rfl
  | cons m rest =>
    have hm := hvalid m mem_cons_self
    exact .inside rfl (F.front_start hm) (length_pos_of_ne_nil (F.encode_ne hm))

/-- A stream that begins with `bytes` has a message that is not finished by them, or one that is. -/
theorem split_first {bytes later : List α} {m : M}
    (h : bytes ++ later = ((m :: ms).map encode).flatten) :
    (∃ tail, tail ≠ [] ∧ encode m = bytes ++ tail) ∨
      ∃ rest, bytes = encode m ++ rest ∧ rest ++ later = (ms.map encode).flatten := by
  rw [map_cons, flatten_cons] at h
  rcases append_eq_append_iff.mp h with ⟨tail, hencode, hlater⟩ | ⟨rest, hbytes, hrest⟩
  · rcases tail with _ | ⟨x, tail⟩
    · exact .inr ⟨[], by simpa using hencode.symm, by simpa using hlater⟩
    · exact .inl ⟨x :: tail, by simp, hencode⟩
  · exact .inr ⟨rest, hbytes, hrest.symm⟩

/-- **What the calls after a read give.** If none of them fails, they give the messages that the
buffer completes, all of them small, and the parser stands in front of the next one. If all messages
are small, none of the calls fails, and none of them closes the session. -/
theorem drain_spec {s : σ} {buffer raw more later : List α} (hvalid : ∀ m ∈ ms, Valid m)
    (h : F.Reading ms s buffer raw) (hstream : raw ++ more ++ later = (ms.map encode).flatten)
    {fuel : Nat} (hfuel : more.length < fuel) :
    (∀ out r, drain receive fuel s (buffer ++ more) = some (out, r) →
      (∀ m ∈ out, Small m) ∧ ∃ left raw', ms = out ++ left ∧
        F.Reading left r.state r.rest raw' ∧ raw' ++ later = (left.map encode).flatten) ∧
      ((∀ m ∈ ms, Small m) → ∃ out r, drain receive fuel s (buffer ++ more) = some (out, r) ∧
        r.readNext ≠ -1) := by
  induction fuel generalizing ms s buffer raw more with
  | zero => exact absurd hfuel (Nat.not_lt_zero _)
  | succ fuel ih =>
    cases h with
    | between hms =>
      subst hms
      obtain ⟨rfl, rfl⟩ : more = [] ∧ later = [] := by simpa using hstream
      obtain ⟨readNext, hne, hempty⟩ := F.empty
      simp only [append_nil, drain, hempty]
      refine ⟨fun out r hr => ?_, fun _ => ⟨_, _, rfl, hne⟩⟩
      cases hr
      exact ⟨by simp, [], [], rfl, .between rfl, rfl⟩
    | @inside m rest _ _ _ hms front hlt =>
      subst hms
      have hm := hvalid m mem_cons_self
      rcases split_first hstream with ⟨tail, htail, hencode⟩ | ⟨left, hraw, hleft⟩
      · -- the buffer does not complete the message
        rcases F.incomplete hm front hencode htail with
          ⟨hsmall, hreceive⟩ | ⟨s', buffer', readNext, hne, hreceive, hfront⟩
        · simp only [drain, hreceive]
          exact ⟨(fun out r hr => by cases hr), fun hall => absurd (hall m mem_cons_self) hsmall⟩
        · simp only [drain, hreceive]
          refine ⟨fun out r hr => ?_, fun hall => ⟨_, _, rfl, hne (hall m mem_cons_self)⟩⟩
          cases hr
          refine ⟨by simp, m :: rest, raw ++ more, rfl, .inside rfl hfront ?_, hstream⟩
          have hpos := length_pos_of_ne_nil htail
          rw [hencode]
          simp only [length_append]
          omega
      · -- the message is complete, and the calls go on behind it
        have hshort : left.length < fuel := by
          have hlength := congrArg List.length hraw
          simp only [length_append] at hlength
          omega
        by_cases hsmall : Small m
        · obtain ⟨readNext, hreceive⟩ := F.complete hm front hraw hsmall
          have hvalid' : ∀ m' ∈ rest, Valid m' := fun m' hm' => hvalid m' (mem_cons_of_mem m hm')
          have hstream' : [] ++ left ++ later = (rest.map encode).flatten := by simpa using hleft
          obtain ⟨hsome, htotal⟩ := ih hvalid' (F.reading_start hvalid') hstream' hshort
          simp only [drain, hreceive]
          simp only [nil_append] at hsome htotal
          refine ⟨fun out r hr => ?_, fun hall => ?_⟩
          · obtain ⟨⟨out', r'⟩, hdrain, heq⟩ := Option.map_eq_some_iff.mp hr
            cases heq
            obtain ⟨hsmalls, left', raw', hms, hreading, hrest⟩ := hsome out' r' hdrain
            refine ⟨?_, left', raw', by rw [hms]; rfl, hreading, hrest⟩
            simpa using ⟨hsmall, hsmalls⟩
          · obtain ⟨out', r', hdrain, hne⟩ := htotal fun m' hm' =>
              hall m' (mem_cons_of_mem m hm')
            exact ⟨m :: out', r', by rw [hdrain]; rfl, hne⟩
        · have hreceive := F.fails hm front hraw hsmall
          simp only [drain, hreceive]
          exact ⟨(fun out r hr => by cases hr), fun hall => absurd (hall m mem_cons_self) hsmall⟩

theorem Reading.finished {s : σ} {buffer raw : List α} (h : F.Reading ms s buffer raw)
    (hstream : raw = (ms.map encode).flatten) : ms = [] ∧ s = start ∧ buffer = [] := by
  cases h with
  | between hms => exact ⟨hms, rfl, rfl⟩
  | @inside m rest _ _ _ hms front hlt =>
    subst hms
    rw [hstream, map_cons, flatten_cons, length_append] at hlt
    omega

end Format

end Framing
