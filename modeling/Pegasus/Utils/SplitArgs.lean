/-
Splitting arguments, after `utils/strings.cpp`.

`split_args` scans a string once. It remembers where a token begins after leading spaces, and at a
separator it goes back over trailing spaces.

- `split`: the scanner, for any container;
- `split_args_is_exact`: the output is the trimmed segments of the input, and no `CHECK` fails.
-/

import Mathlib

namespace Pegasus.Utils

open List

structure CString where
  chars : List Char
  nul_free : '\x00' ∉ chars

inductive SplitArgsState where
  | splitBeginning
  | splitLeadingSpaces
  | splitToken

def isLeadingSpace (ch : Char) : Bool := [' ', '\t'].any (ch == ·)

def isTrailingSpace (ch : Char) : Bool := [' ', '\t', '\r', '\n'].any (ch == ·)

def CString.between (input : CString) (first last : Nat) : List Char :=
  (input.chars.drop first).take (last - first)

/-- The loop of `find_token_end`. -/
def findTokenEnd (input : CString) (tokenBegin : Nat) : Nat → Nat
  | 0 => 0
  | last + 1 =>
    if tokenBegin < last + 1 ∧ isTrailingSpace (input.chars.getD last '\x00') then
      findTokenEnd input tokenBegin last
    else last + 1

structure Splitter (γ : Type) where
  state : SplitArgsState := .splitBeginning
  tokenBegin : Nat := 0
  output : γ

section

variable {γ : Type} (input : CString) (separator : Char) (keepPlaceHolder : Bool)
  (emplace : γ → List Char → γ)

/-- The separator, or the end of the string, at `p`; `none` if a `CHECK` fails. -/
def endSplit (s : Splitter γ) (p : Nat) : Option γ :=
  match s.state with
  | .splitBeginning | .splitLeadingSpaces =>
    some (if keepPlaceHolder then emplace s.output [] else s.output)
  | .splitToken =>
    if s.tokenBegin < p then
      let tokenEnd := findTokenEnd input s.tokenBegin p
      if s.tokenBegin ≤ tokenEnd then
        if s.tokenBegin = tokenEnd ∧ ¬ keepPlaceHolder then some s.output
        else some (emplace s.output (input.between s.tokenBegin tokenEnd))
      else none
    else none

def advance (s : Splitter γ) (p : Nat) (ch : Char) : Splitter γ :=
  match s.state with
  | .splitBeginning =>
    if isLeadingSpace ch then { s with state := .splitLeadingSpaces }
    else { s with state := .splitToken, tokenBegin := p }
  | .splitLeadingSpaces =>
    if isLeadingSpace ch then s else { s with state := .splitToken, tokenBegin := p }
  | .splitToken => s

/-- The loop of `split` over the characters from `p` on. -/
def splitFrom : List Char → Nat → Splitter γ → Option γ
  | [], p, s => endSplit input keepPlaceHolder emplace s p
  | ch :: rest, p, s =>
    if ch = separator then
      (endSplit input keepPlaceHolder emplace s p).bind fun output =>
        splitFrom rest (p + 1) { s with state := .splitBeginning, output := output }
    else splitFrom rest (p + 1) (advance s p ch)

/-- `split`, into a container that starts empty. -/
def split (empty : γ) : Option γ :=
  splitFrom input separator keepPlaceHolder emplace input.chars 0 { output := empty }

end

/-- `split_args`, into a `std::vector` or a `std::list`. -/
def splitArgs (input : CString) (separator : Char) (keepPlaceHolder : Bool) :
    Option (List (List Char)) :=
  split input separator keepPlaceHolder (fun output token => output ++ [token]) []

/-! ### What is split -/

def trim (segment : List Char) : List Char :=
  (segment.dropWhile isLeadingSpace).rdropWhile isTrailingSpace

def tokens (keepPlaceHolder : Bool) (segments : List (List Char)) : List (List Char) :=
  (segments.map trim).filter fun token => keepPlaceHolder ∨ token ≠ []

variable {γ : Type} {input : CString} {separator : Char} {keepPlaceHolder : Bool}
  {emplace : γ → List Char → γ} {segment rest : List Char} {ch : Char} {p first last : Nat}
  {s : Splitter γ}

/-- What is remembered of the segment up to `p`. -/
def Within (input : CString) (segment : List Char) (p : Nat) (s : Splitter γ) : Prop :=
  match s.state with
  | .splitBeginning | .splitLeadingSpaces => segment.dropWhile isLeadingSpace = []
  | .splitToken => s.tokenBegin < p ∧ p ≤ input.chars.length ∧
      input.between s.tokenBegin p = segment.dropWhile isLeadingSpace

theorem within_nil (p : Nat) (hs : s.state = .splitBeginning) : Within input [] p s := by
  rw [Within, hs]
  rfl

theorem between_ne_nil (hlt : first < last) (hfirst : first < input.chars.length) :
    input.between first last ≠ [] := by
  simp [CString.between]
  omega

theorem between_succ (hfirst : first ≤ last) (hrest : input.chars.drop last = ch :: rest) :
    input.between first (last + 1) = input.between first last ++ [ch] := by
  have hch : input.chars[last]? = some ch := by rw [← List.head?_drop, hrest, head?_cons]
  unfold CString.between
  rw [Nat.succ_sub hfirst, take_add_one, getElem?_drop, Nat.add_sub_of_le hfirst, hch]
  rfl

theorem findTokenEnd_spec (hfirst : first ≤ last) (hlast : last ≤ input.chars.length) :
    first ≤ findTokenEnd input first last ∧
      input.between first (findTokenEnd input first last) =
        (input.between first last).rdropWhile isTrailingSpace := by
  induction last with
  | zero => simp [findTokenEnd, CString.between, hfirst]
  | succ last ih =>
    obtain rfl | hlt := Nat.eq_or_lt_of_le hfirst
    · simp [findTokenEnd, CString.between]
    · have hle := Nat.le_of_lt_succ hlt
      have hget : input.chars.drop last =
          input.chars.getD last '\x00' :: input.chars.drop (last + 1) := by
        rw [drop_eq_getElem_cons hlast, getD_eq_getElem _ _ hlast]
      rw [between_succ hle hget, rdropWhile_concat, findTokenEnd]
      by_cases hspace : isTrailingSpace (input.chars.getD last '\x00')
      · rw [if_pos ⟨hlt, hspace⟩, if_pos hspace]
        exact ih hle (Nat.le_of_succ_le hlast)
      · rw [if_neg fun h => hspace h.2, if_neg hspace, between_succ hle hget]
        exact ⟨hfirst, rfl⟩

theorem tokens_singleton (segment : List Char) :
    tokens keepPlaceHolder [segment] =
      if trim segment = [] ∧ ¬ keepPlaceHolder then [] else [trim segment] := by
  by_cases htrim : trim segment = [] <;> cases keepPlaceHolder <;> simp [tokens, htrim]

theorem tokens_cons (segment : List Char) (rest : List (List Char)) :
    tokens keepPlaceHolder (segment :: rest) =
      tokens keepPlaceHolder [segment] ++ tokens keepPlaceHolder rest := by
  rw [tokens, tokens, tokens, ← filter_append, ← map_append, singleton_append]

theorem endSplit_spec (h : Within input segment p s) :
    endSplit input keepPlaceHolder emplace s p =
      some ((tokens keepPlaceHolder [segment]).foldl emplace s.output) := by
  unfold Within at h
  rw [tokens_singleton]
  unfold endSplit
  cases hs : s.state with
  | splitBeginning | splitLeadingSpaces =>
    rw [hs] at h
    have htrim : trim segment = [] := by rw [trim, h, rdropWhile_nil]
    cases keepPlaceHolder <;> simp [htrim]
  | splitToken =>
    rw [hs] at h
    obtain ⟨hbegin, hp, hbetween⟩ := h
    obtain ⟨hle, htrim⟩ := findTokenEnd_spec (Nat.le_of_lt hbegin) hp
    rw [hbetween] at htrim
    have hempty : s.tokenBegin = findTokenEnd input s.tokenBegin p ↔ trim segment = [] := by
      rw [trim, ← htrim]
      constructor
      · intro heq
        simp [← heq, CString.between]
      · intro hnil
        by_contra hne
        exact between_ne_nil (Nat.lt_of_le_of_ne hle hne) (Nat.lt_of_lt_of_le hbegin hp) hnil
    simp only [if_pos hbegin, if_pos hle, hempty, htrim]
    split <;> rfl

theorem advance_within (h : Within input segment p s)
    (hrest : input.chars.drop p = ch :: rest) :
    Within input (segment ++ [ch]) (p + 1) (advance s p ch) := by
  have hp : p < input.chars.length := by
    have hlength := congrArg length hrest
    rw [length_drop, length_cons] at hlength
    omega
  have hstart : input.between p (p + 1) = [ch] := by
    rw [between_succ (Nat.le_refl p) hrest]
    simp [CString.between]
  unfold Within at h ⊢
  unfold advance
  cases hs : s.state with
  | splitBeginning | splitLeadingSpaces =>
    rw [hs] at h
    by_cases hspace : isLeadingSpace ch
    · simp [hspace, dropWhile_append, h, hs]
    · simp [hspace, dropWhile_append, h, hstart, hp]
  | splitToken =>
    rw [hs] at h
    obtain ⟨hbegin, -, hbetween⟩ := h
    have hne := between_ne_nil hbegin (Nat.lt_trans hbegin hp)
    rw [hbetween] at hne
    simp only [hs]
    refine ⟨Nat.lt_succ_of_lt hbegin, hp, ?_⟩
    rw [between_succ (Nat.le_of_lt hbegin) hrest, hbetween, dropWhile_append,
      if_neg (by simpa using hne)]

theorem advance_output (s : Splitter γ) (p : Nat) (ch : Char) :
    (advance s p ch).output = s.output := by
  unfold advance
  grind

/-- The segment up to `p` and the rest of the input are split, by induction on the rest. -/
theorem splitFrom_spec (h : Within input segment p s) (hrest : input.chars.drop p = rest)
    (hsegment : separator ∉ segment) :
    splitFrom input separator keepPlaceHolder emplace rest p s =
      some ((tokens keepPlaceHolder ((segment ++ rest).splitOn separator)).foldl emplace
        s.output) := by
  induction rest generalizing segment p s with
  | nil => rw [splitFrom, endSplit_spec h, append_nil, splitOn_eq_singleton hsegment]
  | cons ch rest ih =>
    have hnext : input.chars.drop (p + 1) = rest := by
      rw [← drop_drop, hrest]
      rfl
    rw [splitFrom]
    split
    · rename_i heq
      subst heq
      rw [endSplit_spec h, Option.bind_some, ih (within_nil _ rfl) hnext not_mem_nil,
        splitOn_append_cons_self_of_not_mem hsegment, tokens_cons segment (rest.splitOn ch),
        foldl_append, nil_append]
    · rename_i hne
      have hsegment' : separator ∉ segment ++ [ch] := by simp [hsegment, Ne.symm hne]
      rw [ih (advance_within h hrest) hnext hsegment', append_assoc, singleton_append,
        advance_output]

/-- **Splitting is exact**: the tokens are the segments between the separators without the spaces
around them, empty ones only as place holders, and no `CHECK` fails. -/
theorem split_args_is_exact (input : CString) (separator : Char) (keepPlaceHolder : Bool) :
    splitArgs input separator keepPlaceHolder =
      some (tokens keepPlaceHolder (input.chars.splitOn separator)) := by
  unfold splitArgs split
  rw [splitFrom_spec (within_nil 0 rfl) drop_zero not_mem_nil]
  simp [← flatMap_def]

end Pegasus.Utils
