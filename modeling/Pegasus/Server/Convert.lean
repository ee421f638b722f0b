/-
Conversions between blobs and numbers (`Pegasus.Server.Convert`), after
`string_conv.h`, `safe_arithmetic.h` and `blob.h`.

`buf2int64` is `strtoll` with base 0 followed by the check that the whole blob was
consumed, so it skips leading white space and reads octal and hexadecimal
literals as well as decimal ones. `buf2int64_createFromNumeric`: it reads back what
`create_from_numeric` has written.
-/

import Pegasus.Server.Storage

namespace Pegasus.Server

open List

def int64Min : Int := -(2 ^ 63)

def int64Max : Int := 2 ^ 63 - 1

/-- `isspace` in the C locale. -/
def isSpace (c : UInt8) : Bool := c == 32 || (decide (9 ≤ c) && decide (c ≤ 13))

def digitValue (c : UInt8) : Option Nat :=
  if 48 ≤ c ∧ c ≤ 57 then some (c.toNat - 48)
  else if 97 ≤ c ∧ c ≤ 122 then some (c.toNat - 87)
  else if 65 ≤ c ∧ c ≤ 90 then some (c.toNat - 55)
  else none

def digitIn (base : Nat) (c : UInt8) : Option Nat := (digitValue c).filter (· < base)

def scanDigits (base : Nat) : Bytes → List Nat × Bytes
  | [] => ([], [])
  | c :: cs =>
    match digitIn base c with
    | some d => let (ds, rest) := scanDigits base cs; (d :: ds, rest)
    | none => ([], c :: cs)

def scanSign : Bytes → Bool × Bytes
  | 45 :: cs => (true, cs)
  | 43 :: cs => (false, cs)
  | cs => (false, cs)

/-- The base of a literal: `0x` only counts when a hexadecimal digit follows. -/
def scanBase : Bytes → Nat × Bytes
  | 48 :: x :: c :: cs =>
    if (x = 120 ∨ x = 88) ∧ (digitIn 16 c).isSome then (16, c :: cs) else (8, 48 :: x :: c :: cs)
  | 48 :: cs => (8, 48 :: cs)
  | cs => (10, cs)

def buf2int64 (buf : Bytes) : Option Int :=
  let (negative, s) := scanSign (buf.dropWhile isSpace)
  let (base, s) := scanBase s
  let (ds, rest) := scanDigits base s
  let magnitude : Int := ds.foldl (fun acc d => acc * base + d) 0
  let v := if negative then -magnitude else magnitude
  -- without a digit `strtoll` reports the start of the string
  if ds = [] ∨ rest ≠ [] then none
  else if int64Min ≤ v ∧ v ≤ int64Max then some v
  else none

def createFromNumeric (v : Int) : Bytes :=
  (if v < 0 then [45] else []) ++ (Nat.toDigits 10 v.natAbs).map Char.toUInt8

/-- `safe_add` on `int64_t`. -/
def safeAdd (a b : Int) : Option Int :=
  if 0 < b ∧ int64Max - b < a then none
  else if b < 0 ∧ a < int64Min - b then none
  else some (a + b)

/-- `blob::compare`: bytes are compared as unsigned characters. -/
def compareBytes : Bytes → Bytes → Ordering
  | [], [] => .eq
  | [], _ :: _ => .lt
  | _ :: _, [] => .gt
  | a :: as, b :: bs => if a < b then .lt else if b < a then .gt else compareBytes as bs

theorem buf2int64_inRange {buf : Bytes} {v : Int} (h : buf2int64 buf = some v) :
    int64Min ≤ v ∧ v ≤ int64Max := by
  unfold buf2int64 at h
  simp only [Option.ite_none_left_eq_some, Option.ite_none_right_eq_some, Option.some.injEq] at h
  obtain ⟨-, hrange, hv⟩ := h
  exact hv ▸ hrange

theorem safeAdd_inRange {a b new : Int} (hmin : int64Min ≤ a) (hmax : a ≤ int64Max)
    (h : safeAdd a b = some new) : int64Min ≤ new ∧ new ≤ int64Max := by
  unfold safeAdd at h
  split_ifs at h with hover hunder
  cases h
  omega

/-! ### Numbers as text -/

theorem toNat_of_isDigit {c : Char} (h : c.isDigit = true) : 48 ≤ c.toNat ∧ c.toNat ≤ 57 := by
  rw [Char.isDigit, Bool.and_eq_true, decide_eq_true_iff, decide_eq_true_iff] at h
  exact ⟨UInt32.le_iff_toNat_le.mp h.1, UInt32.le_iff_toNat_le.mp h.2⟩

theorem toNat_toUInt8 {c : Char} (h : c.isDigit = true) : c.toUInt8.toNat = c.toNat :=
  (UInt32.toNat_toUInt8 c.val).trans
    (Nat.mod_eq_of_lt ((toNat_of_isDigit h).2.trans_lt (by decide)))

theorem digitIn_ten {c : Char} (h : c.isDigit = true) :
    digitIn 10 c.toUInt8 = some (c.toNat - 48) := by
  have hrange := toNat_of_isDigit h
  have hbyte := toNat_toUInt8 h
  have hdigit : 48 ≤ c.toUInt8 ∧ c.toUInt8 ≤ 57 := by
    rw [UInt8.le_iff_toNat_le, UInt8.le_iff_toNat_le, hbyte]
    exact hrange
  rw [digitIn, digitValue, if_pos hdigit, hbyte]
  simp
  omega

theorem scanDigits_map {chars : List Char} (h : ∀ c ∈ chars, c.isDigit = true) :
    scanDigits 10 (chars.map Char.toUInt8) = (chars.map fun c => c.toNat - 48, []) := by
  induction chars with
  | nil => rfl
  | cons c rest ih =>
    rw [map_cons, scanDigits, digitIn_ten (h c mem_cons_self)]
    simp only [ih fun c hc => h c (mem_cons_of_mem _ hc), map_cons]

theorem foldl_digits (chars : List Char) (acc : Nat) :
    (chars.map fun c => c.toNat - 48).foldl (fun (acc : Int) (d : Nat) => acc * (10 : Nat) + d)
        acc = (Nat.ofDigitChars 10 chars acc : Int) := by
  induction chars generalizing acc with
  | nil => rfl
  | cons c rest ih =>
    rw [map_cons, foldl_cons, Nat.ofDigitChars_cons]
    have hstep : (acc : Int) * (10 : Nat) + (c.toNat - 48 : Nat) =
        (10 * acc + (c.toNat - '0'.toNat) : Nat) := by
      push_cast
      rw [mul_comm]
    rw [hstep]
    exact ih _

theorem head?_toDigits {n : Nat} (h : 0 < n) : (Nat.toDigits 10 n).head? ≠ some '0' := by
  induction n using Nat.strongRecOn with
  | _ n ih =>
    rcases Nat.lt_or_ge n 10 with hlt | hge
    · rw [Nat.toDigits_of_lt_base hlt]
      interval_cases n <;> decide
    · rw [Nat.toDigits_of_base_le (by decide) hge,
        List.head?_append_of_ne_nil _ Nat.toDigits_ne_nil]
      exact ih (n / 10) (Nat.div_lt_self h (by decide)) (Nat.div_pos hge (by decide))

def digitBytes (n : Nat) : Bytes := (Nat.toDigits 10 n).map Char.toUInt8

theorem digitBytes_eq_cons {n : Nat} (h : 0 < n) :
    ∃ c cs, digitBytes n = c :: cs ∧ 49 ≤ c ∧ c ≤ 57 := by
  cases hdigits : Nat.toDigits 10 n with
  | nil => exact absurd hdigits Nat.toDigits_ne_nil
  | cons c cs =>
    have hdigit : c.isDigit = true :=
      Nat.isDigit_of_mem_toDigits (by decide) le_rfl (hdigits ▸ mem_cons_self)
    have hzero : c ≠ '0' := by
      rintro rfl
      exact head?_toDigits h (by rw [hdigits]; rfl)
    have hrange := toNat_of_isDigit hdigit
    have hne : c.toNat ≠ 48 := fun heq => hzero (Char.toNat_inj.mp heq)
    refine ⟨c.toUInt8, cs.map Char.toUInt8, by rw [digitBytes, hdigits, map_cons], ?_, ?_⟩
    · rw [UInt8.le_iff_toNat_le, toNat_toUInt8 hdigit]
      exact Nat.lt_of_le_of_ne hrange.1 hne.symm
    · rw [UInt8.le_iff_toNat_le, toNat_toUInt8 hdigit]
      exact hrange.2

variable {c : UInt8} {cs : Bytes}

theorem scanBase_of_ne (h : c ≠ 48) :
    scanBase (c :: cs) = (10, c :: cs) := by
  unfold scanBase
  split
  · rename_i heq
    exact absurd (List.cons.inj heq).1 h
  · rename_i heq
    exact absurd (List.cons.inj heq).1 h
  · rfl

theorem scanSign_of_ne (hminus : c ≠ 45) (hplus : c ≠ 43) :
    scanSign (c :: cs) = (false, c :: cs) := by
  unfold scanSign
  split
  · rename_i heq
    exact absurd (List.cons.inj heq).1 hminus
  · rename_i heq
    exact absurd (List.cons.inj heq).1 hplus
  · rfl

/-- **A number is read back** from the text that is stored for it, if it fits. -/
theorem buf2int64_createFromNumeric_eq (v : Int) :
    buf2int64 (createFromNumeric v) = if int64Min ≤ v ∧ v ≤ int64Max then some v else none := by
  by_cases hzero : v = 0
  · subst hzero
    rfl
  · obtain ⟨c, cs, hbytes, hlow, hhigh⟩ := digitBytes_eq_cons (Int.natAbs_pos.mpr hzero)
    have hspace : isSpace c = false := by
      simp only [isSpace, Bool.or_eq_false_iff, Bool.and_eq_false_iff, beq_eq_false_iff_ne,
        decide_eq_false_iff_not]
      grind
    have hdigits : scanDigits 10 (c :: cs) =
        ((Nat.toDigits 10 v.natAbs).map fun c => c.toNat - 48, []) := by
      rw [← hbytes]
      exact scanDigits_map fun c hc => Nat.isDigit_of_mem_toDigits (by decide) le_rfl hc
    have hvalue := foldl_digits (Nat.toDigits 10 v.natAbs) 0
    rw [Nat.ofDigitChars_toDigits (by decide) le_rfl] at hvalue
    have hne : ((Nat.toDigits 10 v.natAbs).map fun c => c.toNat - 48) ≠ [] := by
      simp [Nat.toDigits_ne_nil]
    have hbase : scanBase (c :: cs) = (10, c :: cs) := scanBase_of_ne (by grind)
    have hsign : scanSign ((createFromNumeric v).dropWhile isSpace) =
        (decide (v < 0), c :: cs) := by
      change scanSign (((if v < 0 then [45] else []) ++ digitBytes v.natAbs).dropWhile isSpace) = _
      rw [hbytes]
      by_cases hneg : v < 0
      · simp [hneg, isSpace, scanSign]
      · simp only [hneg, if_false, nil_append, dropWhile_cons, hspace, decide_false]
        exact scanSign_of_ne (by grind) (by grind)
    have hresult : (if decide (v < 0) = true then -(v.natAbs : Int) else v.natAbs) = v := by
      by_cases hneg : v < 0
      · simp only [hneg, decide_true, if_true]
        omega
      · rw [if_neg (by simpa using hneg)]
        omega
    have hlift : ∀ ds : List Nat, (do let d ← ds; pure (d : Int)) = ds.map Nat.cast := by
      intro ds
      simp [bind_eq_flatMap, ← map_eq_flatMap]
    simp only [buf2int64, hsign, hbase, hdigits]
    rw [if_neg (by simp [hne]), hlift, foldl_map]
    rw [Nat.cast_zero] at hvalue
    rw [hvalue, hresult]

theorem buf2int64_createFromNumeric {v : Int} (hmin : int64Min ≤ v) (hmax : v ≤ int64Max) :
    buf2int64 (createFromNumeric v) = some v := by
  rw [buf2int64_createFromNumeric_eq, if_pos ⟨hmin, hmax⟩]

theorem mem_createFromNumeric {v : Int} (h : c ∈ createFromNumeric v) :
    c = 45 ∨ 48 ≤ c.toNat ∧ c.toNat ≤ 57 := by
  rcases mem_append.mp h with h | h
  · split at h
    · exact .inl (mem_singleton.mp h)
    · cases h
  · obtain ⟨d, hd, rfl⟩ := mem_map.mp h
    have hdigit := Nat.isDigit_of_mem_toDigits (by decide) le_rfl hd
    rw [toNat_toUInt8 hdigit]
    exact .inr (toNat_of_isDigit hdigit)

end Pegasus.Server
