/-
Checks of buffers, after `utils/crc.cpp`.

`compute` takes sixteen bytes a turn, and `concatenate` finds the check of two buffers from theirs,
with products of remainders.

- `compute_eq`: the unrolled loops are the bytewise fold;
- `crc_of_concatenation`: the check of two buffers.
-/

import Pegasus.Lib.Crc

namespace Pegasus.Utils

open Crc

structure Buffer where
  bytes : List UInt8
  size_lt : bytes.length < 2 ^ 64

/-- `crc_generator<uintxx_t, uPoly>`; its tables are those of `InitializeTables`. -/
structure CrcGenerator (w : Nat) where
  poly : BitVec w

namespace CrcGenerator

variable {w : Nat} (g : CrcGenerator w)

/-- The inner loop of `compute`: sixteen bytes a turn. -/
def unrolled (bytes : Nat) (data : List UInt8) (crc : BitVec w) : Nat × List UInt8 × BitVec w :=
  if 15 < bytes then unrolled (bytes - 16) (data.drop 16) ((data.take 16).foldl (step g.poly) crc)
  else (bytes, data, crc)

theorem unrolled_lt (bytes : Nat) (data : List UInt8) (crc : BitVec w) :
    (g.unrolled bytes data crc).1 < 16 := by
  fun_induction unrolled <;> omega

/-- The outer loop of `compute`, and the bytes that are left. -/
def chunks (size : Nat) (data : List UInt8) (crc : BitVec w) : BitVec w :=
  if 15 < size then
    let bytes := min 0x80000000 size
    let left := g.unrolled bytes data crc
    chunks (size - bytes + left.1) left.2.1 left.2.2
  else (data.take size).foldl (step g.poly) crc
  termination_by size
  decreasing_by
    have := g.unrolled_lt (min 0x80000000 size) data crc
    omega

def compute (data : List UInt8) (crc : BitVec w) : BitVec w :=
  ~~~ g.chunks data.length data (~~~ crc)

/-- The loop of `MulPoly`; after `w` turns `a` is 0. -/
def mulPolyLoop : Nat → BitVec w → BitVec w → BitVec w → BitVec w
  | 0, _, _, r => r
  | n + 1, a, b, r =>
    let r := if a.msb then r ^^^ b else r
    let b := if b.getLsbD 0 then (b >>> 1) ^^^ g.poly else b >>> 1
    let a := a <<< 1
    if a = 0#w then r else mulPolyLoop n a b r

def mulPoly (a b : BitVec w) : BitVec w := if a = 0#w then 0#w else g.mulPolyLoop w a b 0#w

/-- `_uX2N`, as `InitializeTables` fills it. -/
def x2N : Nat → BitVec w
  | 0 => one w >>> 8
  | i + 1 => g.mulPoly (x2N i) (x2N i)

/-- The loop of `ComputeX_N`; `none` if it leaves the table. -/
def computeXNFrom (i size : Nat) (r : BitVec w) : Option (BitVec w) :=
  if size = 0 then some r
  else if i < 64 then
    computeXNFrom (i + 1) (size / 2) (if size % 2 = 1 then g.mulPoly r (g.x2N i) else r)
  else none

def computeXN (size : Nat) : Option (BitVec w) := g.computeXNFrom 0 size (one w)

def concatenate (initialCrcAB initialCrcA finalCrcA : BitVec w) (sizeA : Nat)
    (initialCrcB finalCrcB : BitVec w) (sizeB : Nat) : Option (BitVec w) := do
  let xnA ← g.computeXN sizeA
  let finalCrcA := ~~~ finalCrcA ^^^ g.mulPoly xnA (~~~ initialCrcA)
  let xnB ← g.computeXN sizeB
  let finalCrcB := ~~~ finalCrcB ^^^ g.mulPoly xnB (~~~ initialCrcB)
  let finalCrcAB := finalCrcB ^^^ g.mulPoly finalCrcA xnB
  return ~~~ (finalCrcAB ^^^ g.mulPoly (~~~ initialCrcAB) (g.mulPoly xnA xnB))

/-! ### The loops -/

theorem unrolled_spec (bytes k : Nat) (data : List UInt8) (crc : BitVec w) :
    (data.take (bytes + k)).foldl (step g.poly) crc =
      ((g.unrolled bytes data crc).2.1.take ((g.unrolled bytes data crc).1 + k)).foldl
        (step g.poly) (g.unrolled bytes data crc).2.2 := by
  fun_induction unrolled g bytes data crc with
  | case1 bytes data crc hbytes ih =>
    rw [← ih, ← List.foldl_append, ← List.take_add]
    congr 2
    omega
  | case2 bytes data crc hbytes => rfl

theorem chunks_eq (size : Nat) (data : List UInt8) (crc : BitVec w) :
    g.chunks size data crc = (data.take size).foldl (step g.poly) crc := by
  fun_induction chunks g size data crc with
  | case1 size data crc hsize bytes left ih =>
    have hk : size = bytes + (size - bytes) := by omega
    rw [ih, Nat.add_comm]
    conv_rhs => rw [hk]
    exact (g.unrolled_spec bytes (size - bytes) data crc).symm
  | case2 size data crc hsize => rfl

theorem compute_eq (data : List UInt8) (crc : BitVec w) :
    g.compute data crc = Crc.compute g.poly data crc := by
  rw [compute, chunks_eq, List.take_length, Crc.compute]

theorem mulPolyLoop_eq (n : Nat) (a b r : BitVec w) :
    g.mulPolyLoop n a b r = r ^^^ mulUpTo g.poly n a b := by
  induction n generalizing a b r with
  | zero => simp [mulPolyLoop, mulUpTo]
  | succ n ih =>
    have hr : (if a.msb then r ^^^ b else r) = r ^^^ (if a.msb then b else 0#w) := by
      cases a.msb <;> simp
    simp only [mulPolyLoop, mulUpTo, hr]
    split
    · rename_i hzero
      rw [hzero, mulUpTo_zero, BitVec.xor_zero]
    · rw [ih, BitVec.xor_assoc, shift]

theorem mulPoly_eq (a b : BitVec w) : g.mulPoly a b = mul g.poly a b := by
  unfold mulPoly
  split
  · rename_i hzero
    rw [hzero, mul, mulUpTo_zero]
  · rw [mulPolyLoop_eq, BitVec.zero_xor, mul]

section

variable (hw : 8 < w)
include hw

theorem x2N_eq (i : Nat) : g.x2N i = shifts g.poly (8 * 2 ^ i) (one w) := by
  induction i with
  | zero =>
    have hclear : ∀ i < 8, (one w).getLsbD i = false := by
      intro i hi
      simp [one]
      omega
    exact (shifts_of_clear g.poly hclear).symm
  | succ i ih =>
    rw [x2N, ih, mulPoly_eq, mul_shifts_one, ← shifts_add]
    congr 1
    ring

theorem computeXNFrom_eq {i size : Nat} (r : BitVec w) (hsize : size < 2 ^ (64 - i)) :
    g.computeXNFrom i size r = some (shifts g.poly (8 * (2 ^ i * size)) r) := by
  fun_induction computeXNFrom g i size r with
  | case1 i r => rfl
  | case2 i size r hsize' hi ih =>
    have hhalf : size / 2 < 2 ^ (64 - (i + 1)) := by
      rw [show 64 - i = 64 - (i + 1) + 1 by omega, pow_succ] at hsize
      omega
    rw [dite_eq_ite] at ih
    rw [ih hhalf]
    congr 1
    conv_rhs => rw [← Nat.div_add_mod size 2]
    split
    · rename_i hodd
      rw [mulPoly_eq, x2N_eq g hw, mul_shifts_one, ← shifts_add, hodd]
      congr 1
      ring
    · rw [show size % 2 = 0 by omega]
      congr 1
      ring
  | case3 i size r hsize' hi =>
    rw [show 64 - i = 0 by omega] at hsize
    omega

theorem computeXN_eq {size : Nat} (hsize : size < 2 ^ 64) :
    g.computeXN size = some (shifts g.poly (8 * size) (one w)) := by
  rw [computeXN, computeXNFrom_eq g hw _ hsize, pow_zero, Nat.one_mul]

/-- **The check of two buffers** from the checks of each. -/
theorem concatenate_eq (A B : Buffer) (init x y : BitVec w) :
    g.concatenate init x (g.compute A.bytes x) A.bytes.length y (g.compute B.bytes y)
      B.bytes.length = some (g.compute (A.bytes ++ B.bytes) init) := by
  have hfold : ∀ (bytes : List UInt8) (c : BitVec w), bytes.foldl (step g.poly) c =
      bytes.foldl (step g.poly) 0#w ^^^ shifts g.poly (8 * bytes.length) c := by
    intro bytes c
    rw [← foldl_step_xor, BitVec.zero_xor]
  have hcancel : ∀ c d : BitVec w, c ^^^ d ^^^ d = c := by
    intro c d
    rw [BitVec.xor_assoc, BitVec.xor_self, BitVec.xor_zero]
  simp only [concatenate, computeXN_eq g hw A.size_lt, computeXN_eq g hw B.size_lt, mulPoly_eq,
    mul_shifts_one, shifts_one_mul, compute_eq, Crc.compute, BitVec.not_not, List.foldl_append,
    bind, Option.bind_some, pure]
  rw [hfold A.bytes (~~~ x), hfold B.bytes (~~~ y), hfold A.bytes (~~~ init),
    hfold B.bytes (_ ^^^ _), ← shifts_add _ _ (one w), mul_shifts_one, shifts_add]
  simp only [shifts_xor, hcancel, BitVec.xor_assoc]

end

end CrcGenerator

def crc32 : CrcGenerator 32 := ⟨0x82f63b78#32⟩

/-- `crc32_concat`, which does not use its first argument. -/
def crc32Concat (_xyInit xInit xFinal : BitVec 32) (xSize : Nat) (yInit yFinal : BitVec 32)
    (ySize : Nat) : Option (BitVec 32) :=
  crc32.concatenate 0#32 xInit xFinal xSize yInit yFinal ySize

/-- **The check of two buffers**: `compute` is the bytewise fold, so it goes on from the check of
what is before, and `crc32_concat` finds the check of two buffers from theirs. -/
theorem crc_of_concatenation (A B : Buffer) :
    (∀ {w : Nat} (g : CrcGenerator w) (i : BitVec w),
      g.compute A.bytes i = ~~~ A.bytes.foldl (step g.poly) (~~~ i) ∧
        g.compute (A.bytes ++ B.bytes) i = g.compute B.bytes (g.compute A.bytes i)) ∧
      ∀ x y, crc32Concat 0#32 x (crc32.compute A.bytes x) A.bytes.length y
        (crc32.compute B.bytes y) B.bytes.length =
          some (crc32.compute (A.bytes ++ B.bytes) 0#32) := by
  refine ⟨fun g i => ⟨g.compute_eq A.bytes i, ?_⟩, fun x y => ?_⟩
  · simp only [g.compute_eq, Crc.compute, List.foldl_append, BitVec.not_not]
  · exact crc32.concatenate_eq (by decide) A B 0#32 x y

end Pegasus.Utils
