/-
Rounding to the doubles of IEEE 754: nearest, ties to even, with a significand of 53 bits. Values
are rationals; overflow and subnormal numbers are left out.

- `round53_le`: a double that is not smaller than `x` is not smaller than the rounded `x`;
- `round53_natCast`: integers up to `2 ^ 53` are doubles.
-/

import Mathlib

namespace Pegasus.Binary64

def roundHalfEven (x : ℚ) : ℤ :=
  if x - ⌊x⌋ < 1 / 2 then ⌊x⌋
  else if 1 / 2 < x - ⌊x⌋ then ⌊x⌋ + 1
  else if 2 ∣ ⌊x⌋ then ⌊x⌋ else ⌊x⌋ + 1

theorem roundHalfEven_cases (x : ℚ) :
    (roundHalfEven x = ⌊x⌋ ∧ x - ⌊x⌋ ≤ 1 / 2) ∨ (roundHalfEven x = ⌊x⌋ + 1 ∧ 1 / 2 ≤ x - ⌊x⌋) := by
  unfold roundHalfEven
  split_ifs with h₁ h₂ h₃
  · exact .inl ⟨rfl, h₁.le⟩
  · exact .inr ⟨rfl, h₂.le⟩
  · exact .inl ⟨rfl, not_lt.mp h₂⟩
  · exact .inr ⟨rfl, not_lt.mp h₁⟩

theorem roundHalfEven_intCast (n : ℤ) : roundHalfEven n = n := by simp [roundHalfEven]

theorem roundHalfEven_le {x : ℚ} {n : ℤ} (h : x ≤ n) : roundHalfEven x ≤ n := by
  have hfloor : ⌊x⌋ ≤ n := by
    have := Int.floor_le_floor h
    simpa using this
  rcases roundHalfEven_cases x with ⟨heq, -⟩ | ⟨heq, hhalf⟩
  · omega
  · -- the floor is smaller than `n`, since `x` lies above it
    have hlt : (⌊x⌋ : ℚ) < n := by linarith
    have : ⌊x⌋ < n := by exact_mod_cast hlt
    omega

theorem roundHalfEven_lt {x : ℚ} {n : ℤ} (h : x < n - 1 / 2) : roundHalfEven x < n := by
  have hfloor : (⌊x⌋ : ℚ) ≤ x := Int.floor_le x
  rcases roundHalfEven_cases x with ⟨heq, -⟩ | ⟨heq, hhalf⟩
  · have hlt : (⌊x⌋ : ℚ) < n := by linarith
    rw [heq]
    exact_mod_cast hlt
  · have hlt : (⌊x⌋ : ℚ) + 1 < n := by linarith
    rw [heq]
    exact_mod_cast hlt

/-- The exponent of the last bit of the doubles around `x`. -/
def lastBit (x : ℚ) : ℤ := Int.log 2 x - 52

/-- The double nearest to a rational that is not negative. -/
def round53 (x : ℚ) : ℚ := if x ≤ 0 then 0 else roundHalfEven (x / 2 ^ lastBit x) * 2 ^ lastBit x

@[simp] theorem round53_zero : round53 0 = 0 := by simp [round53]

variable {x y : ℚ}

theorem round53_of_pos (h : 0 < x) :
    round53 x = roundHalfEven (x / 2 ^ lastBit x) * 2 ^ lastBit x := by
  simp [round53, not_le.mpr h]

theorem round53_le (h : 0 < x) {k : ℤ} (hy : y = k * 2 ^ lastBit x) (hxy : x ≤ y) :
    round53 x ≤ y := by
  have hpos : (0 : ℚ) < 2 ^ lastBit x := by positivity
  rw [round53_of_pos h, hy]
  refine mul_le_mul_of_nonneg_right ?_ hpos.le
  have hle : x / 2 ^ lastBit x ≤ k := by
    rw [div_le_iff₀ hpos, ← hy]
    exact hxy
  exact_mod_cast roundHalfEven_le hle

theorem round53_eq_self (h : 0 < x) {k : ℤ} (hx : x = k * 2 ^ lastBit x) : round53 x = x := by
  have hpos : (2 : ℚ) ^ lastBit x ≠ 0 := by positivity
  have hk : x / 2 ^ lastBit x = k := by
    rw [div_eq_iff hpos]
    exact hx
  rw [round53_of_pos h, hk, roundHalfEven_intCast]
  exact hx.symm

theorem exists_mul_zpow {p q : ℤ} (h : p ≤ q) : ∃ k : ℤ, (2 : ℚ) ^ q = k * 2 ^ p := by
  obtain ⟨n, rfl⟩ := Int.le.dest h
  refine ⟨2 ^ n, ?_⟩
  rw [zpow_add₀ (by norm_num)]
  push_cast
  rw [zpow_natCast, mul_comm]

theorem round53_le_zpow (h : 0 < x) : round53 x ≤ 2 ^ (Int.log 2 x + 1) := by
  obtain ⟨k, hk⟩ := exists_mul_zpow (show lastBit x ≤ Int.log 2 x + 1 by unfold lastBit; omega)
  exact round53_le h hk (by exact_mod_cast (Int.lt_zpow_succ_log_self one_lt_two x).le)

theorem round53_natCast {n : ℕ} (h : n ≤ 2 ^ 53) : round53 n = n := by
  rcases Nat.eq_zero_or_pos n with rfl | hn
  · simp
  have hpos : (0 : ℚ) < n := by exact_mod_cast hn
  rcases Nat.lt_or_eq_of_le h with hlt | rfl
  · have hlog : lastBit (n : ℚ) ≤ 0 := by
      have hn' : (n : ℚ) < (2 : ℕ) ^ (53 : ℤ) := by exact_mod_cast hlt
      have := (Int.lt_zpow_iff_log_lt one_lt_two hpos).mp hn'
      unfold lastBit
      omega
    obtain ⟨k, hk⟩ := exists_mul_zpow hlog
    refine round53_eq_self hpos (k := n * k) ?_
    push_cast
    rw [mul_assoc, ← hk]
    simp
  · have hlog : lastBit ((2 ^ 53 : ℕ) : ℚ) = 1 := by
      have := Int.log_zpow (R := ℚ) (b := 2) one_lt_two 53
      unfold lastBit
      norm_num at this ⊢
    refine round53_eq_self hpos (k := 2 ^ 52) ?_
    rw [hlog]
    norm_num

end Pegasus.Binary64
