/-
Cyclic redundancy checks with a table (`Pegasus.Lib.Crc`).

The remainder is kept with the highest power in its lowest bit. A byte is taken in with one
look-up in a table of 256 words, each of which is eight shifts of its index.

- `shifts_xor`: shifting is linear;
- `step_eq_shifts`: a look-up is eight shifts of the remainder with the byte in it;
- `shift_surjective`: every remainder is a shift, if the polynomial has its highest bit;
- `compute_surjective`: every value is the check of as many bytes as it has itself;
- `mul_shifts_one`: multiplying by a power of x is shifting.
-/

import Mathlib

namespace Crc

open BitVec

variable {w : Nat}

def shift (poly c : BitVec w) : BitVec w := if c.getLsbD 0 then (c >>> 1) ^^^ poly else c >>> 1

def shifts (poly : BitVec w) : Nat → BitVec w → BitVec w
  | 0, c => c
  | n + 1, c => shifts poly n (shift poly c)

def table (poly : BitVec w) (i : BitVec 8) : BitVec w := shifts poly 8 (i.setWidth w)

def step (poly c : BitVec w) (b : UInt8) : BitVec w :=
  table poly ((c ^^^ b.toBitVec.setWidth w).setWidth 8) ^^^ (c >>> 8)

def compute (poly : BitVec w) (bytes : List UInt8) (init : BitVec w) : BitVec w :=
  ~~~ bytes.foldl (step poly) (~~~ init)

variable {poly : BitVec w}

theorem shift_xor (a b : BitVec w) : shift poly (a ^^^ b) = shift poly a ^^^ shift poly b := by
  unfold shift
  rw [BitVec.getLsbD_xor, BitVec.ushiftRight_xor_distrib]
  cases a.getLsbD 0 <;> cases b.getLsbD 0 <;> simp
  · ac_rfl
  · ac_rfl
  · rw [BitVec.xor_assoc, ← BitVec.xor_assoc poly, BitVec.xor_comm poly, BitVec.xor_assoc,
      BitVec.xor_self, BitVec.xor_zero]

theorem shifts_xor (n : Nat) (a b : BitVec w) :
    shifts poly n (a ^^^ b) = shifts poly n a ^^^ shifts poly n b := by
  induction n generalizing a b with
  | zero => rfl
  | succ n ih => rw [shifts, shift_xor, ih, shifts, shifts]

theorem shifts_add (m n : Nat) (c : BitVec w) :
    shifts poly (m + n) c = shifts poly n (shifts poly m c) := by
  induction m generalizing c with
  | zero => rw [Nat.zero_add, shifts]
  | succ m ih => rw [Nat.succ_add, shifts, ih, shifts]

variable {n : Nat} {c : BitVec w}

theorem shifts_of_clear (poly : BitVec w) (clear : ∀ i < n, c.getLsbD i = false) :
    shifts poly n c = c >>> n := by
  induction n generalizing c with
  | zero => simp [shifts]
  | succ n ih =>
    have hlow : shift poly c = c >>> 1 := by simp [shift, clear 0 (Nat.succ_pos n)]
    rw [shifts, hlow, ih, ← shiftRight_add, Nat.add_comm]
    intro i hi
    rw [getLsbD_ushiftRight]
    exact clear (1 + i) (by omega)

/-- **A look-up is eight shifts** of the remainder with the byte in it. -/
theorem step_eq_shifts (c : BitVec w) (b : UInt8) :
    step poly c b = shifts poly 8 (c ^^^ b.toBitVec.setWidth w) := by
  set x := c ^^^ b.toBitVec.setWidth w with hx
  -- the low byte goes through the table, the rest moves down
  have hclear : ∀ i < 8, (x ^^^ (x.setWidth 8).setWidth w).getLsbD i = false := by
    intro i hi
    by_cases hw : i < w
    · simp [hi, hw]
    · simp [BitVec.getLsbD_of_ge _ _ (Nat.not_lt.mp hw)]
  have hhigh : (x ^^^ (x.setWidth 8).setWidth w) >>> 8 = c >>> 8 := by
    apply BitVec.eq_of_getLsbD_eq
    intro i hi
    simp [hx]
  calc step poly c b
      = shifts poly 8 ((x.setWidth 8).setWidth w) ^^^
          shifts poly 8 (x ^^^ (x.setWidth 8).setWidth w) := by
        rw [shifts_of_clear poly hclear, hhigh]
        rfl
    _ = shifts poly 8 x := by
        rw [← shifts_xor, BitVec.xor_comm x, ← BitVec.xor_assoc, BitVec.xor_self, BitVec.zero_xor]

/-- Only zero is shifted to zero, if the polynomial has its highest bit. -/
theorem eq_zero_of_shift (hpoly : poly.msb = true) (hc : shift poly c = 0#w) :
    c = 0#w := by
  have hw : 0 < w := by
    by_contra hw
    obtain rfl : w = 0 := by omega
    rw [eq_nil poly] at hpoly
    cases hpoly
  have hlow : c.getLsbD 0 = false := by
    by_contra hlow
    rw [shift, if_pos (Bool.not_eq_false _ ▸ hlow)] at hc
    have hmsb := congrArg (fun x => x.getLsbD (w - 1)) hc
    rw [msb_eq_getLsbD_last] at hpoly
    simp [getLsbD_ushiftRight, hpoly, getLsbD_of_ge c (1 + (w - 1)) (by omega)]
      at hmsb
  rw [shift, hlow, if_neg (by simp)] at hc
  apply eq_of_getLsbD_eq
  intro i _
  cases i with
  | zero => simp [hlow]
  | succ i =>
    have := congrArg (fun x => x.getLsbD i) hc
    simpa [getLsbD_ushiftRight, Nat.add_comm] using this

theorem shift_surjective (hpoly : poly.msb = true) : Function.Surjective (shift poly) := by
  refine Finite.injective_iff_surjective.mp fun a b hab => ?_
  have hxor : shift poly (a ^^^ b) = 0#w := by rw [shift_xor, hab, BitVec.xor_self]
  exact BitVec.xor_eq_zero_iff.mp (eq_zero_of_shift hpoly hxor)

theorem shifts_surjective (hpoly : poly.msb = true) (n : Nat) :
    Function.Surjective (shifts poly n) := by
  induction n with
  | zero => exact Function.surjective_id
  | succ n ih => exact ih.comp (shift_surjective hpoly)

/-- Bytes lead from one remainder to the shifts of another that differs in as many low bits. -/
theorem exists_foldl_step (poly : BitVec w) (n : Nat) {c e : BitVec w}
    (hdiff : ∀ i, 8 * n ≤ i → (c ^^^ e).getLsbD i = false) :
    ∃ bytes : List UInt8, bytes.length = n ∧ bytes.foldl (step poly) c = shifts poly (8 * n) e := by
  induction n generalizing c e with
  | zero =>
    have heq : c = e := by
      refine BitVec.xor_eq_zero_iff.mp (BitVec.eq_of_getLsbD_eq fun i _ => ?_)
      rw [hdiff i (Nat.zero_le i)]
      simp
    exact ⟨[], rfl, heq⟩
  | succ n ih =>
    -- the byte takes away the low byte of the difference
    set d := c ^^^ e with hd
    set b : UInt8 := ⟨d.setWidth 8⟩ with hb
    have hclear : ∀ i < 8, (d ^^^ b.toBitVec.setWidth w).getLsbD i = false := by
      intro i hi
      by_cases hw : i < w
      · simp [hb, hi, hw]
      · simp [BitVec.getLsbD_of_ge _ _ (Nat.not_lt.mp hw)]
    have hnext : step poly c b ^^^ shifts poly 8 e = (d ^^^ b.toBitVec.setWidth w) >>> 8 := by
      rw [step_eq_shifts, ← shifts_xor, ← shifts_of_clear poly hclear, hd]
      congr 1
      ac_rfl
    have hrest : ∀ i, 8 * n ≤ i → (step poly c b ^^^ shifts poly 8 e).getLsbD i = false := by
      intro i hi
      rw [hnext]
      simp [hb, hdiff (8 + i) (by omega)]
    obtain ⟨bytes, hlength, hfold⟩ := ih hrest
    refine ⟨b :: bytes, by simp [hlength], ?_⟩
    rw [List.foldl_cons, hfold, ← shifts_add]
    congr 1
    omega

/-- **Every value is a check**: of as many bytes as it has itself. -/
theorem compute_surjective {poly : BitVec (8 * n)} (hpoly : poly.msb = true)
    (init check : BitVec (8 * n)) :
    ∃ bytes : List UInt8, bytes.length = n ∧ compute poly bytes init = check := by
  obtain ⟨e, he⟩ := shifts_surjective hpoly (8 * n) (~~~ check)
  have hdiff : ∀ i, 8 * n ≤ i → (~~~ init ^^^ e).getLsbD i = false :=
    fun i hi => BitVec.getLsbD_of_ge _ _ hi
  obtain ⟨bytes, hlength, hfold⟩ := exists_foldl_step poly n hdiff
  exact ⟨bytes, hlength, by rw [compute, hfold, he, BitVec.not_not]⟩

/-! ### Products -/

/-- The product of `a` and `b`, by the `n` highest bits of `a`. -/
def mulUpTo (poly : BitVec w) : Nat → BitVec w → BitVec w → BitVec w
  | 0, _, _ => 0#w
  | n + 1, a, b => (if a.msb then b else 0#w) ^^^ mulUpTo poly n (a <<< 1) (shift poly b)

def mul (poly a b : BitVec w) : BitVec w := mulUpTo poly w a b

def one (w : Nat) : BitVec w := BitVec.twoPow w (w - 1)

@[simp] theorem mulUpTo_zero (n : Nat) (b : BitVec w) : mulUpTo poly n 0#w b = 0#w := by
  induction n generalizing b with
  | zero => rfl
  | succ n ih => simp [mulUpTo, ih]

theorem map_mulUpTo {f : BitVec w → BitVec w} (hxor : ∀ a b, f (a ^^^ b) = f a ^^^ f b)
    (hshift : ∀ b, f (shift poly b) = shift poly (f b)) (n : Nat) (a b : BitVec w) :
    f (mulUpTo poly n a b) = mulUpTo poly n a (f b) := by
  have hzero : f 0#w = 0#w := by simpa using hxor 0#w 0#w
  induction n generalizing a b with
  | zero => exact hzero
  | succ n ih => cases hmsb : a.msb <;> simp [mulUpTo, hxor, ih, hshift, hmsb]

theorem mulUpTo_xor (n : Nat) (a b c : BitVec w) :
    mulUpTo poly n a (b ^^^ c) = mulUpTo poly n a b ^^^ mulUpTo poly n a c := by
  induction n generalizing a b c with
  | zero => simp [mulUpTo]
  | succ n ih =>
    rw [mulUpTo, mulUpTo, mulUpTo, shift_xor, ih]
    cases a.msb
    · simp
    · simp only [if_true]
      ac_rfl

theorem mulUpTo_twoPow (hn : n ≤ w) (a : BitVec w) :
    mulUpTo poly n a (twoPow w (n - 1)) = a >>> (w - n) := by
  induction n generalizing a with
  | zero => exact (ushiftRight_eq_zero (Nat.le_refl w)).symm
  | succ n ih =>
    have hnext : mulUpTo poly n (a <<< 1) (shift poly (twoPow w n)) =
        a <<< 1 >>> (w - n) := by
      cases n with
      | zero => exact (ushiftRight_eq_zero (Nat.le_refl w)).symm
      | succ n =>
        have hshift : shift poly (twoPow w (n + 1)) = twoPow w n := by
          apply eq_of_getLsbD_eq
          intro i hi
          simp only [shift, getLsbD_twoPow]
          grind
        rw [hshift]
        exact ih (by omega) _
    rw [mulUpTo, Nat.add_sub_cancel, hnext]
    apply eq_of_getLsbD_eq
    intro i hi
    simp only [getLsbD_xor, getLsbD_ushiftRight, getLsbD_shiftLeft]
    cases hmsb : a.msb
    · simp
      grind [msb_eq_getLsbD_last]
    · simp
      grind [msb_eq_getLsbD_last]

theorem mul_one (a : BitVec w) : mul poly a (one w) = a := by
  rw [mul, one, mulUpTo_twoPow (Nat.le_refl w), Nat.sub_self, ushiftRight_zero]

theorem shifts_shift (n : Nat) (c : BitVec w) :
    shifts poly n (shift poly c) = shift poly (shifts poly n c) := by
  have h : shifts poly (n + 1) c = shifts poly 1 (shifts poly n c) := shifts_add n 1 c
  rwa [shifts] at h

theorem mul_shifts_one (n : Nat) (a : BitVec w) :
    mul poly a (shifts poly n (one w)) = shifts poly n a := by
  rw [mul, ← map_mulUpTo (shifts_xor n) (shifts_shift n), ← mul, mul_one]

theorem shifts_one_mul (n : Nat) (b : BitVec w) :
    mul poly (shifts poly n (one w)) b = shifts poly n b := by
  set x := shifts poly n (one w) with hx
  have hshift : ∀ b, mul poly x (shift poly b) = shift poly (mul poly x b) :=
    fun b => (map_mulUpTo shift_xor (fun _ => rfl) w x b).symm
  calc mul poly x b
      = mul poly x (mul poly b (one w)) := by rw [mul_one]
    _ = mul poly b (mul poly x (one w)) := map_mulUpTo (mulUpTo_xor w x) hshift w b (one w)
    _ = shifts poly n b := by rw [mul_one, mul_shifts_one]

theorem foldl_step_xor (bytes : List UInt8) (c d : BitVec w) :
    bytes.foldl (step poly) (c ^^^ d) =
      bytes.foldl (step poly) c ^^^ shifts poly (8 * bytes.length) d := by
  induction bytes generalizing c d with
  | nil => rfl
  | cons b rest ih =>
    have hstep : step poly (c ^^^ d) b = step poly c b ^^^ shifts poly 8 d := by
      rw [step_eq_shifts, step_eq_shifts, ← shifts_xor]
      congr 1
      ac_rfl
    rw [List.foldl_cons, hstep, ih, List.foldl_cons, ← shifts_add, List.length_cons, Nat.mul_succ,
      Nat.add_comm 8]

end Crc
