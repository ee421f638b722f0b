/-
The ring buffer of a mutation cache (`Pegasus.Replica.MutationRing`), after
`mutation_cache.h` and `mutation_cache.cpp`.

`MutationCache` has its slots indexed by decree. The source keeps them in an array of
`_max_count` pointers, with the first and the last index, the first and the last decree and
the length of the window in fields of their own. Here that array is modelled, with every
access checked against its bounds, and it is related to the slots: the mutation of decree
`d` stands at `(base + d) % _max_count`, for one `base` that only popping the last mutation
and `reset` change.

The differences of decrees that `put` compares with the capacity are cast to `int`. A
decree far enough ahead is taken for a near one; then the window is wider than the array.

- `ring_refines_slots`: every sequence of operations whose windows fit an `int`;
- `put_accepts_wide_window`: a decree `2 ^ 32 + 1` ahead is accepted as the next one.
-/

import Pegasus.Lib.Run
import Pegasus.Replica.Window

namespace Pegasus.Replica

open TransitionSystem (run StepsMeet)

open MutationCache

/-- Why an operation does not return: an access outside the array, or a failed `CHECK_LE` of the
ballots. -/
inductive CacheFault where
  | indexOutOfRange
  | olderBallot
deriving DecidableEq

/-- `mutation_cache`. The counters are `int`s, the decrees `int64_t`s. -/
structure MutationRing (P W : Type) where
  array : List (Option (Mutation P W))
  maxCount : Nat
  interval : Int
  startIdx : Int
  endIdx : Int
  startDecree : Int
  endDecree : Int

/-- `static_cast<int>` of a 64-bit value. -/
def castInt (x : Int) : Int := x.bmod (2 ^ 32)

namespace MutationRing

variable {P W : Type}

/-- `mutation_cache(init_decree, max_count)`. -/
def new (initDecree : Int) (maxCount : Nat) : MutationRing P W where
  array := List.replicate maxCount none
  maxCount := maxCount
  interval := 0
  startIdx := 0
  endIdx := 0
  startDecree := initDecree
  endDecree := initDecree

/-- `_array[idx]`. -/
def read (r : MutationRing P W) (idx : Int) : Except CacheFault (Option (Mutation P W)) :=
  if 0 ≤ idx ∧ idx < r.array.length then .ok (r.array.getD idx.toNat none)
  else .error .indexOutOfRange

/-- By how much `put` widens the window, as an `int`, and at which end. -/
def delta (r : MutationRing P W) (decree : Int) : Int × Int :=
  if r.interval = 0 then (1, 0)
  else if r.endDecree < decree then (castInt (decree - r.endDecree), 1)
  else if decree < r.startDecree then (castInt (r.startDecree - decree), -1)
  else (0, 0)

/-- The tracking data after `put` has stored a mutation at an index. -/
def track (r : MutationRing P W) (decree idx : Int) : MutationRing P W :=
  let (delta, tag) := r.delta decree
  let r := { r with interval := r.interval + delta }
  if 0 < tag then { r with endIdx := idx, endDecree := decree }
  else if tag < 0 then { r with startIdx := idx, startDecree := decree }
  else if r.interval = 1 then
    { r with startIdx := idx, endIdx := idx, startDecree := decree, endDecree := decree }
  else r

/-- `mutation_cache::put`; the error code is `none` for `ERR_OK`. -/
def put (r : MutationRing P W) (mu : Mutation P W) :
    Except CacheFault (MutationRing P W × Option PrepareError) := do
  let decree := mu.header.decree
  if r.maxCount < (r.delta decree).1 + r.interval then return (r, some .capacityExceeded)
  let idx := ((decree - r.endDecree) + r.endIdx + r.maxCount).tmod r.maxCount
  let old ← r.read idx
  if old.any fun old => decide (mu.header.ballot < old.header.ballot) then throw .olderBallot
  return ({ r with array := r.array.set idx.toNat (some mu) }.track decree idx, none)

def popMin (r : MutationRing P W) :
    Except CacheFault (MutationRing P W × Option (Mutation P W)) := do
  if r.interval ≤ 0 then return (r, none)
  let mu ← r.read r.startIdx
  let interval := r.interval - 1
  let startIdx := (r.startIdx + 1).tmod r.maxCount
  let r := { r with
    array := r.array.set r.startIdx.toNat none
    interval := interval
    startIdx := startIdx }
  if interval = 0 then return ({ r with endDecree := r.startDecree, endIdx := startIdx }, mu)
  else return ({ r with startDecree := r.startDecree + 1 }, mu)

/-- `mutation_cache::reset(init_decree, true)`. -/
def reset (r : MutationRing P W) (initDecree : Int) : MutationRing P W :=
  { r with
    array := List.replicate r.array.length none
    interval := 0
    startIdx := 0
    endIdx := 0
    startDecree := initDecree
    endDecree := initDecree }

def getMutationByDecree (r : MutationRing P W) (decree : Int) :
    Except CacheFault (Option (Mutation P W)) :=
  if decree < r.startDecree ∨ r.endDecree < decree then .ok none
  else r.read ((r.startIdx + (decree - r.startDecree) + r.maxCount).tmod r.maxCount)

end MutationRing

inductive CacheOp (P W : Type) where
  | put (mu : Mutation P W)
  | popMin
  | reset (decree : Int)
  | get (decree : Int)

inductive CacheResult (P W : Type) where
  | stored (err : Option PrepareError)
  | popped (mu : Option (Mutation P W))
  | cleared
  | found (mu : Option (Mutation P W))

namespace MutationRing

variable {P W : Type}

def step (r : MutationRing P W) :
    CacheOp P W → Except CacheFault (MutationRing P W × CacheResult P W)
  | .put mu => (r.put mu).map fun (r, err) => (r, .stored err)
  | .popMin => r.popMin.map fun (r, mu) => (r, .popped mu)
  | .reset decree => .ok (r.reset decree, .cleared)
  | .get decree => (r.getMutationByDecree decree).map fun mu => (r, .found mu)

def calls : MutationRing P W → List (CacheOp P W) →
    Except CacheFault (MutationRing P W × List (CacheResult P W))
  | r, [] => .ok (r, [])
  | r, op :: ops => do
    let (next, result) ← r.step op
    let (last, results) ← calls next ops
    return (last, result :: results)

end MutationRing

namespace MutationCache

variable {P W : Type}

/-- One call on the decree-indexed map; a failed `CHECK_LE` is `none`. -/
def step (c : MutationCache P W) : CacheOp P W → Option (MutationCache P W × CacheResult P W)
  | .put mu => (c.put mu).map fun
    | .ok c' => (c', .stored none)
    | .error err => (c, .stored (some err))
  | .popMin => some (c.popMin, .popped (if c.count = 0 then none else c.slots c.minDecree))
  | .reset decree => some (init c.capacity decree, .cleared)
  | .get decree => some (c, .found (c.getMutationByDecree decree))

def calls : MutationCache P W → List (CacheOp P W) →
    Option (MutationCache P W × List (CacheResult P W))
  | c, [] => some (c, [])
  | c, op :: ops => do
    let (next, result) ← c.step op
    let (last, results) ← calls next ops
    return (last, result :: results)

end MutationCache

/-! ### The array and the slots -/

def ringPosition (base : Int) (capacity : Nat) (d : Int) : Int := (base + d) % capacity

variable {capacity : Nat} {base d e : Int}

section

variable (hpos : 0 < capacity)
include hpos

theorem ringPosition_nonneg (base d : Int) :
    0 ≤ ringPosition base capacity d :=
  Int.emod_nonneg _ (by omega)

theorem ringPosition_lt (base d : Int) :
    ringPosition base capacity d < capacity :=
  Int.emod_lt_of_pos _ (by omega)

theorem toNat_ringPosition (base d : Int) :
    ((ringPosition base capacity d).toNat : Int) = ringPosition base capacity d :=
  Int.toNat_of_nonneg (ringPosition_nonneg hpos base d)

theorem ringPosition_next (base d : Int) :
    (ringPosition base capacity d + 1).tmod capacity = ringPosition base capacity (d + 1) := by
  have hnonneg := ringPosition_nonneg hpos base d
  rw [Int.tmod_eq_emod_of_nonneg (by omega)]
  unfold ringPosition
  rw [Int.emod_add_emod, add_assoc]

end

theorem ringPosition_inj (hlt : d - e < capacity) (hgt : e - d < capacity)
    (h : ringPosition base capacity d = ringPosition base capacity e) : d = e := by
  have hdvd : (capacity : Int) ∣ d - e := by
    have hsub := Int.sub_emod (base + d) (base + e) capacity
    rw [show (base + d) % (capacity : Int) = (base + e) % capacity from h, sub_self,
      Int.zero_emod, show base + d - (base + e) = d - e by omega] at hsub
    exact Int.dvd_of_emod_eq_zero hsub
  have hzero := Int.eq_zero_of_abs_lt_dvd hdvd (abs_lt.mpr ⟨by omega, hlt⟩)
  omega

/-- The index the source computes from the place of another decree. -/
theorem ringPosition_shift (hpos : 0 < capacity) (h : e - d ≤ capacity) :
    ((d - e) + ringPosition base capacity e + capacity).tmod capacity =
      ringPosition base capacity d := by
  have hnonneg := ringPosition_nonneg hpos base e
  rw [Int.tmod_eq_emod_of_nonneg (by omega)]
  unfold ringPosition
  rw [Int.emod_def (base + e) capacity,
    show d - e + (base + e - capacity * ((base + e) / capacity)) + capacity =
      base + d + capacity * (1 - (base + e) / capacity) by ring]
  exact Int.add_mul_emod_self_left _ _ _

namespace MutationRing

variable {P W : Type}

/-- The array has just the mutations of the slots, each at the place of its decree. -/
def Holds (r : MutationRing P W) (c : MutationCache P W) (base : Int) : Prop :=
  ∀ (i : Nat) mu, r.array[i]? = some (some mu) ↔
    ∃ d, c.slots d = some mu ∧ ringPosition base c.capacity d = i

/-- **The ring buffer represents the slots**: the counters are those of the window, the indices
are the places of its ends, and no other place of the array is used. -/
structure Represents (r : MutationRing P W) (c : MutationCache P W) : Prop where
  maxCount_eq : r.maxCount = c.capacity
  length_eq : r.array.length = c.capacity
  interval_eq : r.interval = c.count
  startDecree_eq : r.startDecree = c.minDecree
  endDecree_eq : r.endDecree = c.maxDecree
  indexed : ∃ base, r.startIdx = ringPosition base c.capacity c.minDecree ∧
    r.endIdx = ringPosition base c.capacity c.maxDecree ∧ r.Holds c base

theorem represents_init {maxCount : Nat} {decree : Int} {array : List (Option (Mutation P W))}
    (harray : array = List.replicate maxCount none) :
    Represents ⟨array, maxCount, 0, 0, 0, decree, decree⟩ (.init maxCount decree) := by
  subst harray
  refine ⟨rfl, List.length_replicate, rfl, rfl, rfl, -decree, ?_, ?_, ?_⟩
  · simp [ringPosition, init]
  · simp [ringPosition, init]
  · intro i mu
    simp [init, List.getElem?_replicate]

section Places

variable {r : MutationRing P W} {c : MutationCache P W} {base d : Int}

-- no other decree of the window stands at the place of `d`
variable (hpos : 0 < c.capacity) (hlength : r.array.length = c.capacity) (holds : r.Holds c base)
  (hsole : ∀ e mu, c.slots e = some mu → d - e < c.capacity ∧ e - d < c.capacity)
include hpos hlength holds hsole

theorem read_ringPosition : r.read (ringPosition base c.capacity d) = .ok (c.slots d) := by
  have hnonneg := ringPosition_nonneg hpos base d
  have hlt := ringPosition_lt hpos base d
  have hnat := toNat_ringPosition hpos base d
  have hbound : (ringPosition base c.capacity d).toNat < r.array.length := by omega
  have hentry : r.array.getD (ringPosition base c.capacity d).toNat none = c.slots d := by
    rw [List.getD_eq_getElem?_getD, List.getElem?_eq_getElem hbound, Option.getD_some]
    cases hslot : c.slots d with
    | some mu =>
      have := (holds (ringPosition base c.capacity d).toNat mu).mpr ⟨d, hslot, hnat.symm⟩
      rw [List.getElem?_eq_getElem hbound] at this
      exact Option.some.inj this
    | none =>
      cases hentry : r.array[(ringPosition base c.capacity d).toNat] with
      | none => rfl
      | some mu =>
        obtain ⟨e, he, heq⟩ := (holds (ringPosition base c.capacity d).toNat mu).mp
          (by rw [List.getElem?_eq_getElem hbound, hentry])
        obtain ⟨hlt, hgt⟩ := hsole e mu he
        have : d = e := ringPosition_inj hlt hgt (by rw [heq, hnat])
        rw [← this, hslot] at he
        cases he
  unfold read
  rw [if_pos ⟨hnonneg, by omega⟩, hentry]

theorem Holds.set (entry : Option (Mutation P W)) (i : Nat) (mu : Mutation P W) :
    (r.array.set (ringPosition base c.capacity d).toNat entry)[i]? = some (some mu) ↔
      ∃ e, (if e = d then entry else c.slots e) = some mu ∧ ringPosition base c.capacity e = i := by
  have hlt := ringPosition_lt hpos base d
  have hnat := toNat_ringPosition hpos base d
  rw [List.getElem?_set]
  by_cases hi : (ringPosition base c.capacity d).toNat = i
  · rw [if_pos hi, if_pos (by omega), Option.some.injEq]
    constructor
    · intro h
      exact ⟨d, by rw [if_pos rfl, h], by omega⟩
    · rintro ⟨e, he, heq⟩
      split at he
      · exact he
      · rename_i hne
        obtain ⟨hlt, hgt⟩ := hsole e mu he
        have hsame : ringPosition base c.capacity d = ringPosition base c.capacity e := by omega
        exact absurd (ringPosition_inj hlt hgt hsame).symm hne
  · rw [if_neg hi, holds i mu]
    constructor
    · rintro ⟨e, he, heq⟩
      have hne : e ≠ d := by
        rintro rfl
        omega
      exact ⟨e, by rw [if_neg hne, he], heq⟩
    · rintro ⟨e, he, heq⟩
      have hne : e ≠ d := by
        rintro rfl
        omega
      rw [if_neg hne] at he
      exact ⟨e, he, heq⟩

end Places

end MutationRing

theorem castInt_eq {x : Int} (hnonneg : 0 ≤ x) (hlt : x < 2 ^ 31) : castInt x = x :=
  Int.bmod_eq_of_le_mul_two (by omega) (by omega)

namespace MutationCache

variable {P W : Type} {c : MutationCache P W}

theorem Windowed.putDelta_add_count (w : c.Windowed) (d : Int) :
    (c.putDelta d : Int) + c.count = c.windowWith d := by
  unfold putDelta windowWith
  by_cases hcount : c.count = 0
  · simp [hcount]
  · have hspan := w.span (Nat.pos_of_ne_zero hcount)
    rw [if_neg hcount, if_neg hcount]
    split
    · omega
    · split <;> omega

/-- **The capacity is exceeded just when the new window is too long.** -/
theorem Windowed.put_error_iff (w : c.Windowed) (mu : Mutation P W) :
    c.put mu = some (.error .capacityExceeded) ↔ c.capacity < c.windowWith mu.header.decree := by
  rw [← w.putDelta_add_count]
  unfold MutationCache.put
  dsimp only
  constructor
  · intro h
    split at h
    · rename_i hroom
      omega
    · split at h <;> simp at h
  · intro h
    rw [if_pos (by omega)]

end MutationCache

namespace MutationRing

variable {P W : Type} {r : MutationRing P W} {c : MutationCache P W}

theorem Represents.delta_eq (rep : r.Represents c) (w : c.Windowed) {d : Int}
    (hfits : c.count ≠ 0 → c.windowWith d < 2 ^ 31) :
    r.delta d = ((c.putDelta d : Int),
      if c.count = 0 then 0 else if c.maxDecree < d then 1 else if d < c.minDecree then -1
      else 0) := by
  unfold delta putDelta
  rw [rep.interval_eq, rep.startDecree_eq, rep.endDecree_eq]
  by_cases hcount : c.count = 0
  · simp [hcount]
  · have hspan := w.span (Nat.pos_of_ne_zero hcount)
    have hlength := hfits hcount
    rw [windowWith, if_neg hcount] at hlength
    rw [if_neg (by omega), if_neg hcount, if_neg hcount]
    by_cases hmax : c.maxDecree < d
    · rw [if_pos hmax, if_pos hmax, if_pos hmax, castInt_eq (by omega) (by omega)]
      congr 1
      omega
    · rw [if_neg hmax, if_neg hmax, if_neg hmax]
      by_cases hmin : d < c.minDecree
      · rw [if_pos hmin, if_pos hmin, if_pos hmin, castInt_eq (by omega) (by omega)]
        congr 1
        omega
      · rw [if_neg hmin, if_neg hmin, if_neg hmin]
        rfl

variable {mu : Mutation P W}

theorem Represents.track (rep : r.Represents c) (w : c.Windowed) {base : Int}
    {array : List (Option (Mutation P W))}
    (hfits : c.count ≠ 0 → c.windowWith mu.header.decree < 2 ^ 31)
    (hstart : r.startIdx = ringPosition base c.capacity c.minDecree)
    (hend : r.endIdx = ringPosition base c.capacity c.maxDecree)
    (hlength : array.length = c.capacity) (holds : ∀ (i : Nat) old, array[i]? = some (some old) ↔
      ∃ e, (if e = mu.header.decree then some mu else c.slots e) = some old ∧
        ringPosition base c.capacity e = i) :
    Represents ({ r with array := array }.track mu.header.decree
      (ringPosition base c.capacity mu.header.decree))
      { capacity := c.capacity
        count := c.putDelta mu.header.decree + c.count
        minDecree := (c.putWindow mu.header.decree).1
        maxDecree := (c.putWindow mu.header.decree).2
        slots := fun d => if d = mu.header.decree then some mu else c.slots d } := by
  have hdelta := rep.delta_eq w hfits
  have hsame : ({ r with array := array } : MutationRing P W).delta mu.header.decree =
      r.delta mu.header.decree := rfl
  unfold MutationRing.track
  rw [hsame, hdelta]
  dsimp only
  unfold putWindow putDelta
  by_cases hcount : c.count = 0
  · simp only [hcount, if_true, Int.lt_irrefl, if_false, rep.interval_eq]
    exact ⟨rep.maxCount_eq, hlength, rfl, rfl, rfl, base, rfl, rfl, holds⟩
  have hspan := w.span (Nat.pos_of_ne_zero hcount)
  by_cases hmax : c.maxDecree < mu.header.decree
  · simp only [hcount, hmax, if_true, if_false, Int.zero_lt_one]
    refine ⟨rep.maxCount_eq, hlength, ?_, rep.startDecree_eq, rfl, base, hstart, rfl, holds⟩
    dsimp only
    rw [rep.interval_eq]
    omega
  by_cases hmin : mu.header.decree < c.minDecree
  · simp only [hcount, hmax, hmin, if_true, if_false, show ¬ (0 : Int) < -1 by omega,
      show (-1 : Int) < 0 by omega]
    refine ⟨rep.maxCount_eq, hlength, ?_, rfl, rep.endDecree_eq, base, rfl, hend, holds⟩
    dsimp only
    rw [rep.interval_eq]
    omega
  · simp only [hcount, hmax, hmin, if_false, Int.lt_irrefl]
    split
    · -- the only mutation of the window is replaced
      rename_i hone
      rw [rep.interval_eq] at hone
      have hd : mu.header.decree = c.minDecree ∧ mu.header.decree = c.maxDecree := by omega
      refine ⟨rep.maxCount_eq, hlength, ?_, hd.1, hd.2, base, ?_, ?_, holds⟩
      · dsimp only
        rw [rep.interval_eq]
        omega
      · dsimp only
        rw [← hd.1]
      · dsimp only
        rw [← hd.2]
    · refine ⟨rep.maxCount_eq, hlength, ?_, rep.startDecree_eq, rep.endDecree_eq, base, hstart,
        hend, holds⟩
      dsimp only
      rw [rep.interval_eq]
      omega

/-- Where `put` stores, once the capacity has been checked. -/
def putIndex (r : MutationRing P W) (decree : Int) : Int :=
  ((decree - r.endDecree) + r.endIdx + r.maxCount).tmod r.maxCount

theorem put_full (hfull : r.maxCount < (r.delta mu.header.decree).1 + r.interval) :
    r.put mu = .ok (r, some .capacityExceeded) := by
  unfold put
  rw [if_pos hfull]
  rfl

theorem put_read {old : Option (Mutation P W)}
    (hroom : ¬ r.maxCount < (r.delta mu.header.decree).1 + r.interval)
    (hread : r.read (r.putIndex mu.header.decree) = .ok old) :
    r.put mu = if old.any fun old => decide (mu.header.ballot < old.header.ballot)
      then .error .olderBallot
      else .ok ({ r with array := r.array.set (r.putIndex mu.header.decree).toNat (some mu) }.track
        mu.header.decree (r.putIndex mu.header.decree), none) := by
  unfold put
  dsimp only
  unfold putIndex at hread ⊢
  rw [if_neg hroom, hread]
  simp only [Bind.bind, Except.bind, Pure.pure, Except.pure, throw, throwThe, MonadExceptOf.throw]

theorem not_mayReplace_iff (c : MutationCache P W) (mu : Mutation P W) :
    ((c.slots mu.header.decree).any fun old => decide (mu.header.ballot < old.header.ballot)) =
      !c.mayReplace mu := by
  unfold mayReplace
  cases c.slots mu.header.decree with
  | none => rfl
  | some old => simp only [Option.any_some, ← Int.not_le, decide_not]

theorem sole_of_mem (w : c.Windowed) {d : Int} (hmin : c.minDecree ≤ d) (hmax : d ≤ c.maxDecree)
    (e : Int) (mu : Mutation P W) (he : c.slots e = some mu) :
    d - e < c.capacity ∧ e - d < c.capacity := by
  obtain ⟨hcount, hminE, hmaxE⟩ := w.inside e mu he
  have hspan := w.span hcount
  have hfits := w.fits
  omega

section Refines

variable (hpos : 0 < c.capacity) (rep : r.Represents c) (w : c.Windowed)
include hpos rep w

theorem put_refines (hregular : c.count = 0 → c.maxDecree ≤ mu.header.decree)
    (hfits : c.count ≠ 0 → c.windowWith mu.header.decree < 2 ^ 31) :
    match c.put mu with
    | none => r.put mu = .error .olderBallot
    | some (.error err) => r.put mu = .ok (r, some err)
    | some (.ok c') => ∃ r', r.put mu = .ok (r', none) ∧ r'.Represents c' := by
  have hdelta : (r.delta mu.header.decree).1 = c.putDelta mu.header.decree := by
    rw [rep.delta_eq w hfits]
  have hlength := w.putDelta_add_count mu.header.decree
  have hmaxCount := rep.maxCount_eq
  have hinterval := rep.interval_eq
  unfold MutationCache.put
  dsimp only
  by_cases hroom : c.capacity < c.putDelta mu.header.decree + c.count
  · rw [if_pos hroom]
    exact put_full (by omega)
  rw [if_neg hroom]
  -- every decree of the new window has its own place
  have hsole : ∀ e old, c.slots e = some old →
      mu.header.decree - e < c.capacity ∧ e - mu.header.decree < c.capacity := by
    intro e old he
    obtain ⟨hcount, hmin, hmax⟩ := w.inside e old he
    rw [MutationCache.windowWith, if_neg (by omega)] at hlength
    omega
  have hnear : c.maxDecree - mu.header.decree ≤ c.capacity := by
    by_cases hcount : c.count = 0
    · have := hregular hcount
      omega
    · rw [MutationCache.windowWith, if_neg hcount] at hlength
      omega
  obtain ⟨base, hstart, hend, holds⟩ := rep.indexed
  have hindex : r.putIndex mu.header.decree = ringPosition base c.capacity mu.header.decree := by
    unfold putIndex
    rw [rep.endDecree_eq, hend, hmaxCount, ringPosition_shift hpos hnear]
  have hput := put_read (by omega) (hindex ▸ read_ringPosition hpos rep.length_eq holds hsole)
  rw [not_mayReplace_iff, hindex] at hput
  cases hreplace : c.mayReplace mu with
  | false =>
    rw [hreplace] at hput
    exact hput
  | true =>
    rw [hreplace] at hput
    exact ⟨_, hput, rep.track w hfits hstart hend (by rw [List.length_set, rep.length_eq])
      (holds.set hpos rep.length_eq hsole (some mu))⟩

theorem represents_emptied (hone : c.count = 1) :
    Represents { r with
      array := r.array.set r.startIdx.toNat none
      interval := r.interval - 1
      startIdx := (r.startIdx + 1).tmod r.maxCount
      endDecree := r.startDecree
      endIdx := (r.startIdx + 1).tmod r.maxCount } c.popMin := by
  obtain ⟨base, hstart, -, holds⟩ := rep.indexed
  have hspan := w.span (by omega)
  have hnext : (r.startIdx + 1).tmod r.maxCount =
      ringPosition (base + 1) c.capacity c.minDecree := by
    rw [rep.maxCount_eq, hstart, ringPosition_next hpos, ringPosition, ringPosition,
      Int.add_right_comm, ← add_assoc]
  have hpop : c.popMin = ⟨c.capacity, 0, c.minDecree, c.minDecree,
      fun d => if d = c.minDecree then none else c.slots d⟩ := by
    unfold MutationCache.popMin
    rw [if_neg (by omega), if_pos hone, if_pos hone, hone]
  have hnone : ∀ e mu, (if e = c.minDecree then none else c.slots e) ≠ some mu := by
    intro e mu he
    split at he
    · cases he
    · rename_i hne
      obtain ⟨-, hmin, hmax⟩ := w.inside e mu he
      omega
  rw [hpop]
  refine ⟨rep.maxCount_eq, by rw [← rep.length_eq]; exact List.length_set, ?_,
    rep.startDecree_eq, rep.startDecree_eq, base + 1, hnext, hnext, ?_⟩
  · dsimp only
    rw [rep.interval_eq, hone]
    rfl
  · intro i mu
    dsimp only
    rw [hstart, holds.set hpos rep.length_eq (sole_of_mem w (le_refl _) (by omega)) none i mu]
    constructor
    · rintro ⟨e, he, -⟩
      exact absurd he (hnone e mu)
    · rintro ⟨e, he, -⟩
      exact absurd he (hnone e mu)

theorem popMin_refines :
    ∃ r', r.popMin = .ok (r', if c.count = 0 then none else c.slots c.minDecree) ∧
      r'.Represents c.popMin := by
  have hinterval := rep.interval_eq
  unfold popMin
  by_cases hcount : c.count = 0
  · rw [if_pos (by omega), if_pos hcount]
    refine ⟨r, rfl, ?_⟩
    unfold MutationCache.popMin
    rwa [if_pos hcount]
  obtain ⟨base, hstart, hend, holds⟩ := rep.indexed
  have hspan := w.span (by omega)
  have hsole := sole_of_mem w (le_refl c.minDecree) (by omega)
  have hread := read_ringPosition hpos rep.length_eq holds hsole
  rw [← hstart] at hread
  rw [if_neg (by omega), if_neg hcount, hread]
  by_cases hone : c.count = 1
  · simp only [Bind.bind, Except.bind, Pure.pure, Except.pure,
      show r.interval - 1 = 0 by omega, if_true]
    refine ⟨_, rfl, ?_⟩
    have := represents_emptied hpos rep w hone
    rwa [show r.interval - 1 = 0 by omega] at this
  · have hnext : (r.startIdx + 1).tmod r.maxCount =
        ringPosition base c.capacity (c.minDecree + 1) := by
      rw [rep.maxCount_eq, hstart, ringPosition_next hpos]
    have hpop : c.popMin = ⟨c.capacity, c.count - 1, c.minDecree + 1, c.maxDecree,
        fun d => if d = c.minDecree then none else c.slots d⟩ := by
      unfold MutationCache.popMin
      rw [if_neg hcount, if_neg hone, if_neg hone]
    have hmore : ¬ r.interval - 1 = 0 := by omega
    simp only [Bind.bind, Except.bind, Pure.pure, Except.pure, hmore, if_false]
    refine ⟨_, rfl, ?_⟩
    rw [hpop]
    refine ⟨rep.maxCount_eq, by rw [← rep.length_eq]; exact List.length_set, ?_, ?_,
      rep.endDecree_eq, base, hnext, hend, ?_⟩
    · dsimp only
      omega
    · dsimp only
      rw [rep.startDecree_eq]
    · intro i mu
      dsimp only
      rw [hstart]
      exact holds.set hpos rep.length_eq hsole none i mu

theorem getMutationByDecree_refines (d : Int) :
    r.getMutationByDecree d = .ok (c.getMutationByDecree d) := by
  unfold getMutationByDecree MutationCache.getMutationByDecree
  rw [rep.startDecree_eq, rep.endDecree_eq]
  by_cases hout : d < c.minDecree ∨ c.maxDecree < d
  · rw [if_pos hout, if_pos hout]
  · obtain ⟨base, hstart, -, holds⟩ := rep.indexed
    rw [if_neg hout, if_neg hout, rep.maxCount_eq, hstart,
      add_comm (ringPosition base c.capacity c.minDecree),
      ringPosition_shift hpos (by omega)]
    exact read_ringPosition hpos rep.length_eq holds (sole_of_mem w (by omega) (by omega))

end Refines

theorem reset_refines (rep : r.Represents c) (decree : Int) :
    (r.reset decree).Represents (.init c.capacity decree) := by
  unfold reset
  rw [rep.maxCount_eq, rep.length_eq]
  exact represents_init rfl

/-! ### Sequences of calls -/

/-- What `prepare_list` guarantees: a `put` on the empty cache is not below its last decree. -/
def Regular (r : MutationRing P W) : CacheOp P W → Prop
  | .put mu => r.interval = 0 → r.endDecree ≤ mu.header.decree
  | _ => True

/-- The window a `put` on a cache with mutations would need fits an `int`. -/
def FitsInt (r : MutationRing P W) : CacheOp P W → Prop
  | .put mu => r.interval ≠ 0 →
      max r.endDecree mu.header.decree - min r.startDecree mu.header.decree + 1 < 2 ^ 31
  | _ => True

def next (r : MutationRing P W) (op : CacheOp P W) : Option (MutationRing P W) :=
  (r.step op).toOption.map Prod.fst

/-- **Every call refines its counterpart on the map**: it returns the same, in a state that
represents the same map, unless both fail the `CHECK_LE` of the ballots. -/
theorem step_refines (hpos : 0 < c.capacity) (rep : r.Represents c) (w : c.Windowed)
    {op : CacheOp P W} (hregular : r.Regular op) (hfits : r.FitsInt op) :
    match c.step op with
    | none => r.step op = .error .olderBallot
    | some (c', result) => ∃ r', r.step op = .ok (r', result) ∧ r'.Represents c' ∧
        c'.Windowed ∧ c'.capacity = c.capacity := by
  cases op with
  | put mu =>
    have hinterval := rep.interval_eq
    have hregular' : c.count = 0 → c.maxDecree ≤ mu.header.decree := by
      intro hcount
      rw [← rep.endDecree_eq]
      exact hregular (by omega)
    have hfits' : c.count ≠ 0 → c.windowWith mu.header.decree < 2 ^ 31 := by
      intro hcount
      rw [MutationCache.windowWith, if_neg hcount, ← rep.endDecree_eq, ← rep.startDecree_eq]
      exact hfits (by omega)
    have hput := put_refines hpos rep w hregular' hfits'
    simp only [step, MutationCache.step]
    cases hres : c.put mu with
    | none =>
      simp only [hres] at hput
      simp only [Option.map_none, hput]
      rfl
    | some res =>
      cases res with
      | error err =>
        simp only [hres] at hput
        simp only [Option.map_some, hput]
        exact ⟨r, rfl, rep, w, trivial⟩
      | ok c' =>
        simp only [hres] at hput
        obtain ⟨r', hput, rep'⟩ := hput
        simp only [Option.map_some, hput]
        refine ⟨r', rfl, rep', w.put hres, ?_⟩
        rw [(MutationCache.put_eq_ok hres).2.2]
  | popMin =>
    obtain ⟨r', hpop, rep'⟩ := popMin_refines hpos rep w
    simp only [step, MutationCache.step, hpop]
    exact ⟨r', rfl, rep', w.popMin, c.capacity_popMin⟩
  | reset decree => exact ⟨_, rfl, reset_refines rep decree, MutationCache.windowed_init _ _, rfl⟩
  | get decree =>
    simp only [step, MutationCache.step, getMutationByDecree_refines hpos rep w decree]
    exact ⟨r, rfl, rep, w, trivial⟩

theorem calls_refine (ops : List (CacheOp P W)) {r : MutationRing P W} {c : MutationCache P W}
    (hpos : 0 < c.capacity) (rep : r.Represents c) (w : c.Windowed)
    (hregular : StepsMeet next Regular r ops) (hfits : StepsMeet next FitsInt r ops) :
    match c.calls ops with
    | none => r.calls ops = .error .olderBallot
    | some (c', results) => ∃ r', r.calls ops = .ok (r', results) ∧ r'.Represents c' ∧
        c'.Windowed := by
  induction ops generalizing r c with
  | nil => exact ⟨r, rfl, rep, w⟩
  | cons op ops ih =>
    have hstep := step_refines hpos rep w hregular.1 hfits.1
    simp only [calls, MutationCache.calls]
    cases hc : c.step op with
    | none =>
      simp only [hc] at hstep
      simp only [hstep]
      rfl
    | some out =>
      obtain ⟨c₁, result⟩ := out
      simp only [hc] at hstep
      obtain ⟨r₁, hr, rep₁, w₁, hcapacity⟩ := hstep
      have hnext : r.next op = some r₁ := by
        rw [next, hr]
        rfl
      have hrest := ih (hcapacity ▸ hpos) rep₁ w₁ (hregular.2 r₁ hnext) (hfits.2 r₁ hnext)
      simp only [hr, Bind.bind, Except.bind, Option.bind]
      cases hcs : c₁.calls ops with
      | none =>
        simp only [hcs] at hrest
        simp only [hrest]
      | some out =>
        obtain ⟨c₂, results⟩ := out
        simp only [hcs] at hrest
        obtain ⟨r₂, hrs, rep₂, w₂⟩ := hrest
        simp only [hrs]
        exact ⟨r₂, rfl, rep₂, w₂⟩

/-- **`mutation_cache` refines a bounded map from decrees to mutations**, for every sequence of
calls whose windows fit an `int`. No index is outside the array, every call returns what it
returns on the map, the array has just the entries of the map, at most `max_count` decrees are in
the window, and the capacity is exceeded just when the new window would be longer. -/
theorem ring_refines_slots (initDecree : Int) (maxCount : Nat) (ops : List (CacheOp P W))
    (hpos : 0 < maxCount)
    (hregular : StepsMeet next Regular (new initDecree maxCount) ops)
    (hfits : StepsMeet next FitsInt (new initDecree maxCount) ops) :
    match (MutationCache.init maxCount initDecree).calls ops with
    | none => (new initDecree maxCount).calls ops = .error .olderBallot
    | some (c, results) => ∃ r, (new initDecree maxCount).calls ops = .ok (r, results) ∧
        r.Represents c ∧ c.Windowed ∧
        ∀ mu, c.put mu = some (.error .capacityExceeded) ↔
          c.capacity < c.windowWith mu.header.decree := by
  have hcalls := calls_refine ops (c := .init maxCount initDecree) hpos (represents_init rfl)
    (MutationCache.windowed_init _ _) hregular hfits
  cases hc : (MutationCache.init maxCount initDecree).calls ops with
  | none =>
    simp only [hc] at hcalls
    exact hcalls
  | some out =>
    obtain ⟨c, results⟩ := out
    simp only [hc] at hcalls
    obtain ⟨r, hr, rep, w⟩ := hcalls
    exact ⟨r, hr, rep, w, w.put_error_iff⟩

/-- Decree 3 takes the place of decree 1 in an array of two. -/
theorem ring_refines_slots_wrapped :
    let ops : List (CacheOp Unit Unit) :=
      [.put (.new 1 1), .put (.new 1 2), .popMin, .put (.new 1 3), .get 3]
    StepsMeet next Regular (new 0 2) ops ∧ StepsMeet next FitsInt (new 0 2) ops ∧
    ∃ c, (MutationCache.init 2 0).calls ops =
        some (c, [.stored none, .stored none, .popped (some (.new 1 1)), .stored none,
          .found (some (.new 1 3))]) ∧
      ∃ r, (new 0 2).calls ops =
        .ok (r, [.stored none, .stored none, .popped (some (.new 1 1)), .stored none,
          .found (some (.new 1 3))]) ∧
        r.Represents c ∧ c.Windowed := by
  intro ops
  have hregular : StepsMeet next Regular (new 0 2) ops := by
    refine ⟨fun _ => by decide, ?_⟩
    rintro _ ⟨⟩
    refine ⟨nofun, ?_⟩
    rintro _ ⟨⟩
    refine ⟨trivial, ?_⟩
    rintro _ ⟨⟩
    refine ⟨nofun, ?_⟩
    rintro _ ⟨⟩
    exact ⟨trivial, fun _ _ => trivial⟩
  have hfits : StepsMeet next FitsInt (new 0 2) ops := by
    refine ⟨fun h => absurd rfl h, ?_⟩
    rintro _ ⟨⟩
    refine ⟨fun _ => by decide, ?_⟩
    rintro _ ⟨⟩
    refine ⟨trivial, ?_⟩
    rintro _ ⟨⟩
    refine ⟨fun _ => by decide, ?_⟩
    rintro _ ⟨⟩
    exact ⟨trivial, fun _ _ => trivial⟩
  obtain ⟨r, hr, rep, w, -⟩ := ring_refines_slots 0 2 ops (by decide) hregular hfits
  exact ⟨hregular, hfits, _, rfl, r, hr, rep, w⟩

/-- **A decree far ahead is accepted as the next one**: the difference `2 ^ 32 + 1` is cast to
`1`, and the window of an array of four spans more than `2 ^ 32` decrees with two of them
counted. -/
theorem put_accepts_wide_window :
    let ops : List (CacheOp Unit Unit) := [.put (.new 1 1), .put (.new 1 (2 ^ 32 + 2))]
    StepsMeet next Regular (new 0 4) ops ∧
    (∃ c, (MutationCache.init 4 0).calls ops =
      some (c, [.stored none, .stored (some .capacityExceeded)])) ∧
    ∃ r, (new 0 4).calls ops = .ok (r, [.stored none, .stored none]) ∧
      r.interval = 2 ∧ r.endDecree - r.startDecree + 1 = 2 ^ 32 + 2 := by
  refine ⟨⟨fun _ => by decide, ?_⟩, ⟨_, rfl⟩, ⟨_, rfl, rfl, rfl⟩⟩
  rintro _ ⟨⟩
  exact ⟨nofun, fun _ _ => trivial⟩

end MutationRing

end Pegasus.Replica
