/-
The prepare list of a replica, after `mutation_cache.cpp` and `prepare_list.cpp`.

A mutation cache holds the mutations of a window of decrees, at most `capacity` of
them. The source keeps them in a ring buffer; here the slots are indexed by decree,
so that `put`, `pop_min` and `get_mutation_by_decree` read as they do there without
the ring index. A prepare list adds the last committed decree.

A failed `CHECK` aborts the process; operations that can abort return `none`. The
committer is a callback, so committing returns the mutations it was called with, in
the order of the calls.

- `popCommitted_popped`: on a well-formed list the popping loop ends, and only takes
  mutations below the last committed decree;
- `popAndPut_prepared`: the `put` after it succeeds when the uncommitted decrees fit.
-/

import Pegasus.Replica.Mutation

namespace Pegasus.Replica

inductive PrepareError where
  | capacityExceeded
deriving DecidableEq

/-- `mutation_cache`, with the slots indexed by decree. -/
structure MutationCache (P W : Type) where
  capacity : Nat
  /-- `_interval`, the number of decrees the window spans. -/
  count : Nat
  minDecree : Int
  maxDecree : Int
  slots : Int → Option (Mutation P W)

namespace MutationCache

variable {P W : Type}

def init (capacity : Nat) (decree : Int) : MutationCache P W where
  capacity := capacity
  count := 0
  minDecree := decree
  maxDecree := decree
  slots := fun _ => none

def getMutationByDecree (c : MutationCache P W) (decree : Int) : Option (Mutation P W) :=
  if decree < c.minDecree ∨ c.maxDecree < decree then none else c.slots decree

theorem slots_of_getMutationByDecree {c : MutationCache P W} {decree : Int} {mu : Mutation P W}
    (h : c.getMutationByDecree decree = some mu) : c.slots decree = some mu := by
  unfold getMutationByDecree at h
  split at h
  · exact absurd h (by simp)
  · exact h

def putDelta (c : MutationCache P W) (decree : Int) : Nat :=
  if c.count = 0 then 1
  else if c.maxDecree < decree then (decree - c.maxDecree).toNat
  else if decree < c.minDecree then (c.minDecree - decree).toNat
  else 0

def putWindow (c : MutationCache P W) (decree : Int) : Int × Int :=
  if c.count = 0 then (decree, decree)
  else if c.maxDecree < decree then (c.minDecree, decree)
  else if decree < c.minDecree then (decree, c.maxDecree)
  else (c.minDecree, c.maxDecree)

/-- The ballot check of `mutation_cache::put`: a version may only be replaced by one of
at least its ballot. -/
def mayReplace (c : MutationCache P W) (mu : Mutation P W) : Bool :=
  match c.slots mu.header.decree with
  | some old => decide (old.header.ballot ≤ mu.header.ballot)
  | none => true

def put (c : MutationCache P W) (mu : Mutation P W) :
    Option (Except PrepareError (MutationCache P W)) :=
  let decree := mu.header.decree
  if c.capacity < c.putDelta decree + c.count then some (.error .capacityExceeded)
  else if c.mayReplace mu then
    some (.ok
      { capacity := c.capacity
        count := c.putDelta decree + c.count
        minDecree := (c.putWindow decree).1
        maxDecree := (c.putWindow decree).2
        slots := fun d => if d = decree then some mu else c.slots d })
  else none

/-- `mutation_cache::pop_min`. Popping the only decree leaves the window at it. -/
def popMin (c : MutationCache P W) : MutationCache P W :=
  if c.count = 0 then c
  else
    { capacity := c.capacity
      count := c.count - 1
      minDecree := if c.count = 1 then c.minDecree else c.minDecree + 1
      maxDecree := if c.count = 1 then c.minDecree else c.maxDecree
      slots := fun d => if d = c.minDecree then none else c.slots d }

/-- What a callback does to the mutation it holds: the slot changes only if it still has that
mutation, and not another one of the same decree. -/
def updateMutation (c : MutationCache P W) (tid : Nat) (decree : Int)
    (f : Mutation P W → Mutation P W) : MutationCache P W :=
  { c with
    slots := fun d =>
      if d = decree then (c.slots d).map fun mu => if mu.tid = tid then f mu else mu
      else c.slots d }

/-- The loop of `prepare_list::truncate`. Every round takes one decree off the window. -/
def popThrough (decree : Int) : Nat → MutationCache P W → MutationCache P W
  | 0, c => c
  | fuel + 1, c => if c.minDecree ≤ decree ∧ 0 < c.count then popThrough decree fuel c.popMin else c

end MutationCache

/-- `prepare_list`: a mutation cache and the last committed decree. -/
structure PrepareList (P W : Type) extends MutationCache P W where
  lastCommittedDecree : Int

namespace PrepareList

variable {P W : Type}

def init (capacity : Nat) (decree : Int) : PrepareList P W where
  toMutationCache := .init capacity decree
  lastCommittedDecree := decree

def reset (l : PrepareList P W) (decree : Int) : PrepareList P W := init l.capacity decree

/-- `prepare_list::truncate`: the mutations above the decree stay. -/
def truncate (l : PrepareList P W) (decree : Int) : PrepareList P W :=
  let cache := l.popThrough decree l.count
  if cache.count = 0 then l.reset decree
  else { toMutationCache := cache, lastCommittedDecree := decree }

/-- When `prepare_list::prepare` pops the oldest mutation: it is committed, and the window
has no room for decree `d` (or everything committed is to go). -/
def mustPop (popAll : Bool) (d : Int) (l : PrepareList P W) : Bool :=
  (decide ((l.capacity : Int) ≤ d - l.minDecree) || popAll) &&
    decide (l.minDecree < l.lastCommittedDecree)

/-- The popping loop of `prepare_list::prepare`. Every round takes one decree off the window;
on an empty window the loop of the source does not end, which is `none`. -/
def popCommitted (popAll : Bool) (d : Int) : Nat → PrepareList P W → Option (PrepareList P W)
  | 0, l => if l.mustPop popAll d then none else some l
  | fuel + 1, l =>
    if l.mustPop popAll d then popCommitted popAll d fuel { l with toMutationCache := l.popMin }
    else some l

/-- The `put` after the popping loop. The popped mutations stay popped if it finds no room. -/
def putPopped (popped : PrepareList P W) (mu : Mutation P W) :
    Option (PrepareList P W × Option PrepareError) :=
  (popped.put mu).map fun
    | .ok cache => ({ popped with toMutationCache := cache }, none)
    | .error err => (popped, some err)

/-- The popping loop and the `put` after it. -/
def popAndPut (popAll : Bool) (l : PrepareList P W) (mu : Mutation P W) :
    Option (PrepareList P W × Option PrepareError) :=
  (popCommitted popAll mu.header.decree l.count l).bind (·.putPopped mu)

/-- The popping loop and the `put` after it, on a replica that is not the primary: there the
`put` has to succeed. -/
def popAndPutChecked (popAll : Bool) (l : PrepareList P W) (mu : Mutation P W) :
    Option (PrepareList P W) :=
  match popAndPut popAll l mu with
  | some (next, none) => some next
  | _ => none

/-- What committing does: the list after it and the calls of the committer. -/
abbrev Committed (P W : Type) := PrepareList P W × List (Mutation P W)

/-- The part of `prepare_list::prepare` for an inactive replica that commits what the header
of the mutation announces. The virtual `commit` is a parameter. -/
def commitAnnounced (commit : PrepareList P W → Int → Option (Committed P W))
    (l : PrepareList P W) (mu : Mutation P W) : Option (Committed P W) :=
  let announced := mu.header.lastCommittedDecree
  if l.maxDecree < announced then some (l.reset announced, [])
  else if l.lastCommittedDecree < announced then commit l announced
  else some (l, [])

/-- `prepare_list::prepare` on an inactive replica. -/
def prepareInactive (commit : PrepareList P W → Int → Option (Committed P W))
    (l : PrepareList P W) (mu : Mutation P W) : Option (Committed P W) :=
  if mu.header.decree ≤ l.lastCommittedDecree then none
  else do
    let (committed, calls) ← commitAnnounced commit l mu
    let next ← popAndPutChecked false committed mu
    some (next, calls)

/-! ### The window -/

/-- The window of a prepare list: it spans the decrees counted, holds only mutations of its
own decrees, and reaches from at most one above the last committed decree to at least it.
An empty window stands at the last committed decree. -/
structure WellFormed (l : PrepareList P W) : Prop where
  span : l.count = 0 ∧ l.minDecree = l.maxDecree ∧ l.lastCommittedDecree = l.maxDecree ∨
    0 < l.count ∧ (l.count : Int) = l.maxDecree - l.minDecree + 1
  keyed : ∀ d mu, l.slots d = some mu → mu.header.decree = d
  lower : l.minDecree ≤ l.lastCommittedDecree + 1
  upper : l.lastCommittedDecree ≤ l.maxDecree

theorem wellFormed_init (capacity : Nat) (decree : Int) :
    (init capacity decree : PrepareList P W).WellFormed where
  span := .inl ⟨rfl, rfl, rfl⟩
  keyed := by simp [init, MutationCache.init]
  lower := by
    change decree ≤ decree + 1
    omega
  upper := le_rfl

/-- What popping leaves of a list: the same decrees from some decree on. -/
structure Popped (l l' : PrepareList P W) : Prop where
  capacity_eq : l'.capacity = l.capacity
  committed_eq : l'.lastCommittedDecree = l.lastCommittedDecree
  max_eq : l'.maxDecree = l.maxDecree
  count_le : l'.count ≤ l.count
  min_le : l.minDecree ≤ l'.minDecree
  slots_eq : ∀ d, l'.minDecree ≤ d → l'.slots d = l.slots d
  wellFormed : l'.WellFormed

variable {popAll : Bool} {d : Int} {l l' : PrepareList P W} {mu : Mutation P W}

theorem mustPop_iff :
    l.mustPop popAll d = true ↔
      ((l.capacity : Int) ≤ d - l.minDecree ∨ popAll = true) ∧
        l.minDecree < l.lastCommittedDecree := by
  simp [mustPop]

theorem popped_popMin (wf : l.WellFormed) (below : l.minDecree < l.lastCommittedDecree) :
    Popped l { l with toMutationCache := l.popMin } := by
  have upper := wf.upper
  -- the window reaches the last committed decree, so at least two decrees are in it
  have two : 2 ≤ l.count := by rcases wf.span with ⟨_, hmin, hlast⟩ | ⟨_, hcount⟩ <;> omega
  have pop : l.popMin =
      { capacity := l.capacity, count := l.count - 1, minDecree := l.minDecree + 1,
        maxDecree := l.maxDecree,
        slots := fun d => if d = l.minDecree then none else l.slots d } := by
    simp [MutationCache.popMin, show l.count ≠ 0 by omega, show l.count ≠ 1 by omega]
  rw [pop]
  refine ⟨rfl, rfl, rfl, Nat.sub_le _ _, Int.le_of_lt (Int.lt_succ _), ?_, ?_⟩
  · intro d hd
    have : d ≠ l.minDecree := by
      intro h
      simp only [h] at hd
      omega
    simp [this]
  · refine ⟨.inr ?_, ?_, ?_, upper⟩
    · rcases wf.span with ⟨hzero, _⟩ | ⟨_, hcount⟩
      · omega
      · constructor
        · change 0 < l.count - 1
          omega
        · change ((l.count - 1 : Nat) : Int) = l.maxDecree - (l.minDecree + 1) + 1
          omega
    · intro d mu hmu
      by_cases h : d = l.minDecree
      · simp [h] at hmu
      · exact wf.keyed d mu (by simpa [h] using hmu)
    · change l.minDecree + 1 ≤ l.lastCommittedDecree + 1
      omega

theorem Popped.refl (wf : l.WellFormed) : Popped l l :=
  ⟨rfl, rfl, rfl, Nat.le_refl _, Int.le_refl _, fun _ _ => rfl, wf⟩

theorem Popped.trans {l l' l'' : PrepareList P W} (first : Popped l l')
    (second : Popped l' l'') : Popped l l'' where
  capacity_eq := second.capacity_eq.trans first.capacity_eq
  committed_eq := second.committed_eq.trans first.committed_eq
  max_eq := second.max_eq.trans first.max_eq
  count_le := Nat.le_trans second.count_le first.count_le
  min_le := Int.le_trans first.min_le second.min_le
  slots_eq := fun d hd =>
    (second.slots_eq d hd).trans (first.slots_eq d (Int.le_trans second.min_le hd))
  wellFormed := second.wellFormed

/-- The window of a popped list still starts at most one above the last committed decree, so
the slots above that decree are those before popping. -/
theorem Popped.slots_eq_of_above (popped : Popped l l') (above : l.lastCommittedDecree < d) :
    l'.slots d = l.slots d := by
  have hlower := popped.wellFormed.lower
  rw [popped.committed_eq] at hlower
  exact popped.slots_eq d (by omega)

/-- **The popping loop ends** if it only pops windows that are not empty, and keeps what each
round keeps. -/
theorem popCommitted_rule {R : PrepareList P W → Prop}
    (hpop : ∀ l : PrepareList P W, R l → l.mustPop popAll d = true →
      0 < l.count ∧ R { l with toMutationCache := l.popMin }) (fuel : Nat) (hl : R l)
    (enough : l.count ≤ fuel) :
    ∃ l', popCommitted popAll d fuel l = some l' ∧ R l' ∧ l'.mustPop popAll d = false := by
  induction fuel generalizing l with
  | zero =>
    have hstop : l.mustPop popAll d = false := by
      by_contra hmust
      have := (hpop l hl (by simpa using hmust)).1
      omega
    exact ⟨l, by simp [popCommitted, hstop], hl, hstop⟩
  | succ fuel ih =>
    cases hmust : l.mustPop popAll d with
    | false => exact ⟨l, by simp [popCommitted, hmust], hl, hmust⟩
    | true =>
      obtain ⟨hpos, hnext⟩ := hpop l hl hmust
      have hcount : l.popMin.count = l.count - 1 := by rw [MutationCache.popMin, if_neg (by omega)]
      obtain ⟨l', hl', hR, hstop⟩ := ih hnext (by
        change l.popMin.count ≤ fuel
        omega)
      exact ⟨l', by simp [popCommitted, hmust, hl'], hR, hstop⟩

/-- On a well-formed list the loop takes only decrees below the last committed one. -/
theorem popCommitted_popped (popAll : Bool) (d : Int) (fuel : Nat) (l : PrepareList P W)
    (wf : l.WellFormed) (enough : l.count ≤ fuel) :
    ∃ l', popCommitted popAll d fuel l = some l' ∧ Popped l l' ∧ l'.mustPop popAll d = false := by
  refine popCommitted_rule (R := Popped l) (fun l' popped hmust => ?_) fuel (.refl wf) enough
  have hbelow := (mustPop_iff.mp hmust).2
  refine ⟨?_, popped.trans (popped_popMin popped.wellFormed hbelow)⟩
  rcases popped.wellFormed.span with ⟨_, hmin, hlast⟩ | ⟨hpos, _⟩ <;> omega

/-- What preparing a mutation above the last committed decree does to the uncommitted part of
the list: its slot holds it, and the other slots are as they were. -/
structure Prepared (l : PrepareList P W) (mu : Mutation P W) (l' : PrepareList P W) : Prop where
  capacity_eq : l'.capacity = l.capacity
  committed_eq : l'.lastCommittedDecree = l.lastCommittedDecree
  max_eq : l'.maxDecree = max l.maxDecree mu.header.decree
  slot_eq : l'.slots mu.header.decree = some mu
  slots_eq : ∀ d, l.lastCommittedDecree < d → d ≠ mu.header.decree → l'.slots d = l.slots d
  wellFormed : l'.WellFormed

theorem put_prepared (wf : l.WellFormed) (above : l.lastCommittedDecree < mu.header.decree)
    (next : mu.header.decree ≤ l.maxDecree + 1) (replace : l.mayReplace mu = true)
    (room : mu.header.decree - l.minDecree < l.capacity) (fits : l.count ≤ l.capacity)
    (positive : 0 < l.capacity) :
    ∃ c, l.put mu = some (.ok c) ∧ c.count ≤ c.capacity ∧
      Prepared l mu { l with toMutationCache := c } := by
  have hlower := wf.lower
  have hfits : ¬ l.capacity < l.putDelta mu.header.decree + l.count := by
    unfold MutationCache.putDelta
    rcases wf.span with ⟨hzero, _, _⟩ | ⟨hpos, hcount⟩
    · simp only [hzero, if_true]
      omega
    · rw [if_neg (by omega)]
      split
      · omega
      · split <;> omega
  have hwindow : l.putWindow mu.header.decree =
      (if l.count = 0 then mu.header.decree else l.minDecree,
        max l.maxDecree mu.header.decree) := by
    unfold MutationCache.putWindow
    rcases wf.span with ⟨hzero, hmin, hlast⟩ | ⟨hpos, hcount⟩
    · have : max l.maxDecree mu.header.decree = mu.header.decree := by omega
      simp [hzero, this]
    · simp only [show l.count ≠ 0 by omega, if_false]
      split
      · rw [max_eq_right (by omega)]
      · rw [if_neg (by omega), max_eq_left (by omega)]
  have hput : l.put mu = some (.ok
      { capacity := l.capacity
        count := l.putDelta mu.header.decree + l.count
        minDecree := if l.count = 0 then mu.header.decree else l.minDecree
        maxDecree := max l.maxDecree mu.header.decree
        slots := fun d => if d = mu.header.decree then some mu else l.slots d }) := by
    simp only [MutationCache.put, hfits, replace, hwindow, if_true, if_false]
  refine ⟨_, hput, Nat.le_of_not_lt hfits, rfl, rfl, rfl, if_pos rfl, fun d _ hd => if_neg hd, ?_⟩
  constructor
  · refine .inr ?_
    unfold MutationCache.putDelta
    rcases wf.span with ⟨hzero, hmin, hlast⟩ | ⟨hpos, hcount⟩
    · simp only [hzero, if_true]
      omega
    · simp only [show l.count ≠ 0 by omega, if_false]
      split
      · omega
      · rw [if_neg (by omega)]
        omega
  · intro d mu' hmu'
    dsimp only at hmu'
    split at hmu'
    · rename_i hd
      rw [hd, ← Option.some.inj hmu']
    · exact wf.keyed d mu' hmu'
  · dsimp only
    rcases wf.span with ⟨hzero, hmin, hlast⟩ | ⟨hpos, hcount⟩
    · simp only [hzero, if_true]
      omega
    · simp only [show l.count ≠ 0 by omega, if_false]
      exact hlower
  · have := wf.upper
    dsimp only
    omega

/-- **Preparing succeeds** while the uncommitted decrees fit, and always for a decree that is
in the window. -/
theorem popAndPut_prepared (popAll : Bool) (wf : l.WellFormed)
    (above : l.lastCommittedDecree < mu.header.decree) (next : mu.header.decree ≤ l.maxDecree + 1)
    (replace : l.mayReplace mu = true)
    (room : mu.header.decree - l.lastCommittedDecree < l.capacity ∨ mu.header.decree ≤ l.maxDecree)
    (fits : l.count ≤ l.capacity) :
    ∃ l', popAndPut popAll l mu = some (l', none) ∧ l'.count ≤ l'.capacity ∧ Prepared l mu l' := by
  obtain ⟨popped, hpop, hpopped, hstop⟩ :=
    popCommitted_popped popAll mu.header.decree l.count l wf (Nat.le_refl _)
  have hcapacity := hpopped.capacity_eq
  have hcommitted := hpopped.committed_eq
  have hmax := hpopped.max_eq
  have hcount := hpopped.count_le
  have hspan := hpopped.wellFormed.span
  -- the loop stopped: either there is room, or nothing below the last committed decree is left
  have hroom : mu.header.decree - popped.minDecree < popped.capacity := by
    by_contra hfull
    have hbelow : ¬ popped.minDecree < popped.lastCommittedDecree := by
      intro hbelow
      have hmust : popped.mustPop popAll mu.header.decree = true :=
        mustPop_iff.mpr ⟨.inl (Int.not_lt.mp hfull), hbelow⟩
      rw [hstop] at hmust
      exact Bool.false_ne_true hmust
    omega
  have hreplace : popped.mayReplace mu = true := by
    rw [MutationCache.mayReplace, hpopped.slots_eq_of_above above]
    exact replace
  obtain ⟨c, hput, hfits, prepared⟩ := put_prepared hpopped.wellFormed
    (by rw [hcommitted]; exact above) (by rw [hmax]; exact next) hreplace hroom
    (by omega) (by omega)
  refine ⟨{ popped with toMutationCache := c }, ?_, hfits, ?_⟩
  · simp only [popAndPut, putPopped, hpop, hput, Option.bind_some, Option.map_some]
  exact
    { capacity_eq := prepared.capacity_eq.trans hcapacity
      committed_eq := prepared.committed_eq.trans hcommitted
      max_eq := by rw [prepared.max_eq, hmax]
      slot_eq := prepared.slot_eq
      slots_eq := fun d hd hne =>
        (prepared.slots_eq d (by rw [hcommitted]; exact hd) hne).trans
          (hpopped.slots_eq_of_above hd)
      wellFormed := prepared.wellFormed }

end PrepareList

end Pegasus.Replica
