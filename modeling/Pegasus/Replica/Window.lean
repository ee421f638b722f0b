/-
The window of a prepare list on any replica (`Pegasus.Replica.Window`).

`PrepareList.WellFormed` is what a primary keeps: its uncommitted decrees follow each
other. A secondary can be sent a decree before the ones below it, so its window can have
gaps and can start above the last committed decree. `Windowed` is what every replica
keeps, and `Placed` what preparing a mutation does to such a list.

- `popAndPut_placed`: preparing a mutation fills its slot and only empties slots below the
  last committed decree;
- `truncate_slots`: truncating keeps the slots above the decree.
-/

import Pegasus.Replica.PrepareList

namespace Pegasus.Replica

namespace MutationCache

variable {P W : Type}

/-- The window of a cache: it spans the decrees counted, has all the mutations, each at its own
decree, and fits the capacity. -/
structure Windowed (c : MutationCache P W) : Prop where
  span : 0 < c.count → (c.count : Int) = c.maxDecree - c.minDecree + 1
  inside : ∀ d mu, c.slots d = some mu → 0 < c.count ∧ c.minDecree ≤ d ∧ d ≤ c.maxDecree
  keyed : ∀ d mu, c.slots d = some mu → mu.header.decree = d
  fits : c.count ≤ c.capacity

theorem windowed_init (capacity : Nat) (decree : Int) :
    (init capacity decree : MutationCache P W).Windowed where
  span := fun h => absurd h (Nat.lt_irrefl 0)
  inside := by simp [init]
  keyed := by simp [init]
  fits := Nat.zero_le _

variable {c : MutationCache P W}

theorem Windowed.getMutationByDecree_eq (w : c.Windowed) (d : Int) :
    c.getMutationByDecree d = c.slots d := by
  unfold getMutationByDecree
  split
  · rename_i hout
    cases hslot : c.slots d with
    | none => rfl
    | some mu =>
      obtain ⟨-, hmin, hmax⟩ := w.inside d mu hslot
      omega
  · rfl

theorem slots_popMin (c : MutationCache P W) (hcount : c.count ≠ 0) (d : Int) :
    c.popMin.slots d = if d = c.minDecree then none else c.slots d := by
  simp [popMin, hcount]

theorem Windowed.maxDecree_popMin (w : c.Windowed) : c.popMin.maxDecree = c.maxDecree := by
  unfold popMin
  split
  · rfl
  · rename_i hcount
    have := w.span (Nat.pos_of_ne_zero hcount)
    dsimp only
    split <;> omega

theorem capacity_popMin (c : MutationCache P W) : c.popMin.capacity = c.capacity := by
  unfold popMin
  split <;> rfl

theorem Windowed.popMin (w : c.Windowed) : c.popMin.Windowed := by
  by_cases hcount : c.count = 0
  · rw [MutationCache.popMin, if_pos hcount]
    exact w
  have hspan := w.span (Nat.pos_of_ne_zero hcount)
  have hslot : ∀ d mu, c.popMin.slots d = some mu → d ≠ c.minDecree ∧ c.slots d = some mu := by
    intro d mu hmu
    rw [slots_popMin c hcount] at hmu
    split at hmu
    · cases hmu
    · exact ⟨‹_›, hmu⟩
  have hpop : c.popMin.count = c.count - 1 := by simp [MutationCache.popMin, hcount]
  have hmin : c.popMin.minDecree = if c.count = 1 then c.minDecree else c.minDecree + 1 := by
    simp [MutationCache.popMin, hcount]
  have hmax := w.maxDecree_popMin
  refine ⟨fun hpos => ?_, fun d mu hmu => ?_, fun d mu hmu => ?_, ?_⟩
  · rw [hpop] at hpos ⊢
    rw [hmax, hmin, if_neg (by omega)]
    omega
  · obtain ⟨hne, hmu⟩ := hslot d mu hmu
    obtain ⟨-, hlower, hupper⟩ := w.inside d mu hmu
    rw [hpop, hmax, hmin, if_neg (by omega)]
    omega
  · exact w.keyed d mu (hslot d mu hmu).2
  · rw [hpop, capacity_popMin]
    exact Nat.le_trans (Nat.sub_le _ _) w.fits

/-- The number of decrees the window spans once a decree is in it. -/
def windowWith (c : MutationCache P W) (decree : Int) : Int :=
  if c.count = 0 then 1 else max c.maxDecree decree - min c.minDecree decree + 1

variable {c' : MutationCache P W} {mu : Mutation P W}

/-- A successful `put` fills the slot of the mutation, over a version of at most its ballot. -/
theorem put_eq_ok (h : c.put mu = some (.ok c')) :
    c.putDelta mu.header.decree + c.count ≤ c.capacity ∧ c.mayReplace mu = true ∧
      c' =
        { capacity := c.capacity
          count := c.putDelta mu.header.decree + c.count
          minDecree := (c.putWindow mu.header.decree).1
          maxDecree := (c.putWindow mu.header.decree).2
          slots := fun d => if d = mu.header.decree then some mu else c.slots d } := by
  unfold put at h
  dsimp only at h
  split at h
  · cases Option.some.inj h
  · split at h
    · rename_i hroom hreplace
      refine ⟨Nat.le_of_not_lt hroom, hreplace, ?_⟩
      have := Option.some.inj h
      injection this with this
      exact this.symm
    · cases h

theorem Windowed.put (w : c.Windowed)
    (h : c.put mu = some (.ok c')) : c'.Windowed := by
  obtain ⟨hroom, -, rfl⟩ := put_eq_ok h
  have hspan := w.span
  refine ⟨fun _ => ?_, fun d old hold => ?_, fun d old hold => ?_, hroom⟩
  · unfold putDelta putWindow
    dsimp only
    split
    · omega
    · split
      · dsimp only
        omega
      · split <;> dsimp only <;> omega
  · have hcount : 0 < c.putDelta mu.header.decree + c.count := by
      unfold putDelta
      split
      · omega
      · omega
    refine ⟨hcount, ?_⟩
    have hinside := w.inside d old
    unfold putWindow
    dsimp only at hold ⊢
    split at hold
    · split
      · dsimp only
        omega
      · split
        · dsimp only
          omega
        · split <;> dsimp only <;> omega
    · obtain ⟨hpos, hlower, hupper⟩ := hinside hold
      rw [if_neg (by omega)]
      split
      · dsimp only
        omega
      · split <;> dsimp only <;> omega
  · dsimp only at hold
    split at hold
    · rename_i hd
      rw [hd, ← Option.some.inj hold]
    · exact w.keyed d old hold

theorem Windowed.updateMutation (w : c.Windowed) (tid : Nat) (decree : Int)
    {f : Mutation P W → Mutation P W}
    (hf : ∀ mu, mu.tid = tid → mu.header.decree = decree → (f mu).header.decree = decree) :
    (c.updateMutation tid decree f).Windowed := by
  have hslot : ∀ d mu, (c.updateMutation tid decree f).slots d = some mu →
      ∃ old, c.slots d = some old ∧ (mu = old ∨ d = decree ∧ old.tid = tid ∧ mu = f old) := by
    intro d mu hmu
    dsimp only [MutationCache.updateMutation] at hmu
    split at hmu
    · obtain ⟨old, hold, rfl⟩ := Option.map_eq_some_iff.mp hmu
      refine ⟨old, hold, ?_⟩
      split
      · exact .inr ⟨‹_›, ‹_›, rfl⟩
      · exact .inl rfl
    · exact ⟨mu, hmu, .inl rfl⟩
  refine ⟨w.span, fun d mu hmu => ?_, fun d mu hmu => ?_, w.fits⟩
  · obtain ⟨old, hold, -⟩ := hslot d mu hmu
    exact w.inside d old hold
  · obtain ⟨old, hold, rfl | ⟨rfl, htid, rfl⟩⟩ := hslot d mu hmu
    · exact w.keyed d mu hold
    · exact hf old htid (w.keyed d old hold)

end MutationCache

namespace PrepareList

open MutationCache Option

variable {P W : Type}

structure Drops (l l' : PrepareList P W) : Prop where
  committed_eq : l'.lastCommittedDecree = l.lastCommittedDecree
  capacity_eq : l'.capacity = l.capacity
  max_eq : l'.maxDecree = l.maxDecree
  slots_eq : ∀ d, l'.slots d = l.slots d ∨ l'.slots d = none ∧ d < l.lastCommittedDecree
  windowed : l'.Windowed

variable {popAll : Bool} {l l' : PrepareList P W} {mu : Mutation P W}

theorem Drops.refl (w : l.Windowed) : Drops l l := ⟨rfl, rfl, rfl, fun _ => .inl rfl, w⟩

theorem Drops.popMin (drops : Drops l l') (below : l'.minDecree < l'.lastCommittedDecree) :
    Drops l { l' with toMutationCache := l'.popMin } := by
  refine ⟨drops.committed_eq, (capacity_popMin _).trans drops.capacity_eq,
    drops.windowed.maxDecree_popMin.trans drops.max_eq, fun e => ?_, drops.windowed.popMin⟩
  have hcommitted := drops.committed_eq
  by_cases hcount : l'.count = 0
  · rw [MutationCache.popMin, if_pos hcount]
    exact drops.slots_eq e
  · rw [slots_popMin _ hcount]
    split
    · exact .inr ⟨rfl, by omega⟩
    · exact drops.slots_eq e

theorem popCommitted_drops {d : Int} {start : PrepareList P W} (fuel : Nat) (drops : Drops start l)
    (h : popCommitted popAll d fuel l = some l') : Drops start l' := by
  induction fuel generalizing l with
  | zero =>
    obtain ⟨-, h⟩ := ite_none_left_eq_some.mp h
    cases h
    exact drops
  | succ fuel ih =>
    unfold popCommitted at h
    split at h
    · exact ih (drops.popMin (mustPop_iff.mp ‹_›).2) h
    · cases h
      exact drops

/-- What preparing a mutation does to a list: its slot holds it, and other slots are only emptied
below the last committed decree. -/
structure Placed (l : PrepareList P W) (mu : Mutation P W) (l' : PrepareList P W) : Prop where
  committed_eq : l'.lastCommittedDecree = l.lastCommittedDecree
  slot_eq : l'.slots mu.header.decree = some mu
  slots_eq : ∀ d, d ≠ mu.header.decree →
    l'.slots d = l.slots d ∨ l'.slots d = none ∧ d < l.lastCommittedDecree
  windowed : l'.Windowed

theorem popAndPut_eq_ok (h : popAndPut popAll l mu = some (l', none)) :
    ∃ popped c, popCommitted popAll mu.header.decree l.count l = some popped ∧
      popped.put mu = some (.ok c) ∧ l' = { popped with toMutationCache := c } := by
  unfold popAndPut at h
  cases hpop : popCommitted popAll mu.header.decree l.count l with
  | none => simp [hpop] at h
  | some popped =>
    rw [hpop] at h
    cases hput : popped.put mu with
    | none => simp [putPopped, hput] at h
    | some result =>
      simp only [bind_some, putPopped, hput, map_some] at h
      cases result with
      | error err => cases h
      | ok c =>
        cases h
        exact ⟨popped, c, rfl, hput, rfl⟩

theorem popAndPut_placed (w : l.Windowed) (h : popAndPut popAll l mu = some (l', none)) :
    Placed l mu l' := by
  obtain ⟨popped, c, hpop, hput, rfl⟩ := popAndPut_eq_ok h
  have drops := popCommitted_drops l.count (.refl w) hpop
  have hwindowed := drops.windowed.put hput
  obtain ⟨-, -, rfl⟩ := put_eq_ok hput
  refine ⟨drops.committed_eq, if_pos rfl, fun d hd => ?_, hwindowed⟩
  dsimp only
  rw [if_neg hd]
  exact drops.slots_eq d

theorem popAndPutChecked_placed (w : l.Windowed) (h : popAndPutChecked popAll l mu = some l') :
    Placed l mu l' := by
  unfold popAndPutChecked at h
  split at h
  · rename_i next hput
    obtain rfl := some.inj h
    exact popAndPut_placed w hput
  · cases h

theorem popThrough_slots (decree : Int) (fuel : Nat) {c : MutationCache P W} (w : c.Windowed) :
    (popThrough decree fuel c).Windowed ∧ (popThrough decree fuel c).capacity = c.capacity ∧
      ∀ d, (decree < d → (popThrough decree fuel c).slots d = c.slots d) ∧
        ((popThrough decree fuel c).slots d = c.slots d ∨
          (popThrough decree fuel c).slots d = none) := by
  induction fuel generalizing c with
  | zero => exact ⟨w, rfl, fun d => ⟨fun _ => rfl, .inl rfl⟩⟩
  | succ fuel ih =>
    unfold popThrough
    split
    · rename_i hpop
      obtain ⟨hw, hcapacity, hslots⟩ := ih w.popMin
      refine ⟨hw, hcapacity.trans (capacity_popMin c), fun d => ?_⟩
      have hmin := slots_popMin c (by omega) d
      obtain ⟨habove, hkeep⟩ := hslots d
      refine ⟨fun hd => ?_, ?_⟩
      · rw [habove hd, hmin, if_neg (by omega)]
      · rcases hkeep with he | he
        · rw [he, hmin]
          split
          · exact .inr rfl
          · exact .inl rfl
        · exact .inr he
    · exact ⟨w, rfl, fun d => ⟨fun _ => rfl, .inl rfl⟩⟩

/-- **Truncating keeps the slots above the decree**, and no other slot changes but to empty. -/
theorem truncate_slots (w : l.Windowed) (decree : Int) :
    (l.truncate decree).Windowed ∧ (l.truncate decree).lastCommittedDecree = decree ∧
      (l.truncate decree).capacity = l.capacity ∧
      ∀ d, (decree < d → (l.truncate decree).slots d = l.slots d) ∧
        ((l.truncate decree).slots d = l.slots d ∨ (l.truncate decree).slots d = none) := by
  obtain ⟨hw, hcapacity, hslots⟩ := popThrough_slots decree l.count w
  unfold truncate
  dsimp only
  split
  · rename_i hempty
    refine ⟨windowed_init _ _, rfl, rfl, fun d => ⟨fun hd => ?_, .inr rfl⟩⟩
    -- nothing was above the decree either
    rw [← (hslots d).1 hd]
    cases hslot : (popThrough decree l.count l.toMutationCache).slots d with
    | none => rfl
    | some mu => exact absurd (hw.inside d mu hslot).1 (by omega)
  · exact ⟨hw, rfl, hcapacity, hslots⟩

end PrepareList

end Pegasus.Replica
