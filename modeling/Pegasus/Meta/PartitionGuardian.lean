/-
How the meta server cures a partition without a primary, after `partition_guardian.cpp`.

If there are secondaries one of them is upgraded, and a new partition gets any node. If all
replicas are lost, the meta server waits for the last two that were dropped and decides by
what it has collected from them: ballot, last committed and last prepared decree.

- `choosePrimary_eq_newer`: the choice is the larger triple in lexicographic order, as long as
  the gaps do not overflow;
- `neverForgets_iff`: when the choice never forgets a known commit.
-/

import Pegasus.Common

namespace Pegasus.Meta

open Int64

structure DroppedReplica (N : Type) where
  node : N
  time : Nat := 0
  ballot : Int64 := -1
  lastCommittedDecree : Int64 := -1
  lastPreparedDecree : Int64 := -1
deriving DecidableEq

/-- What `on_missing_primary` reads of a `node_state`. -/
structure NodeView where
  alive : Bool
  /-- `has_collected`: the replicas of the node have been reported. -/
  hasCollected : Bool
deriving DecidableEq

/-- What `on_missing_primary` reads of the `meta_view`: the nodes in the order of their map, and
`newly_partitions::less_primaries` of two nodes for the table of the partition. -/
structure MetaView (N : Type) where
  nodes : List (N × NodeView)
  lessPrimaries : N → N → Bool

/-- What `on_missing_primary` reads of a `partition_configuration` without a primary. -/
structure HeadlessPartition (N : Type) where
  secondaries : List N
  lastDrops : List N
  lastCommittedDecree : Int64
deriving DecidableEq

/-- The `config_type`s that `on_missing_primary` proposes. -/
inductive CureType where
  | assignPrimary
  | upgradeToPrimary
deriving DecidableEq

/-- `configuration_proposal_action`. -/
structure ProposalAction (N : Type) where
  type : CureType
  target : N
  node : N
deriving DecidableEq

/-- `pc_status`, of a partition without a primary. -/
inductive PcStatus where
  | ill
  | dead
deriving DecidableEq

/-- Why no primary is selected: the texts of `ddd_partition_info::reason`. -/
inductive DddReason (N : Type) where
  | unnamed
  | notBack (node : N)
  | notInDropped (node : N)
  | notCollected (node : N)
  | nothingCollected
  | ballotAgainstCommitted
deriving DecidableEq

structure DddNodeInfo (N : Type) where
  node : N
  dropTime : Nat
  ballot : Int64 := -1
  lastCommittedDecree : Int64 := -1
  lastPreparedDecree : Int64 := -1
  isAlive : Bool := false
  isCollected : Bool := false
deriving DecidableEq

/-- What `on_missing_primary` does: the proposal, the status, and what it records of a partition
that it cannot cure. -/
structure Cure (N : Type) where
  action : Option (ProposalAction N)
  status : PcStatus
  ddd : Option (List (DddNodeInfo N) × DddReason N) := none

section

variable {N : Type} [DecidableEq N]

/-- `get_node_state`. -/
def MetaView.find (view : MetaView N) (node : N) : Option NodeView :=
  (view.nodes.find? fun entry => entry.1 == node).map Prod.snd

/-- What is known of one of the last two drops, or why it is not ready. -/
def collectedInfo (view : MetaView N) (dropped : List (DroppedReplica N)) (node : N) :
    Except (DddReason N) (DroppedReplica N) :=
  match view.find node with
  | none => .error (.notBack node)
  | some ns =>
    if ns.alive = false then .error (.notBack node)
    else
      match dropped.find? fun dr => dr.node == node with
      | none => if ns.hasCollected then .ok { node := node } else .error (.notInDropped node)
      | some dr =>
        if dr.ballot = -1 then
          if ns.hasCollected then .ok { node := node } else .error (.notCollected node)
        else .ok dr

/-- The choice between the last two drops, by ballot, committed and prepared decree. -/
def choosePrimary (previousDead recentDead : DroppedReplica N) : DroppedReplica N :=
  let gap1 := previousDead.ballot - recentDead.ballot
  let gap2 := previousDead.lastCommittedDecree - recentDead.lastCommittedDecree
  if gap1 ≠ 0 then if gap1 < 0 then recentDead else previousDead
  else if gap2 ≠ 0 then if gap2 < 0 then recentDead else previousDead
  else if recentDead.lastPreparedDecree < previousDead.lastPreparedDecree then previousDead
  else recentDead

/-- The larger ballot does not go with the smaller committed decree. -/
def Ordered (previousDead recentDead : DroppedReplica N) : Prop :=
  0 ≤ (previousDead.ballot - recentDead.ballot) *
    (previousDead.lastCommittedDecree - recentDead.lastCommittedDecree)

instance (previousDead recentDead : DroppedReplica N) :
    Decidable (Ordered previousDead recentDead) :=
  inferInstanceAs (Decidable (_ ≤ _))

/-- One of the two has prepared what the meta server knows to be committed and what both have
committed. -/
def OnePrepared (committed : Int64) (previousDead recentDead : DroppedReplica N) : Prop :=
  let largerPd := max previousDead.lastPreparedDecree recentDead.lastPreparedDecree
  committed ≤ largerPd ∧
    max previousDead.lastCommittedDecree recentDead.lastCommittedDecree ≤ largerPd

instance (committed : Int64) (previousDead recentDead : DroppedReplica N) :
    Decidable (OnePrepared committed previousDead recentDead) :=
  inferInstanceAs (Decidable (_ ∧ _))

/-- The selection among the last two drops. A reason found later replaces an earlier one; the last
guard leaves it unnamed. -/
def selectPrimary (view : MetaView N) (dropped : List (DroppedReplica N)) (committed : Int64)
    (previous recent : N) : Except (DddReason N) N :=
  match collectedInfo view dropped previous, collectedInfo view dropped recent with
  | _, .error reason => .error reason
  | .error reason, .ok _ => .error reason
  | .ok previousDead, .ok recentDead =>
    if previousDead.ballot = -1 ∧ recentDead.ballot = -1 then .error .nothingCollected
    else if Ordered previousDead recentDead then
      if OnePrepared committed previousDead recentDead then
        .ok (choosePrimary previousDead recentDead).node
      else .error .unnamed
    else .error .ballotAgainstCommitted

/-- What is recorded of a dropped replica when no primary is selected. -/
def dddNodeInfo (view : MetaView N) (dr : DroppedReplica N) : DddNodeInfo N :=
  match view.find dr.node with
  | some ns =>
    if ns.alive then
      if ns.hasCollected then
        { node := dr.node, dropTime := dr.time, isAlive := true, isCollected := true
          ballot := dr.ballot, lastCommittedDecree := dr.lastCommittedDecree
          lastPreparedDecree := dr.lastPreparedDecree }
      else { node := dr.node, dropTime := dr.time, isAlive := true }
    else { node := dr.node, dropTime := dr.time }
  | none => { node := dr.node, dropTime := dr.time }

/-- The node with the fewest primaries, the first one of several. -/
def fewestPrimaries (view : MetaView N) (nodes : List N) : Option N :=
  nodes.foldl (fun best node =>
    match best with
    | none => some node
    | some b => if view.lessPrimaries node b then some node else some b) none

/-- The branch of `on_missing_primary` for a partition all of whose replicas are lost. -/
def cureDdd (view : MetaView N) (pc : HeadlessPartition N) (dropped : List (DroppedReplica N)) :
    Cure N :=
  let selected : Except (DddReason N) N :=
    match pc.lastDrops.reverse with
    | [] => .error .unnamed
    | [only] => .ok only
    | recent :: previous :: _ => selectPrimary view dropped pc.lastCommittedDecree previous recent
  match selected with
  | .ok node =>
    { action := some { type := .assignPrimary, target := node, node := node }, status := .dead }
  | .error reason =>
    { action := none, status := .dead, ddd := some (dropped.map (dddNodeInfo view), reason) }

/-- `partition_guardian::on_missing_primary`. An unknown secondary aborts. -/
def onMissingPrimary (view : MetaView N) (pc : HeadlessPartition N)
    (dropped : List (DroppedReplica N)) : Option (Cure N) :=
  if pc.secondaries ≠ [] then do
    let states ← pc.secondaries.mapM fun node => (view.find node).map fun ns => (node, ns)
    let alive := (states.filter fun entry => entry.2.alive).map Prod.fst
    some (match fewestPrimaries view alive with
      | none => { action := none, status := .dead }
      | some node =>
        { action := some { type := .upgradeToPrimary, target := node, node := node }
          status := .ill })
  else if pc.lastDrops = [] then
    let alive := (view.nodes.filter fun entry => entry.2.alive).map Prod.fst
    some
      { action := (fewestPrimaries view alive).map fun node =>
          { type := .assignPrimary, target := node, node := node }
        status := .ill }
  else some (cureDdd view pc dropped)

end

/-! ### The choice -/

section

variable {N : Type}

def Precedes (a b : DroppedReplica N) : Prop :=
  a.ballot < b.ballot ∨ a.ballot = b.ballot ∧
    (a.lastCommittedDecree < b.lastCommittedDecree ∨
      a.lastCommittedDecree = b.lastCommittedDecree ∧ a.lastPreparedDecree ≤ b.lastPreparedDecree)

instance (a b : DroppedReplica N) : Decidable (Precedes a b) := inferInstanceAs (Decidable (_ ∨ _))

def newer (a b : DroppedReplica N) : DroppedReplica N := if Precedes a b then b else a

def GapFits (x y : Int64) : Prop := -2 ^ 63 ≤ x.toInt - y.toInt ∧ x.toInt - y.toInt < 2 ^ 63

variable {x y : Int64} {a b : DroppedReplica N}

theorem GapFits.sub_lt_iff (fits : GapFits x y) : x - y < 0 ↔ x < y := by
  obtain ⟨hlower, hupper⟩ := fits
  rw [lt_iff_toInt_lt, lt_iff_toInt_lt, toInt_sub, toInt_zero,
    Int.bmod_eq_of_le (by omega) (by omega)]
  omega

theorem sub_lt_iff_of_not_fits (overflows : ¬ GapFits x y) : x - y < 0 ↔ y < x := by
  rw [lt_iff_toInt_lt, lt_iff_toInt_lt, toInt_sub, toInt_zero, Int.bmod]
  have := x.toInt_lt
  have := x.le_toInt
  have := y.toInt_lt
  have := y.le_toInt
  unfold GapFits at overflows
  omega

theorem sub_ne_zero_iff : x - y ≠ 0 ↔ x ≠ y := by grind

theorem choosePrimary_mem [DecidableEq N] (a b : DroppedReplica N) :
    choosePrimary a b = a ∨ choosePrimary a b = b := by
  unfold choosePrimary
  dsimp only
  split_ifs <;> simp

/-- **The choice is the larger triple**, as long as the gap that decides fits. -/
theorem choosePrimary_eq_newer [DecidableEq N] (hballot : GapFits a.ballot b.ballot)
    (hcommitted : a.ballot = b.ballot → GapFits a.lastCommittedDecree b.lastCommittedDecree) :
    choosePrimary a b = newer a b := by
  unfold choosePrimary newer Precedes
  simp only [sub_ne_zero_iff, hballot.sub_lt_iff]
  by_cases hgap : a.ballot = b.ballot
  · simp only [(hcommitted hgap).sub_lt_iff]
    simp only [lt_iff_toInt_lt, le_iff_toInt_le, ← toInt_inj, ne_eq] at hgap ⊢
    split_ifs <;> first | rfl | omega
  · simp only [lt_iff_toInt_lt, le_iff_toInt_le, ← toInt_inj, ne_eq] at hgap ⊢
    split_ifs <;> first | rfl | omega

theorem GapFits.of_precedes [DecidableEq N] (ha : Precedes a (choosePrimary a b))
    (hb : Precedes b (choosePrimary a b)) :
    GapFits a.ballot b.ballot ∧
      (a.ballot = b.ballot → GapFits a.lastCommittedDecree b.lastCommittedDecree) := by
  have hballot : GapFits a.ballot b.ballot := by
    by_contra overflows
    have hsign := sub_lt_iff_of_not_fits overflows
    have hne : a.ballot ≠ b.ballot := by
      intro heq
      exact overflows (by simp [GapFits, heq])
    unfold choosePrimary at ha hb
    rw [if_pos (sub_ne_zero_iff.mpr hne)] at ha hb
    unfold Precedes at ha hb
    simp only [hsign, lt_iff_toInt_lt, le_iff_toInt_le, ← toInt_inj, ne_eq] at *
    split_ifs at ha hb <;> omega
  refine ⟨hballot, fun hgap => ?_⟩
  by_contra overflows
  have hsign := sub_lt_iff_of_not_fits overflows
  have hne : a.lastCommittedDecree ≠ b.lastCommittedDecree := by
    intro heq
    exact overflows (by simp [GapFits, heq])
  unfold choosePrimary at ha hb
  rw [if_neg (fun h => sub_ne_zero_iff.mp h hgap), if_pos (sub_ne_zero_iff.mpr hne)] at ha hb
  unfold Precedes at ha hb
  simp only [hsign, lt_iff_toInt_lt, le_iff_toInt_le, ← toInt_inj, ne_eq] at *
  split_ifs at ha hb <;> omega

theorem precedes_newer (a b : DroppedReplica N) :
    Precedes a (newer a b) ∧ Precedes b (newer a b) := by
  unfold newer
  unfold Precedes
  simp only [lt_iff_toInt_lt, le_iff_toInt_le, ← toInt_inj]
  split_ifs <;> omega

end

/-! ### Total loss -/

section

variable {N : Type} [DecidableEq N]

/-- A partition all of whose replicas are lost, at least two of them. -/
def lostPartition (earlier : List N) (previous recent : N) (committed : Int64) :
    HeadlessPartition N where
  secondaries := []
  lastDrops := earlier ++ [previous, recent]
  lastCommittedDecree := committed

/-- No known commit is forgotten: a node is only proposed if both of the last drops have been
collected, it has prepared all that is known to be committed, and its triple is the larger one. -/
def NeverForgets (view : MetaView N) (dropped : List (DroppedReplica N)) (earlier : List N)
    (previous recent : N) (committed : Int64) : Prop :=
  ∀ cure action,
    onMissingPrimary view (lostPartition earlier previous recent committed) dropped = some cure →
    cure.action = some action →
    ∃ a b c, collectedInfo view dropped previous = .ok a ∧
      collectedInfo view dropped recent = .ok b ∧
      collectedInfo view dropped action.node = .ok c ∧
      committed ≤ c.lastPreparedDecree ∧
      max a.lastCommittedDecree b.lastCommittedDecree ≤ c.lastPreparedDecree ∧
      (c = a ∨ c = b) ∧ Precedes a c ∧ Precedes b c

/-- Where the last two drops are known, in order, and one of them has prepared enough, it is the
newer one that has, and the gap that tells which one is newer fits. -/
def NewerPrepared (view : MetaView N) (dropped : List (DroppedReplica N)) (previous recent : N)
    (committed : Int64) : Prop :=
  ∀ a b, collectedInfo view dropped previous = .ok a → collectedInfo view dropped recent = .ok b →
    ¬ (a.ballot = -1 ∧ b.ballot = -1) → Ordered a b → OnePrepared committed a b →
      (GapFits a.ballot b.ballot ∧
        (a.ballot = b.ballot → GapFits a.lastCommittedDecree b.lastCommittedDecree)) ∧
      committed ≤ (newer a b).lastPreparedDecree ∧
      max a.lastCommittedDecree b.lastCommittedDecree ≤ (newer a b).lastPreparedDecree

variable {view : MetaView N} {dropped : List (DroppedReplica N)} {earlier : List N}
  {previous recent node : N} {committed : Int64}

theorem collectedInfo_node {a : DroppedReplica N}
    (hinfo : collectedInfo view dropped node = .ok a) : a.node = node := by
  unfold collectedInfo at hinfo
  split at hinfo
  · cases hinfo
  · split at hinfo
    · cases hinfo
    · split at hinfo
      · split at hinfo
        · cases hinfo
          rfl
        · cases hinfo
      · rename_i dr hfind
        split at hinfo
        · split at hinfo
          · cases hinfo
            rfl
          · cases hinfo
        · cases hinfo
          simpa using List.find?_some hfind

theorem collectedInfo_choosePrimary {a b : DroppedReplica N}
    (ha : collectedInfo view dropped previous = .ok a)
    (hb : collectedInfo view dropped recent = .ok b) :
    collectedInfo view dropped (choosePrimary a b).node = .ok (choosePrimary a b) := by
  rcases choosePrimary_mem a b with h | h
  · rw [h, collectedInfo_node ha, ha]
  · rw [h, collectedInfo_node hb, hb]

theorem selectPrimary_eq_ok :
    selectPrimary view dropped committed previous recent = .ok node ↔
      ∃ a b, collectedInfo view dropped previous = .ok a ∧
        collectedInfo view dropped recent = .ok b ∧ ¬ (a.ballot = -1 ∧ b.ballot = -1) ∧
        Ordered a b ∧ OnePrepared committed a b ∧ (choosePrimary a b).node = node := by
  unfold selectPrimary
  cases hprevious : collectedInfo view dropped previous with
  | error reason => cases hrecent : collectedInfo view dropped recent <;> simp
  | ok a =>
    cases hrecent : collectedInfo view dropped recent with
    | error reason => simp
    | ok b =>
      simp only [Except.ok.injEq]
      by_cases hnothing : a.ballot = -1 ∧ b.ballot = -1
      · simp [hnothing]
      · rw [if_neg hnothing]
        by_cases hordered : Ordered a b
        · rw [if_pos hordered]
          by_cases hprepared : OnePrepared committed a b
          · simp [hprepared, hordered, hnothing]
          · simp [hprepared]
        · simp [hordered]

theorem onMissingPrimary_lost (earlier : List N) {action : ProposalAction N} :
    (∃ cure, onMissingPrimary view (lostPartition earlier previous recent committed) dropped =
        some cure ∧ cure.action = some action) ↔
      ∃ node, selectPrimary view dropped committed previous recent = .ok node ∧
        action = ⟨.assignPrimary, node, node⟩ := by
  have hlost : onMissingPrimary view (lostPartition earlier previous recent committed) dropped =
      some (cureDdd view (lostPartition earlier previous recent committed) dropped) := by
    simp [onMissingPrimary, lostPartition]
  rw [hlost]
  cases hselect : selectPrimary view dropped committed previous recent with
  | ok node => simp [cureDdd, lostPartition, hselect, eq_comm]
  | error reason => simp [cureDdd, lostPartition, hselect]

theorem NeverForgets.newerPrepared
    (never : NeverForgets view dropped earlier previous recent committed) :
    NewerPrepared view dropped previous recent committed := by
  intro a b ha hb hknown hordered hprepared
  have hselect := selectPrimary_eq_ok.mpr ⟨a, b, ha, hb, hknown, hordered, hprepared, rfl⟩
  obtain ⟨cure, hcure, haction⟩ := (onMissingPrimary_lost earlier).mpr ⟨_, hselect, rfl⟩
  obtain ⟨a', b', c, ha', hb', hc, hcommitted, hmax, _, hpa, hpb⟩ := never cure _ hcure haction
  obtain rfl : a = a' := Except.ok.inj (ha.symm.trans ha')
  obtain rfl : b = b' := Except.ok.inj (hb.symm.trans hb')
  obtain rfl : choosePrimary a b = c :=
    Except.ok.inj ((collectedInfo_choosePrimary ha hb).symm.trans hc)
  have hfits := GapFits.of_precedes hpa hpb
  rw [choosePrimary_eq_newer hfits.1 hfits.2] at hcommitted hmax
  exact ⟨hfits, hcommitted, hmax⟩

/-- **The choice never forgets a known commit** exactly where the newer one of the last two drops
has prepared what one of them has. -/
theorem neverForgets_iff (view : MetaView N) (dropped : List (DroppedReplica N)) (earlier : List N)
    (previous recent : N) (committed : Int64) :
    NeverForgets view dropped earlier previous recent committed ↔
      NewerPrepared view dropped previous recent committed := by
  refine ⟨NeverForgets.newerPrepared, ?_⟩
  intro hnewer cure action hcure haction
  obtain ⟨node, hselect, rfl⟩ := (onMissingPrimary_lost earlier).mp ⟨cure, hcure, haction⟩
  obtain ⟨a, b, ha, hb, hknown, hordered, hprepared, rfl⟩ := selectPrimary_eq_ok.mp hselect
  obtain ⟨⟨hballot, hgap⟩, hcommitted, hmax⟩ := hnewer a b ha hb hknown hordered hprepared
  have hchosen := collectedInfo_choosePrimary ha hb
  have hmem := choosePrimary_mem a b
  rw [choosePrimary_eq_newer hballot hgap] at hchosen hmem ⊢
  exact ⟨a, b, newer a b, ha, hb, hchosen, hcommitted, hmax, hmem, precedes_newer a b⟩

/-- Node 1 has the larger ballot and has prepared up to decree 3, node 2 up to decree 10. The meta
server knows that decree 8 is committed, and node 1 is proposed. -/
theorem commit_forgotten_by_larger_ballot :
    ¬ NeverForgets
      (N := Nat) ⟨[(1, ⟨true, true⟩), (2, ⟨true, true⟩)], fun _ _ => false⟩
      [{ node := 1, ballot := 5, lastCommittedDecree := 3, lastPreparedDecree := 3 },
        { node := 2, ballot := 4, lastCommittedDecree := 3, lastPreparedDecree := 10 }]
      [] 1 2 8 := by
  intro never
  have hnewer := never.newerPrepared _ _ rfl rfl
  exact absurd (hnewer (by decide) (by decide) (by decide)).2.1 (by decide)

end

end Pegasus.Meta
