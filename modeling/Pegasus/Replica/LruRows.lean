/-
The row locks of the write queue as two containers (`Pegasus.Replica.LruRows`), after
`mutation_queue::enter_2pc` and `mutation_queue::clear`.

`_row_locks` maps a partition hash to a node of `_lru_rows`, which has the hash again and the
highest decree that has entered the two-phase commit. Making room takes the oldest node and erases
the entry of its hash. `clear` empties the map and leaves the list as it is: a node it leaves
behind is later taken for the lock of a row that has a new one.

- `Matched`: the entries are those of the nodes, kept by every step but such a `clear`;
- `row_locks_match_lru_rows`: the main result, over runs;
- `clear_leaves_a_node`: a lock that is discarded before its decree is applied.
-/

import Pegasus.Common
import Pegasus.Lib.Run

namespace Pegasus.Replica

open TransitionSystem List Option

/-- A node of `_lru_rows`. An iterator is the number of its node. `entered` has the decrees that
entered for the row since the node was made. -/
structure LruNode where
  id : Nat
  partitionHash : UInt64
  decree : Int
  entered : List Int
deriving DecidableEq

def LruNode.entry (node : LruNode) : UInt64 × Nat := (node.partitionHash, node.id)

def LruNode.Highest (node : LruNode) : Prop :=
  node.decree ∈ node.entered ∧ ∀ d ∈ node.entered, d ≤ node.decree

theorem LruNode.Highest.enter {node : LruNode} (h : node.Highest) (decree : Int) :
    LruNode.Highest
      { node with decree := max node.decree decree, entered := decree :: node.entered } := by
  constructor
  · change max node.decree decree ∈ decree :: node.entered
    rcases max_choice node.decree decree with hmax | hmax
    · rw [hmax]
      exact mem_cons_of_mem _ h.1
    · rw [hmax]
      exact mem_cons_self
  · exact forall_mem_cons.mpr
      ⟨le_max_right _ _, fun d hd => (h.2 d hd).trans (le_max_left _ _)⟩

/-- `_row_locks` and `_lru_rows`, the newest node first; and for every entry that making room has
erased its own decree and the last applied one. -/
structure LockTable where
  rowLocks : List (UInt64 × Nat) := []
  lruRows : List LruNode := []
  nextId : Nat := 0
  discarded : List (Option Int × Int) := []
deriving DecidableEq

namespace LockTable

/-- `_row_locks.find`: the iterator of a row. -/
def entryOf (t : LockTable) (hash : UInt64) : Option Nat :=
  (t.rowLocks.find? fun entry => entry.1 == hash).map Prod.snd

/-- The decree of the node that the entry of a row points to. -/
def lockOf (t : LockTable) (hash : UInt64) : Option Int := do
  let id ← t.entryOf hash
  let node ← t.lruRows.find? fun node => node.id == id
  some node.decree

/-- What `enter_2pc` does for one request; `none` if an iterator dangles. -/
def enterRow (decree : Int) (t : LockTable) (hash : UInt64) : Option LockTable :=
  match t.entryOf hash with
  | some id => do
    let node ← t.lruRows.find? fun node => node.id == id
    some { t with
      lruRows :=
        { node with decree := max node.decree decree, entered := decree :: node.entered } ::
          t.lruRows.eraseP fun node => node.id == id }
  | none =>
    some { t with
      rowLocks := (hash, t.nextId) :: t.rowLocks
      lruRows := ⟨t.nextId, hash, decree, [decree]⟩ :: t.lruRows
      nextId := t.nextId + 1 }

def enterRows (decree : Int) : List (Option UInt64) → LockTable → Option LockTable
  | [], t => some t
  | none :: rest, t => enterRows decree rest t
  | some hash :: rest, t => do enterRows decree rest (← t.enterRow decree hash)

def discard (lastApplied : Int) (back : LruNode) (t : LockTable) : LockTable :=
  { t with
    rowLocks := t.rowLocks.filter fun entry => entry.1 != back.partitionHash
    lruRows := t.lruRows.dropLast
    discarded := (t.lockOf back.partitionHash, lastApplied) :: t.discarded }

/-- The loop that makes room, with one round for each node; `none` if there is no node left to
look at. -/
def makeRoom (capacity : Nat) (lastApplied : Int) : Nat → LockTable → Option LockTable
  | 0, t => if capacity < t.rowLocks.length then none else some t
  | fuel + 1, t =>
    if capacity < t.rowLocks.length then
      match t.lruRows.getLast? with
      | none => none
      | some back =>
        if lastApplied < back.decree then some t
        else makeRoom capacity lastApplied fuel (t.discard lastApplied back)
    else some t

def enter2pc (capacity : Nat) (lastApplied decree : Int) (requests : List (Option UInt64))
    (t : LockTable) : Option LockTable := do
  let t ← enterRows decree requests t
  makeRoom capacity lastApplied t.lruRows.length t

/-- What `mutation_queue::clear` does to the locks, with or without the mutations queued. -/
def clear (t : LockTable) : LockTable := { t with rowLocks := [] }

end LockTable

inductive LockEvent where
  | enter2pc (lastApplied decree : Int) (requests : List (Option UInt64))
  /-- `clear()`, or `clear(queued_mutations)`. -/
  | clear (taking : Bool)
deriving DecidableEq

namespace LockTable

def step (capacity : Nat) (t : LockTable) : LockEvent → Option LockTable
  | .enter2pc lastApplied decree requests => t.enter2pc capacity lastApplied decree requests
  | .clear _ => some t.clear

def Upholds (t : LockTable) : LockEvent → Prop
  | .enter2pc .. => True
  | .clear _ => t.lruRows = []

instance (t : LockTable) : ∀ e, Decidable (t.Upholds e)
  | .enter2pc .. => isTrue trivial
  | .clear _ => inferInstanceAs (Decidable (_ = _))

/-! ### The invariant -/

/-- **The entries are those of the nodes**, of which no two are for one row. -/
structure Matched (t : LockTable) : Prop where
  perm : t.rowLocks.Perm (t.lruRows.map LruNode.entry)
  hashes : (t.rowLocks.map Prod.fst).Nodup
  ids : (t.rowLocks.map Prod.snd).Nodup
  fresh : ∀ entry ∈ t.rowLocks, entry.2 < t.nextId
  highest : ∀ node ∈ t.lruRows, node.Highest
  applied : ∀ own lastApplied, (own, lastApplied) ∈ t.discarded → ∃ d ∈ own, d ≤ lastApplied

theorem matched_empty : Matched {} := ⟨.nil, .nil, .nil, by simp, by simp, by simp⟩

theorem split_of_nodup {α β : Type} {f : α → β} {l : List α} (h : (l.map f).Nodup) {a : α}
    (ha : a ∈ l) : ∃ before after, l = before ++ a :: after ∧ ∀ b ∈ before, f b ≠ f a := by
  obtain ⟨before, after, rfl⟩ := append_of_mem ha
  refine ⟨before, after, rfl, ?_⟩
  intro b hb heq
  rw [map_append, nodup_append] at h
  exact h.2.2 _ (List.mem_map_of_mem hb) _ (by simp) heq

theorem find?_of_nodup {α β : Type} [DecidableEq β] {f : α → β} {l : List α}
    (h : (l.map f).Nodup) {a : α} (ha : a ∈ l) : l.find? (fun b => f b == f a) = some a := by
  obtain ⟨before, after, rfl, hbefore⟩ := split_of_nodup h ha
  rw [List.find?_append, List.find?_eq_none.mpr, none_or, List.find?_cons_of_pos]
  · simp
  · intro b hb
    simpa using hbefore b hb

section Matched

variable {t : LockTable} {node : LruNode}

variable (h : t.Matched)
include h

theorem Matched.mem_rowLocks {entry : UInt64 × Nat} :
    entry ∈ t.rowLocks ↔ ∃ node ∈ t.lruRows, node.entry = entry := by
  rw [h.perm.mem_iff, List.mem_map]

theorem Matched.ids_lruRows : (t.lruRows.map LruNode.id).Nodup := by
  have hperm := h.perm.map Prod.snd
  rw [List.map_map] at hperm
  exact hperm.nodup_iff.mp h.ids

variable (hnode : node ∈ t.lruRows)
include hnode

theorem Matched.find?_lruRows :
    t.lruRows.find? (fun other => other.id == node.id) = some node :=
  find?_of_nodup h.ids_lruRows hnode

theorem Matched.entryOf_eq : t.entryOf node.partitionHash = some node.id := by
  have hentry := find?_of_nodup h.hashes (h.mem_rowLocks.mpr ⟨node, hnode, rfl⟩)
  unfold entryOf
  rw [show node.partitionHash = node.entry.1 from rfl, hentry]
  rfl

theorem Matched.lockOf_eq : t.lockOf node.partitionHash = some node.decree := by
  unfold lockOf
  rw [h.entryOf_eq hnode]
  simp [h.find?_lruRows hnode]

omit hnode

theorem Matched.node_of_entryOf {hash : UInt64} {id : Nat} (hentry : t.entryOf hash = some id) :
    ∃ node before after, node.entry = (hash, id) ∧ t.lruRows = before ++ node :: after ∧
      t.lruRows.find? (fun other => other.id == id) = some node ∧
        t.lruRows.eraseP (fun other => other.id == id) = before ++ after := by
  obtain ⟨entry, hfind, rfl⟩ := map_eq_some_iff.mp hentry
  obtain ⟨node, hnode, rfl⟩ := h.mem_rowLocks.mp (mem_of_find?_eq_some hfind)
  have hhash : node.partitionHash = hash := by simpa [LruNode.entry] using List.find?_some hfind
  obtain ⟨before, after, hrows, hbefore⟩ := split_of_nodup h.ids_lruRows hnode
  refine ⟨node, before, after, by rw [← hhash]; rfl, hrows, h.find?_lruRows hnode, ?_⟩
  rw [hrows, eraseP_append_right, eraseP_cons_of_pos]
  · simp [LruNode.entry]
  · intro other hother
    simpa [LruNode.entry] using hbefore other hother

/-! ### Steps -/

theorem Matched.enterRow (decree : Int) (hash : UInt64) :
    ∃ t', t.enterRow decree hash = some t' ∧ t'.Matched := by
  unfold LockTable.enterRow
  cases hentry : t.entryOf hash with
  | some id =>
    obtain ⟨node, before, after, hnode, hrows, hfind, herase⟩ := h.node_of_entryOf hentry
    simp only [hfind, herase, bind_eq_bind, bind_some]
    refine ⟨_, rfl, ?_, h.hashes, h.ids, h.fresh, ?_, h.applied⟩
    · refine h.perm.trans ?_
      rw [hrows, map_append]
      change List.Perm (before.map _ ++ node.entry :: after.map _) (node.entry :: _)
      rw [map_append]
      exact perm_middle
    · intro other hother
      rcases mem_cons.mp hother with rfl | hother
      · exact LruNode.Highest.enter (h.highest node (by rw [hrows]; simp)) decree
      · apply h.highest other
        rw [hrows]
        rcases mem_append.mp hother with hother | hother
        · exact mem_append_left _ hother
        · exact mem_append_right _ (mem_cons_of_mem _ hother)
  | none =>
    have hnew : ∀ entry ∈ t.rowLocks, entry.1 ≠ hash := by
      intro entry hmem
      simpa using List.find?_eq_none.mp (map_eq_none_iff.mp hentry) entry hmem
    refine ⟨_, rfl, h.perm.cons _, ?_, ?_, ?_, ?_, h.applied⟩
    · refine nodup_cons.mpr ⟨?_, h.hashes⟩
      intro hmem
      obtain ⟨entry, hentry, heq⟩ := List.mem_map.mp hmem
      exact hnew entry hentry heq
    · refine nodup_cons.mpr ⟨?_, h.ids⟩
      intro hmem
      obtain ⟨entry, hentry, heq⟩ := List.mem_map.mp hmem
      exact absurd heq (h.fresh entry hentry).ne
    · exact forall_mem_cons.mpr
        ⟨Nat.lt_succ_self _, fun entry hmem => (h.fresh entry hmem).trans (Nat.lt_succ_self _)⟩
    · exact forall_mem_cons.mpr ⟨⟨mem_singleton_self _, by simp⟩, h.highest⟩

omit h in
theorem Matched.enterRows (decree : Int) (requests : List (Option UInt64)) (h : t.Matched) :
    ∃ t', LockTable.enterRows decree requests t = some t' ∧ t'.Matched := by
  induction requests generalizing t with
  | nil => exact ⟨t, rfl, h⟩
  | cons request rest ih =>
    cases request with
    | none => exact ih h
    | some hash =>
      obtain ⟨t₁, hrow, h₁⟩ := h.enterRow decree hash
      simp only [LockTable.enterRows, hrow, bind_eq_bind, bind_some]
      exact ih h₁

theorem Matched.discard {lastApplied : Int} (hback : t.lruRows.getLast? = some node)
    (happlied : node.decree ≤ lastApplied) : (t.discard lastApplied node).Matched := by
  obtain ⟨rows, hrows⟩ := List.getLast?_eq_some_iff.mp hback
  have hmem : node ∈ t.lruRows := by
    rw [hrows]
    simp
  have hdrop : t.lruRows.dropLast = rows := by rw [hrows, dropLast_concat]
  have hfst := h.perm.map Prod.fst
  rw [hrows, map_append, map_append] at hfst
  have hother : ∀ other ∈ rows, other.partitionHash ≠ node.partitionHash := by
    intro other hother heq
    have hnodup := (nodup_append.mp (hfst.nodup_iff.mp h.hashes)).2.2
    exact hnodup other.partitionHash (List.mem_map.mpr ⟨_, List.mem_map_of_mem hother, rfl⟩)
      node.partitionHash (by simp [LruNode.entry]) heq
  refine ⟨?_, ?_, ?_, ?_, ?_, ?_⟩
  · have hkeep : (rows.map LruNode.entry).filter (fun entry => entry.1 != node.partitionHash) =
        rows.map LruNode.entry := by
      apply filter_eq_self.mpr
      intro entry hentry
      obtain ⟨other, hother', rfl⟩ := List.mem_map.mp hentry
      simpa [LruNode.entry] using hother other hother'
    have hperm := h.perm.filter fun entry => entry.1 != node.partitionHash
    rw [hrows, map_append, filter_append, hkeep] at hperm
    change (t.rowLocks.filter _).Perm (t.lruRows.dropLast.map _)
    rw [hdrop]
    simpa [LruNode.entry] using hperm
  · exact (filter_sublist.map _).nodup h.hashes
  · exact (filter_sublist.map _).nodup h.ids
  · intro entry hentry
    exact h.fresh entry (mem_of_mem_filter hentry)
  · intro other hother
    exact h.highest other (mem_of_mem_dropLast hother)
  · intro own last hmem'
    rcases mem_cons.mp hmem' with heq | hmem'
    · cases heq
      exact ⟨node.decree, h.lockOf_eq hmem, happlied⟩
    · exact h.applied own last hmem'

omit h

theorem Matched.makeRoom (capacity : Nat) (lastApplied : Int) (fuel : Nat) (h : t.Matched)
    (hfuel : t.lruRows.length ≤ fuel) :
    ∃ t', LockTable.makeRoom capacity lastApplied fuel t = some t' ∧ t'.Matched := by
  induction fuel generalizing t with
  | zero =>
    have hlength := h.perm.length_eq
    rw [length_map] at hlength
    exact ⟨t, if_neg (by omega), h⟩
  | succ fuel ih =>
    unfold LockTable.makeRoom
    split
    · rename_i hfull
      cases hback : t.lruRows.getLast? with
      | none =>
        have hlength := h.perm.length_eq
        rw [List.getLast?_eq_none_iff.mp hback] at hlength
        change t.rowLocks.length = 0 at hlength
        omega
      | some back =>
        dsimp only
        split
        · exact ⟨t, rfl, h⟩
        · rename_i happlied
          apply ih (h.discard hback (not_lt.mp happlied))
          change t.lruRows.dropLast.length ≤ fuel
          rw [length_dropLast]
          omega
    · exact ⟨t, rfl, h⟩

theorem Matched.step {capacity : Nat} {e : LockEvent} (hupholds : t.Upholds e) (h : t.Matched) :
    ∃ t', t.step capacity e = some t' ∧ t'.Matched := by
  cases e with
  | enter2pc lastApplied decree requests =>
    obtain ⟨t₁, hrows, h₁⟩ := h.enterRows decree requests
    obtain ⟨t₂, hroom, h₂⟩ := h₁.makeRoom capacity lastApplied _ le_rfl
    refine ⟨t₂, ?_, h₂⟩
    simp only [LockTable.step, LockTable.enter2pc, hrows, bind_eq_bind, bind_some, hroom]
  | clear taking =>
    have hempty : t.lruRows = [] := hupholds
    refine ⟨t.clear, rfl, ?_, .nil, .nil, ?_, h.highest, h.applied⟩
    · change List.Perm [] (t.lruRows.map _)
      rw [hempty]
      exact .nil
    · intro entry hentry
      cases hentry

end Matched

/-! ### The main result -/

/-- **The two containers are in bijection**, the decrees are the highest, and making room has only
taken locks whose own decree was applied. -/
structure Bijection (t : LockTable) : Prop where
  points : ∀ hash id, (hash, id) ∈ t.rowLocks →
    ∃ node ∈ t.lruRows, node.id = id ∧ node.partitionHash = hash
  pointed : ∀ node ∈ t.lruRows, ∃! entry, entry ∈ t.rowLocks ∧ entry.2 = node.id
  highest : ∀ node ∈ t.lruRows, node.Highest
  applied : ∀ own lastApplied, (own, lastApplied) ∈ t.discarded → ∃ d ∈ own, d ≤ lastApplied

theorem Matched.bijection {t : LockTable} (h : t.Matched) : t.Bijection where
  points := by
    intro hash id hmem
    obtain ⟨node, hnode, heq⟩ := h.mem_rowLocks.mp hmem
    cases heq
    exact ⟨node, hnode, rfl, rfl⟩
  pointed := by
    intro node hnode
    refine ⟨node.entry, ⟨h.mem_rowLocks.mpr ⟨node, hnode, rfl⟩, rfl⟩, ?_⟩
    rintro entry ⟨hentry, hid⟩
    exact inj_on_of_nodup_map h.ids hentry (h.mem_rowLocks.mpr ⟨node, hnode, rfl⟩) hid
  highest := h.highest
  applied := h.applied

/-- **Row locks and LRU rows stay in bijection** in every run that clears nothing while there are
nodes, and such a run never follows an iterator that dangles. -/
theorem row_locks_match_lru_rows (capacity : Nat) {events : List LockEvent}
    (hupholds : StepsMeet (step capacity) Upholds {} events) :
    ∃ t, run (step capacity) {} events = some t ∧ t.Bijection := by
  obtain ⟨t, hrun, hmatched⟩ := exists_run_of_steps (I := Matched)
    (fun _ _ hmeet hmatched => hmatched.step hmeet) hupholds matched_empty
  exact ⟨t, hrun, hmatched.bijection⟩

theorem row_locks_match_lru_rows_two :
    ∃ t, run (step 1) {} [.clear false, .enter2pc 0 1 [some 1, none, some 2],
      .enter2pc 1 2 [some 2]] = some t ∧ t.Bijection :=
  row_locks_match_lru_rows 1 (by decide)

/-- The node of row 1 that `clear` leaves is the oldest when row 2 comes. Its decree 1 is applied,
so the lock of row 1 at decree 5 is discarded, which is not. -/
theorem clear_leaves_a_node :
    ∃ t, run (step 1) {} [.enter2pc 0 1 [some 1], .clear false,
      .enter2pc 1 5 [some 1], .enter2pc 1 6 [some 2]] = some t ∧
        t.discarded = [(some 5, 1)] ∧ t.lockOf 1 = none ∧ ¬t.Bijection := by
  refine ⟨_, rfl, rfl, rfl, ?_⟩
  intro h
  obtain ⟨d, hd, hle⟩ := h.applied (some 5) 1 (by decide)
  cases hd
  exact absurd hle (by decide)

end LockTable

end Pegasus.Replica
