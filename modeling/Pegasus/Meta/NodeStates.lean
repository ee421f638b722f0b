/-
The node states of the meta server, which mirror the configurations of partitions, after
`server_state.cpp` and `meta_data.{h,cpp}`.

A configuration update that has been written to the storage replaces the configuration of its
partition and, by its type, puts the partition into the sets of a node or takes it out. Dropping a
partition takes it out of the sets of the nodes in `last_drops`, a list that is kept short.

- `maintainDrops_foldlM`: up to three members are still in the list when all have been entered;
- `Mirrors.change`: one update of one node keeps the mirror;
- `node_states_mirror`: the main result, for partitions that have at most three members when they
  are dropped.
-/

import Pegasus.Meta.SplitService

namespace Pegasus.Meta

open TransitionSystem List Option Function

/-- `gpid`: the table and the index of a partition. -/
abbrev Gpid := Nat × Nat

/-- `config_type`, for the updates of a configuration. -/
inductive ConfigType where
  | assignPrimary
  | upgradeToPrimary
  | addSecondary
  | upgradeToSecondary
  | downgradeToSecondary
  | downgradeToInactive
  | remove
  | addSecondaryForLb
  | primaryForceUpdateBallot
  | dropPartition
  | registerChild
deriving DecidableEq

structure PartitionConfiguration (Node : Type) where
  ballot : Int
  maxReplicaCount : Int
  primary : Option Node := none
  secondaries : List Node := []
  lastDrops : List Node := []
  dropped : Bool := false
deriving DecidableEq

/-- `node_state`: the sets of all tables, which do not meet, and their totals. -/
structure NodeState where
  primaries : Finset Gpid := ∅
  partitions : Finset Gpid := ∅
  totalPrimaries : Nat := 0
  totalPartitions : Nat := 0
deriving DecidableEq

namespace NodeState

def putPartition (pid : Gpid) (isPrimary : Bool) (ns : NodeState) : NodeState where
  partitions := insert pid ns.partitions
  totalPartitions := if pid ∈ ns.partitions then ns.totalPartitions else ns.totalPartitions + 1
  primaries := if isPrimary then insert pid ns.primaries else ns.primaries
  totalPrimaries :=
    if isPrimary ∧ pid ∉ ns.primaries then ns.totalPrimaries + 1 else ns.totalPrimaries

def removePartition (pid : Gpid) (onlyPrimary : Bool) (ns : NodeState) : NodeState where
  primaries := ns.primaries.erase pid
  totalPrimaries := if pid ∈ ns.primaries then ns.totalPrimaries - 1 else ns.totalPrimaries
  partitions := if onlyPrimary then ns.partitions else ns.partitions.erase pid
  totalPartitions :=
    if onlyPrimary = false ∧ pid ∈ ns.partitions then ns.totalPartitions - 1
    else ns.totalPartitions

structure Counted (ns : NodeState) : Prop where
  primaries : ns.totalPrimaries = ns.primaries.card
  partitions : ns.totalPartitions = ns.partitions.card

theorem Counted.putPartition {ns : NodeState} (h : ns.Counted) (pid : Gpid) (isPrimary : Bool) :
    (ns.putPartition pid isPrimary).Counted := by
  refine ⟨?_, ?_⟩
  · unfold NodeState.putPartition
    cases isPrimary with
    | false => simpa using h.primaries
    | true => by_cases hmem : pid ∈ ns.primaries <;> simp [hmem, h.primaries]
  · unfold NodeState.putPartition
    by_cases hmem : pid ∈ ns.partitions <;> simp [hmem, h.partitions]

theorem Counted.removePartition {ns : NodeState} (h : ns.Counted) (pid : Gpid)
    (onlyPrimary : Bool) : (ns.removePartition pid onlyPrimary).Counted := by
  refine ⟨?_, ?_⟩
  · unfold NodeState.removePartition
    by_cases hmem : pid ∈ ns.primaries <;> simp [hmem, h.primaries]
  · unfold NodeState.removePartition
    cases onlyPrimary with
    | true => simpa using h.partitions
    | false => by_cases hmem : pid ∈ ns.partitions <;> simp [hmem, h.partitions]

end NodeState

section

variable {Node : Type} [DecidableEq Node]

/-- `maintain_drops`. A node that is already in the list aborts; the oldest of more than three
nodes is forgotten. -/
def maintainDrops (drops : List Node) (node : Node) : ConfigType → Option (List Node)
  | .assignPrimary | .upgradeToPrimary | .upgradeToSecondary => some (drops.erase node)
  | .downgradeToInactive | .remove | .dropPartition =>
    if node ∈ drops then none
    else some (if 3 < (drops ++ [node]).length then (drops ++ [node]).tail else drops ++ [node])
  | _ => some drops

/-- The configurations and the nodes. A partition that does not exist has no members. -/
structure ServerState (Node : Type) where
  pcs : Gpid → PartitionConfiguration Node
  nodes : Node → Option NodeState

/-- The state of a node; one that is not known has no partitions. -/
def viewNode (nodes : Node → Option NodeState) (node : Node) : NodeState := (nodes node).getD {}

def modifyNode (node : Node) (f : NodeState → NodeState) (nodes : Node → Option NodeState) :
    Node → Option NodeState :=
  Function.update nodes node ((nodes node).map f)

/-- `get_node_state` with `create_new`, and a change of the node. -/
def createNode (node : Node) (f : NodeState → NodeState) (nodes : Node → Option NodeState) :
    Node → Option NodeState :=
  Function.update nodes node (some (f (viewNode nodes node)))

/-- The loop body of `initialize_node_state` for a partition. -/
def initializePartition (pcs : Gpid → PartitionConfiguration Node)
    (nodes : Node → Option NodeState) (pid : Gpid) : Node → Option NodeState :=
  let nodes := match (pcs pid).primary with
    | some primary => createNode primary (NodeState.putPartition pid true) nodes
    | none => nodes
  (pcs pid).secondaries.foldl
    (fun nodes secondary => createNode secondary (NodeState.putPartition pid false) nodes) nodes

/-- `initialize_node_state`, for the partitions that were loaded. -/
def initializeNodeState (pids : List Gpid) (pcs : Gpid → PartitionConfiguration Node) :
    ServerState Node where
  pcs := pcs
  nodes := pids.foldl (initializePartition pcs) fun _ => none

/-- The cases of `update_configuration_locally` that are about a node, which is known. -/
def updateNode (pid : Gpid) (type : ConfigType) (node : Node)
    (config : PartitionConfiguration Node) (nodes : Node → Option NodeState) :
    Option (Node → Option NodeState) :=
  match type with
  | .assignPrimary | .upgradeToPrimary =>
    some (modifyNode node (NodeState.putPartition pid true) nodes)
  | .upgradeToSecondary => some (modifyNode node (NodeState.putPartition pid false) nodes)
  | .downgradeToSecondary => some (modifyNode node (NodeState.removePartition pid true) nodes)
  | .downgradeToInactive | .remove =>
    some (modifyNode node (NodeState.removePartition pid false) nodes)
  | .primaryForceUpdateBallot => some nodes
  | .registerChild =>
    config.secondaries.foldlM
      (fun nodes secondary =>
        if (nodes secondary).isNone then none
        else some (modifyNode secondary (NodeState.putPartition pid false) nodes))
      (modifyNode node (NodeState.putPartition pid true) nodes)
  | .addSecondary | .addSecondaryForLb | .dropPartition => none

/-- The change of the nodes in `update_configuration_locally`. A node that has to be known and is
not aborts; those of `last_drops` need not be. -/
def updateNodes (pid : Gpid) (type : ConfigType) (node : Option Node)
    (config : PartitionConfiguration Node) (nodes : Node → Option NodeState) :
    Option (Node → Option NodeState) :=
  if type = .dropPartition then
    some (config.lastDrops.foldl
      (fun nodes lastDrop => modifyNode lastDrop (NodeState.removePartition pid false) nodes) nodes)
  else
    node.bind fun node =>
      if (nodes node).isNone then none else updateNode pid type node config nodes

namespace ServerState

def setConfig (pid : Gpid) (config : PartitionConfiguration Node) (s : ServerState Node) :
    ServerState Node :=
  { s with pcs := Function.update s.pcs pid config }

def updateConfigurationLocally (pid : Gpid) (type : ConfigType) (node : Option Node)
    (config : PartitionConfiguration Node) (s : ServerState Node) : Option (ServerState Node) :=
  if (s.pcs pid).ballot = invalidBallot ∨ (s.pcs pid).ballot + 1 = config.ballot then
    (updateNodes pid type node config s.nodes).map fun nodes =>
      { s with nodes := nodes }.setConfig pid config
  else none

end ServerState

namespace PartitionConfiguration

variable (pc : PartitionConfiguration Node)

/-- The members of a partition, in the order in which `drop_partition` enters them into
`last_drops`. -/
def members : List Node := pc.secondaries ++ pc.primary.toList

def without (node : Node) : PartitionConfiguration Node :=
  if pc.primary = some node then { pc with primary := none }
  else { pc with secondaries := pc.secondaries.erase node }

/-- The configuration a replica asks for, after `replica_config.cpp` and
`remove_replica_on_meta_server`: the primary for its members, a member for its own removal, or a node
that is to become the primary. Nobody checks whether there is a primary already. -/
def requested (type : ConfigType) (node : Node) : Option (PartitionConfiguration Node) :=
  let next := { pc with ballot := pc.ballot + 1 }
  match type with
  | .assignPrimary | .upgradeToPrimary =>
    some { next with primary := some node, secondaries := pc.secondaries.erase node }
  | .upgradeToSecondary =>
    if pc.primary.isSome ∧ node ∉ pc.members then
      some { next with secondaries := pc.secondaries ++ [node] }
    else none
  | .downgradeToSecondary =>
    if pc.primary = some node then
      some { next with primary := none, secondaries := pc.secondaries ++ [node] }
    else none
  | .downgradeToInactive => if node ∈ pc.members then some (next.without node) else none
  | .remove => if pc.primary.isSome then some (next.without node) else none
  | .primaryForceUpdateBallot => if pc.primary = some node then some next else none
  | _ => none

def droppedConfig : Option (PartitionConfiguration Node) :=
  (pc.members.foldlM (fun drops node => maintainDrops drops node .dropPartition) pc.lastDrops).map
    fun drops =>
      { pc with
        ballot := pc.ballot + 1
        primary := none
        secondaries := []
        lastDrops := drops
        dropped := true }

end PartitionConfiguration

open NodeState PartitionConfiguration

/-- The updates of configurations, each when it has been written to the storage. -/
inductive ConfigEvent (Node : Type) where
  | updateConfiguration (pid : Gpid) (type : ConfigType) (node : Node)
  | downgradePrimaryToInactive (pid : Gpid)
  | dropPartition (pid : Gpid)
  | recallPartition (pid : Gpid)
  | registerChild (pid : Gpid) (ballot maxReplicaCount : Int) (primary : Node)
      (secondaries : List Node)
  | updateMaxReplicaCount (pid : Gpid) (count : Int)
  | nodeConnected (node : Node)
deriving DecidableEq

def ServerState.step (s : ServerState Node) : ConfigEvent Node → Option (ServerState Node)
  | .updateConfiguration pid type node =>
    if (s.pcs pid).dropped = true then none
    else ((s.pcs pid).requested type node).bind fun config =>
      (maintainDrops config.lastDrops node type).bind fun drops =>
        s.updateConfigurationLocally pid type (some node) { config with lastDrops := drops }
  | .downgradePrimaryToInactive pid =>
    if (s.pcs pid).dropped = true then none
    else (s.pcs pid).primary.bind fun primary =>
      (maintainDrops (s.pcs pid).lastDrops primary .downgradeToInactive).bind fun drops =>
        s.updateConfigurationLocally pid .downgradeToInactive (some primary)
          { s.pcs pid with
            ballot := (s.pcs pid).ballot + 1
            primary := none
            lastDrops := drops }
  | .dropPartition pid =>
    if (s.pcs pid).dropped = true then none
    else (s.pcs pid).droppedConfig.bind fun config =>
      s.updateConfigurationLocally pid .dropPartition (s.pcs pid).primary config
  | .recallPartition pid =>
    if (s.pcs pid).dropped = true then some (s.setConfig pid { s.pcs pid with dropped := false })
    else none
  | .registerChild pid ballot maxReplicaCount primary secondaries =>
    -- the child has no members yet, and gets those of its parent
    if (s.pcs pid).members = [] ∧ (primary :: secondaries).Nodup then
      s.updateConfigurationLocally pid .registerChild (some primary)
        { ballot := ballot
          maxReplicaCount := maxReplicaCount
          primary := some primary
          secondaries := secondaries }
    else none
  | .updateMaxReplicaCount pid count =>
    some (s.setConfig pid
      { s.pcs pid with ballot := (s.pcs pid).ballot + 1, maxReplicaCount := count })
  | .nodeConnected node => some { s with nodes := createNode node id s.nodes }

/-! ### The list of dropped nodes -/

variable {node : Node} {type : ConfigType} {pid : Gpid} {config : PartitionConfiguration Node}
  {nodes nodes' : Node → Option NodeState}

theorem maintainDrops_length {drops drops' : List Node}
    (h : maintainDrops drops node type = some drops') (hdrops : drops.length ≤ 3) :
    drops'.length ≤ 3 := by
  cases type with
  | assignPrimary | upgradeToPrimary | upgradeToSecondary =>
    cases h
    exact length_erase_le.trans hdrops
  | downgradeToInactive | remove | dropPartition =>
    simp only [maintainDrops] at h
    split_ifs at h with hmem hlong
    · cases h
      simp only [length_tail, length_append, length_singleton]
      omega
    · cases h
      omega
  | addSecondary | downgradeToSecondary | addSecondaryForLb | primaryForceUpdateBallot
  | registerChild =>
    cases h
    exact hdrops

/-- **Up to three nodes** that are entered are all in the list at the end: only older ones are
forgotten. -/
theorem maintainDrops_foldlM {nodes : List Node} {older entered drops : List Node}
    (hdrops : (older ++ entered).length ≤ 3) (hnodes : (entered ++ nodes).length ≤ 3)
    (h : nodes.foldlM (fun drops node => maintainDrops drops node .dropPartition)
      (older ++ entered) = some drops) :
    ∃ older', drops = older' ++ (entered ++ nodes) ∧ drops.length ≤ 3 := by
  induction nodes generalizing older entered with
  | nil =>
    cases h
    exact ⟨older, by simp, hdrops⟩
  | cons node rest ih =>
    rw [foldlM_cons] at h
    obtain ⟨next, hnext, hrest⟩ := bind_eq_some_iff.mp h
    have hlength := maintainDrops_length hnext hdrops
    simp only [maintainDrops] at hnext
    simp only [length_append, length_cons] at hdrops hnodes
    split_ifs at hnext with hmem hlong
    · -- the list is full, and what is forgotten is older than all that were entered
      cases hnext
      cases older with
      | nil =>
        simp only [nil_append, length_append, length_singleton] at hlong
        omega
      | cons oldest older =>
        rw [cons_append, cons_append, tail_cons, append_assoc] at hrest hlength
        obtain ⟨older', heq, hle⟩ := ih hlength (by simp; omega) hrest
        exact ⟨older', by rw [heq]; simp, hle⟩
    · cases hnext
      rw [append_assoc] at hrest hlength
      obtain ⟨older', heq, hle⟩ := ih hlength (by simp; omega) hrest
      exact ⟨older', by rw [heq]; simp, hle⟩

/-! ### The mirror -/

/-- **Node states mirror configurations**: a partition is in the primaries of its primary and in the
partitions of its members, and the totals are the sizes of the sets. -/
structure Mirrors (pcs : Gpid → PartitionConfiguration Node) (nodes : Node → Option NodeState) :
    Prop where
  primaries : ∀ node pid, pid ∈ (viewNode nodes node).primaries ↔ (pcs pid).primary = some node
  partitions : ∀ node pid, pid ∈ (viewNode nodes node).partitions ↔
    (pcs pid).primary = some node ∨ node ∈ (pcs pid).secondaries
  counted : ∀ node, (viewNode nodes node).Counted

omit [DecidableEq Node] in
theorem isSome_of_not_isNone (h : ¬ (nodes node).isNone = true) : (nodes node).isSome := by
  cases hnode : nodes node with
  | none => simp [hnode] at h
  | some ns => rfl

def ChangesAt (node : Node) (f : NodeState → NodeState) (nodes nodes' : Node → Option NodeState) :
    Prop :=
  ∀ other, viewNode nodes' other =
    if other = node then f (viewNode nodes node) else viewNode nodes other

theorem changesAt_modifyNode (hnode : (nodes node).isSome) (f : NodeState → NodeState) :
    ChangesAt node f nodes (modifyNode node f nodes) := by
  intro other
  obtain ⟨ns, hns⟩ := isSome_iff_exists.mp hnode
  by_cases hother : other = node
  · subst hother
    simp [viewNode, modifyNode, hns]
  · simp [viewNode, modifyNode, hother]

theorem changesAt_createNode (nodes : Node → Option NodeState) (node : Node)
    (f : NodeState → NodeState) : ChangesAt node f nodes (createNode node f nodes) := by
  intro other
  by_cases hother : other = node
  · subst hother
    simp [viewNode, createNode]
  · simp [viewNode, createNode, hother]

structure Touches (pid : Gpid) (f : NodeState → NodeState) : Prop where
  counted : ∀ {ns : NodeState}, ns.Counted → (f ns).Counted
  primaries : ∀ {ns : NodeState} {other}, other ≠ pid →
    (other ∈ (f ns).primaries ↔ other ∈ ns.primaries)
  partitions : ∀ {ns : NodeState} {other}, other ≠ pid →
    (other ∈ (f ns).partitions ↔ other ∈ ns.partitions)

theorem touches_putPartition (pid : Gpid) (isPrimary : Bool) :
    Touches pid (putPartition pid isPrimary) where
  counted h := h.putPartition pid isPrimary
  primaries hne := by cases isPrimary <;> simp [putPartition, hne]
  partitions hne := by simp [putPartition, hne]

theorem touches_removePartition (pid : Gpid) (onlyPrimary : Bool) :
    Touches pid (removePartition pid onlyPrimary) where
  counted h := h.removePartition pid onlyPrimary
  primaries hne := by simp [removePartition, hne]
  partitions hne := by cases onlyPrimary <;> simp [removePartition, hne]

theorem touches_id (pid : Gpid) : Touches pid id := ⟨id, fun _ => Iff.rfl, fun _ => Iff.rfl⟩

def PartitionConfiguration.Has (pc : PartitionConfiguration Node) (node : Node) : Prop :=
  pc.primary = some node ∨ node ∈ pc.secondaries

section Mirror

variable {pcs : Gpid → PartitionConfiguration Node}

variable (h : Mirrors pcs nodes)
include h

omit [DecidableEq Node] in
/-- **One change of one configuration** keeps the mirror, if no node changes but at the partition,
and the new configuration has the nodes as they have the partition. -/
theorem Mirrors.update
    (hview : ∀ other, ∃ f, Touches pid f ∧ viewNode nodes' other = f (viewNode nodes other))
    (hpid : ∀ other, (pid ∈ (viewNode nodes' other).primaries ↔ config.primary = some other) ∧
      (pid ∈ (viewNode nodes' other).partitions ↔ config.Has other)) :
    Mirrors (Function.update pcs pid config) nodes' := by
  refine ⟨fun other p => ?_, fun other p => ?_, fun other => ?_⟩
  · by_cases hp : p = pid
    · subst hp
      rw [update_self]
      exact (hpid other).1
    · obtain ⟨f, hf, hother⟩ := hview other
      rw [update_of_ne hp, ← h.primaries other p, hother]
      exact hf.primaries hp
  · by_cases hp : p = pid
    · subst hp
      rw [update_self]
      exact (hpid other).2
    · obtain ⟨f, hf, hother⟩ := hview other
      rw [update_of_ne hp, ← h.partitions other p, hother]
      exact hf.partitions hp
  · obtain ⟨f, hf, hother⟩ := hview other
    rw [hother]
    exact hf.counted (h.counted other)

/-- **One change of one node** keeps the mirror, if the new configuration has the node as the node
has the partition, and has the other nodes as before. -/
theorem Mirrors.change {f : NodeState → NodeState} (hf : Touches pid f)
    (hview : ChangesAt node f nodes nodes')
    (hprimary : pid ∈ (f (viewNode nodes node)).primaries ↔ config.primary = some node)
    (hpartition : pid ∈ (f (viewNode nodes node)).partitions ↔ config.Has node)
    (hrest : ∀ other ≠ node, (config.primary = some other ↔ (pcs pid).primary = some other) ∧
      (config.Has other ↔ (pcs pid).Has other)) :
    Mirrors (Function.update pcs pid config) nodes' := by
  refine h.update (fun other => ?_) fun other => ?_
  · rw [hview]
    split_ifs with hother
    · exact ⟨f, hf, by rw [hother]⟩
    · exact ⟨id, touches_id pid, rfl⟩
  · rw [hview]
    split_ifs with hother
    · rw [hother]
      exact ⟨hprimary, hpartition⟩
    · exact ⟨(h.primaries other pid).trans (hrest other hother).1.symm,
        (h.partitions other pid).trans (hrest other hother).2.symm⟩

omit [DecidableEq Node] in
theorem Mirrors.same (hprimary : config.primary = (pcs pid).primary)
    (hsecondaries : config.secondaries = (pcs pid).secondaries) :
    Mirrors (Function.update pcs pid config) nodes := by
  refine h.update (fun _ => ⟨id, touches_id pid, rfl⟩) fun other => ⟨?_, ?_⟩
  · rw [hprimary]
    exact h.primaries other pid
  · rw [PartitionConfiguration.Has, hprimary, hsecondaries]
    exact h.partitions other pid

theorem Mirrors.putPrimary (hnone : (pcs pid).primary = none)
    (hview : ChangesAt node (putPartition pid true) nodes nodes')
    (hprimary : config.primary = some node)
    (hsecondaries : ∀ other ≠ node, (other ∈ config.secondaries ↔ other ∈ (pcs pid).secondaries)) :
    Mirrors (Function.update pcs pid config) nodes' := by
  refine h.change (touches_putPartition pid true) hview ?_ ?_ fun other hother => ?_
  · simp [putPartition, hprimary]
  · simp [putPartition, PartitionConfiguration.Has, hprimary]
  · have hne : ¬ some node = some other := fun heq => hother (some.inj heq).symm
    simp [PartitionConfiguration.Has, hprimary, hnone, hne, hsecondaries other hother]

theorem Mirrors.putSecondary
    (hview : ChangesAt node (putPartition pid false) nodes nodes')
    (hprimary : config.primary = (pcs pid).primary)
    (hsecondaries : config.secondaries = (pcs pid).secondaries ++ [node]) :
    Mirrors (Function.update pcs pid config) nodes' := by
  refine h.change (touches_putPartition pid false) hview ?_ ?_ fun other hother => ?_
  · rw [hprimary]
    exact h.primaries node pid
  · simp [putPartition, PartitionConfiguration.Has, hsecondaries]
  · simp [PartitionConfiguration.Has, hprimary, hsecondaries, hother]

theorem Mirrors.demotePrimary (hold : (pcs pid).primary = some node)
    (hview : ChangesAt node (removePartition pid true) nodes nodes')
    (hprimary : config.primary = none)
    (hsecondaries : config.secondaries = (pcs pid).secondaries ++ [node]) :
    Mirrors (Function.update pcs pid config) nodes' := by
  refine h.change (touches_removePartition pid true) hview ?_ ?_ fun other hother => ?_
  · simp [removePartition, hprimary]
  · have hmem := (h.partitions node pid).mpr (.inl hold)
    simp [removePartition, PartitionConfiguration.Has, hsecondaries, hmem]
  · have hne : ¬ node = other := fun heq => hother heq.symm
    simp [PartitionConfiguration.Has, hprimary, hsecondaries, hold, hother, hne]

theorem Mirrors.removeNode
    (hview : ChangesAt node (removePartition pid false) nodes nodes')
    (hgone : ¬ config.Has node)
    (hrest : ∀ other ≠ node, (config.primary = some other ↔ (pcs pid).primary = some other) ∧
      (config.Has other ↔ (pcs pid).Has other)) :
    Mirrors (Function.update pcs pid config) nodes' := by
  refine h.change (touches_removePartition pid false) hview ?_ ?_ hrest
  · have hprimary : config.primary ≠ some node := fun heq => hgone (.inl heq)
    simp [removePartition, hprimary]
  · simp [removePartition, hgone]

omit h in
theorem viewNode_foldl_remove (drops : List Node) (nodes : Node → Option NodeState) (other : Node) :
    viewNode (drops.foldl
        (fun nodes lastDrop => modifyNode lastDrop (removePartition pid false) nodes)
        nodes) other =
      if other ∈ drops then (viewNode nodes other).removePartition pid false
      else viewNode nodes other := by
  have hidem : ∀ ns : NodeState,
      (ns.removePartition pid false).removePartition pid false = ns.removePartition pid false := by
    intro ns
    simp [removePartition]
  have hone : ∀ (nodes : Node → Option NodeState) (drop : Node),
      viewNode (modifyNode drop (removePartition pid false) nodes) other =
        if other = drop then (viewNode nodes other).removePartition pid false
        else viewNode nodes other := by
    intro nodes drop
    by_cases hother : other = drop
    · subst hother
      cases hnode : nodes other with
      | none => simp [viewNode, modifyNode, hnode, removePartition]
      | some ns => simp [viewNode, modifyNode, hnode]
    · simp [viewNode, modifyNode, hother]
  induction drops generalizing nodes with
  | nil => simp
  | cons drop rest ih =>
    rw [foldl_cons, ih, hone]
    by_cases hdrop : other = drop
    · by_cases hrest : other ∈ rest <;> simp [hdrop, hidem]
    · by_cases hrest : other ∈ rest <;> simp [hdrop, hrest]

theorem Mirrors.drop {drops : List Node} (hdrops : ∀ node, (pcs pid).Has node → node ∈ drops)
    (hprimary : config.primary = none) (hsecondaries : config.secondaries = []) :
    Mirrors (Function.update pcs pid config) (drops.foldl
      (fun nodes lastDrop => modifyNode lastDrop (removePartition pid false) nodes)
      nodes) := by
  have hf := touches_removePartition pid false
  refine h.update (fun other => ?_) fun other => ?_
  · rw [viewNode_foldl_remove]
    split_ifs
    · exact ⟨_, hf, rfl⟩
    · exact ⟨id, touches_id pid, rfl⟩
  · rw [viewNode_foldl_remove, PartitionConfiguration.Has, hprimary, hsecondaries]
    split_ifs with hdrop
    · simp [removePartition]
    · have hgone : ¬(pcs pid).Has other := fun hhas => hdrop (hdrops other hhas)
      refine ⟨iff_of_false (fun hmem => ?_) (by simp), iff_of_false (fun hmem => ?_) (by simp)⟩
      · exact hgone (.inl ((h.primaries other pid).mp hmem))
      · exact hgone ((h.partitions other pid).mp hmem)

omit h

theorem Mirrors.putSecondaries
    (put : (Node → Option NodeState) → Node → Option (Node → Option NodeState))
    (hput : ∀ nodes nodes' secondary, put nodes secondary = some nodes' →
      ChangesAt secondary (putPartition pid false) nodes nodes')
    {rest : List Node} (h : Mirrors (Function.update pcs pid config) nodes)
    (hrest : rest.foldlM put nodes = some nodes') :
    Mirrors (Function.update pcs pid { config with secondaries := config.secondaries ++ rest })
      nodes' := by
  induction rest generalizing nodes config with
  | nil =>
    cases hrest
    simpa using h
  | cons secondary rest ih =>
    rw [foldlM_cons] at hrest
    obtain ⟨next, hnext, hrest⟩ := bind_eq_some_iff.mp hrest
    have hone : Mirrors
        (Function.update (Function.update pcs pid config) pid
          { config with secondaries := config.secondaries ++ [secondary] }) next :=
      h.putSecondary (hput nodes next secondary hnext) (by rw [update_self]) (by rw [update_self])
    rw [update_idem] at hone
    have hall := ih hone hrest
    simpa using hall

end Mirror

/-! ### Well-formed configurations -/

/-- No node is in a configuration twice, and the list of dropped nodes is short. -/
structure PartitionConfiguration.WellFormed (pc : PartitionConfiguration Node) : Prop where
  nodup : pc.members.Nodup
  short : pc.lastDrops.length ≤ 3

namespace PartitionConfiguration

variable {pc : PartitionConfiguration Node}

omit [DecidableEq Node] in
theorem mem_members : node ∈ pc.members ↔ pc.Has node := by simp [members, Has, or_comm]

omit [DecidableEq Node] in
theorem WellFormed.not_mem (h : pc.WellFormed) (hprimary : pc.primary = some node) :
    node ∉ pc.secondaries := by
  intro hmem
  have hnodup := h.nodup
  rw [members, hprimary] at hnodup
  exact disjoint_of_nodup_append hnodup hmem (by simp)

theorem WellFormed.without (h : pc.WellFormed) (node : Node) : (pc.without node).WellFormed := by
  have hnodup := h.nodup
  unfold members at hnodup
  refine ⟨?_, ?_⟩
  · unfold PartitionConfiguration.without
    split_ifs
    · simpa [members] using hnodup.of_append_left
    · exact hnodup.sublist (erase_sublist.append_right _)
  · unfold PartitionConfiguration.without
    split_ifs
    · exact h.short
    · exact h.short

theorem WellFormed.not_has_without (h : pc.WellFormed) (node : Node) :
    ¬ (pc.without node).Has node := by
  unfold PartitionConfiguration.without
  split_ifs with hprimary
  · simpa [Has] using h.not_mem hprimary
  · have hnodup := h.nodup.of_append_left
    simp [Has, hprimary, hnodup.mem_erase_iff]

theorem has_without (pc : PartitionConfiguration Node) (node : Node) {other : Node}
    (hother : other ≠ node) :
    ((pc.without node).primary = some other ↔ pc.primary = some other) ∧
      ((pc.without node).Has other ↔ pc.Has other) := by
  unfold without
  split_ifs with hprimary
  · have hne : ¬ node = other := fun heq => hother heq.symm
    simp [Has, hprimary, hne]
  · simp [Has, mem_erase_of_ne hother]

end PartitionConfiguration

/-! ### Runs -/

namespace ServerState

open PartitionConfiguration

variable {s s' : ServerState Node}

/-- The nodes mirror the configurations, which are well formed; those that are dropped have no
members. -/
structure Sound (s : ServerState Node) : Prop where
  mirrors : Mirrors s.pcs s.nodes
  wellFormed : ∀ pid, (s.pcs pid).WellFormed
  dropped : ∀ pid, (s.pcs pid).dropped = true → (s.pcs pid).members = []

omit [DecidableEq Node] in
theorem Sound.setConfig (h : s.Sound)
    (hmirrors : Mirrors (Function.update s.pcs pid config) nodes) (hconfig : config.WellFormed)
    (hdropped : config.dropped = true → config.members = []) :
    ({ s with nodes := nodes }.setConfig pid config).Sound := by
  refine ⟨hmirrors, fun p => ?_, fun p => ?_⟩
  · by_cases hp : p = pid
    · subst hp
      simpa [ServerState.setConfig] using hconfig
    · simpa [ServerState.setConfig, update_of_ne hp] using h.wellFormed p
  · by_cases hp : p = pid
    · subst hp
      simpa [ServerState.setConfig] using hdropped
    · simpa [ServerState.setConfig, update_of_ne hp] using h.dropped p

theorem updateConfigurationLocally_eq_some {node : Option Node}
    (h : s.updateConfigurationLocally pid type node config = some s') :
    ∃ nodes, updateNodes pid type node config s.nodes = some nodes ∧
      s' = { s with nodes := nodes }.setConfig pid config := by
  unfold updateConfigurationLocally at h
  split_ifs at h
  obtain ⟨nodes, hnodes, rfl⟩ := map_eq_some_iff.mp h
  exact ⟨nodes, hnodes, rfl⟩

theorem updateNodes_eq_some (hdrop : type ≠ .dropPartition)
    (h : updateNodes pid type (some node) config nodes = some nodes') :
    (nodes node).isSome ∧ updateNode pid type node config nodes = some nodes' := by
  rw [updateNodes, if_neg hdrop, bind_some] at h
  split_ifs at h with hknown
  exact ⟨isSome_of_not_isNone hknown, h⟩

/-- A new primary is only for a partition that has none, which `request_check` asks of debug builds,
and a partition that is dropped has at most three members. -/
def Orderly (s : ServerState Node) : ConfigEvent Node → Prop
  | .updateConfiguration pid .assignPrimary _ | .updateConfiguration pid .upgradeToPrimary _ =>
    (s.pcs pid).primary = none
  | .dropPartition pid => (s.pcs pid).members.length ≤ 3
  | _ => True

/-- **The update a replica asks for** keeps the members apart, and the mirror. -/
theorem Sound.requested (h : s.Sound) {drops : List Node}
    (horderly : s.Orderly (.updateConfiguration pid type node))
    (hrequest : (s.pcs pid).requested type node = some config)
    (hnodes : updateNodes pid type (some node) { config with lastDrops := drops } s.nodes =
      some nodes) :
    config.members.Nodup ∧ config.lastDrops = (s.pcs pid).lastDrops ∧
      config.dropped = (s.pcs pid).dropped ∧
      Mirrors (Function.update s.pcs pid { config with lastDrops := drops }) nodes := by
  have hnodup := (h.wellFormed pid).nodup
  have hdrop : type ≠ .dropPartition := by
    rintro rfl
    cases hrequest
  obtain ⟨hknown, hnodes⟩ := updateNodes_eq_some hdrop hnodes
  cases type with
  | assignPrimary | upgradeToPrimary =>
    have hview := changesAt_modifyNode hknown (putPartition pid true)
    have hnone : (s.pcs pid).primary = none := horderly
    cases hrequest
    cases hnodes
    refine ⟨?_, rfl, rfl,
      h.mirrors.putPrimary hnone hview rfl fun other hother => mem_erase_of_ne hother⟩
    simp only [members, hnone, toList_none, append_nil] at hnodup
    simp [members, nodup_append, hnodup.erase, hnodup.mem_erase_iff]
    intro a hne _
    exact hne
  | upgradeToSecondary =>
    have hview := changesAt_modifyNode hknown (putPartition pid false)
    obtain ⟨hnew, rfl⟩ := of_guard hrequest
    cases hnodes
    refine ⟨?_, rfl, rfl, h.mirrors.putSecondary hview rfl rfl⟩
    have hperm : ((s.pcs pid).secondaries ++ [node] ++ (s.pcs pid).primary.toList).Perm
        (node :: (s.pcs pid).members) := by
      rw [append_assoc]
      exact perm_middle
    exact hperm.nodup_iff.mpr (nodup_cons.mpr ⟨hnew.2, hnodup⟩)
  | downgradeToSecondary =>
    have hview := changesAt_modifyNode hknown (removePartition pid true)
    obtain ⟨hprimary, rfl⟩ := of_guard hrequest
    cases hnodes
    refine ⟨?_, rfl, rfl, h.mirrors.demotePrimary hprimary hview rfl rfl⟩
    simpa [members, hprimary] using hnodup
  | downgradeToInactive | remove =>
    have hview := changesAt_modifyNode hknown (removePartition pid false)
    obtain ⟨-, rfl⟩ := of_guard hrequest
    cases hnodes
    have hnext : ({ s.pcs pid with ballot := (s.pcs pid).ballot + 1 } :
        PartitionConfiguration Node).WellFormed := ⟨hnodup, (h.wellFormed pid).short⟩
    refine ⟨(hnext.without node).nodup, ?_, ?_, h.mirrors.removeNode hview
      (hnext.not_has_without node) fun other hother => has_without _ node hother⟩ <;>
      (unfold without; split_ifs <;> rfl)
  | primaryForceUpdateBallot =>
    obtain ⟨-, rfl⟩ := of_guard hrequest
    cases hnodes
    exact ⟨hnodup, rfl, rfl, h.mirrors.same rfl rfl⟩
  | addSecondary | addSecondaryForLb | dropPartition | registerChild => cases hrequest

theorem Sound.updateConfiguration (h : s.Sound)
    (horderly : s.Orderly (.updateConfiguration pid type node))
    (hstep : s.step (.updateConfiguration pid type node) = some s') : s'.Sound := by
  simp only [ServerState.step] at hstep
  split_ifs at hstep with hdropped
  obtain ⟨config, hrequest, hstep⟩ := bind_eq_some_iff.mp hstep
  obtain ⟨drops, hdrops, hupdate⟩ := bind_eq_some_iff.mp hstep
  obtain ⟨nodes, hnodes, rfl⟩ := updateConfigurationLocally_eq_some hupdate
  obtain ⟨hnodup, hsame, hlive, hmirrors⟩ := h.requested horderly hrequest hnodes
  rw [hsame] at hdrops
  exact h.setConfig hmirrors ⟨hnodup, maintainDrops_length hdrops (h.wellFormed pid).short⟩
    fun hdropped' => absurd (hlive.symm.trans hdropped') hdropped

theorem Sound.dropPartition (h : s.Sound) (hfits : (s.pcs pid).members.length ≤ 3)
    (hstep : s.step (.dropPartition pid) = some s') : s'.Sound := by
  simp only [ServerState.step] at hstep
  split_ifs at hstep
  obtain ⟨config, hconfig, hupdate⟩ := bind_eq_some_iff.mp hstep
  obtain ⟨drops, hdrops, rfl⟩ := map_eq_some_iff.mp hconfig
  obtain ⟨nodes, hnodes, rfl⟩ := updateConfigurationLocally_eq_some hupdate
  cases hnodes
  have hshort := (h.wellFormed pid).short
  rw [← append_nil (s.pcs pid).lastDrops] at hdrops hshort
  obtain ⟨older, heq, hlength⟩ := maintainDrops_foldlM hshort hfits hdrops
  refine h.setConfig (h.mirrors.drop (fun node hnode => ?_) rfl rfl) ⟨nodup_nil, hlength⟩
    fun _ => rfl
  rw [heq]
  exact mem_append_right _ (mem_members.mpr hnode)

theorem Sound.registerChild (h : s.Sound) {ballot maxReplicaCount : Int} {primary : Node}
    {secondaries : List Node}
    (hstep : s.step (.registerChild pid ballot maxReplicaCount primary secondaries) = some s') :
    s'.Sound := by
  simp only [ServerState.step] at hstep
  split_ifs at hstep with hchild
  obtain ⟨hempty, hnodup⟩ := hchild
  obtain ⟨nodes, hnodes, rfl⟩ := updateConfigurationLocally_eq_some hstep
  obtain ⟨hknown, hnodes⟩ := updateNodes_eq_some (by simp) hnodes
  rw [members, append_eq_nil_iff] at hempty
  have hnone : (s.pcs pid).primary = none := by simpa using hempty.2
  have hfirst : Mirrors (Function.update s.pcs pid
      { ballot := ballot, maxReplicaCount := maxReplicaCount, primary := some primary })
      (modifyNode primary (putPartition pid true) s.nodes) :=
    h.mirrors.putPrimary hnone (changesAt_modifyNode hknown _) rfl fun other _ => by rw [hempty.1]
  have hput : ∀ (nodes nodes' : Node → Option NodeState) (secondary : Node),
      (if (nodes secondary).isNone then none
        else some (modifyNode secondary (putPartition pid false) nodes)) = some nodes' →
      ChangesAt secondary (putPartition pid false) nodes nodes' := by
    intro nodes nodes' secondary hnodes'
    split_ifs at hnodes' with hnone'
    cases hnodes'
    exact changesAt_modifyNode (isSome_of_not_isNone hnone') _
  refine h.setConfig (hfirst.putSecondaries _ hput hnodes) ⟨?_, by simp⟩ (by simp)
  have hperm : (secondaries ++ [primary]).Perm (primary :: secondaries) :=
    perm_append_singleton primary secondaries
  exact hperm.nodup_iff.mpr hnodup

theorem Sound.step (h : s.Sound) {e : ConfigEvent Node} (horderly : s.Orderly e)
    (hstep : s.step e = some s') : s'.Sound := by
  cases e with
  | updateConfiguration pid type node => exact h.updateConfiguration horderly hstep
  | downgradePrimaryToInactive pid =>
    simp only [ServerState.step] at hstep
    split_ifs at hstep with hdropped
    obtain ⟨primary, hprimary, hstep⟩ := bind_eq_some_iff.mp hstep
    -- the configuration is the one the primary would ask for
    have hrequest : s.step (.updateConfiguration pid .downgradeToInactive primary) = some s' := by
      simpa [ServerState.step, hdropped, PartitionConfiguration.requested, members, without,
        hprimary] using hstep
    exact h.updateConfiguration (show s.Orderly (.updateConfiguration pid .downgradeToInactive primary) from
      trivial) hrequest
  | dropPartition pid => exact h.dropPartition horderly hstep
  | recallPartition pid =>
    obtain ⟨-, rfl⟩ := of_guard hstep
    exact h.setConfig (h.mirrors.same rfl rfl)
      ⟨(h.wellFormed pid).nodup, (h.wellFormed pid).short⟩ (by simp)
  | registerChild pid ballot maxReplicaCount primary secondaries => exact h.registerChild hstep
  | updateMaxReplicaCount pid count =>
    cases hstep
    exact h.setConfig (h.mirrors.same rfl rfl)
      ⟨(h.wellFormed pid).nodup, (h.wellFormed pid).short⟩ (h.dropped pid)
  | nodeConnected node =>
    cases hstep
    have hview : ∀ other, viewNode (createNode node id s.nodes) other = viewNode s.nodes other := by
      intro other
      rw [changesAt_createNode]
      split_ifs with hother
      · rw [hother, id]
      · rfl
    refine ⟨⟨fun other pid => ?_, fun other pid => ?_, fun other => ?_⟩, h.wellFormed, h.dropped⟩
    · rw [hview]
      exact h.mirrors.primaries other pid
    · rw [hview]
      exact h.mirrors.partitions other pid
    · rw [hview]
      exact h.mirrors.counted other

end ServerState

section Initialize

variable {pcs pcs' : Gpid → PartitionConfiguration Node}

theorem Mirrors.initializePartition (h : Mirrors pcs' nodes)
    (pcs : Gpid → PartitionConfiguration Node) {pid : Gpid}
    (hprimary : (pcs' pid).primary = none) (hsecondaries : (pcs' pid).secondaries = []) :
    Mirrors (Function.update pcs' pid (pcs pid)) (initializePartition pcs nodes pid) := by
  unfold Meta.initializePartition
  simp only
  generalize hfirst : (match (pcs pid).primary with
    | some primary => createNode primary (putPartition pid true) nodes
    | none => nodes) = first
  have hone : Mirrors (Function.update pcs' pid { pcs pid with secondaries := [] }) first := by
    cases hnew : (pcs pid).primary with
    | none =>
      rw [hnew] at hfirst
      subst hfirst
      exact h.same (by rw [hprimary]; exact hnew) hsecondaries.symm
    | some primary =>
      rw [hnew] at hfirst
      subst hfirst
      exact h.putPrimary hprimary (changesAt_createNode nodes primary _) hnew
        fun other _ => by rw [hsecondaries]
  refine hone.putSecondaries
    (fun nodes secondary => some (createNode secondary (putPartition pid false) nodes))
    (fun nodes nodes' secondary hnodes' => ?_) (foldlM_pure ..)
  cases hnodes'
  exact changesAt_createNode nodes secondary _

/-- The configurations of the partitions in a list; the others have no members yet. -/
def loaded (pcs : Gpid → PartitionConfiguration Node) (pids : List Gpid) :
    Gpid → PartitionConfiguration Node :=
  fun pid => if pid ∈ pids then pcs pid else { pcs pid with primary := none, secondaries := [] }

theorem mirrors_foldl_initializePartition (pids : List Gpid) {done : List Gpid}
    (h : Mirrors (loaded pcs done) nodes) (hnodup : (done ++ pids).Nodup) :
    Mirrors (loaded pcs (done ++ pids)) (pids.foldl (initializePartition pcs) nodes) := by
  induction pids generalizing done nodes with
  | nil => simpa using h
  | cons pid rest ih =>
    have hnew : pid ∉ done := fun hmem => disjoint_of_nodup_append hnodup hmem mem_cons_self
    have hempty : (loaded pcs done pid).primary = none ∧
        (loaded pcs done pid).secondaries = [] := by
      simp [loaded, hnew]
    have hstep := h.initializePartition pcs hempty.1 hempty.2
    have hloaded : Function.update (loaded pcs done) pid (pcs pid) =
        loaded pcs (done ++ [pid]) := by
      funext p
      by_cases hp : p = pid
      · subst hp
        simp [loaded]
      · simp [loaded, hp]
    rw [hloaded] at hstep
    have hrest := ih hstep (by simpa using hnodup)
    simpa using hrest

/-- **The node states that are initialized** mirror the configurations that were loaded. -/
theorem initializeNodeState_mirrors {pids : List Gpid} (hnodup : pids.Nodup)
    (hall : ∀ pid ∉ pids, (pcs pid).members = []) :
    Mirrors pcs (initializeNodeState pids pcs).nodes := by
  have hnone : Mirrors (loaded pcs []) (fun _ => none) := by
    refine ⟨fun node pid => ?_, fun node pid => ?_, fun node => ⟨rfl, rfl⟩⟩
    · simp [loaded, viewNode]
    · simp [loaded, viewNode]
  have hloaded : loaded pcs pids = pcs := by
    funext pid
    by_cases hpid : pid ∈ pids
    · simp [loaded, hpid]
    · have hempty := hall pid hpid
      rw [members, append_eq_nil_iff] at hempty
      have hprimary : (pcs pid).primary = none := by simpa using hempty.2
      simp only [loaded, hpid, if_false]
      rw [← hempty.1, ← hprimary]
  have hmirrors := mirrors_foldl_initializePartition pids hnone (by simpa using hnodup)
  rwa [nil_append, hloaded] at hmirrors

end Initialize

/-- What a meta server loads: well-formed configurations of different partitions; those that were
dropped have no members. -/
structure Loadable (pids : List Gpid) (pcs : Gpid → PartitionConfiguration Node) : Prop where
  nodup : pids.Nodup
  all : ∀ pid ∉ pids, (pcs pid).members = []
  wellFormed : ∀ pid, (pcs pid).WellFormed
  dropped : ∀ pid, (pcs pid).dropped = true → (pcs pid).members = []

/-- **The node states mirror the configurations** after every run of completed updates in which a new
primary is only for a partition that has none and the partitions that are dropped have at most three
members; partitions that have been dropped are in no node's sets. -/
theorem node_states_mirror {pids : List Gpid} {pcs : Gpid → PartitionConfiguration Node}
    (hload : Loadable pids pcs) (es : List (ConfigEvent Node)) {s : ServerState Node}
    (hrun : run ServerState.step (initializeNodeState pids pcs) es = some s)
    (horderly : StepsMeet ServerState.step ServerState.Orderly
      (initializeNodeState pids pcs) es) :
    Mirrors s.pcs s.nodes ∧ ∀ pid, (s.pcs pid).dropped = true → ∀ node,
      pid ∉ (viewNode s.nodes node).primaries ∧ pid ∉ (viewNode s.nodes node).partitions := by
  have hinit : (initializeNodeState pids pcs).Sound :=
    ⟨initializeNodeState_mirrors hload.nodup hload.all, hload.wellFormed, hload.dropped⟩
  have hsound : s.Sound := run_invariant_of_steps
    (fun _ _ _ hstep hmeet h => h.step hmeet hstep) hrun horderly hinit
  refine ⟨hsound.mirrors, fun pid hdropped node => ?_⟩
  have hempty : ¬ (s.pcs pid).Has node := by
    rw [← PartitionConfiguration.mem_members, hsound.dropped pid hdropped]
    exact not_mem_nil
  refine ⟨fun hmem => hempty (.inl ?_), fun hmem => hempty ?_⟩
  · exact (hsound.mirrors.primaries node pid).mp hmem
  · exact (hsound.mirrors.partitions node pid).mp hmem

end

/-- One partition, on the nodes from 0 on; the first is its primary. -/
def onePartition (secondaries : List Nat) (pid : Gpid) : PartitionConfiguration Nat :=
  if pid = (1, 0) then
    { ballot := 1, maxReplicaCount := secondaries.length + 1, primary := some 0,
      secondaries := secondaries }
  else { ballot := 0, maxReplicaCount := 3 }

theorem onePartition_loadable (secondaries : List Nat) (hnodup : (secondaries ++ [0]).Nodup) :
    Loadable [(1, 0)] (onePartition secondaries) := by
  refine ⟨nodup_singleton _, fun pid hpid => ?_, fun pid => ?_, fun pid hdropped => ?_⟩
  · rw [mem_singleton] at hpid
    simp [onePartition, hpid, PartitionConfiguration.members]
  · unfold onePartition
    split_ifs
    · exact ⟨hnodup, by simp⟩
    · exact ⟨nodup_nil, by simp⟩
  · unfold onePartition at hdropped
    split_ifs at hdropped

/-- A partition with three members: one is replaced by a new node, then the partition is dropped. -/
theorem node_states_mirror_replaced : ∃ s : ServerState Nat,
    (s.pcs (1, 0)).dropped = true ∧ Mirrors s.pcs s.nodes ∧
      ∀ node, (1, 0) ∉ (viewNode s.nodes node).partitions := by
  have hmirror := node_states_mirror (onePartition_loadable [1, 2] (by decide))
    [.updateConfiguration (1, 0) .downgradeToInactive 1, .nodeConnected 3,
      .updateConfiguration (1, 0) .upgradeToSecondary 3, .dropPartition (1, 0)] rfl ?_
  · exact ⟨_, rfl, hmirror.1, fun node => (hmirror.2 (1, 0) rfl node).2⟩
  · iterate 3 refine stepsMeet_cons trivial rfl ?_
    exact stepsMeet_cons (Nat.le_refl 3) rfl trivial

/-- A partition with four members is dropped: the first of its secondaries has been forgotten when
the last member is entered, and keeps the partition. -/
theorem fourth_member_keeps_partition : ∃ s : ServerState Nat,
    Loadable [(1, 0)] (onePartition [1, 2, 3]) ∧
    run ServerState.step (initializeNodeState [(1, 0)] (onePartition [1, 2, 3]))
      [.dropPartition (1, 0)] = some s ∧
    (s.pcs (1, 0)).dropped = true ∧ (s.pcs (1, 0)).members = [] ∧
    (1, 0) ∈ (viewNode s.nodes 1).partitions ∧ ¬ Mirrors s.pcs s.nodes := by
  refine ⟨_, onePartition_loadable _ (by decide), rfl, rfl, rfl, by decide, fun hmirrors => ?_⟩
  have hmem := (hmirrors.partitions 1 (1, 0)).mp (by decide)
  exact absurd hmem (by decide)

end Pegasus.Meta
