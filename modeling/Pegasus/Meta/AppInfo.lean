/-
The information the meta server keeps of a table, in memory and on its storage, after
`server_state.cpp` and `meta_bulk_load_service.cpp`.

Every change takes a copy of the `app_info` in memory, makes the change in the copy and writes
all of it to the storage. When the write has completed, only the change itself is made in
memory. Writes may complete in any order; one that times out is issued again.

- `Settled`: with at most one write under way, the storage holds what memory is going to be;
- `storage_matches_memory`: the main result, for tables that are changed one operation at a time.
-/

import Pegasus.Common
import Pegasus.Lib.Run

namespace Pegasus.Meta

open TransitionSystem

/-- `app_status`, for a table that has been created. -/
inductive AppStatus where
  | available
  | dropping
  | dropped
deriving DecidableEq

/-- The `envs` of a table, a map with its keys in order. -/
abbrev Envs := List (String × String)

namespace Envs

/-- `envs[key] = value`. -/
def set (key value : String) : Envs → Envs
  | [] => [(key, value)]
  | (k, v) :: rest =>
    if key < k then (key, value) :: (k, v) :: rest
    else if key = k then (key, value) :: rest
    else (k, v) :: set key value rest

/-- `envs.erase(key)`. -/
def erase (key : String) (envs : Envs) : Envs := envs.filter fun entry => entry.1 ≠ key

/-- `envs.find(key)`. -/
def find (key : String) (envs : Envs) : Option String :=
  (envs.find? fun entry => entry.1 == key).map Prod.snd

/-- `envs[key]` where it is read: a key that is absent is entered with an empty value. -/
def touch (key : String) (envs : Envs) : Envs :=
  if (envs.find key).isSome then envs else envs.set key ""

end Envs

/-- `replica_envs::UPDATE_MAX_REPLICA_COUNT`. -/
def updateMaxReplicaCountKey : String := "max_replica_count.update"

/-- `utils::split_args` at `';'`, without empty arguments. -/
def splitArgs (value : String) : List String :=
  ((value.toList.splitOn ';').filter fun arg => arg ≠ []).map String.ofList

/-- What the operations read and change of `app_info`. -/
structure AppInfo where
  status : AppStatus := .available
  maxReplicaCount : Int
  isBulkLoading : Bool := false
  envs : Envs := []
  dropSecond : Int := 0
  expireSecond : Int := 0
deriving DecidableEq

inductive Change where
  | setEnvs (kvs : List (String × String))
  | eraseEnvs (keys : List String)
  | clearEnvs
  | updatingMaxReplicaCount (old new : Int)
  | maxReplicaCount (old new : Int)
  | bulkLoading (flag : Bool)
  | dropped
deriving DecidableEq

/-- A change of an `app_info`: what is written, and what is done in memory. -/
def Change.apply (info : AppInfo) : Change → AppInfo
  | .setEnvs kvs => { info with envs := kvs.foldl (fun envs kv => envs.set kv.1 kv.2) info.envs }
  | .eraseEnvs keys => { info with envs := keys.foldl (fun envs key => envs.erase key) info.envs }
  | .clearEnvs => { info with envs := [] }
  | .updatingMaxReplicaCount _ new =>
    { info with envs := info.envs.set updateMaxReplicaCountKey s!"updating;{new}" }
  | .maxReplicaCount _ new =>
    { info with maxReplicaCount := new, envs := info.envs.erase updateMaxReplicaCountKey }
  | .bulkLoading flag => { info with isBulkLoading := flag }
  | .dropped => { info with status := .dropped }

def Change.NeedsTable : Change → Prop
  | .setEnvs _ | .eraseEnvs _ | .clearEnvs => True
  | _ => False

/-- A `set_data` of the whole `app_info`, and whether the storage has it. -/
structure InfoWrite where
  change : Change
  payload : AppInfo
  applied : Bool := false
deriving DecidableEq

structure AppTable where
  memory : AppInfo
  stored : AppInfo
  /-- The table is in `_exist_apps`. -/
  existing : Bool := true
  pending : List InfoWrite := []
  /-- The changes of `max_replica_count` whose partitions are being updated. -/
  updatingPartitions : List (Int × Int) := []
  /-- The partitions are being dropped. -/
  droppingPartitions : Bool := false
deriving DecidableEq

/-- What happens to a table: requests, the steps that follow from them, and the storage. -/
inductive AppEvent where
  | setAppEnvs (kvs : List (String × String)) (valid : Bool)
  | delAppEnvs (keys : List String)
  | clearAppEnvs (leading : String)
  | setMaxReplicaCount (count : Int) (valid : Bool)
  | partitionsUpdated (i : Nat)
  | startBulkLoad
  | resetBulkLoad
  | dropApp (dropSecond reserveSeconds : Int)
  | partitionsDropped
  | apply (i : Nat)
  | timeout (i : Nat)
  | complete (i : Nat)
deriving DecidableEq

namespace AppTable

/-- `do_update_app_info`, for a copy of what is in memory. -/
def write (change : Change) (t : AppTable) : AppTable :=
  { t with pending := t.pending ++ [{ change := change, payload := change.apply t.memory }] }

/-- Whether the env operations go on after they have looked the table up. -/
def acceptsEnvs (t : AppTable) : Bool := t.existing && t.memory.status != .dropping

/-- The keys that `clear_app_envs` deletes for a nonempty prefix: those that go on with a dot and
something after it. -/
def keysToClear (leading : String) (envs : Envs) : List String :=
  (envs.map Prod.fst).filter fun key =>
    decide (leading.length + 1 < key.length) && (leading ++ ".").toList.isPrefixOf key.toList

/-- `set_max_replica_count` and `set_max_replica_count_env_updating`. It reads the first argument of
the env, which aborts if there is none; logging enters an empty env. -/
def setMaxReplicaCount (count : Int) (t : AppTable) : Option AppTable :=
  match (t.memory.envs.find updateMaxReplicaCountKey).map splitArgs with
  | some [] => none
  | some ("updating" :: _) => some t
  | _ =>
    let t := { t with
      memory := { t.memory with envs := t.memory.envs.touch updateMaxReplicaCountKey } }
    some (t.write (.updatingMaxReplicaCount t.memory.maxReplicaCount count))

def callback (change : Change) (t : AppTable) : Option AppTable :=
  match change with
  | .setEnvs _ | .eraseEnvs _ | .clearEnvs =>
    some (if t.existing then { t with memory := change.apply t.memory } else t)
  | .updatingMaxReplicaCount old new =>
    some { t with
      memory := change.apply t.memory
      updatingPartitions := t.updatingPartitions ++ [(old, new)] }
  | .maxReplicaCount old _ =>
    if old = t.memory.maxReplicaCount then some { t with memory := change.apply t.memory } else none
  | .bulkLoading _ => some { t with memory := change.apply t.memory }
  | .dropped => some { t with existing := false, droppingPartitions := true }

/-- The write that is issued again after a timeout: `do_app_drop` takes a new copy. -/
def reissue (memory : AppInfo) (w : InfoWrite) : InfoWrite :=
  match w.change with
  | .dropped => { w with payload := w.change.apply memory, applied := false }
  | _ => { w with applied := false }

/-- One event. A request that is refused changes nothing; a failed `CHECK` aborts. The log lines of
`update_app_max_replica_count`, which enter an empty env by reading it, are left out. -/
def step (t : AppTable) : AppEvent → Option AppTable
  | .setAppEnvs kvs valid =>
    some (if kvs ≠ [] ∧ valid = true ∧ t.acceptsEnvs = true then t.write (.setEnvs kvs) else t)
  | .delAppEnvs keys =>
    some (if t.acceptsEnvs = true ∧ ∃ key ∈ keys, (t.memory.envs.find key).isSome = true then
        t.write (.eraseEnvs keys)
      else t)
  | .clearAppEnvs leading =>
    some (if t.acceptsEnvs = true ∧ t.memory.envs ≠ [] then
        if leading = "" then t.write .clearEnvs
        else
          if keysToClear leading t.memory.envs = [] then t
          else t.write (.eraseEnvs (keysToClear leading t.memory.envs))
      else t)
  | .setMaxReplicaCount count valid =>
    if t.existing = true ∧ t.memory.status = .available ∧ valid = true ∧
        count ≠ t.memory.maxReplicaCount then
      t.setMaxReplicaCount count
    else some t
  | .partitionsUpdated i =>
    (t.updatingPartitions[i]?).map fun counts =>
      { t with updatingPartitions := t.updatingPartitions.eraseIdx i }.write
        (.maxReplicaCount counts.1 counts.2)
  | .startBulkLoad =>
    some (if t.existing = true ∧ t.memory.status = .available ∧ t.memory.isBulkLoading = false then
        t.write (.bulkLoading true)
      else t)
  | .resetBulkLoad => some (t.write (.bulkLoading false))
  | .dropApp dropSecond reserveSeconds =>
    if t.existing = true ∧ t.memory.status = .available then
      -- the counter of partitions in progress has to be 0
      if t.updatingPartitions = [] then
        some ({ t with memory := { t.memory with
          status := .dropping
          dropSecond := dropSecond
          expireSecond := dropSecond + reserveSeconds } }.write .dropped)
      else none
    else some t
  | .partitionsDropped =>
    if t.droppingPartitions = true then
      some { t with
        memory := { t.memory with status := .dropped }
        droppingPartitions := false }
    else none
  | .apply i =>
    (t.pending[i]?).map fun w =>
      { t with stored := w.payload, pending := t.pending.set i { w with applied := true } }
  | .timeout i =>
    (t.pending[i]?).map fun w => { t with pending := t.pending.set i (reissue t.memory w) }
  | .complete i =>
    (t.pending[i]?).bind fun w =>
      if w.applied = true then
        { t with pending := t.pending.eraseIdx i }.callback w.change
      else none

def Quiet (t : AppTable) : Prop := t.pending = [] ∧ t.droppingPartitions = false

instance (t : AppTable) : Decidable t.Quiet := inferInstanceAs (Decidable (_ ∧ _))

/-- **The storage matches memory** whenever no write is under way. -/
def StorageMatches (t : AppTable) : Prop := t.Quiet → t.stored = t.memory

/-- Operations are started one at a time: not while a write is under way. -/
def OneAtATime (t : AppTable) : AppEvent → Prop
  | .apply _ | .timeout _ | .complete _ | .partitionsDropped => True
  | _ => t.Quiet

/-- With at most one write under way, the storage holds what memory is, or what it is going to
be. -/
inductive Settled (t : AppTable) : Prop where
  | quiet (hpending : t.pending = []) (hdropping : t.droppingPartitions = false)
      (hstored : t.stored = t.memory)
  | writing (w : InfoWrite) (hpending : t.pending = [w]) (hdropping : t.droppingPartitions = false)
      (hpayload : w.change.apply t.memory = w.payload)
      (happlied : w.applied = true → t.stored = w.payload)
      (hexisting : w.change.NeedsTable → t.existing = true)
  | dropping (hpending : t.pending = []) (hdropping : t.droppingPartitions = true)
      (hstored : t.stored = { t.memory with status := .dropped })

variable {t t' : AppTable}

variable (settled : t.Settled)
include settled

theorem Settled.storageMatches : t.StorageMatches := by
  rintro ⟨hpending, hdropping⟩
  cases settled with
  | quiet _ _ hstored => exact hstored
  | writing w hwriting => simp [hpending] at hwriting
  | dropping _ htrue => simp [hdropping] at htrue

omit settled in
theorem settled_write {change : Change} (hpending : t.pending = [])
    (hdropping : t.droppingPartitions = false)
    (hexisting : change.NeedsTable → t.existing = true) : (t.write change).Settled :=
  .writing _ (by rw [write, hpending]; rfl) hdropping rfl (by simp) hexisting

theorem settled_setMaxReplicaCount (quiet : t.Quiet) {count : Int}
    (hstep : t.setMaxReplicaCount count = some t') : t'.Settled := by
  unfold setMaxReplicaCount at hstep
  split at hstep
  · cases hstep
  · cases hstep
    exact settled
  · cases hstep
    exact settled_write quiet.1 quiet.2 fun h => h.elim

theorem Settled.request (quiet : t.Quiet) {e : AppEvent}
    (hstorage : ∀ i, e ≠ .apply i ∧ e ≠ .timeout i ∧ e ≠ .complete i)
    (hdropped : e ≠ .partitionsDropped) (hstep : t.step e = some t') : t'.Settled := by
  obtain ⟨hpending, hdropping⟩ := quiet
  cases e with
  | setAppEnvs kvs valid =>
    cases hstep
    split
    · rename_i haccept
      refine settled_write hpending hdropping fun _ => ?_
      exact (Bool.and_eq_true_iff.mp haccept.2.2).1
    · exact settled
  | delAppEnvs keys =>
    cases hstep
    split
    · rename_i haccept
      exact settled_write hpending hdropping fun _ => (Bool.and_eq_true_iff.mp haccept.1).1
    · exact settled
  | clearAppEnvs leading =>
    cases hstep
    split
    · rename_i haccept
      have hexisting := (Bool.and_eq_true_iff.mp haccept.1).1
      split
      · exact settled_write hpending hdropping fun _ => hexisting
      · split
        · exact settled
        · exact settled_write hpending hdropping fun _ => hexisting
    · exact settled
  | setMaxReplicaCount count valid =>
    simp only [step] at hstep
    split at hstep
    · exact settled_setMaxReplicaCount settled ⟨hpending, hdropping⟩ hstep
    · cases hstep
      exact settled
  | partitionsUpdated i =>
    obtain ⟨counts, _, rfl⟩ := Option.map_eq_some_iff.mp hstep
    exact settled_write hpending hdropping fun h => h.elim
  | startBulkLoad =>
    cases hstep
    split
    · exact settled_write hpending hdropping fun h => h.elim
    · exact settled
  | resetBulkLoad =>
    cases hstep
    exact settled_write hpending hdropping fun h => h.elim
  | dropApp dropSecond reserveSeconds =>
    simp only [step] at hstep
    split at hstep
    · split at hstep
      · cases hstep
        exact settled_write hpending hdropping fun h => h.elim
      · cases hstep
    · cases hstep
      exact settled
  | partitionsDropped => exact absurd rfl hdropped
  | apply i => exact absurd rfl (hstorage i).1
  | timeout i => exact absurd rfl (hstorage i).2.1
  | complete i => exact absurd rfl (hstorage i).2.2

theorem Settled.of_getElem? {i : Nat} {w : InfoWrite} (hw : t.pending[i]? = some w) :
    i = 0 ∧ t.pending = [w] ∧ t.droppingPartitions = false ∧
      w.change.apply t.memory = w.payload ∧ (w.applied = true → t.stored = w.payload) ∧
      (w.change.NeedsTable → t.existing = true) := by
  cases settled with
  | quiet hpending | dropping hpending => simp [hpending] at hw
  | writing w' hpending hdropping hpayload happlied hexisting =>
    rw [hpending, List.getElem?_singleton] at hw
    split at hw
    · rename_i hi
      cases hw
      exact ⟨hi, hpending, hdropping, hpayload, happlied, hexisting⟩
    · cases hw

omit settled in
theorem settled_callback {w : InfoWrite} (hpending : t.pending = [])
    (hdropping : t.droppingPartitions = false) (hstored : t.stored = w.change.apply t.memory)
    (hexisting : w.change.NeedsTable → t.existing = true)
    (hcallback : t.callback w.change = some t') : t'.Settled := by
  cases hchange : w.change with
  | setEnvs kvs | eraseEnvs keys | clearEnvs =>
    rw [hchange] at hstored hexisting hcallback
    simp only [callback, hexisting trivial, if_true, Option.some.injEq] at hcallback
    subst hcallback
    exact .quiet hpending hdropping hstored
  | updatingMaxReplicaCount old new | bulkLoading flag =>
    rw [hchange] at hstored hcallback
    simp only [callback, Option.some.injEq] at hcallback
    subst hcallback
    exact .quiet hpending hdropping hstored
  | maxReplicaCount old new =>
    rw [hchange] at hstored hcallback
    obtain ⟨-, rfl⟩ := of_guard hcallback
    exact .quiet hpending hdropping hstored
  | dropped =>
    rw [hchange] at hstored hcallback
    simp only [callback, Option.some.injEq] at hcallback
    subst hcallback
    exact .dropping hpending rfl hstored

/-- **One event** keeps the table settled, if operations are started one at a time. -/
theorem Settled.step {e : AppEvent} (alone : t.OneAtATime e) (hstep : t.step e = some t') :
    t'.Settled := by
  cases e with
  | partitionsDropped =>
    obtain ⟨htrue, rfl⟩ := of_guard hstep
    cases settled with
    | quiet _ hdropping | writing _ _ hdropping => simp [hdropping] at htrue
    | dropping hpending _ hstored => exact .quiet hpending rfl hstored
  | apply i =>
    obtain ⟨w, hw, rfl⟩ := Option.map_eq_some_iff.mp hstep
    obtain ⟨rfl, hpending, hdropping, hpayload, _, hexisting⟩ := settled.of_getElem? hw
    exact .writing { w with applied := true } (by simp [hpending]) hdropping hpayload
      (fun _ => rfl) hexisting
  | timeout i =>
    obtain ⟨w, hw, rfl⟩ := Option.map_eq_some_iff.mp hstep
    obtain ⟨rfl, hpending, hdropping, hpayload, _, hexisting⟩ := settled.of_getElem? hw
    have hreissue : reissue t.memory w = { w with applied := false } := by
      unfold reissue
      split
      · rename_i hchange
        rw [← hpayload]
      · rfl
    refine .writing { w with applied := false } ?_ hdropping hpayload (by simp) hexisting
    simp [hpending, hreissue]
  | complete i =>
    obtain ⟨w, hw, hcallback⟩ := Option.bind_eq_some_iff.mp hstep
    obtain ⟨rfl, hpending, hdropping, hpayload, happlied, hexisting⟩ := settled.of_getElem? hw
    split at hcallback
    · rename_i htrue
      have hempty : t.pending.eraseIdx 0 = [] := by simp [hpending]
      refine settled_callback ?_ ?_ ?_ ?_ hcallback
      · exact hempty
      · exact hdropping
      · exact (happlied htrue).trans hpayload.symm
      · exact hexisting
    · cases hcallback
  | _ => exact settled.request alone (by simp) (by simp) hstep

omit settled

def loaded (info : AppInfo) : AppTable := { memory := info, stored := info }

/-- **The storage matches memory**: after every run of a table whose operations are started one at a
time, whatever the order of the storage events and the timeouts between them. -/
theorem storage_matches_memory (info : AppInfo) (es : List AppEvent)
    (hrun : run step (loaded info) es = some t)
    (halone : StepsMeet step OneAtATime (loaded info) es) : t.StorageMatches := by
  have settled : t.Settled := run_invariant_of_steps
    (fun _ _ _ hstep alone settled => settled.step alone hstep) hrun halone (.quiet rfl rfl rfl)
  exact settled.storageMatches

/-- Two envs are set one after the other, and the first write times out once. -/
theorem storage_matches_memory_two_envs :
    ∃ t : AppTable, t.Quiet ∧ t.memory.envs = [("a", "1"), ("b", "2")] ∧ t.StorageMatches := by
  refine ⟨_, ?_, ?_, storage_matches_memory { maxReplicaCount := 3 }
    [.setAppEnvs [("a", "1")] true, .apply 0, .timeout 0, .apply 0, .complete 0,
      .setAppEnvs [("b", "2")] true, .apply 0, .complete 0] rfl ?_⟩
  · exact ⟨rfl, rfl⟩
  · rfl
  · refine stepsMeet_cons ⟨rfl, rfl⟩ rfl ?_
    refine stepsMeet_cons trivial rfl (stepsMeet_cons trivial rfl ?_)
    refine stepsMeet_cons trivial rfl (stepsMeet_cons trivial rfl ?_)
    refine stepsMeet_cons ⟨rfl, rfl⟩ rfl ?_
    exact stepsMeet_cons trivial rfl (stepsMeet_cons trivial rfl trivial)

/-- Two envs are set at the same time. Each write holds one of them only, the storage is left with
the second one and memory has both. -/
theorem overlapping_env_lost :
    ∃ t : AppTable, run step (loaded { maxReplicaCount := 3 })
        [.setAppEnvs [("a", "1")] true, .setAppEnvs [("b", "2")] true, .apply 0, .complete 0,
          .apply 0, .complete 0] = some t ∧ t.stored.envs = [("b", "2")] ∧
      t.memory.envs = [("a", "1"), ("b", "2")] ∧ ¬ t.StorageMatches := by
  refine ⟨_, rfl, rfl, rfl, fun hmatches => ?_⟩
  have henvs := congrArg AppInfo.envs (hmatches ⟨rfl, rfl⟩)
  exact absurd (congrArg List.length henvs) (by decide)

end AppTable

end Pegasus.Meta
