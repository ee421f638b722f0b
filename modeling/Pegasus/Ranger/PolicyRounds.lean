/-
Rounds of the policy manager, after `ranger_resource_policy_manager.cpp`.

A pulled document is loaded into a working set, and a task then dumps the set to the remote storage
and swaps its parts with the policies in use. The version of a document is taken over before its
policies are parsed, and a dump that times out is tried again after the swap.

- `complete_documents_take_effect`: only complete documents are dumped and in use, if dumps do not
  time out and are done before the next newer document, and for tables if newer documents can be
  parsed;
- `half_document_takes_effect`: what was loaded before an error reaches the tables.
-/

import Pegasus.Ranger.AccessControl

namespace Pegasus.Ranger

open TransitionSystem

/-- The policies of a document, loaded into an empty working set. -/
def loadDocument (policies : List PolicyDoc) : RangerError × AllResourcePolicies :=
  if policies.isEmpty then (.parseAcl, {}) else loadPolicies {} policies

structure PolicyManager where
  localPolicyVersion : Int := -1
  allResourcePolicies : AllResourcePolicies := {}
  globalPoliciesCache : List RangerResourcePolicy := []
  databasePoliciesCache : List RangerResourcePolicy := []
  /-- The policies that the envs of the tables were set from. -/
  tablePolicies : List RangerResourcePolicy := []
  /-- How many tasks for `dump_and_sync_policies` are on their way. -/
  dumpTasks : Nat := 0
  /-- How many dumps timed out and are tried again later. -/
  dumpRetries : Nat := 0
  /-- What is in the remote storage. -/
  stored : Option AllResourcePolicies := none
deriving DecidableEq

inductive RoundEvent where
  /-- `update_policies_from_ranger_service`; a document may lack a version. -/
  | pull (doc : Option PolicyDocument)
  | dumpAndSync (timeout : Bool)
  | retryDump (timeout : Bool)

namespace PolicyManager

variable (m : PolicyManager)

/-- `sync_policies_to_app_envs`, which does nothing if there are no policies for tables. -/
def syncToAppEnvs : PolicyManager :=
  if m.allResourcePolicies.databaseTable = [] then m
  else { m with tablePolicies := m.allResourcePolicies.databaseTable }

/-- `update_policies_from_ranger_service` with `load_policies_from_json`. -/
def updatePolicies : Option PolicyDocument → RangerError × PolicyManager
  | none => (.parseAcl, m)
  | some doc =>
    if doc.policyVersion ≤ m.localPolicyVersion then (.ok, m.syncToAppEnvs)
    else
      let (err, all) := loadDocument doc.policies
      let m := { m with localPolicyVersion := doc.policyVersion, allResourcePolicies := all }
      (err, if err = .ok then { m with dumpTasks := m.dumpTasks + 1 } else m)

def dumpPoliciesToRemoteStorage (timeout : Bool) : PolicyManager :=
  if timeout then { m with dumpRetries := m.dumpRetries + 1 }
  else { m with stored := some m.allResourcePolicies }

def updateCachedPolicies : PolicyManager :=
  { m with
    globalPoliciesCache := m.allResourcePolicies.global
    databasePoliciesCache := m.allResourcePolicies.database
    allResourcePolicies :=
      { m.allResourcePolicies with
        global := m.globalPoliciesCache
        database := m.databasePoliciesCache } }

def dumpAndSyncPolicies (timeout : Bool) : PolicyManager :=
  (m.dumpPoliciesToRemoteStorage timeout).updateCachedPolicies.syncToAppEnvs

def step (m : PolicyManager) : RoundEvent → Option PolicyManager
  | .pull doc => some (m.updatePolicies doc).2
  | .dumpAndSync timeout =>
    if m.dumpTasks = 0 then none
    else some ({ m with dumpTasks := m.dumpTasks - 1 }.dumpAndSyncPolicies timeout)
  | .retryDump timeout =>
    if m.dumpRetries = 0 then none
    else some ({ m with dumpRetries := m.dumpRetries - 1 }.dumpPoliciesToRemoteStorage timeout)

/-- A newer document finds no task on its way, and no dump times out. -/
def Orderly : RoundEvent → Prop
  | .pull (some doc) => m.localPolicyVersion < doc.policyVersion → m.dumpTasks = 0
  | .dumpAndSync timeout => timeout = false
  | _ => True

def Parses : RoundEvent → Prop
  | .pull (some doc) =>
    m.localPolicyVersion < doc.policyVersion → (loadDocument doc.policies).1 = .ok
  | _ => True

variable (es : List RoundEvent)

/-- The document was pulled in one of the rounds, and all its policies could be parsed. -/
def Pulled (doc : PolicyDocument) : Prop :=
  .pull (some doc) ∈ es ∧ (loadDocument doc.policies).1 = .ok

/-- The policies are those of one document that was pulled, all of it. -/
def Complete (all : AllResourcePolicies) : Prop :=
  ∃ doc, Pulled es doc ∧ (loadDocument doc.policies).2 = all

/-- The policies are those of one document that was pulled, or there are none yet. -/
def CompleteOrNone (all : AllResourcePolicies) : Prop := all = {} ∨ Complete es all

def effective : Option AllResourcePolicies × List (List RangerResourcePolicy) :=
  (m.stored, [m.globalPoliciesCache, m.databasePoliciesCache, m.tablePolicies])

/-- Only complete documents are dumped, and in use for the whole cluster and for databases. -/
structure Sound : Prop where
  fresh : m.dumpTasks ≠ 0 → m.dumpTasks = 1 ∧ Complete es m.allResourcePolicies
  retries : m.dumpRetries = 0
  stored : ∀ all, m.stored = some all → Complete es all
  inUse : ∃ all, CompleteOrNone es all ∧ m.globalPoliciesCache = all.global ∧
    m.databasePoliciesCache = all.database

/-- The accepted version is that of a complete document, whose policies for tables are loaded. -/
def VersionSound : Prop :=
  (m.localPolicyVersion = -1 ∧ m.allResourcePolicies.databaseTable = []) ∨
    ∃ doc, Pulled es doc ∧ m.localPolicyVersion = doc.policyVersion ∧
      m.allResourcePolicies.databaseTable = (loadDocument doc.policies).2.databaseTable

/-- Only complete documents are loaded and in use for tables. -/
structure TablesSound : Prop where
  version : m.VersionSound es
  tables : ∃ all, CompleteOrNone es all ∧ m.tablePolicies = all.databaseTable

variable {m} {es} {m' : PolicyManager} {e : RoundEvent}

theorem VersionSound.working (h : m.VersionSound es) :
    ∃ all, CompleteOrNone es all ∧ m.allResourcePolicies.databaseTable = all.databaseTable := by
  rcases h with ⟨-, hnone⟩ | ⟨doc, hdoc, -, htables⟩
  · exact ⟨{}, .inl rfl, hnone⟩
  · exact ⟨_, .inr ⟨doc, hdoc, rfl⟩, htables⟩

/-! ### What is dumped -/

theorem Sound.syncToAppEnvs (h : m.Sound es) : m.syncToAppEnvs.Sound es := by
  unfold PolicyManager.syncToAppEnvs
  split
  · exact h
  · exact ⟨h.fresh, h.retries, h.stored, h.inUse⟩

theorem Sound.updatePolicies (h : m.Sound es) {doc : Option PolicyDocument}
    (hmem : .pull doc ∈ es) (horderly : m.Orderly (.pull doc)) :
    (m.updatePolicies doc).2.Sound es := by
  cases doc with
  | none => exact h
  | some doc =>
    unfold PolicyManager.updatePolicies
    dsimp only
    split
    · exact h.syncToAppEnvs
    · rename_i hnewer
      have htasks : m.dumpTasks = 0 := horderly (by omega)
      -- the working set is half a document after an error, but then no task is started for it
      split
      · rename_i hok
        exact ⟨fun _ => ⟨by simp [htasks], doc, ⟨hmem, hok⟩, rfl⟩, h.retries, h.stored, h.inUse⟩
      · exact ⟨fun hmore => absurd htasks hmore, h.retries, h.stored, h.inUse⟩

theorem Sound.dumpAndSync (h : m.Sound es) (htasks : m.dumpTasks ≠ 0) :
    ({ m with dumpTasks := m.dumpTasks - 1 }.dumpAndSyncPolicies false).Sound es := by
  obtain ⟨hone, hcomplete⟩ := h.fresh htasks
  refine Sound.syncToAppEnvs ⟨fun hmore => ?_, h.retries, fun all hall => ?_,
    ⟨_, .inr hcomplete, rfl, rfl⟩⟩
  · exact absurd (show m.dumpTasks - 1 = 0 by omega) hmore
  · cases hall
    exact hcomplete

theorem Sound.step (h : m.Sound es) (hmem : e ∈ es) (horderly : m.Orderly e)
    (hstep : m.step e = some m') : m'.Sound es := by
  cases e with
  | pull doc =>
    cases hstep
    exact h.updatePolicies hmem horderly
  | dumpAndSync timeout =>
    obtain ⟨htasks, hstep⟩ := Option.ite_none_left_eq_some.mp hstep
    cases hstep
    cases horderly
    exact h.dumpAndSync htasks
  | retryDump timeout =>
    obtain ⟨hretries, -⟩ := Option.ite_none_left_eq_some.mp hstep
    exact absurd h.retries hretries

/-! ### What the tables get -/

theorem TablesSound.syncToAppEnvs (h : m.TablesSound es) : m.syncToAppEnvs.TablesSound es := by
  unfold PolicyManager.syncToAppEnvs
  split
  · exact h
  · exact ⟨h.version, h.version.working⟩

theorem TablesSound.step (h : m.TablesSound es) (hmem : e ∈ es) (hparses : m.Parses e)
    (hstep : m.step e = some m') : m'.TablesSound es := by
  cases e with
  | pull doc =>
    cases hstep
    cases doc with
    | none => exact h
    | some doc =>
      unfold PolicyManager.updatePolicies
      dsimp only
      split
      · exact h.syncToAppEnvs
      · rename_i hnewer
        have hok := hparses (by omega)
        rw [hok, if_pos rfl]
        exact ⟨.inr ⟨doc, ⟨hmem, hok⟩, rfl, rfl⟩, h.tables⟩
  | dumpAndSync timeout =>
    obtain ⟨-, hstep⟩ := Option.ite_none_left_eq_some.mp hstep
    cases hstep
    refine TablesSound.syncToAppEnvs ?_
    cases timeout <;> exact ⟨h.version, h.tables⟩
  | retryDump timeout =>
    obtain ⟨-, hstep⟩ := Option.ite_none_left_eq_some.mp hstep
    cases hstep
    cases timeout <;> exact ⟨h.version, h.tables⟩

/-- **A bad document changes nothing**, along every run, as far as this holds. A pull that fails
leaves what is in use as it is, and without a document everything. What is dumped is all of one
document that was pulled, and so is what is in use for the whole cluster and for databases, if dumps
do not time out and are done before the next newer document. If newer documents can be parsed, the
tables use all of one document that was pulled, and the accepted version is that of a document that
is loaded, all of it. -/
theorem complete_documents_take_effect {es : List RoundEvent} (hrun : run step {} es = some m) :
    (∀ doc, (m.updatePolicies doc).1 ≠ .ok →
      (m.updatePolicies doc).2.effective = m.effective ∧
        (doc = none → (m.updatePolicies doc).2 = m)) ∧
    (StepsMeet step Orderly {} es →
      (∀ all, m.stored = some all → Complete es all) ∧
      ∃ all, CompleteOrNone es all ∧ m.globalPoliciesCache = all.global ∧
        m.databasePoliciesCache = all.database) ∧
    (StepsMeet step Parses {} es → m.VersionSound es ∧
      ∃ all, CompleteOrNone es all ∧ m.tablePolicies = all.databaseTable) := by
  have hmem : StepsMeet step (fun _ e => e ∈ es) {} es := stepsMeet_of_forall (fun _ he _ => he) _
  refine ⟨fun doc herror => ?_, fun horderly => ?_, fun hparses => ?_⟩
  · cases doc with
    | none => exact ⟨rfl, fun _ => rfl⟩
    | some doc =>
      unfold PolicyManager.updatePolicies at herror ⊢
      dsimp only at herror ⊢
      split at herror
      · exact absurd rfl herror
      · rename_i hnewer
        rw [if_neg hnewer, if_neg herror]
        exact ⟨rfl, nofun⟩
  · have h : m.Sound es := run_invariant_of_steps (I := (Sound · es))
      (fun _ _ _ hstep hmeet h => Sound.step h hmeet.1 hmeet.2 hstep) hrun
      (stepsMeet_and hmem horderly) ⟨fun h => absurd rfl h, rfl, nofun, ⟨{}, .inl rfl, rfl, rfl⟩⟩
    exact ⟨h.stored, h.inUse⟩
  · have h : m.TablesSound es := run_invariant_of_steps (I := (TablesSound · es))
      (fun _ _ _ hstep hmeet h => TablesSound.step h hmeet.1 hmeet.2 hstep) hrun
      (stepsMeet_and hmem hparses) ⟨.inl ⟨rfl, rfl⟩, ⟨{}, .inl rfl, rfl⟩⟩
    exact ⟨h.version, h.tables⟩

/-- The document of `readDocument` with a second policy that cannot be parsed. -/
def brokenDocument (version : Int) (table user : String) : PolicyDocument :=
  { readDocument version table user with
    policies := (readDocument version table user).policies ++
      [{ isEnabled := true, name := "bad", resources := [], policyItems := []
         denyPolicyItems := [], allowExceptions := [], denyExceptions := []
         resources_nodup := by simp }] }

/-- A document whose dump is done, then one that cannot be parsed. -/
def brokenRounds : List RoundEvent :=
  [.pull none, .pull (some (readDocument 1 "t" "alice")), .dumpAndSync false,
    .pull (some (brokenDocument 2 "u" "bob")), .pull none]

/-- A document whose dump times out and is tried again. -/
def retriedRounds : List RoundEvent :=
  [.pull none, .pull (some (readDocument 1 "t" "alice")), .dumpAndSync true, .retryDump false,
    .pull none]

theorem complete_documents_take_effect_broken_retried :
    (∃ m, run step {} brokenRounds = some m ∧ m.localPolicyVersion = 2 ∧ m.stored ≠ none ∧
      ∀ all, m.stored = some all → Complete brokenRounds all) ∧
    ∃ m, run step {} retriedRounds = some m ∧ m.tablePolicies ≠ [] ∧
      m.VersionSound retriedRounds := by
  have horderly : StepsMeet step Orderly {} brokenRounds := by
    refine stepsMeet_cons trivial rfl (stepsMeet_cons (fun _ => rfl) rfl ?_)
    refine stepsMeet_cons rfl rfl (stepsMeet_cons (fun _ => rfl) rfl ?_)
    exact stepsMeet_cons trivial rfl trivial
  have hparses : StepsMeet step Parses {} retriedRounds := by
    refine stepsMeet_cons trivial rfl (stepsMeet_cons (fun _ => rfl) rfl ?_)
    iterate 3 refine stepsMeet_cons trivial rfl ?_
    trivial
  exact ⟨⟨_, rfl, rfl, by decide, ((complete_documents_take_effect rfl).2.1 horderly).1⟩,
    _, rfl, by decide, ((complete_documents_take_effect rfl).2.2 hparses).1⟩

/-- **Half a document takes effect.** The first pull fails, but its version is accepted. The next
pull finds nothing new, although the document is well-formed by now, and sets the envs of the tables
from what was loaded before the error. -/
theorem half_document_takes_effect :
    ((({} : PolicyManager).updatePolicies (some (brokenDocument 1 "t" "alice"))).1 = .parseAcl) ∧
    ∃ m, run step {} [.pull (some (brokenDocument 1 "t" "alice")),
        .pull (some (readDocument 1 "u" "bob"))] = some m ∧
      m.localPolicyVersion = 1 ∧ m.dumpTasks = 0 ∧ m.tablePolicies.map (·.tableNames) = [["t"]] :=
  ⟨rfl, _, rfl, rfl, rfl, rfl⟩

end PolicyManager

end Pegasus.Ranger
