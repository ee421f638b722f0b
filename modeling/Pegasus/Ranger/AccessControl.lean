/-
Access control of tables by Ranger policies, after `ranger_resource_policy_manager.cpp`,
`ranger_resource_policy.cpp` and `replica_access_controller.cpp`.

The meta server polls a document of policies. What a new version says of tables is matched against
the name of each table and stored as an env of that table; a replica takes over the env when the
envs of its table are updated, and answers requests by the policies it has.

- `PolicyDocument.Allows`: what a document grants;
- `current_policies_decide_iff`: when the answer is that of the current document.
-/

import Pegasus.Common
import Pegasus.Lib.Run

namespace Pegasus.Ranger

open List
open Option hiding or_assoc or_self any_eq_true

/-! ### Policies and their checks -/

/-- `policy_item`, with its `access_types` as bits. -/
structure PolicyItem where
  accessTypes : UInt8 := 0
  users : List String := []
deriving DecidableEq

/-- `policy_item::match`. -/
def PolicyItem.matches (item : PolicyItem) (acType : UInt8) (userName : String) : Bool :=
  item.accessTypes &&& acType != 0 && item.users.contains userName

structure AclPolicies where
  allowPolicies : List PolicyItem := []
  allowPoliciesExclude : List PolicyItem := []
  denyPolicies : List PolicyItem := []
  denyPoliciesExclude : List PolicyItem := []
deriving DecidableEq

inductive PolicyCheckStatus where
  | allowed
  | denied
  | notMatched
  | pending
deriving DecidableEq

/-- `do_policies_check`: the first item that matches decides. -/
def doPoliciesCheck (status : PolicyCheckStatus) (exclude : List PolicyItem) (acType : UInt8)
    (userName : String) : List PolicyItem → PolicyCheckStatus
  | [] => .notMatched
  | policy :: rest =>
    if policy.matches acType userName = false then
      doPoliciesCheck status exclude acType userName rest
    else if exclude.any fun item => item.matches acType userName then .pending
    else status

/-- `policies_check<kAllow>`. -/
def AclPolicies.checkAllow (acl : AclPolicies) (acType : UInt8) (userName : String) :
    PolicyCheckStatus :=
  doPoliciesCheck .allowed acl.allowPoliciesExclude acType userName acl.allowPolicies

/-- `policies_check<kDeny>`. -/
def AclPolicies.checkDeny (acl : AclPolicies) (acType : UInt8) (userName : String) :
    PolicyCheckStatus :=
  doPoliciesCheck .denied acl.denyPoliciesExclude acType userName acl.denyPolicies

inductive AccessControlResult where
  | allowed
  | denied
  | pending
deriving DecidableEq

/-- `matched_database_table_policy`, as it is stored in an env. -/
structure MatchedDatabaseTablePolicy where
  matchedDatabaseName : String
  matchedTableName : String
  policies : AclPolicies
deriving DecidableEq

/-- `do_check_ranger_database_table_policy`: the first policy with the status that is looked for
gives the result. A status that is not expected aborts. -/
def doCheckRangerDatabaseTablePolicy (check : AclPolicies → PolicyCheckStatus)
    (status : PolicyCheckStatus) (result : AccessControlResult) :
    List MatchedDatabaseTablePolicy → Option AccessControlResult
  | [] => some .pending
  | policy :: rest =>
    if check policy.policies = status then some result
    else if check policy.policies = .pending ∨ check policy.policies = .notMatched then
      doCheckRangerDatabaseTablePolicy check status result rest
    else none

def checkRangerDatabaseTablePolicyAllowed (policies : List MatchedDatabaseTablePolicy)
    (acType : UInt8) (userName : String) : Option AccessControlResult :=
  (doCheckRangerDatabaseTablePolicy (fun acl => acl.checkDeny acType userName) .denied .denied
      policies).bind fun checkDeny =>
    if checkDeny = .denied then some .denied
    else
      (doCheckRangerDatabaseTablePolicy (fun acl => acl.checkAllow acType userName) .allowed
          .allowed policies).map fun checkAllow =>
        if checkAllow = .allowed then .allowed else .denied

/-! ### Documents -/

structure AccessDoc where
  type : String
  isAllowed : Bool
deriving DecidableEq

structure ItemDoc where
  accesses : List AccessDoc
  users : List String
deriving DecidableEq

/-- An entry of `policies`. The members of `resources` have different names. -/
structure PolicyDoc where
  isEnabled : Bool
  name : String
  resources : List (String × List String)
  policyItems : List ItemDoc
  denyPolicyItems : List ItemDoc
  allowExceptions : List ItemDoc
  denyExceptions : List ItemDoc
  resources_nodup : (resources.map Prod.fst).Nodup
deriving DecidableEq

open PolicyDoc

structure PolicyDocument where
  policyVersion : Int
  policies : List PolicyDoc
deriving DecidableEq

/-- `kAccessTypeMaping`. -/
def accessTypeMapping : List (String × UInt8) :=
  [("READ", 1), ("WRITE", 2), ("CREATE", 4), ("DROP", 8), ("LIST", 16), ("METADATA", 32),
    ("CONTROL", 64)]

/-- The access type of an entry, if it is allowed and known. -/
def AccessDoc.accessType (access : AccessDoc) : Option UInt8 :=
  if access.isAllowed then
    accessTypeMapping.lookup (String.ofList (access.type.toList.map Char.toUpper))
  else none

def ItemDoc.parse (item : ItemDoc) : PolicyItem where
  accessTypes := item.accesses.foldl
    (fun types access => types ||| access.accessType.getD 0) 0
  users := item.users

def parsePoliciesFromJson (items : List ItemDoc) : List PolicyItem := items.map ItemDoc.parse

structure RangerResourcePolicy where
  name : String
  databaseNames : List String := []
  tableNames : List String := []
  policies : AclPolicies
deriving DecidableEq

inductive ResourceType where
  | global
  | database
  | databaseTable
deriving DecidableEq

/-- The type of a policy by its resources, with the names of databases and tables. -/
def PolicyDoc.resourceType (policy : PolicyDoc) :
    Option (ResourceType × List String × List String) :=
  if policy.resources.length = 1 then
    if (policy.resources.lookup "global").isSome then some (.global, [], [])
    else (policy.resources.lookup "database").map fun names => (.database, names, [])
  else if policy.resources.length = 2 then
    (policy.resources.lookup "database").bind fun databases =>
      (policy.resources.lookup "table").map fun tables => (.databaseTable, databases, tables)
  else none

def PolicyDoc.aclPolicies (policy : PolicyDoc) : AclPolicies where
  allowPolicies := parsePoliciesFromJson policy.policyItems
  denyPolicies := parsePoliciesFromJson policy.denyPolicyItems
  allowPoliciesExclude := parsePoliciesFromJson policy.allowExceptions
  denyPoliciesExclude := parsePoliciesFromJson policy.denyExceptions

def PolicyDoc.resourcePolicy (policy : PolicyDoc) (databases tables : List String) :
    RangerResourcePolicy where
  name := policy.name
  databaseNames := databases
  tableNames := tables
  policies := policy.aclPolicies

/-- `_all_resource_policies`. A type without policies is absent from the map. -/
structure AllResourcePolicies where
  global : List RangerResourcePolicy := []
  database : List RangerResourcePolicy := []
  databaseTable : List RangerResourcePolicy := []
deriving DecidableEq

def AllResourcePolicies.add (all : AllResourcePolicies) (policy : RangerResourcePolicy) :
    ResourceType → AllResourcePolicies
  | .global => { all with global := all.global ++ [policy] }
  | .database => { all with database := all.database ++ [policy] }
  | .databaseTable => { all with databaseTable := all.databaseTable ++ [policy] }

inductive RangerError where
  | ok
  | parseAcl
  | noNeedUpdate
deriving DecidableEq

/-- The loop of `load_policies_from_json`. An error leaves what has been loaded so far. -/
def loadPolicies (all : AllResourcePolicies) :
    List PolicyDoc → RangerError × AllResourcePolicies
  | [] => (.ok, all)
  | policy :: rest =>
    if policy.isEnabled = false then loadPolicies all rest
    else if policy.resources.any fun resource => resource.2.isEmpty then (.parseAcl, all)
    else match policy.resourceType with
      | none => (.parseAcl, all)
      | some (type, databases, tables) =>
        loadPolicies (all.add (policy.resourcePolicy databases tables) type) rest

/-! ### From the meta server to a replica -/

/-- `get_database_name_from_app_name`: what stands before the first dot, if anything does. -/
def getDatabaseNameFromAppName (appName : String) : String :=
  if appName.toList.contains '.' then String.ofList (appName.toList.takeWhile (· ≠ '.')) else ""

def getTableNameFromAppName (appName : String) : String :=
  if getDatabaseNameFromAppName appName = "" then appName
  else String.ofList (appName.toList.drop ((getDatabaseNameFromAppName appName).toList.length + 1))

/-- The database a table is matched by: that of a legacy table is configured. -/
def matchedDatabase (legacyDatabase appName : String) : String :=
  if getDatabaseNameFromAppName appName = "" then legacyDatabase
  else getDatabaseNameFromAppName appName

/-- The body of the loop of `sync_policies_to_app_envs` over policies. -/
def RangerResourcePolicy.matchTable (databaseName tableName : String)
    (policy : RangerResourcePolicy) : Option MatchedDatabaseTablePolicy :=
  if databaseName ∉ policy.databaseNames ∧ "*" ∉ policy.databaseNames then none
  else if tableName ∉ policy.tableNames ∧ "*" ∉ policy.tableNames then none
  else some
    { matchedDatabaseName := if databaseName ∈ policy.databaseNames then databaseName else "*"
      matchedTableName := if tableName ∈ policy.tableNames then tableName else "*"
      policies := policy.policies }

def matchedPolicies (legacyDatabase appName : String) (policies : List RangerResourcePolicy) :
    List MatchedDatabaseTablePolicy :=
  policies.filterMap
    (RangerResourcePolicy.matchTable (matchedDatabase legacyDatabase appName)
      (getTableNameFromAppName appName))

/-- `json_forwarder` for the policies of an env: policies that were loaded from a document are decoded
again, and a text that cannot be decoded, such as the empty one, gives no policies. -/
structure EnvCodec (Text : Type) where
  empty : Text
  encode : List MatchedDatabaseTablePolicy → Text
  decode : Text → List MatchedDatabaseTablePolicy
  decode_empty : decode empty = []
  decode_encode : ∀ legacyDatabase appName policies,
    (∀ policy ∈ policies, ∃ doc : PolicyDoc, policy.policies = doc.aclPolicies) →
      decode (encode (matchedPolicies legacyDatabase appName policies)) =
        matchedPolicies legacyDatabase appName policies

/-- A table, with its env `replica_access_controller.ranger_policies`. -/
structure Table (Text : Type) where
  appName : String
  rangerPolicies : Option Text := none
deriving DecidableEq

/-- `replica_access_controller`. -/
structure AccessController (Text : Type) where
  allowedUsers : List String := []
  envPolicies : Text
  rangerPolicies : List MatchedDatabaseTablePolicy := []
deriving DecidableEq

structure AclFlags where
  enableAcl : Bool := true
  enableRangerAcl : Bool
  superUsers : List String := []
deriving DecidableEq

section

variable {Text : Type} [DecidableEq Text] (codec : EnvCodec Text) (legacyDatabase : String)

def syncPoliciesToAppEnvs (all : AllResourcePolicies) (tables : List (Table Text)) :
    List (Table Text) :=
  if all.databaseTable.isEmpty then tables
  else tables.map fun table =>
    let matched := matchedPolicies legacyDatabase table.appName all.databaseTable
    { table with
      rangerPolicies := if matched.isEmpty then none else some (codec.encode matched) }

def AccessController.updateRangerPolicies (policies : Text) (controller : AccessController Text) :
    AccessController Text :=
  if controller.envPolicies = policies then controller
  else { controller with envPolicies := policies, rangerPolicies := codec.decode policies }

def AccessController.updateAcRangerPolicies (env : Option Text)
    (controller : AccessController Text) : AccessController Text :=
  match env with
  | none => controller
  | some policies => controller.updateRangerPolicies codec policies

omit [DecidableEq Text] in
def AccessController.allowed (flags : AclFlags) (controller : AccessController Text)
    (userName : String) (reqType : UInt8) : Option Bool :=
  if flags.enableRangerAcl = false then
    if flags.enableAcl = false ∨ userName ∈ flags.superUsers then some true
    else some (controller.allowedUsers.isEmpty || controller.allowedUsers.contains userName)
  else
    (checkRangerDatabaseTablePolicyAllowed controller.rangerPolicies reqType userName).map
      fun result => result = .allowed

structure Replica (Text : Type) where
  appName : String
  controller : AccessController Text
deriving DecidableEq

/-- The policies the meta server has, its tables and their replicas. -/
structure Cluster (Text : Type) where
  localPolicyVersion : Int := -1
  allResourcePolicies : AllResourcePolicies := {}
  tables : List (Table Text) := []
  replicas : List (Replica Text) := []
deriving DecidableEq

namespace Cluster

variable (s : Cluster Text)

/-- `load_policies_from_json`. The version is taken over before anything is loaded. -/
def loadPoliciesFromJson (doc : PolicyDocument) : RangerError × Cluster Text :=
  if doc.policyVersion ≤ s.localPolicyVersion then (.noNeedUpdate, s)
  else
    let loaded := if doc.policies.isEmpty then (.parseAcl, {}) else loadPolicies {} doc.policies
    (loaded.1,
      { s with localPolicyVersion := doc.policyVersion, allResourcePolicies := loaded.2 })

/-- `update_policies_from_ranger_service`: without an error, the envs are brought up to date. -/
def updatePoliciesFromRangerService (doc : PolicyDocument) : RangerError × Cluster Text :=
  let (err, s) := s.loadPoliciesFromJson doc
  if err = .parseAcl then (err, s)
  else
    (.ok, { s with
      tables := syncPoliciesToAppEnvs codec legacyDatabase s.allResourcePolicies s.tables })

def findTable (appName : String) : Option (Table Text) :=
  s.tables.find? fun table => table.appName == appName

def updateAppEnvs (i : Nat) : Option (Cluster Text) :=
  (s.replicas[i]?).bind fun replica =>
    (s.findTable replica.appName).map fun table =>
      let controller := replica.controller.updateAcRangerPolicies codec table.rangerPolicies
      { s with replicas := s.replicas.set i { replica with controller := controller } }

end Cluster

inductive ClusterEvent where
  | createApp (appName : String)
  | addReplica (appName : String) (allowedUsers : List String)
  | poll (doc : PolicyDocument)
  | updateAppEnvs (i : Nat)
deriving DecidableEq

def Cluster.step (s : Cluster Text) : ClusterEvent → Option (Cluster Text)
  | .createApp appName =>
    if (s.findTable appName).isSome then none
    else some { s with tables := s.tables ++ [{ appName := appName }] }
  | .addReplica appName allowedUsers =>
    some { s with replicas := s.replicas ++
      [{ appName := appName
         controller := { allowedUsers := allowedUsers, envPolicies := codec.empty } }] }
  | .poll doc => some (s.updatePoliciesFromRangerService codec legacyDatabase doc).2
  | .updateAppEnvs i => s.updateAppEnvs codec i

end

/-! ### What a document grants -/

def ItemDoc.Covers (acType : UInt8) (userName : String) (item : ItemDoc) : Prop :=
  (∃ access ∈ item.accesses, ∃ type, access.accessType = some type ∧ type &&& acType ≠ 0) ∧
    userName ∈ item.users

/-- A policy denies, and its exceptions do not exclude it. -/
def PolicyDoc.Denies (acType : UInt8) (userName : String) (policy : PolicyDoc) : Prop :=
  (∃ item ∈ policy.denyPolicyItems, item.Covers acType userName) ∧
    ¬ ∃ item ∈ policy.denyExceptions, item.Covers acType userName

/-- A policy allows, and its exceptions do not exclude it. -/
def PolicyDoc.Allows (acType : UInt8) (userName : String) (policy : PolicyDoc) : Prop :=
  (∃ item ∈ policy.policyItems, item.Covers acType userName) ∧
    ¬ ∃ item ∈ policy.allowExceptions, item.Covers acType userName

/-- An enabled policy for tables, by its databases and its tables. -/
def PolicyDoc.tableNames (policy : PolicyDoc) : Option (List String × List String) :=
  if policy.isEnabled = true ∧ policy.resources.length = 2 then
    (policy.resources.lookup "database").bind fun databases =>
      (policy.resources.lookup "table").map fun tables => (databases, tables)
  else none

/-- An enabled policy for tables matches a table by name or by an asterisk. -/
def PolicyDoc.Matches (legacyDatabase appName : String) (policy : PolicyDoc) : Prop :=
  ∃ databases tables, policy.tableNames = some (databases, tables) ∧
    (matchedDatabase legacyDatabase appName ∈ databases ∨ "*" ∈ databases) ∧
    (getTableNameFromAppName appName ∈ tables ∨ "*" ∈ tables)

/-- **The decision of a document** for a table: no policy that matches denies, and one allows. -/
def PolicyDocument.Allows (legacyDatabase appName : String) (acType : UInt8) (userName : String)
    (doc : PolicyDocument) : Prop :=
  (¬ ∃ policy ∈ doc.policies, policy.Matches legacyDatabase appName ∧
      policy.Denies acType userName) ∧
    ∃ policy ∈ doc.policies, policy.Matches legacyDatabase appName ∧ policy.Allows acType userName

/-! ### The checks -/

section Checks

variable {acType : UInt8} {userName : String}

def Hits (acType : UInt8) (userName : String) (items exclude : List PolicyItem) : Prop :=
  (∃ item ∈ items, item.matches acType userName = true) ∧
    ¬ ∃ item ∈ exclude, item.matches acType userName = true

variable (acType userName) in
theorem doPoliciesCheck_cases (status : PolicyCheckStatus) (exclude items : List PolicyItem) :
    (Hits acType userName items exclude ∧
      doPoliciesCheck status exclude acType userName items = status) ∨
    (¬ Hits acType userName items exclude ∧
      (doPoliciesCheck status exclude acType userName items = .pending ∨
        doPoliciesCheck status exclude acType userName items = .notMatched)) := by
  induction items with
  | nil => exact .inr ⟨by simp [Hits], .inr rfl⟩
  | cons item rest ih =>
    cases hitem : item.matches acType userName with
    | false =>
      have hhits : Hits acType userName (item :: rest) exclude ↔
          Hits acType userName rest exclude := by
        simp [Hits, hitem]
      rw [hhits, doPoliciesCheck, if_pos hitem]
      exact ih
    | true =>
      have hmatched : ∃ policy ∈ item :: rest, policy.matches acType userName = true :=
        ⟨item, mem_cons_self, hitem⟩
      rw [doPoliciesCheck, if_neg (by simp [hitem])]
      by_cases hexclude : exclude.any fun item => item.matches acType userName
      · rw [if_pos hexclude]
        exact .inr ⟨fun hits => hits.2 (any_eq_true.mp hexclude), .inl rfl⟩
      · rw [if_neg hexclude]
        exact .inl ⟨⟨hmatched, fun h => hexclude (any_eq_true.mpr h)⟩, rfl⟩

def AclPolicies.Denies (acType : UInt8) (userName : String) (acl : AclPolicies) : Prop :=
  Hits acType userName acl.denyPolicies acl.denyPoliciesExclude

def AclPolicies.Allows (acType : UInt8) (userName : String) (acl : AclPolicies) : Prop :=
  Hits acType userName acl.allowPolicies acl.allowPoliciesExclude

theorem doCheckRangerDatabaseTablePolicy_cases {check : AclPolicies → PolicyCheckStatus}
    {status : PolicyCheckStatus} {hit : AclPolicies → Prop} (result : AccessControlResult)
    (hcheck : ∀ acl, (hit acl ∧ check acl = status) ∨
      (¬ hit acl ∧ (check acl = .pending ∨ check acl = .notMatched)))
    (hstatus : status ≠ .pending ∧ status ≠ .notMatched)
    (policies : List MatchedDatabaseTablePolicy) :
    ((∃ policy ∈ policies, hit policy.policies) ∧
      doCheckRangerDatabaseTablePolicy check status result policies = some result) ∨
    ((¬ ∃ policy ∈ policies, hit policy.policies) ∧
      doCheckRangerDatabaseTablePolicy check status result policies = some .pending) := by
  induction policies with
  | nil => exact .inr ⟨by simp, rfl⟩
  | cons policy rest ih =>
    rw [doCheckRangerDatabaseTablePolicy]
    rcases hcheck policy.policies with ⟨hhit, hfound⟩ | ⟨hhit, hother⟩
    · rw [if_pos hfound]
      exact .inl ⟨⟨policy, mem_cons_self, hhit⟩, rfl⟩
    · have hne : check policy.policies ≠ status := by
        rcases hother with hother | hother
        · exact fun heq => hstatus.1 (heq.symm.trans hother)
        · exact fun heq => hstatus.2 (heq.symm.trans hother)
      rw [if_neg hne, if_pos hother]
      have hrest : (∃ p ∈ policy :: rest, hit p.policies) ↔ ∃ p ∈ rest, hit p.policies := by
        simp [hhit]
      rw [hrest]
      exact ih

def Grants (acType : UInt8) (userName : String) (policies : List MatchedDatabaseTablePolicy) :
    Prop :=
  (¬ ∃ policy ∈ policies, policy.policies.Denies acType userName) ∧
    ∃ policy ∈ policies, policy.policies.Allows acType userName

variable (acType userName) in
theorem check_eq_allowed_iff (policies : List MatchedDatabaseTablePolicy) :
    ∃ result, checkRangerDatabaseTablePolicyAllowed policies acType userName = some result ∧
      (result = .allowed ↔ Grants acType userName policies) := by
  have hdeny := doCheckRangerDatabaseTablePolicy_cases .denied
    (fun acl => doPoliciesCheck_cases acType userName .denied acl.denyPoliciesExclude
      acl.denyPolicies) (by decide) policies
  have hallow := doCheckRangerDatabaseTablePolicy_cases .allowed
    (fun acl => doPoliciesCheck_cases acType userName .allowed acl.allowPoliciesExclude
      acl.allowPolicies) (by decide) policies
  unfold checkRangerDatabaseTablePolicyAllowed AclPolicies.checkDeny AclPolicies.checkAllow
  rcases hdeny with ⟨hdenied, hdeny⟩ | ⟨hdenied, hdeny⟩
  · refine ⟨.denied, by rw [hdeny]; rfl, ?_⟩
    simp [Grants, AclPolicies.Denies, hdenied]
  · rw [hdeny]
    rcases hallow with ⟨hallowed, hallow⟩ | ⟨hallowed, hallow⟩
    · refine ⟨.allowed, by rw [hallow]; rfl, ?_⟩
      exact iff_of_true rfl ⟨hdenied, hallowed⟩
    · refine ⟨.denied, by rw [hallow]; rfl, ?_⟩
      simp [Grants, AclPolicies.Allows, hallowed]

end Checks

/-! ### From a document to an env -/

section Loading

variable {acType : UInt8} {userName : String}

theorem or_and_ne_zero (a b c : UInt8) : (a ||| b) &&& c ≠ 0 ↔ a &&& c ≠ 0 ∨ b &&& c ≠ 0 := by
  have hdistrib : (a ||| b) &&& c = (a &&& c) ||| (b &&& c) := by
    apply UInt8.toBitVec_inj.mp
    simp [BitVec.and_or_distrib_right]
  rw [hdistrib, Ne, UInt8.or_eq_zero_iff]
  tauto

theorem foldl_accessTypes (accesses : List AccessDoc) (types : UInt8) :
    accesses.foldl (fun types access => types ||| access.accessType.getD 0) types &&& acType ≠ 0 ↔
      types &&& acType ≠ 0 ∨
        ∃ access ∈ accesses, ∃ type, access.accessType = some type ∧ type &&& acType ≠ 0 := by
  induction accesses generalizing types with
  | nil => simp
  | cons access rest ih =>
    rw [foldl_cons, ih, or_and_ne_zero, or_assoc]
    refine or_congr_right ?_
    cases haccess : access.accessType with
    | none => simp [haccess]
    | some type => simp [haccess]

theorem parse_matches (item : ItemDoc) :
    item.parse.matches acType userName = true ↔ item.Covers acType userName := by
  rw [PolicyItem.matches, Bool.and_eq_true, bne_iff_ne, ItemDoc.parse, foldl_accessTypes]
  simp [ItemDoc.Covers]

theorem hits_parse (items exclude : List ItemDoc) :
    Hits acType userName (parsePoliciesFromJson items) (parsePoliciesFromJson exclude) ↔
      (∃ item ∈ items, item.Covers acType userName) ∧
        ¬ ∃ item ∈ exclude, item.Covers acType userName := by
  simp [Hits, parsePoliciesFromJson, parse_matches]

def PolicyDoc.tablePolicy (policy : PolicyDoc) : Option RangerResourcePolicy :=
  policy.tableNames.map fun names => policy.resourcePolicy names.1 names.2

theorem PolicyDoc.exists_of_mem_filterMap {docs : List PolicyDoc} {policy : RangerResourcePolicy}
    (h : policy ∈ docs.filterMap tablePolicy) : ∃ doc : PolicyDoc, policy.policies = doc.aclPolicies := by
  obtain ⟨doc, -, hdoc⟩ := mem_filterMap.mp h
  obtain ⟨names, -, rfl⟩ := map_eq_some_iff.mp hdoc
  exact ⟨doc, rfl⟩

theorem loadPolicies_ne_noNeedUpdate (all all' : AllResourcePolicies) (policies : List PolicyDoc) :
    loadPolicies all policies ≠ (.noNeedUpdate, all') := by
  induction policies generalizing all with
  | nil => simp [loadPolicies]
  | cons policy rest ih =>
    rw [loadPolicies]
    split_ifs
    · exact ih all
    · simp
    · cases policy.resourceType with
      | none => simp
      | some loaded => exact ih _

theorem add_databaseTable {policy : PolicyDoc} (henabled : policy.isEnabled = true)
    {all : AllResourcePolicies} {type : ResourceType} {databases tables : List String}
    (htype : policy.resourceType = some (type, databases, tables)) :
    (all.add (policy.resourcePolicy databases tables) type).databaseTable =
      all.databaseTable ++ policy.tablePolicy.toList := by
  unfold resourceType at htype
  unfold tablePolicy tableNames
  by_cases hone : policy.resources.length = 1
  · rw [if_pos hone] at htype
    rw [if_neg (by omega)]
    by_cases hglobal : (policy.resources.lookup "global").isSome
    · rw [if_pos hglobal] at htype
      cases htype
      simp [AllResourcePolicies.add]
    · rw [if_neg hglobal] at htype
      obtain ⟨names, -, htype⟩ := map_eq_some_iff.mp htype
      cases htype
      simp [AllResourcePolicies.add]
  · rw [if_neg hone] at htype
    by_cases htwo : policy.resources.length = 2
    · rw [if_pos htwo] at htype
      rw [if_pos ⟨henabled, htwo⟩]
      obtain ⟨names, hdatabases, htype⟩ := bind_eq_some_iff.mp htype
      obtain ⟨names', htables, htype⟩ := map_eq_some_iff.mp htype
      cases htype
      rw [hdatabases, htables]
      rfl
    · rw [if_neg htwo] at htype
      cases htype

/-- **What is loaded**: the enabled policies for tables, in their order. -/
theorem loadPolicies_databaseTable {all all' : AllResourcePolicies} {policies : List PolicyDoc}
    (h : loadPolicies all policies = (.ok, all')) :
    all'.databaseTable = all.databaseTable ++ policies.filterMap tablePolicy := by
  induction policies generalizing all with
  | nil =>
    cases h
    simp
  | cons policy rest ih =>
    rw [loadPolicies] at h
    by_cases henabled : policy.isEnabled = false
    · rw [if_pos henabled] at h
      rw [ih h, filterMap_cons_none]
      simp [tablePolicy, tableNames, henabled]
    · rw [if_neg henabled] at h
      have henabled : policy.isEnabled = true := by simpa using henabled
      by_cases hvalues : policy.resources.any fun resource => resource.2.isEmpty
      · rw [if_pos hvalues] at h
        cases h
      · rw [if_neg hvalues] at h
        cases htype : policy.resourceType with
        | none => simp [htype] at h
        | some loaded =>
          obtain ⟨type, databases, tables⟩ := loaded
          rw [htype] at h
          rw [ih h, add_databaseTable henabled htype, append_assoc]
          congr 1
          cases hpolicy : policy.tablePolicy with
          | none | some loaded => simp [hpolicy]

theorem matchTable_cases (databaseName tableName : String) (policy : RangerResourcePolicy) :
    (((databaseName ∈ policy.databaseNames ∨ "*" ∈ policy.databaseNames) ∧
        (tableName ∈ policy.tableNames ∨ "*" ∈ policy.tableNames)) ∧
      ∃ matched, policy.matchTable databaseName tableName = some matched ∧
        matched.policies = policy.policies) ∨
    (¬ ((databaseName ∈ policy.databaseNames ∨ "*" ∈ policy.databaseNames) ∧
        (tableName ∈ policy.tableNames ∨ "*" ∈ policy.tableNames)) ∧
      policy.matchTable databaseName tableName = none) := by
  unfold RangerResourcePolicy.matchTable
  by_cases hdatabase : databaseName ∉ policy.databaseNames ∧ "*" ∉ policy.databaseNames
  · rw [if_pos hdatabase]
    exact .inr ⟨fun h => h.1.elim hdatabase.1 hdatabase.2, rfl⟩
  · rw [if_neg hdatabase]
    by_cases htable : tableName ∉ policy.tableNames ∧ "*" ∉ policy.tableNames
    · rw [if_pos htable]
      exact .inr ⟨fun h => h.2.elim htable.1 htable.2, rfl⟩
    · rw [if_neg htable]
      rw [not_and_or, not_not, not_not] at hdatabase htable
      exact .inl ⟨⟨hdatabase, htable⟩, _, rfl, rfl⟩

/-- **What reaches the env** of a table: the policies of the document that match it. -/
theorem exists_matchedPolicies_iff (legacyDatabase appName : String) (policies : List PolicyDoc)
    (P : AclPolicies → Prop) :
    (∃ matched ∈ matchedPolicies legacyDatabase appName
        (policies.filterMap tablePolicy), P matched.policies) ↔
      ∃ policy ∈ policies, policy.Matches legacyDatabase appName ∧ P policy.aclPolicies := by
  constructor
  · rintro ⟨matched, hmatched, hP⟩
    obtain ⟨loaded, hloaded, hmatch⟩ := mem_filterMap.mp hmatched
    obtain ⟨policy, hpolicy, hload⟩ := mem_filterMap.mp hloaded
    obtain ⟨⟨databases, tables⟩, hnames, rfl⟩ := map_eq_some_iff.mp hload
    rcases matchTable_cases _ _ (policy.resourcePolicy databases tables) with
      ⟨hmatches, matched', hmatch', hpolicies⟩ | ⟨-, hnone⟩
    · obtain rfl := mem_unique hmatch hmatch'
      rw [hpolicies] at hP
      exact ⟨policy, hpolicy, ⟨databases, tables, hnames, hmatches⟩, hP⟩
    · cases hmatch.symm.trans hnone
  · rintro ⟨policy, hpolicy, ⟨databases, tables, hnames, hmatches⟩, hP⟩
    rcases matchTable_cases _ _ (policy.resourcePolicy databases tables) with
      ⟨-, matched, hmatch, hpolicies⟩ | ⟨hnot, -⟩
    · refine ⟨matched, mem_filterMap.mpr ⟨_, ?_, hmatch⟩, ?_⟩
      · exact mem_filterMap.mpr ⟨policy, hpolicy, map_eq_some_iff.mpr ⟨_, hnames, rfl⟩⟩
      · rw [hpolicies]
        exact hP
    · exact absurd hmatches hnot

theorem grants_matchedPolicies_iff {legacyDatabase appName : String} {doc : PolicyDocument} :
    Grants acType userName (matchedPolicies legacyDatabase appName
        (doc.policies.filterMap tablePolicy)) ↔
      doc.Allows legacyDatabase appName acType userName := by
  unfold Grants PolicyDocument.Allows
  rw [exists_matchedPolicies_iff _ _ _ (AclPolicies.Denies acType userName),
    exists_matchedPolicies_iff _ _ _ (AclPolicies.Allows acType userName)]
  simp only [AclPolicies.Denies, AclPolicies.Allows, aclPolicies, hits_parse,
    PolicyDoc.Denies, PolicyDoc.Allows]

end Loading

/-! ### Whose policies decide -/

section Decision

variable {Text : Type} [DecidableEq Text] {codec : EnvCodec Text} {legacyDatabase : String}

/-- The policies of a replica are those of the last env it has seen. -/
def AccessController.Coherent (codec : EnvCodec Text) (controller : AccessController Text) : Prop :=
  controller.rangerPolicies = codec.decode controller.envPolicies

variable {controller : AccessController Text}

theorem AccessController.Coherent.update (h : controller.Coherent codec) (policies : Text) :
    (controller.updateRangerPolicies codec policies).Coherent codec ∧
      (controller.updateRangerPolicies codec policies).rangerPolicies = codec.decode policies := by
  unfold AccessController.updateRangerPolicies
  split_ifs with hsame
  · exact ⟨h, hsame ▸ h⟩
  · exact ⟨rfl, rfl⟩

theorem AccessController.Coherent.updateAc (h : controller.Coherent codec) (env : Option Text) :
    (controller.updateAcRangerPolicies codec env).Coherent codec := by
  cases env with
  | none => exact h
  | some policies => exact (h.update policies).1

omit [DecidableEq Text] in
theorem allowed_eq_of_policies {flags : AclFlags} (hflags : flags.enableRangerAcl = true)
    (controller : AccessController Text) (userName : String) (acType : UInt8) :
    ∃ answer, controller.allowed flags userName acType = some answer ∧
      (answer = true ↔ Grants acType userName controller.rangerPolicies) := by
  obtain ⟨result, hresult, hallowed⟩ :=
    check_eq_allowed_iff acType userName controller.rangerPolicies
  refine ⟨result = .allowed, ?_, ?_⟩
  · rw [AccessController.allowed, if_neg (by simp [hflags]), hresult]
    rfl
  · rw [decide_eq_true_eq, hallowed]

namespace Cluster

variable {s s' : Cluster Text}

def Coherent (codec : EnvCodec Text) (s : Cluster Text) : Prop :=
  ∀ replica ∈ s.replicas, replica.controller.Coherent codec

omit [DecidableEq Text] in
theorem update_replicas (doc : PolicyDocument) :
    (s.updatePoliciesFromRangerService codec legacyDatabase doc).2.replicas = s.replicas := by
  unfold updatePoliciesFromRangerService loadPoliciesFromJson
  by_cases hversion : doc.policyVersion ≤ s.localPolicyVersion
  · simp [hversion]
  · simp only [hversion, if_false]
    split_ifs <;> rfl

theorem Coherent.step (h : s.Coherent codec) {e : ClusterEvent}
    (hstep : s.step codec legacyDatabase e = some s') : s'.Coherent codec := by
  cases e with
  | createApp appName =>
    simp only [Cluster.step] at hstep
    split_ifs at hstep
    obtain rfl := some.inj hstep
    exact h
  | addReplica appName allowedUsers =>
    obtain rfl := some.inj hstep
    exact forall_mem_concat h codec.decode_empty.symm
  | poll doc =>
    obtain rfl := some.inj hstep
    intro replica hreplica
    rw [update_replicas] at hreplica
    exact h replica hreplica
  | updateAppEnvs i =>
    obtain ⟨replica, hreplica, hstep⟩ := bind_eq_some_iff.mp hstep
    obtain ⟨table, -, rfl⟩ := map_eq_some_iff.mp hstep
    intro other hother
    rcases mem_or_eq_of_mem_set hother with hother | rfl
    · exact h other hother
    · exact (h replica (mem_of_getElem? hreplica)).updateAc table.rangerPolicies

variable {doc : PolicyDocument} {table : Table Text}

omit [DecidableEq Text] in
theorem update_ok (hnew : s.localPolicyVersion < doc.policyVersion)
    (hok : (s.updatePoliciesFromRangerService codec legacyDatabase doc).1 = .ok) :
    ∃ all : AllResourcePolicies,
      all.databaseTable = doc.policies.filterMap tablePolicy ∧
      (s.updatePoliciesFromRangerService codec legacyDatabase doc).2.tables =
        syncPoliciesToAppEnvs codec legacyDatabase all s.tables := by
  unfold updatePoliciesFromRangerService loadPoliciesFromJson at hok ⊢
  simp only [if_neg hnew.not_ge] at hok ⊢
  by_cases hempty : doc.policies.isEmpty
  · simp [hempty] at hok
  · simp only [if_neg hempty] at hok ⊢
    cases hload : loadPolicies {} doc.policies with
    | mk err all =>
      cases err with
      | ok => exact ⟨all, loadPolicies_databaseTable hload, by simp⟩
      | parseAcl => simp [hload] at hok
      | noNeedUpdate => exact absurd hload (loadPolicies_ne_noNeedUpdate _ _ _)

/-- The policies that decide when no policy of the document matches the table: those the replica
had, unless the document has none for any table, which leaves an earlier env in place. -/
def leftPolicies (codec : EnvCodec Text) (doc : PolicyDocument) (table : Table Text)
    (controller : AccessController Text) : List MatchedDatabaseTablePolicy :=
  if doc.policies.any fun policy => policy.tableNames.isSome then controller.rangerPolicies
  else match table.rangerPolicies with
    | some policies => codec.decode policies
    | none => controller.rangerPolicies

omit [DecidableEq Text] in
variable (codec legacyDatabase) in
theorem find_syncPoliciesToAppEnvs (all : AllResourcePolicies) {tables : List (Table Text)}
    {appName : String}
    (htable : tables.find? (fun table => table.appName == appName) = some table) :
    ∃ table', (syncPoliciesToAppEnvs codec legacyDatabase all tables).find?
        (fun table => table.appName == appName) = some table' ∧
      table'.rangerPolicies =
        if all.databaseTable = [] then table.rangerPolicies
        else if matchedPolicies legacyDatabase appName all.databaseTable = [] then none
        else some (codec.encode (matchedPolicies legacyDatabase appName all.databaseTable)) := by
  have hname : table.appName = appName := by simpa using List.find?_some htable
  unfold syncPoliciesToAppEnvs
  by_cases hempty : all.databaseTable = []
  · rw [if_pos (by simp [hempty]), if_pos hempty]
    exact ⟨table, htable, rfl⟩
  · rw [if_neg (by simpa using hempty), if_neg hempty, List.find?_map]
    refine ⟨_, map_eq_some_iff.mpr ⟨table, htable, rfl⟩, ?_⟩
    simp [hname]

/-- The policies of a replica after a successful update of the policies and one of its envs: those
of the document that match its table or, if none does, what is left. -/
theorem policies_after_update (h : s.Coherent codec)
    (hnew : s.localPolicyVersion < doc.policyVersion)
    (hok : (s.updatePoliciesFromRangerService codec legacyDatabase doc).1 = .ok) {i : Nat}
    {replica replica' : Replica Text} (hreplica : s.replicas[i]? = some replica)
    (htable : s.findTable replica.appName = some table)
    (hupdate : (s.updatePoliciesFromRangerService codec legacyDatabase doc).2.updateAppEnvs codec i
      = some s') (hreplica' : s'.replicas[i]? = some replica') :
    replica'.controller.rangerPolicies =
      if matchedPolicies legacyDatabase replica.appName
          (doc.policies.filterMap tablePolicy) = [] then
        leftPolicies codec doc table replica.controller
      else matchedPolicies legacyDatabase replica.appName (doc.policies.filterMap tablePolicy) := by
  obtain ⟨all, hall, htables⟩ := update_ok hnew hok
  obtain ⟨table', htable', henv⟩ := find_syncPoliciesToAppEnvs codec legacyDatabase all htable
  -- the replica is the same one, and takes over the env of its table
  obtain ⟨before, hbefore, hupdate⟩ := bind_eq_some_iff.mp hupdate
  rw [update_replicas, hreplica, some.injEq] at hbefore
  subst hbefore
  obtain ⟨found, hfound, rfl⟩ := map_eq_some_iff.mp hupdate
  rw [findTable, htables, htable', some.injEq] at hfound
  subst hfound
  have hlt : i < s.replicas.length := (List.getElem?_eq_some_iff.mp hreplica).1
  rw [update_replicas, List.getElem?_set_self hlt, some.injEq] at hreplica'
  rw [← hreplica', henv, hall]
  have hcoherent := h replica (mem_of_getElem? hreplica)
  have hany : (doc.policies.any fun policy => policy.tableNames.isSome) = true ↔
      doc.policies.filterMap tablePolicy ≠ [] := by
    simp [any_eq_true, tablePolicy, filterMap_eq_nil_iff, isSome_iff_ne_none]
  by_cases hnone : doc.policies.filterMap tablePolicy = []
  · have hunmatched : matchedPolicies legacyDatabase replica.appName [] = [] := rfl
    rw [if_pos hnone, hnone, if_pos hunmatched, leftPolicies,
      if_neg (fun hany' => hany.mp hany' hnone)]
    cases table.rangerPolicies with
    | none => rfl
    | some policies => exact (hcoherent.update policies).2
  · rw [if_neg hnone, leftPolicies, if_pos (hany.mpr hnone)]
    split_ifs with hmatched
    · rfl
    · exact (hcoherent.update _).2.trans (codec.decode_encode _ _ _
        fun _ => PolicyDoc.exists_of_mem_filterMap)

end Cluster

variable (codec legacyDatabase) in
/-- **When the current policies decide.** After a successful update to a new version and one update
of a replica's envs, the replica answers every request as the document says if and only if some
policy of the document matches its table, or what is left of earlier policies grants nothing. -/
theorem current_policies_decide_iff (es : List ClusterEvent) {s s' : Cluster Text}
    (hrun : TransitionSystem.run (Cluster.step codec legacyDatabase) {} es = some s)
    (doc : PolicyDocument) (hnew : s.localPolicyVersion < doc.policyVersion)
    (hok : (s.updatePoliciesFromRangerService codec legacyDatabase doc).1 = .ok)
    (i : Nat) {replica replica' : Replica Text} {table : Table Text}
    (hreplica : s.replicas[i]? = some replica)
    (htable : s.findTable replica.appName = some table)
    (hupdate : (s.updatePoliciesFromRangerService codec legacyDatabase doc).2.updateAppEnvs codec i
      = some s')
    (hreplica' : s'.replicas[i]? = some replica')
    (flags : AclFlags) (hflags : flags.enableRangerAcl = true) :
    (∀ userName acType, ∃ answer,
      replica'.controller.allowed flags userName acType = some answer ∧
        (answer = true ↔ doc.Allows legacyDatabase replica.appName acType userName)) ↔
    ((∃ policy ∈ doc.policies, policy.Matches legacyDatabase replica.appName) ∨
      ∀ userName acType,
        ¬ Grants acType userName (Cluster.leftPolicies codec doc table replica.controller)) := by
  have hcoherent : s.Coherent codec :=
    TransitionSystem.run_invariant (fun _ _ _ hstep h => h.step hstep) hrun
      (by simp [Cluster.Coherent])
  have hpolicies :=
    Cluster.policies_after_update hcoherent hnew hok hreplica htable hupdate hreplica'
  have hmatches :=
    exists_matchedPolicies_iff legacyDatabase replica.appName doc.policies fun _ => True
  simp only [and_true] at hmatches
  have hanswer : ∀ userName acType P, (∃ answer,
      replica'.controller.allowed flags userName acType = some answer ∧ (answer = true ↔ P)) ↔
      (Grants acType userName replica'.controller.rangerPolicies ↔ P) := by
    intro userName acType P
    obtain ⟨answer, hanswer, hgrants⟩ :=
      allowed_eq_of_policies hflags replica'.controller userName acType
    simp [hanswer, ← hgrants]
  simp only [hanswer, ← grants_matchedPolicies_iff, hpolicies]
  by_cases hnone : matchedPolicies legacyDatabase replica.appName
      (doc.policies.filterMap PolicyDoc.tablePolicy) = []
  · have hnomatch : ¬ ∃ policy ∈ doc.policies, policy.Matches legacyDatabase replica.appName := by
      rw [← hmatches, hnone]
      simp
    rw [if_pos hnone, or_iff_right hnomatch, hnone]
    simp [Grants]
  · rw [if_neg hnone]
    refine iff_of_true (fun _ _ => Iff.rfl) (.inl (hmatches.mp ?_))
    obtain ⟨matched, hmatched⟩ := exists_mem_of_ne_nil _ hnone
    exact ⟨matched, hmatched⟩

end Decision

/-! ### Granting and revoking -/

def plainCodec : EnvCodec (List MatchedDatabaseTablePolicy) where
  empty := []
  encode := id
  decode := id
  decode_empty := rfl
  decode_encode _ _ _ _ := rfl

def readDocument (version : Int) (table user : String) : PolicyDocument where
  policyVersion := version
  policies :=
    [{ isEnabled := true
       name := "read"
       resources := [("database", ["db"]), ("table", [table])]
       policyItems := [{ accesses := [{ type := "read", isAllowed := true }], users := [user] }]
       denyPolicyItems := []
       allowExceptions := []
       denyExceptions := []
       resources_nodup := by simp }]

/-- A policy that matches the table takes the place of an earlier one: only the second user may
read. -/
theorem current_policies_decide_replaced : ∃ replica : Replica (List MatchedDatabaseTablePolicy),
    replica.controller.rangerPolicies ≠ [] ∧ ∀ userName acType, ∃ answer,
      replica.controller.allowed { enableRangerAcl := true } userName acType = some answer ∧
        (answer = true ↔
          (readDocument 2 "t" "bob").Allows "__default__" "db.t" acType userName) := by
  have hdecide := current_policies_decide_iff plainCodec "__default__"
    [.createApp "db.t", .addReplica "db.t" [], .poll (readDocument 1 "t" "alice"),
      .updateAppEnvs 0] rfl (readDocument 2 "t" "bob") (by decide) rfl 0 rfl rfl rfl rfl
    { enableRangerAcl := true } rfl
  refine ⟨_, ?_, hdecide.mpr (.inl ?_)⟩
  · decide
  · exact ⟨_, mem_cons_self, ["db"], ["t"], by decide, by decide, by decide⟩

/-- The second document has a policy for another table only. The env of the table is deleted, the
replica does not see that, and the user of the first document may still read. -/
theorem revoked_policy_still_decides : ∃ s replica,
    TransitionSystem.run (Cluster.step plainCodec "__default__") {}
      [.createApp "db.t", .addReplica "db.t" [], .poll (readDocument 1 "t" "alice"),
        .updateAppEnvs 0, .poll (readDocument 2 "u" "bob"), .updateAppEnvs 0] = some s ∧
    s.localPolicyVersion = 2 ∧ s.replicas[0]? = some replica ∧
    replica.controller.allowed { enableRangerAcl := true } "alice" 1 = some true ∧
    ¬ (readDocument 2 "u" "bob").Allows "__default__" "db.t" 1 "alice" := by
  refine ⟨_, _, rfl, rfl, rfl, by decide, ?_⟩
  rintro ⟨-, policy, hpolicy, ⟨databases, tables, hnames, -, htables⟩, -⟩
  rw [readDocument, mem_singleton] at hpolicy
  subst hpolicy
  cases hnames
  exact absurd htables (by decide)

end Pegasus.Ranger
