/-
The status of a duplication and what the meta storage has of it, after `duplication_info.cpp` and
`meta_duplication_service.cpp`.

An alteration marks the duplication as altering, writes the next status, and takes it over in the
callback of the write. While it is altering, other alterations are refused. An alteration that
changes nothing succeeds without marking anything, and the callers then write a next status that
nobody has set.

- `Duplication.Persisted`: what the storage has, with one write at most;
- `stored_status_is_live`: the main result;
- `repeated_reply_resets_the_status`: a late reply stores a status that the duplication never had;
- `fail_mode_changes_on_request`: the fail mode is the one asked for, if the status moves on slowly.
-/

import Pegasus.Common
import Pegasus.Lib.Run

namespace Pegasus.Meta

open TransitionSystem Option

inductive DuplicationStatus where
  | init
  | prepare
  | app
  | log
  | pause
  | removed
deriving DecidableEq

inductive DuplicationFailMode where
  | failSlow
  | failSkip
  | failFast
deriving DecidableEq

/-- The status and the fail mode in the JSON of a duplication. -/
structure DuplicationJson where
  status : DuplicationStatus
  failMode : DuplicationFailMode
deriving DecidableEq

/-- `duplication_info`, without its progress. -/
structure DuplicationInfo where
  isAltering : Bool := false
  status : DuplicationStatus := .init
  nextStatus : DuplicationStatus := .init
  failMode : DuplicationFailMode := .failSlow
  nextFailMode : DuplicationFailMode := .failSlow
deriving DecidableEq

/-- A write of the node of a duplication: of a JSON, or its deletion. The storage may have it before
its callback comes. -/
structure NodeWrite where
  json : Option DuplicationJson
  applied : Bool := false
deriving DecidableEq

/-- A duplication, its node, and the requests to the follower that are outstanding. -/
structure Duplication where
  info : DuplicationInfo := {}
  /-- Whether the table lists it. -/
  listed : Bool := true
  stored : Option DuplicationJson := none
  writes : List NodeWrite := []
  creating : Nat := 0
  marking : Nat := 0
  querying : Nat := 0
deriving DecidableEq

inductive DuplicationEvent where
  /-- A round of `duplication_sync`, and whether all checkpoints are prepared. -/
  | sync (prepared : Bool)
  | creatingReply (ok : Bool)
  | createdReply (ok : Bool)
  | queryReply (ok : Bool)
  | modify (status : Option DuplicationStatus) (failMode : Option DuplicationFailMode)
  | store (i : Nat)
  | written (i : Nat)
  | failover
deriving DecidableEq

namespace DuplicationInfo

def isValidAlteration (d : DuplicationInfo) (toStatus : DuplicationStatus) : Bool :=
  toStatus == d.status ||
    (toStatus == .prepare && d.status == .init) ||
    (toStatus == .app && d.status == .prepare) ||
    (toStatus == .log && (d.status == .pause || d.status == .app || d.status == .init)) ||
    (toStatus == .pause && d.status == .log) ||
    toStatus == .removed

/-- `alter_status`, if it returns `ERR_OK`. -/
def alterStatus (toStatus : DuplicationStatus) (failMode : DuplicationFailMode)
    (d : DuplicationInfo) : Option DuplicationInfo :=
  if d.isAltering then none
  else if d.status = .removed then none
  else if !d.isValidAlteration toStatus then none
  else if d.status = toStatus ∧ d.failMode = failMode then some d
  else some { d with isAltering := true, nextStatus := toStatus, nextFailMode := failMode }

def persistStatus (d : DuplicationInfo) : DuplicationInfo :=
  if d.isAltering then
    { d with
      isAltering := false
      status := d.nextStatus
      nextStatus := .init
      failMode := d.nextFailMode }
  else d

/-- `to_json_blob`. -/
def toJson (d : DuplicationInfo) : DuplicationJson := ⟨d.nextStatus, d.nextFailMode⟩

/-- `decode_from_blob`. -/
def decode (json : DuplicationJson) : DuplicationInfo :=
  { status := json.status, failMode := json.failMode }

def isInvalidStatus (d : DuplicationInfo) : Bool := d.status == .init || d.status == .removed

end DuplicationInfo

open DuplicationInfo

namespace Duplication

/-- `do_add_duplication`, with the status that `start` has asked for. -/
def add (isDuplicatingCheckpoint : Bool) : Duplication :=
  let info : DuplicationInfo :=
    { isAltering := true, nextStatus := if isDuplicatingCheckpoint then .prepare else .log }
  { info := info, writes := [⟨some info.toJson, false⟩] }

def write (info : DuplicationInfo) (d : Duplication) : Duplication :=
  { d with info := info, writes := d.writes ++ [⟨some info.toJson, false⟩] }

/-- The reply of the follower asks for a status; whether it changes anything is not looked at. -/
def onReply (toStatus : DuplicationStatus) (ok : Bool) (d : Duplication) : Duplication :=
  match if ok then d.info.alterStatus toStatus .failSlow else none with
  | some info => d.write info
  | none => d

/-- `modify_duplication` and `do_modify_duplication`. -/
def modify (status : Option DuplicationStatus) (failMode : Option DuplicationFailMode)
    (d : Duplication) : Duplication :=
  if d.listed then
    match d.info.alterStatus (status.getD d.info.status) (failMode.getD d.info.failMode) with
    | some info =>
      if !info.isAltering then { d with info := info }
      else if status = some .removed then
        { d with info := info, writes := d.writes ++ [⟨none, false⟩] }
      else d.write info
    | none => d
  else d

/-- What a round of `duplication_sync` sends to the follower. -/
def sync (prepared : Bool) (d : Duplication) : Duplication :=
  if d.listed && prepared then
    match d.info.status with
    | .prepare => { d with creating := d.creating + 1 }
    | .app => { d with marking := d.marking + 1 }
    | _ => d
  else d

def onWritten (w : NodeWrite) (d : Duplication) : Duplication :=
  { d with info := d.info.persistStatus, listed := d.listed && w.json.isSome }

/-- A new meta server restores the duplication from its node. -/
def failover (d : Duplication) : Duplication :=
  match d.stored with
  | some json => { info := .decode json, listed := !(DuplicationInfo.decode json).isInvalidStatus,
                   stored := some json }
  | none => { info := { status := .removed }, listed := false }

def step (d : Duplication) : DuplicationEvent → Option Duplication
  | .sync prepared => some (d.sync prepared)
  | .creatingReply ok =>
    if 0 < d.creating then some ({ d with creating := d.creating - 1 }.onReply .app ok) else none
  | .createdReply ok =>
    if 0 < d.marking then
      some { d with
        marking := d.marking - 1
        querying := if ok then d.querying + 1 else d.querying }
    else none
  | .queryReply ok =>
    if 0 < d.querying then some ({ d with querying := d.querying - 1 }.onReply .log ok) else none
  | .modify status failMode => some (d.modify status failMode)
  | .store i =>
    d.writes[i]?.map fun w =>
      { d with stored := w.json, writes := d.writes.set i { w with applied := true } }
  | .written i =>
    match d.writes[i]? with
    | some w =>
      if w.applied then some ({ d with writes := d.writes.eraseIdx i }.onWritten w) else none
    | none => none
  | .failover => some d.failover

/-- A reply does not ask for the status and the fail mode that the duplication already has. -/
def Changes (d : Duplication) : DuplicationEvent → Prop
  | .creatingReply ok => ok = true → d.info.isAltering = true ∨
      ¬ (d.info.status = .app ∧ d.info.failMode = .failSlow)
  | .queryReply ok => ok = true → d.info.isAltering = true ∨
      ¬ (d.info.status = .log ∧ d.info.failMode = .failSlow)
  | _ => True

/-- The node of a duplication, as its status says: a removed one has none. -/
def nodeOf (status : DuplicationStatus) (failMode : DuplicationFailMode) : Option DuplicationJson :=
  if status = .removed then none else some ⟨status, failMode⟩

/-- **What the storage has**: the live status, and while an alteration is pending its write may have
got there. -/
inductive Persisted (d : Duplication) : Prop where
  | rest (haltering : d.info.isAltering = false) (hwrites : d.writes = [])
      (hinit : d.info.status ≠ .init)
      (hstored : d.stored = nodeOf d.info.status d.info.failMode)
  | altering (w : NodeWrite) (haltering : d.info.isAltering = true) (hwrites : d.writes = [w])
      (hinit : d.info.nextStatus ≠ .init)
      (hjson : w.json = nodeOf d.info.nextStatus d.info.nextFailMode)
      (hstored : d.stored = w.json ∨
        w.applied = false ∧ (d.stored = none ∨
          d.info.status ≠ .init ∧ d.stored = nodeOf d.info.status d.info.failMode))

section Steps

variable {d d' : Duplication} {toStatus : DuplicationStatus} {failMode : DuplicationFailMode}

theorem alterStatus_cases {info info' : DuplicationInfo}
    (halter : info.alterStatus toStatus failMode = some info') :
    info.isAltering = false ∧ info.status ≠ .removed ∧
      (toStatus = .init → info.status = .init) ∧
      ((info.status = toStatus ∧ info.failMode = failMode) ∧ info' = info ∨
        info' = { info with
          isAltering := true, nextStatus := toStatus, nextFailMode := failMode }) := by
  unfold alterStatus at halter
  split at halter
  · cases halter
  rename_i haltering
  split at halter
  · cases halter
  rename_i hremoved
  split at halter
  · cases halter
  rename_i hvalid
  refine ⟨by simpa using haltering, hremoved, ?_, ?_⟩
  · rintro rfl
    by_contra hstatus
    simp [isValidAlteration, Ne.symm hstatus] at hvalid
  · split at halter
    · rename_i hsame
      exact .inl ⟨hsame, (some.inj halter).symm⟩
    · exact .inr (some.inj halter).symm

variable (h : Persisted d)
include h

variable {w : NodeWrite}

theorem Persisted.alter (haltering : d.info.isAltering = false)
    (hinit : toStatus = .init → d.info.status = .init)
    (hw : w = ⟨nodeOf toStatus failMode, false⟩) :
    Persisted { d with
      info := { d.info with isAltering := true, nextStatus := toStatus, nextFailMode := failMode }
      writes := d.writes ++ [w] } := by
  cases h with
  | rest _ hwrites hstatus hstored =>
    subst hw
    exact .altering ⟨nodeOf toStatus failMode, false⟩ rfl (by simp [hwrites])
      (fun h => hstatus (hinit h)) rfl
      (.inr ⟨rfl, .inr ⟨hstatus, hstored⟩⟩)
  | altering w' haltering' =>
    rw [haltering] at haltering'
    cases haltering'

theorem Persisted.onReply (hto : toStatus ≠ .removed ∧ toStatus ≠ .init) {ok : Bool}
    (hchanges : ok = true → d.info.isAltering = true ∨
      ¬ (d.info.status = toStatus ∧ d.info.failMode = .failSlow)) :
    Persisted (d.onReply toStatus ok) := by
  unfold Duplication.onReply
  split
  · rename_i info halter
    obtain ⟨hok, halter⟩ := ite_none_right_eq_some.mp halter
    obtain ⟨haltering, _, _, hsame | hinfo⟩ := alterStatus_cases halter
    · rcases hchanges hok with h' | h'
      · rw [haltering] at h'
        cases h'
      · exact absurd hsame.1 h'
    · subst hinfo
      refine h.alter haltering (fun h' => absurd h' hto.2) ?_
      simp [toJson, nodeOf, hto.1]
  · exact h

theorem Persisted.modify (status : Option DuplicationStatus)
    (failMode : Option DuplicationFailMode) : Persisted (d.modify status failMode) := by
  unfold Duplication.modify
  split
  · split
    · rename_i info halter
      obtain ⟨haltering, hremoved, hinit, ⟨_, rfl⟩ | rfl⟩ := alterStatus_cases halter
      · -- nothing changes
        rw [haltering]
        exact h
      · rw [Bool.not_true, if_neg (by simp)]
        split
        · rename_i hdelete
          subst hdelete
          exact h.alter haltering hinit rfl
        · rename_i hkeep
          refine h.alter haltering hinit ?_
          have hto : status.getD d.info.status ≠ .removed := by
            cases status with
            | none => exact hremoved
            | some toStatus => exact fun h => hkeep (congrArg some h)
          simp [toJson, nodeOf, hto]
    · exact h
  · exact h

theorem Persisted.store {i : Nat} (hw : d.writes[i]? = some w) :
    Persisted { d with stored := w.json, writes := d.writes.set i { w with applied := true } } := by
  cases h with
  | rest _ hwrites => simp [hwrites] at hw
  | altering w' haltering hwrites hinit hjson _ =>
    rw [hwrites] at hw ⊢
    cases i with
    | zero =>
      obtain rfl : w' = w := by simpa using hw
      exact .altering { w' with applied := true } haltering rfl hinit hjson (.inl rfl)
    | succ i => simp at hw

theorem Persisted.written {i : Nat} (hw : d.writes[i]? = some w)
    (happlied : w.applied = true) :
    Persisted ({ d with writes := d.writes.eraseIdx i }.onWritten w) := by
  cases h with
  | rest _ hwrites => simp [hwrites] at hw
  | altering w' haltering hwrites hinit hjson hstored =>
    rw [hwrites] at hw ⊢
    cases i with
    | zero =>
      obtain rfl : w' = w := by simpa using hw
      have hnew : d.stored = w'.json := by
        rcases hstored with h | ⟨h, _⟩
        · exact h
        · rw [happlied] at h
          cases h
      have hinfo : d.info.persistStatus =
          { d.info with
            isAltering := false
            status := d.info.nextStatus
            nextStatus := .init
            failMode := d.info.nextFailMode } := by
        rw [persistStatus, if_pos haltering]
      refine .rest ?_ rfl ?_ ?_
      · simp [Duplication.onWritten, hinfo]
      · simpa [Duplication.onWritten, hinfo] using hinit
      · simpa [Duplication.onWritten, hinfo] using hnew.trans hjson
    | succ i => simp at hw

omit h in
theorem persisted_failover (hinit : ∀ json, d.stored = some json → json.status ≠ .init ∧
    json.status ≠ .removed) : Persisted d.failover := by
  unfold Duplication.failover
  split
  · rename_i json hjson
    obtain ⟨hstatus, hremoved⟩ := hinit json hjson
    exact .rest rfl rfl hstatus (by simp [decode, nodeOf, hremoved])
  · exact .rest rfl rfl (by simp) (by simp [nodeOf])

omit h in
theorem nodeOf_eq_some {json : DuplicationJson} (h : nodeOf toStatus failMode = some json) :
    json.status = toStatus ∧ json.failMode = failMode ∧ toStatus ≠ .removed := by
  unfold nodeOf at h
  split at h
  · cases h
  · rename_i hremoved
    cases h
    exact ⟨rfl, rfl, hremoved⟩

theorem Persisted.failover : Persisted d.failover := by
  refine persisted_failover fun json hjson => ?_
  cases h with
  | rest _ _ hinit hstored =>
    obtain ⟨hstatus, _, hremoved⟩ := nodeOf_eq_some (hstored.symm.trans hjson)
    exact ⟨hstatus ▸ hinit, hstatus ▸ hremoved⟩
  | altering w _ _ hinit hnew hstored =>
    rcases hstored with hstored | ⟨_, hnone | ⟨hinit, hstored⟩⟩
    · obtain ⟨hstatus, _, hremoved⟩ := nodeOf_eq_some ((hstored.trans hnew).symm.trans hjson)
      exact ⟨hstatus ▸ hinit, hstatus ▸ hremoved⟩
    · rw [hnone] at hjson
      cases hjson
    · obtain ⟨hstatus, _, hremoved⟩ := nodeOf_eq_some (hstored.symm.trans hjson)
      exact ⟨hstatus ▸ hinit, hstatus ▸ hremoved⟩

theorem Persisted.congr (hinfo : d'.info = d.info) (hstored : d'.stored = d.stored)
    (hwrites : d'.writes = d.writes) : Persisted d' := by
  cases h with
  | rest haltering hnone hinit hnode =>
    refine .rest ?_ (hwrites.trans hnone) ?_ ?_
    · rw [hinfo, haltering]
    · rw [hinfo]
      exact hinit
    · rw [hstored, hinfo, hnode]
  | altering w haltering hone hinit hjson hnode =>
    refine .altering w ?_ (hwrites.trans hone) ?_ ?_ ?_
    · rw [hinfo, haltering]
    · rw [hinfo]
      exact hinit
    · rw [hinfo, hjson]
    · rw [hinfo, hstored]
      exact hnode

/-- **Every event keeps the storage as the status says**, if replies change something. -/
theorem Persisted.step {e : DuplicationEvent} (hchanges : d.Changes e)
    (hstep : d.step e = some d') : Persisted d' := by
  cases e with
  | sync prepared =>
    cases hstep
    unfold Duplication.sync
    split
    · split <;> exact h.congr rfl rfl rfl
    · exact h
  | creatingReply ok =>
    obtain ⟨-, rfl⟩ := of_guard hstep
    have h' : Persisted { d with creating := d.creating - 1 } := h.congr rfl rfl rfl
    exact h'.onReply (by simp) hchanges
  | createdReply ok =>
    obtain ⟨-, rfl⟩ := of_guard hstep
    exact h.congr rfl rfl rfl
  | queryReply ok =>
    obtain ⟨-, rfl⟩ := of_guard hstep
    have h' : Persisted { d with querying := d.querying - 1 } := h.congr rfl rfl rfl
    exact h'.onReply (by simp) hchanges
  | modify status failMode =>
    cases hstep
    exact h.modify status failMode
  | store i =>
    obtain ⟨w, hw, rfl⟩ := map_eq_some_iff.mp hstep
    exact h.store hw
  | written i =>
    simp only [Duplication.step] at hstep
    split at hstep
    · rename_i w hw
      obtain ⟨happlied, rfl⟩ := of_guard hstep
      exact h.written hw happlied
    · cases hstep
  | failover =>
    cases hstep
    exact h.failover

omit h

theorem persisted_add (isDuplicatingCheckpoint : Bool) :
    Persisted (add isDuplicatingCheckpoint) := by
  refine .altering _ rfl rfl ?_ ?_ (.inr ⟨rfl, .inl rfl⟩)
  · cases isDuplicatingCheckpoint <;> simp [add]
  · cases isDuplicatingCheckpoint <;> rfl

end Steps

end Duplication

/-- **The stored status is the live one.** Whenever no alteration of a duplication is pending, its
node has its status and its fail mode, and a new meta server restores the same duplication; a
removed duplication has no node. -/
theorem stored_status_is_live {isDuplicatingCheckpoint : Bool} {events : List DuplicationEvent}
    {d : Duplication}
    (hrun : run Duplication.step (.add isDuplicatingCheckpoint) events = some d)
    (hchanges : StepsMeet Duplication.step Duplication.Changes
      (.add isDuplicatingCheckpoint) events)
    (haltering : d.info.isAltering = false) :
    (d.info.status ≠ .removed → d.stored = some ⟨d.info.status, d.info.failMode⟩ ∧
      d.failover.info.status = d.info.status ∧ d.failover.info.failMode = d.info.failMode ∧
      d.failover.listed = true) ∧
    (d.info.status = .removed → d.stored = none) := by
  have hkeep : ∀ (d : Duplication) e d', d.step e = some d' → d.Changes e → d.Persisted →
      d'.Persisted := fun d e d' hstep hchanges h => h.step hchanges hstep
  have h := run_invariant_of_steps hkeep hrun hchanges
    (Duplication.persisted_add isDuplicatingCheckpoint)
  cases h with
  | altering w haltering' =>
    rw [haltering] at haltering'
    cases haltering'
  | rest _ _ hinit hstored =>
    constructor
    · intro hremoved
      have hnode : d.stored = some ⟨d.info.status, d.info.failMode⟩ := by
        rw [hstored, Duplication.nodeOf, if_neg hremoved]
      refine ⟨hnode, ?_⟩
      simp [Duplication.failover, hnode, DuplicationInfo.decode, DuplicationInfo.isInvalidStatus,
        hinit, hremoved]
    · intro hremoved
      rw [hstored, Duplication.nodeOf, if_pos hremoved]

/-- A duplication is created on the follower, and its table marked as created. -/
def createdOnce : List DuplicationEvent :=
  [.store 0, .written 0, .sync true, .creatingReply true, .store 0, .written 0, .sync true,
    .createdReply true, .queryReply true, .store 0, .written 0]

theorem stored_status_is_live_once :
    ∃ d, run Duplication.step (.add true) createdOnce = some d ∧
      d.info.status = .log ∧ d.stored = some ⟨.log, .failSlow⟩ := by
  have hchanges : StepsMeet Duplication.step Duplication.Changes (.add true)
      createdOnce := by
    iterate 3 refine stepsMeet_cons trivial rfl ?_
    refine stepsMeet_cons (fun _ => .inr (by decide)) rfl ?_
    iterate 4 refine stepsMeet_cons trivial rfl ?_
    refine stepsMeet_cons (fun _ => .inr (by decide)) rfl ?_
    iterate 2 refine stepsMeet_cons trivial rfl ?_
    trivial
  obtain ⟨hlive, _⟩ := stored_status_is_live rfl hchanges rfl
  exact ⟨_, rfl, rfl, (hlive (by decide)).1⟩

/-- Two sync rounds ask the follower to create the table, and both are answered. -/
def createdTwice : List DuplicationEvent :=
  [.store 0, .written 0, .sync true, .sync true, .creatingReply true, .store 0, .written 0,
    .creatingReply true, .store 0, .written 0]

/-- The second reply finds the status it asks for, and stores the next status that nobody has set: a
new meta server drops the duplication. -/
theorem repeated_reply_resets_the_status :
    ∃ d, run Duplication.step (.add true) createdTwice = some d ∧
      d.info.isAltering = false ∧ d.writes = [] ∧ d.info.status = .app ∧
      d.stored = some ⟨.init, .failSlow⟩ ∧ d.failover.listed = false :=
  ⟨_, rfl, rfl, rfl, rfl, rfl, rfl⟩

/-! ### The fail mode -/

/-- What `modify_duplication` was asked for: the fail mode of the last request that is in effect,
and that of a request whose write is pending. -/
structure RequestedMode where
  failMode : DuplicationFailMode := .failSlow
  pending : Option DuplicationFailMode := none
deriving DecidableEq

namespace Duplication

/-- A request that is accepted is pending until the status is persisted. -/
def requested (d : Duplication) (r : RequestedMode) : DuplicationEvent → RequestedMode
  | .modify status failMode =>
    match if d.listed then
        d.info.alterStatus (status.getD d.info.status) (failMode.getD d.info.failMode)
      else none with
    | none => r
    | some info =>
      if info.isAltering then { r with pending := failMode }
      else { r with failMode := failMode.getD r.failMode }
  | .written _ => if d.info.isAltering then { failMode := r.pending.getD r.failMode } else r
  | _ => r

def stepRequested (s : Duplication × RequestedMode) (e : DuplicationEvent) :
    Option (Duplication × RequestedMode) :=
  (s.1.step e).map fun d => (d, s.1.requested s.2 e)

/-- The follower moves the status on only while the fail mode is `FAIL_SLOW`, and the meta server
stays the same. -/
def MovesSlow (s : Duplication × RequestedMode) : DuplicationEvent → Prop
  | .creatingReply ok => ok = true → s.1.info.alterStatus .app .failSlow = none ∨
      s.1.info.failMode = .failSlow
  | .queryReply ok => ok = true → s.1.info.alterStatus .log .failSlow = none ∨
      s.1.info.failMode = .failSlow
  | .failover => False
  | _ => True

/-- The fail mode is the one asked for, and so is the one that is about to come. -/
structure AsRequested (s : Duplication × RequestedMode) : Prop where
  inEffect : s.1.info.failMode = s.2.failMode
  next : s.1.info.isAltering = true → s.1.info.nextFailMode = s.2.pending.getD s.2.failMode
  rest : s.1.info.isAltering = false → s.2.pending = none

section

variable {d d' : Duplication} {r : RequestedMode}

theorem AsRequested.onReply (h : AsRequested (d, r)) {toStatus : DuplicationStatus} {ok : Bool}
    (hslow : ok = true → d.info.alterStatus toStatus .failSlow = none ∨
      d.info.failMode = .failSlow) : AsRequested (d.onReply toStatus ok, r) := by
  unfold Duplication.onReply
  split
  · rename_i info halter
    obtain ⟨hok, halter⟩ := ite_none_right_eq_some.mp halter
    obtain ⟨haltering, -, -, ⟨-, rfl⟩ | rfl⟩ := alterStatus_cases halter
    · exact ⟨h.inEffect, h.next, h.rest⟩
    · refine ⟨h.inEffect, fun _ => ?_, by simp [write]⟩
      have hmode : d.info.failMode = .failSlow := (hslow hok).resolve_left (by simp [halter])
      have hrest : r.pending = none := h.rest haltering
      exact (hmode.symm.trans h.inEffect).trans (by rw [hrest, getD_none])
  · exact h

theorem AsRequested.modify (h : AsRequested (d, r)) (status : Option DuplicationStatus)
    (failMode : Option DuplicationFailMode) :
    AsRequested (d.modify status failMode, d.requested r (.modify status failMode)) := by
  have hsame : d.info.failMode = r.failMode := h.inEffect
  unfold Duplication.modify requested
  cases d.listed with
  | false => exact h
  | true =>
    simp only [if_true]
    cases halter : d.info.alterStatus (status.getD d.info.status)
        (failMode.getD d.info.failMode) with
    | none => exact h
    | some info =>
      obtain ⟨haltering, -, -, ⟨⟨-, hmode⟩, rfl⟩ | rfl⟩ := alterStatus_cases halter
      · have hrest : r.pending = none := h.rest haltering
        simp only [haltering, Bool.not_false, if_true, Bool.false_eq_true, if_false]
        refine ⟨?_, fun haltering' => ?_, fun _ => hrest⟩
        · rw [hsame] at hmode
          exact hsame.trans hmode
        · rw [haltering] at haltering'
          cases haltering'
      · simp only [Bool.not_true, Bool.false_eq_true, if_false, if_true]
        have hnext : failMode.getD d.info.failMode = failMode.getD r.failMode := by rw [hsame]
        split <;> exact ⟨hsame, fun _ => hnext, by simp [write]⟩

theorem AsRequested.onWritten (h : AsRequested (d, r)) (i : Nat) (w : NodeWrite) :
    AsRequested (d.onWritten w, d.requested r (.written i)) := by
  unfold Duplication.onWritten persistStatus requested
  cases haltering : d.info.isAltering with
  | false => exact ⟨h.inEffect, by simp [haltering], fun _ => h.rest haltering⟩
  | true => exact ⟨h.next haltering, by simp, fun _ => rfl⟩

/-- **Every event keeps the fail mode as it was asked for**, if the status moves on slowly. -/
theorem AsRequested.step {s s' : Duplication × RequestedMode} (h : AsRequested s)
    {e : DuplicationEvent} (hslow : MovesSlow s e) (hstep : stepRequested s e = some s') :
    AsRequested s' := by
  obtain ⟨d, r⟩ := s
  obtain ⟨d', hd', rfl⟩ := map_eq_some_iff.mp hstep
  cases e with
  | sync prepared =>
    cases hd'
    unfold Duplication.sync
    split
    · split <;> exact ⟨h.inEffect, h.next, h.rest⟩
    · exact h
  | creatingReply ok =>
    obtain ⟨-, rfl⟩ := of_guard hd'
    exact AsRequested.onReply (d := { d with creating := d.creating - 1 })
      ⟨h.inEffect, h.next, h.rest⟩ hslow
  | createdReply ok =>
    obtain ⟨-, rfl⟩ := of_guard hd'
    exact ⟨h.inEffect, h.next, h.rest⟩
  | queryReply ok =>
    obtain ⟨-, rfl⟩ := of_guard hd'
    exact AsRequested.onReply (d := { d with querying := d.querying - 1 })
      ⟨h.inEffect, h.next, h.rest⟩ hslow
  | modify status failMode =>
    cases hd'
    exact h.modify status failMode
  | store i =>
    obtain ⟨w, -, rfl⟩ := map_eq_some_iff.mp hd'
    exact ⟨h.inEffect, h.next, h.rest⟩
  | written i =>
    simp only [Duplication.step] at hd'
    split at hd'
    · rename_i w hw
      obtain ⟨-, rfl⟩ := of_guard hd'
      exact AsRequested.onWritten (d := { d with writes := d.writes.eraseIdx i })
        ⟨h.inEffect, h.next, h.rest⟩ i w
    · cases hd'
  | failover => exact hslow.elim

end

end Duplication

/-- **The fail mode changes only on request**: it is the one of the last request that is in effect,
and no request waits while no alteration is pending. -/
theorem fail_mode_changes_on_request {isDuplicatingCheckpoint : Bool}
    {events : List DuplicationEvent} {d : Duplication} {r : RequestedMode}
    (hrun : run Duplication.stepRequested (.add isDuplicatingCheckpoint, {}) events = some (d, r))
    (hslow : StepsMeet Duplication.stepRequested Duplication.MovesSlow
      (.add isDuplicatingCheckpoint, {}) events) :
    d.info.failMode = r.failMode ∧ (d.info.isAltering = false → r.pending = none) := by
  have h := run_invariant_of_steps (fun _ _ _ hstep hslow h => h.step hslow hstep) hrun hslow
    (I := Duplication.AsRequested) ⟨rfl, fun _ => rfl, fun _ => rfl⟩
  exact ⟨h.inEffect, h.rest⟩

def askedToSkip : List DuplicationEvent :=
  [.store 0, .written 0, .modify none (some .failSkip), .store 0, .written 0]

/-- The same after the follower has created the table. -/
def createdThenSkip : List DuplicationEvent :=
  [.store 0, .written 0, .sync true, .creatingReply true, .store 0, .written 0,
    .modify none (some .failSkip), .store 0, .written 0]

theorem fail_mode_changes_on_request_skip :
    ∃ d r, run Duplication.stepRequested (.add true, {}) createdThenSkip = some (d, r) ∧
      d.info.status = .app ∧ r.failMode = .failSkip ∧ d.info.failMode = r.failMode := by
  have hslow : StepsMeet Duplication.stepRequested Duplication.MovesSlow (.add true, {})
      createdThenSkip := by
    iterate 9 refine stepsMeet_cons (by first | trivial | exact fun _ => .inr rfl) rfl ?_
    trivial
  exact ⟨_, _, rfl, rfl, rfl, (fail_mode_changes_on_request rfl hslow).1⟩

/-- The follower creates the table, and its reply sets the fail mode back. -/
theorem transition_resets_the_fail_mode :
    ∃ d r, run Duplication.stepRequested (.add true, {})
        (askedToSkip ++ [.sync true, .creatingReply true, .store 0, .written 0]) = some (d, r) ∧
      r = ⟨.failSkip, none⟩ ∧ d.info.isAltering = false ∧ d.info.failMode = .failSlow :=
  ⟨_, _, rfl, rfl, rfl, rfl⟩

end Pegasus.Meta
