/-
The lease-based failure detector of one node (`Pegasus.FailureDetector.Detector`), after
`failure_detector.h` and `failure_detector.cpp`.

A worker sends beacons to a master. It counts its lease from the time at which it sent the last
beacon that was acknowledged, the master counts its grace from the time at which it received the
last beacon. Both look at their records from time to time only, so a worker gives up a lease that
will end before its next check.

- `NoNewLease`, `KeepsGrace`: what an operation does not do to the record of a master, and of a
  worker; one lemma of each kind for every operation;
- `endPingInternal_cases`: only a reply of the master starts a lease;
- `le_lastBeaconRecvTime_onPingInternal`: a beacon that is allowed starts the grace anew.
-/

import Pegasus.Common

namespace Pegasus.FailureDetector

open Function

/-! ### One node -/

/-- `master_record`; a master counts as disconnected at first. -/
structure MasterRecord where
  lastSendTimeForBeaconWithAck : Nat
  isAlive : Bool := false
  rejected : Bool := false
deriving DecidableEq

/-- `worker_record`; a worker counts as connected at first. -/
structure WorkerRecord where
  lastBeaconRecvTime : Nat
  isAlive : Bool := true
deriving DecidableEq

structure BeaconMsg (Node : Type) where
  time : Nat
  fromNode : Node
  toNode : Node
deriving DecidableEq

structure BeaconAck (Node : Type) where
  time : Nat
  thisNode : Node
  isMaster : Bool
  allowed : Bool
deriving DecidableEq

/-- The periods given to `start`. -/
structure Settings where
  checkIntervalMilliseconds : Nat
  leaseMilliseconds : Nat
  graceMilliseconds : Nat
deriving DecidableEq

def isTimeGreaterThan (ts base : Nat) : Bool := decide (base < ts)

/-- The check of a master: the lease must last until the next check. -/
def MasterRecord.check (cfg : Settings) (now : Nat) (record : MasterRecord) : MasterRecord :=
  if record.isAlive ∧ isTimeGreaterThan now record.lastSendTimeForBeaconWithAck ∧
      now + cfg.checkIntervalMilliseconds - record.lastSendTimeForBeaconWithAck >
        cfg.leaseMilliseconds then
    { record with isAlive := false }
  else record

def WorkerRecord.check (cfg : Settings) (now : Nat) (record : WorkerRecord) : WorkerRecord :=
  if record.isAlive ∧ isTimeGreaterThan now record.lastBeaconRecvTime ∧
      now - record.lastBeaconRecvTime > cfg.graceMilliseconds then
    { record with isAlive := false }
  else record

/-- `failure_detector` of one node: the masters it sends beacons to, and the workers it has
received beacons from. -/
structure Detector (Node : Type) where
  masters : Node → Option MasterRecord := fun _ => none
  workers : Node → Option WorkerRecord := fun _ => none
  useAllowList : Bool := false
  allowList : List Node := []

namespace Detector

variable {Node : Type} [DecidableEq Node] (cfg : Settings) (now : Nat)

/-- The first half of `check_all_records`, under one hold of the lock. -/
def checkMasters (d : Detector Node) : Detector Node :=
  { d with masters := fun node => (d.masters node).map (·.check cfg now) }

/-- The second half of `check_all_records`. -/
def checkWorkers (d : Detector Node) : Detector Node :=
  { d with workers := fun node => (d.workers node).map (·.check cfg now) }

/-- `register_master`: a master that is known already is only allowed again. -/
def registerMaster (target : Node) (d : Detector Node) : Detector Node :=
  match d.masters target with
  | none => { d with masters := Function.update d.masters target (some ⟨now, false, false⟩) }
  | some record =>
    { d with masters := Function.update d.masters target (some { record with rejected := false }) }

/-- `switch_master`: the record goes over to the new master as it is. -/
def switchMaster (source target : Node) (d : Detector Node) : Detector Node :=
  match d.masters source, d.masters target with
  | some record, none =>
    { d with
      masters := Function.update
        (Function.update d.masters target (some { record with rejected := false })) source none }
  | _, _ => d

def unregisterMaster (node : Node) (d : Detector Node) : Detector Node :=
  { d with masters := Function.update d.masters node none }

def registerWorker (target : Node) (isConnected : Bool) (d : Detector Node) : Detector Node :=
  match d.workers target with
  | none => { d with workers := Function.update d.workers target (some ⟨now, isConnected⟩) }
  | some _ => d

def unregisterWorker (node : Node) (d : Detector Node) : Detector Node :=
  { d with workers := Function.update d.workers node none }

def clearWorkers (d : Detector Node) : Detector Node := { d with workers := fun _ => none }

def addAllowList (node : Node) (d : Detector Node) : Detector Node :=
  { d with allowList := node :: d.allowList }

def removeFromAllowList (node : Node) (d : Detector Node) : Detector Node :=
  { d with allowList := d.allowList.filter (· ≠ node) }

def onPingInternal (beacon : BeaconMsg Node) (d : Detector Node) :
    BeaconAck Node × Detector Node :=
  let ack : BeaconAck Node := ⟨beacon.time, beacon.toNode, true, true⟩
  match d.workers beacon.fromNode with
  | none =>
    if d.useAllowList ∧ beacon.fromNode ∉ d.allowList then ({ ack with allowed := false }, d)
    else (ack, { d with workers := Function.update d.workers beacon.fromNode (some ⟨now, true⟩) })
  | some record =>
    if isTimeGreaterThan now record.lastBeaconRecvTime then
      (ack, { d with workers := Function.update d.workers beacon.fromNode (some ⟨now, true⟩) })
    else (ack, d)

/-- `end_ping_internal`: the new records, and whether the acknowledgement was applicable. -/
def endPingInternal (ok : Bool) (ack : BeaconAck Node) (d : Detector Node) :
    Bool × Detector Node :=
  match d.masters ack.thisNode with
  | none => (false, d)
  | some record =>
    if ack.allowed = false then
      (false, { d with masters :=
        Function.update d.masters ack.thisNode (some { record with rejected := true }) })
    else if isTimeGreaterThan ack.time record.lastSendTimeForBeaconWithAck = false then (false, d)
    else if ok = false then (true, d)
    else if ack.isMaster = false then (true, d)
    else
      -- a master that is alive stays alive, a disconnected one comes back within the lease
      let isAlive := record.isAlive ||
        (isTimeGreaterThan now ack.time && decide (now - ack.time ≤ cfg.leaseMilliseconds))
      (true, { d with masters :=
        Function.update d.masters ack.thisNode (some ⟨ack.time, isAlive, false⟩) })

end Detector

open Detector

/-! ### What the operations keep -/

section Operations

variable {Node : Type} [DecidableEq Node] {worker master : Node} {d d' : Detector Node}

/-- No record of the master comes alive, and one that is alive keeps its time. -/
def NoNewLease (master : Node) (d d' : Detector Node) : Prop :=
  ∀ r', d'.masters master = some r' → r'.isAlive = true → ∃ r, d.masters master = some r ∧
    r.isAlive = true ∧ r.lastSendTimeForBeaconWithAck = r'.lastSendTimeForBeaconWithAck

/-- The record of the worker is from now on or later, or not older than before. -/
def KeepsGrace (now : Nat) (worker : Node) (d d' : Detector Node) : Prop :=
  ∀ r', d'.workers worker = some r' → now ≤ r'.lastBeaconRecvTime ∨
    ∃ r, d.workers worker = some r ∧ r.lastBeaconRecvTime ≤ r'.lastBeaconRecvTime

omit [DecidableEq Node] in
theorem noNewLease_of_eq (h : d'.masters = d.masters) : NoNewLease master d d' :=
  fun r' hr' halive => ⟨r', h ▸ hr', halive, rfl⟩

omit [DecidableEq Node] in
theorem keepsGrace_of_eq {now : Nat} (h : d'.workers = d.workers) : KeepsGrace now worker d d' :=
  fun r' hr' => .inr ⟨r', h ▸ hr', le_rfl⟩

theorem noNewLease_update {target : Node} {new : Option MasterRecord}
    (hmasters : d'.masters = Function.update d.masters target new)
    (hnew : target = master → ∀ r', new = some r' → r'.isAlive = true →
      ∃ r, d.masters master = some r ∧ r.isAlive = true ∧
        r.lastSendTimeForBeaconWithAck = r'.lastSendTimeForBeaconWithAck) :
    NoNewLease master d d' := by
  intro r' hr' halive
  rw [hmasters] at hr'
  by_cases htarget : target = master
  · subst htarget
    rw [update_self] at hr'
    exact hnew rfl r' hr' halive
  · rw [update_of_ne (Ne.symm htarget)] at hr'
    exact ⟨r', hr', halive, rfl⟩

theorem keepsGrace_update {now : Nat} {target : Node} {new : Option WorkerRecord}
    (hworkers : d'.workers = Function.update d.workers target new)
    (hnew : ∀ r', new = some r' → now ≤ r'.lastBeaconRecvTime) : KeepsGrace now worker d d' := by
  intro r' hr'
  rw [hworkers] at hr'
  by_cases htarget : target = worker
  · subst htarget
    rw [update_self] at hr'
    exact .inl (hnew r' hr')
  · rw [update_of_ne (Ne.symm htarget)] at hr'
    exact .inr ⟨r', hr', le_rfl⟩

variable (cfg : Settings) (now : Nat)

theorem MasterRecord.check_eq (record : MasterRecord) :
    record.check cfg now = record ∨ (record.check cfg now).isAlive = false := by
  unfold MasterRecord.check
  split_ifs
  · exact .inr rfl
  · exact .inl rfl

theorem WorkerRecord.lastBeaconRecvTime_check (record : WorkerRecord) :
    (record.check cfg now).lastBeaconRecvTime = record.lastBeaconRecvTime := by
  unfold WorkerRecord.check
  split_ifs <;> rfl

omit [DecidableEq Node] in
theorem noNewLease_checkMasters : NoNewLease master d (d.checkMasters cfg now) := by
  intro r' hr' halive
  obtain ⟨r, hr, rfl⟩ := Option.map_eq_some_iff.mp hr'
  rcases r.check_eq cfg now with heq | hdead
  · rw [heq] at halive ⊢
    exact ⟨r, hr, halive, rfl⟩
  · exact absurd halive (by simp [hdead])

omit [DecidableEq Node] in
theorem keepsGrace_checkWorkers : KeepsGrace now worker d (d.checkWorkers cfg now) := by
  intro r' hr'
  obtain ⟨r, hr, rfl⟩ := Option.map_eq_some_iff.mp hr'
  exact .inr ⟨r, hr, (r.lastBeaconRecvTime_check cfg now).ge⟩

variable (target : Node)

theorem noNewLease_registerMaster : NoNewLease master d (d.registerMaster now target) := by
  unfold registerMaster
  cases hrecord : d.masters target with
  | none =>
    refine noNewLease_update rfl fun _ r' hr' halive => ?_
    cases hr'
    cases halive
  | some record =>
    refine noNewLease_update rfl fun htarget r' hr' halive => ?_
    cases hr'
    exact ⟨record, htarget ▸ hrecord, halive, rfl⟩

theorem noNewLease_unregisterMaster :
    NoNewLease master d (d.unregisterMaster target) :=
  noNewLease_update rfl fun _ _ hr' => by cases hr'

theorem noNewLease_switchMaster (source : Node) {target : Node} (htarget : target ≠ master) :
    NoNewLease master d (d.switchMaster source target) := by
  intro r' hr' halive
  unfold switchMaster at hr'
  split at hr'
  · simp only [update_apply, if_neg (Ne.symm htarget)] at hr'
    split_ifs at hr'
    exact ⟨r', hr', halive, rfl⟩
  · exact ⟨r', hr', halive, rfl⟩

theorem keepsGrace_switchMaster (source target : Node) :
    KeepsGrace now worker d (d.switchMaster source target) := by
  refine keepsGrace_of_eq ?_
  unfold switchMaster
  split <;> rfl

theorem keepsGrace_registerMaster : KeepsGrace now worker d (d.registerMaster now target) := by
  refine keepsGrace_of_eq ?_
  unfold registerMaster
  split <;> rfl

theorem noNewLease_registerWorker (isConnected : Bool) :
    NoNewLease master d (d.registerWorker now target isConnected) := by
  refine noNewLease_of_eq ?_
  unfold registerWorker
  split <;> rfl

theorem keepsGrace_registerWorker (isConnected : Bool) :
    KeepsGrace now worker d (d.registerWorker now target isConnected) := by
  unfold registerWorker
  split
  · refine keepsGrace_update rfl fun r' hr' => ?_
    cases hr'
    exact le_rfl
  · exact keepsGrace_of_eq rfl

theorem keepsGrace_unregisterWorker :
    KeepsGrace now worker d (d.unregisterWorker target) :=
  keepsGrace_update rfl fun _ hr' => by cases hr'

variable (beacon : BeaconMsg Node)

theorem masters_onPingInternal : (d.onPingInternal now beacon).2.masters = d.masters := by
  unfold onPingInternal
  dsimp only
  split
  · split_ifs <;> rfl
  · split_ifs <;> rfl

theorem ack_onPingInternal :
    (d.onPingInternal now beacon).1.time = beacon.time ∧
      (d.onPingInternal now beacon).1.thisNode = beacon.toNode := by
  unfold onPingInternal
  dsimp only
  split
  · split_ifs <;> exact ⟨rfl, rfl⟩
  · split_ifs <;> exact ⟨rfl, rfl⟩

theorem keepsGrace_onPingInternal : KeepsGrace now worker d (d.onPingInternal now beacon).2 := by
  have hfresh : KeepsGrace now worker d
      { d with workers := Function.update d.workers beacon.fromNode (some ⟨now, true⟩) } := by
    refine keepsGrace_update rfl fun r' hr' => ?_
    cases hr'
    exact le_rfl
  unfold onPingInternal
  dsimp only
  split
  · split_ifs
    · exact keepsGrace_of_eq rfl
    · exact hfresh
  · split_ifs
    · exact hfresh
    · exact keepsGrace_of_eq rfl

theorem le_lastBeaconRecvTime_onPingInternal {beacon : BeaconMsg Node}
    (hallowed : (d.onPingInternal now beacon).1.allowed = true) {r : WorkerRecord}
    (hr : (d.onPingInternal now beacon).2.workers beacon.fromNode = some r) :
    now ≤ r.lastBeaconRecvTime := by
  unfold onPingInternal at hallowed hr
  cases hrecord : d.workers beacon.fromNode with
  | none =>
    simp only [hrecord] at hallowed hr
    by_cases hrefused : d.useAllowList ∧ beacon.fromNode ∉ d.allowList
    · simp [hrefused] at hallowed
    · simp only [if_neg hrefused, update_self] at hr
      cases hr
      exact le_rfl
  | some record =>
    simp only [hrecord] at hr
    by_cases hlater : isTimeGreaterThan now record.lastBeaconRecvTime
    · simp only [if_pos hlater, update_self] at hr
      cases hr
      exact le_rfl
    · simp only [if_neg hlater, hrecord] at hr
      cases hr
      simpa [isTimeGreaterThan] using hlater

theorem workers_endPingInternal (ok : Bool) (ack : BeaconAck Node) :
    (d.endPingInternal cfg now ok ack).2.workers = d.workers := by
  unfold endPingInternal
  split
  · rfl
  · split_ifs <;> rfl

/-- The end of a ping starts a lease only for a reply of the master, with the time of its beacon. -/
theorem endPingInternal_cases (ok : Bool) (ack : BeaconAck Node) :
    NoNewLease master d (d.endPingInternal cfg now ok ack).2 ∨
      (ok = true ∧ ack.thisNode = master ∧ ack.allowed = true ∧
        ∀ r', (d.endPingInternal cfg now ok ack).2.masters master = some r' →
          r'.lastSendTimeForBeaconWithAck = ack.time) := by
  unfold endPingInternal
  cases hrecord : d.masters ack.thisNode with
  | none => exact .inl (noNewLease_of_eq rfl)
  | some record =>
    dsimp only
    split_ifs with hrejected hold hfailed hnotMaster
    · refine .inl (noNewLease_update rfl fun hmaster r' hr' halive => ?_)
      cases hr'
      exact ⟨record, hmaster ▸ hrecord, halive, rfl⟩
    · exact .inl (noNewLease_of_eq rfl)
    · exact .inl (noNewLease_of_eq rfl)
    · exact .inl (noNewLease_of_eq rfl)
    · by_cases hmaster : ack.thisNode = master
      · refine .inr ⟨by simpa using hfailed, hmaster, by simpa using hrejected, ?_⟩
        intro r' hr'
        simp only [hmaster, update_self] at hr'
        cases hr'
        rfl
      · exact .inl (noNewLease_update rfl fun h => absurd h hmaster)

end Operations

end Pegasus.FailureDetector
