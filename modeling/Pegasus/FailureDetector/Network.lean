/-
Nodes that watch each other over a network (`Pegasus.FailureDetector.Network`).

Any number of nodes run the failure detector. Beacons and acknowledgements are lost, delayed and
duplicated. The clocks of the nodes run at one rate and are not synchronised.

- `Known.step`: what an acknowledgement, a record and a check say about each other is kept;
- `perfect_failure_detection`: the main result.
-/

import Pegasus.Lib.Run
import Pegasus.FailureDetector.Detector

namespace Pegasus.FailureDetector

open TransitionSystem Option Function

/-! ### The network -/

/-- The settings of all nodes and their clocks, which run at one rate, each ahead of the time by
its offset. -/
structure Config (Node : Type) extends Settings where
  clockOffset : Node → Nat

/-- What has been sent stays in the network, so that it may be delivered late, again, or never. -/
structure Network (Node : Type) where
  time : Nat
  detectors : Node → Detector Node
  beacons : List (BeaconMsg Node) := []
  /-- The acknowledgements, each with the node it goes to. -/
  acks : List (Node × BeaconAck Node) := []
  /-- When a node last checked its masters, or started. -/
  lastCheck : Node → Nat

inductive Event (Node : Type) where
  | elapse (milliseconds : Nat)
  | checkMasters (node : Node)
  | checkWorkers (node : Node)
  | registerMaster (node target : Node)
  | switchMaster (node source target : Node)
  | unregisterMaster (node target : Node)
  | registerWorker (node target : Node) (isConnected : Bool)
  | unregisterWorker (node target : Node)
  | clearWorkers (node : Node)
  | addAllowList (node target : Node)
  | removeFromAllowList (node target : Node)
  | sendBeacon (node target : Node)
  | onPing (beacon : BeaconMsg Node)
  | endPing (node : Node) (ack : BeaconAck Node)
  | pingTimeout (beacon : BeaconMsg Node)
deriving DecidableEq

namespace Network

variable {Node : Type} [DecidableEq Node] (cfg : Config Node)

/-- `dsn_now_ms` of a node. -/
def now (s : Network Node) (node : Node) : Nat := s.time + cfg.clockOffset node

def modify (s : Network Node) (node : Node) (f : Detector Node → Detector Node) : Network Node :=
  { s with detectors := update s.detectors node (f (s.detectors node)) }

def sendBeacon (s : Network Node) (node target : Node) : Network Node :=
  { s with beacons := ⟨s.now cfg node, node, target⟩ :: s.beacons }

def checkMasters (s : Network Node) (node : Node) : Network Node :=
  { s.modify node (·.checkMasters cfg.toSettings (s.now cfg node)) with
    lastCheck := update s.lastCheck node s.time }

/-- `on_ping` and its reply. -/
def onPing (s : Network Node) (beacon : BeaconMsg Node) : Network Node :=
  let ping := (s.detectors beacon.toNode).onPingInternal (s.now cfg beacon.toNode) beacon
  { s.modify beacon.toNode fun _ => ping.2 with acks := (beacon.fromNode, ping.1) :: s.acks }

/-- `end_ping`, for a reply or, with `ok` false, for a beacon without one. -/
def endPing (s : Network Node) (node : Node) (ok : Bool) (ack : BeaconAck Node) : Network Node :=
  s.modify node fun d => (d.endPingInternal cfg.toSettings (s.now cfg node) ok ack).2

def step (s : Network Node) : Event Node → Option (Network Node)
  | .elapse milliseconds => some { s with time := s.time + milliseconds }
  | .checkMasters node => some (s.checkMasters cfg node)
  | .checkWorkers node => some (s.modify node (·.checkWorkers cfg.toSettings (s.now cfg node)))
  | .registerMaster node target => some (s.modify node (·.registerMaster (s.now cfg node) target))
  | .switchMaster node source target => some (s.modify node (·.switchMaster source target))
  | .unregisterMaster node target => some (s.modify node (·.unregisterMaster target))
  | .registerWorker node target isConnected =>
    some (s.modify node (·.registerWorker (s.now cfg node) target isConnected))
  | .unregisterWorker node target => some (s.modify node (·.unregisterWorker target))
  | .clearWorkers node => some (s.modify node (·.clearWorkers))
  | .addAllowList node target => some (s.modify node (·.addAllowList target))
  | .removeFromAllowList node target => some (s.modify node (·.removeFromAllowList target))
  | .sendBeacon node target => some (s.sendBeacon cfg node target)
  | .onPing beacon => if beacon ∈ s.beacons then some (s.onPing cfg beacon) else none
  | .endPing node ack => if (node, ack) ∈ s.acks then some (s.endPing cfg node true ack) else none
  | .pingTimeout beacon =>
    if beacon ∈ s.beacons then
      some (s.endPing cfg beacon.fromNode false ⟨beacon.time, beacon.toNode, false, true⟩)
    else none

structure Initial (s : Network Node) : Prop where
  masters : ∀ node target, (s.detectors node).masters target = none
  workers : ∀ node target, (s.detectors node).workers target = none
  beacons : s.beacons = []
  acks : s.acks = []
  lastCheck : ∀ node, s.lastCheck node = s.time

/-- The worker has a record of the master that says that it is alive. -/
def MasterAlive (s : Network Node) (worker master : Node) : Prop :=
  ∃ record, (s.detectors worker).masters master = some record ∧ record.isAlive = true

/-- The next check of the workers of `master` marks `worker` as not alive. -/
def Expires (s : Network Node) (master worker : Node) : Prop :=
  ∃ record, (s.detectors master).workers worker = some record ∧ record.isAlive = true ∧
    (record.check cfg.toSettings (s.now cfg master)).isAlive = false

/-- What is assumed of `worker` and `master`: the worker checks its masters at least every check
interval, it takes a reply of the master only within the lease less a check interval of sending,
and its record of the master is not one that it kept of another node. -/
def Timely (worker master : Node) (s : Network Node) : Event Node → Prop
  | .elapse milliseconds =>
    s.time + milliseconds ≤ s.lastCheck worker + cfg.checkIntervalMilliseconds
  | .endPing node ack => node = worker → ack.thisNode = master →
    s.now cfg worker + cfg.checkIntervalMilliseconds ≤ ack.time + cfg.leaseMilliseconds
  | .switchMaster node _ target => node = worker → target ≠ master
  | _ => True

end Network

/-! ### Leases and graces -/

section Known

variable {Node : Type} [DecidableEq Node] {cfg : Config Node} {worker master : Node}
  {s : Network Node}

open Network

/-- **What the two nodes know of each other.** A beacon that the master has acknowledged was sent
before the time in its record of the worker, and the lease of the worker, if it has one, is that of
such a beacon and lasts until its next check. -/
structure Known (cfg : Config Node) (worker master : Node) (s : Network Node) : Prop where
  sent : ∀ beacon ∈ s.beacons, beacon.fromNode = worker → beacon.time ≤ s.now cfg worker
  acked : ∀ ack, (worker, ack) ∈ s.acks → ack.time ≤ s.now cfg worker
  heard : ∀ ack, (worker, ack) ∈ s.acks → ack.thisNode = master → ack.allowed = true →
    ∀ r, (s.detectors master).workers worker = some r →
      ack.time + cfg.clockOffset master ≤ r.lastBeaconRecvTime + cfg.clockOffset worker
  source : ∀ r, (s.detectors worker).masters master = some r → r.isAlive = true →
    ∃ ack, (worker, ack) ∈ s.acks ∧ ack.thisNode = master ∧ ack.allowed = true ∧
      ack.time = r.lastSendTimeForBeaconWithAck
  lease : ∀ r, (s.detectors worker).masters master = some r → r.isAlive = true →
    s.lastCheck worker + cfg.clockOffset worker + cfg.checkIntervalMilliseconds ≤
      r.lastSendTimeForBeaconWithAck + cfg.leaseMilliseconds
  long : s.MasterAlive worker master → cfg.checkIntervalMilliseconds ≤ cfg.leaseMilliseconds
  checked : s.lastCheck worker ≤ s.time ∧
    s.time ≤ s.lastCheck worker + cfg.checkIntervalMilliseconds

omit [DecidableEq Node] in
theorem known_initial (h : s.Initial) : Known cfg worker master s where
  sent := by simp [h.beacons]
  acked := by simp [h.acks]
  heard := by simp [h.acks]
  source r hr := by simp [h.masters] at hr
  lease r hr := by simp [h.masters] at hr
  long halive := by simp [MasterAlive, h.masters] at halive
  checked := by simp [h.lastCheck]

variable (h : Known cfg worker master s)
include h

theorem Known.modify {node : Node} {f : Detector Node → Detector Node}
    (hlease : node = worker → NoNewLease master (s.detectors node) (f (s.detectors node)))
    (hgrace : node = master →
      KeepsGrace (s.now cfg node) worker (s.detectors node) (f (s.detectors node))) :
    Known cfg worker master (s.modify node f) := by
  have hmasters : NoNewLease master (s.detectors worker) ((s.modify node f).detectors worker) := by
    by_cases hnode : node = worker
    · subst hnode
      simpa [Network.modify] using hlease rfl
    · exact noNewLease_of_eq (by simp [Network.modify, update_of_ne (Ne.symm hnode)])
  have hworkers : KeepsGrace (s.now cfg master) worker (s.detectors master)
      ((s.modify node f).detectors master) := by
    by_cases hnode : node = master
    · subst hnode
      simpa [Network.modify] using hgrace rfl
    · exact keepsGrace_of_eq (by simp [Network.modify, update_of_ne (Ne.symm hnode)])
  refine ⟨h.sent, h.acked, ?_, ?_, ?_, ?_, h.checked⟩
  · intro ack hack hthis hallowed r' hr'
    rcases hworkers r' hr' with hnow | ⟨r, hr, hle⟩
    · have := h.acked ack hack
      simp only [Network.now] at this hnow
      omega
    · exact (h.heard ack hack hthis hallowed r hr).trans (by omega)
  · intro r' hr' halive
    obtain ⟨r, hr, halive, htime⟩ := hmasters r' hr' halive
    obtain ⟨ack, hack, hthis, hallowed, hack_time⟩ := h.source r hr halive
    exact ⟨ack, hack, hthis, hallowed, hack_time.trans htime⟩
  · intro r' hr' halive
    obtain ⟨r, hr, halive, htime⟩ := hmasters r' hr' halive
    exact htime ▸ h.lease r hr halive
  · rintro ⟨r', hr', halive⟩
    obtain ⟨r, hr, halive, -⟩ := hmasters r' hr' halive
    exact h.long ⟨r, hr, halive⟩

omit [DecidableEq Node] in
theorem Known.elapse {milliseconds : Nat}
    (htimely : Timely cfg worker master s (.elapse milliseconds)) :
    Known cfg worker master { s with time := s.time + milliseconds } := by
  refine ⟨?_, ?_, h.heard, h.source, h.lease, h.long, ?_⟩
  · intro beacon hbeacon hfrom
    exact (h.sent beacon hbeacon hfrom).trans (by simp only [Network.now]; omega)
  · intro ack hack
    exact (h.acked ack hack).trans (by simp only [Network.now]; omega)
  · exact ⟨h.checked.1.trans (Nat.le_add_right _ _), htimely⟩

omit [DecidableEq Node] in
theorem Known.sendBeacon (node target : Node) :
    Known cfg worker master (s.sendBeacon cfg node target) := by
  refine ⟨?_, h.acked, h.heard, h.source, h.lease, h.long, h.checked⟩
  intro beacon hbeacon hfrom
  rcases List.mem_cons.mp hbeacon with rfl | hbeacon
  · exact hfrom ▸ le_rfl
  · exact h.sent beacon hbeacon hfrom

variable {settings : Settings} {ack : BeaconAck Node} {t : Network Node}

omit h in
theorem MasterRecord.lease_of_check {now : Nat} {record : MasterRecord}
    (hsent : record.lastSendTimeForBeaconWithAck ≤ now)
    (hlease : settings.checkIntervalMilliseconds ≤ settings.leaseMilliseconds)
    (halive : (record.check settings now).isAlive = true) :
    now + settings.checkIntervalMilliseconds ≤
      record.lastSendTimeForBeaconWithAck + settings.leaseMilliseconds := by
  unfold MasterRecord.check at halive
  split_ifs at halive with hexpired
  simp only [isTimeGreaterThan, decide_eq_true_eq, halive, true_and, not_and] at hexpired
  by_cases hlater : record.lastSendTimeForBeaconWithAck < now
  · have := hexpired hlater
    omega
  · omega

theorem Known.checkMasters (node : Node) : Known cfg worker master (s.checkMasters cfg node) := by
  have hkept : Known cfg worker master
      (s.modify node (·.checkMasters cfg.toSettings (s.now cfg node))) :=
    h.modify (fun _ => noNewLease_checkMasters _ _) fun _ => keepsGrace_of_eq rfl
  refine ⟨hkept.sent, hkept.acked, hkept.heard, hkept.source, ?_, hkept.long, ?_⟩
  · intro r' hr' halive
    by_cases hnode : node = worker
    · subst hnode
      obtain ⟨ack, hack, -, -, htime⟩ := hkept.source r' hr' halive
      have hlong := hkept.long ⟨r', hr', halive⟩
      have hsent := h.acked ack hack
      simp only [Network.checkMasters, Network.modify, update_self] at hr' ⊢
      obtain ⟨r, -, rfl⟩ := map_eq_some_iff.mp hr'
      rcases r.check_eq cfg.toSettings (s.now cfg node) with heq | hdead
      · rw [heq] at htime ⊢
        exact MasterRecord.lease_of_check (htime ▸ hsent) hlong halive
      · exact absurd halive (by simp [hdead])
    · simp only [Network.checkMasters, update_of_ne (Ne.symm hnode)]
      exact hkept.lease r' hr' halive
  · by_cases hnode : node = worker
    · subst hnode
      simp [Network.checkMasters, Network.modify]
    · simpa [Network.checkMasters, Network.modify, update_of_ne (Ne.symm hnode)] using
        h.checked

theorem Known.onPing {beacon : BeaconMsg Node} (hbeacon : beacon ∈ s.beacons) :
    Known cfg worker master (s.onPing cfg beacon) := by
  have hkept : Known cfg worker master (s.modify beacon.toNode fun d =>
      (d.onPingInternal (s.now cfg beacon.toNode) beacon).2) :=
    h.modify (fun _ => noNewLease_of_eq (masters_onPingInternal _ _))
      fun _ => keepsGrace_onPingInternal _ _
  obtain ⟨htime, hthis⟩ := @ack_onPingInternal _ _ (s.detectors beacon.toNode)
    (s.now cfg beacon.toNode) beacon
  refine ⟨hkept.sent, ?_, ?_, ?_, hkept.lease, hkept.long, hkept.checked⟩
  · intro ack hack
    rcases List.mem_cons.mp hack with hnew | hack
    · obtain ⟨hfrom, rfl⟩ := Prod.mk.inj hnew
      exact htime ▸ h.sent beacon hbeacon hfrom.symm
    · exact h.acked ack hack
  · intro ack hack hack_this hallowed r hr
    rcases List.mem_cons.mp hack with hnew | hack
    · -- the grace starts anew, after the beacon was sent
      obtain ⟨hfrom, rfl⟩ := Prod.mk.inj hnew
      obtain rfl : beacon.toNode = master := hthis.symm.trans hack_this
      have hsent := h.sent beacon hbeacon hfrom.symm
      simp only [Network.onPing, Network.modify, update_self, hfrom] at hr
      have hnow := le_lastBeaconRecvTime_onPingInternal _ hallowed hr
      simp only [Network.now] at hsent hnow
      rw [htime]
      omega
    · exact hkept.heard ack hack hack_this hallowed r hr
  · intro r hr halive
    obtain ⟨ack, hack, hrest⟩ := hkept.source r hr halive
    exact ⟨ack, List.mem_cons_of_mem _ hack, hrest⟩

omit h in
theorem workers_endPing (node : Node) (ok : Bool) (ack : BeaconAck Node) (n : Node) :
    ((s.endPing cfg node ok ack).detectors n).workers = (s.detectors n).workers := by
  by_cases hn : n = node
  · subst hn
    simp [Network.endPing, Network.modify, workers_endPingInternal]
  · simp [Network.endPing, Network.modify, update_of_ne hn]

theorem Known.endPing {node : Node} (hack : (node, ack) ∈ s.acks)
    (htimely : Timely cfg worker master s (.endPing node ack)) :
    Known cfg worker master (s.endPing cfg node true ack) := by
  have hgrace : node = master → KeepsGrace (s.now cfg node) worker (s.detectors node)
      ((s.detectors node).endPingInternal cfg.toSettings (s.now cfg node) true ack).2 :=
    fun _ => keepsGrace_of_eq (workers_endPingInternal _ _ _ _)
  by_cases hnode : node = worker
  · rcases @endPingInternal_cases _ _ master (s.detectors node) cfg.toSettings (s.now cfg node)
      true ack with hlease | ⟨-, hthis, hallowed, htime⟩
    · exact h.modify (fun _ => hlease) hgrace
    · subst hnode
      have hnow := htimely rfl hthis
      have hsent := h.acked ack hack
      have hchecked := h.checked.1
      simp only [Network.now] at hnow hsent
      refine ⟨h.sent, h.acked, ?_, ?_, ?_, ?_, h.checked⟩
      · intro ack' hack' hthis' hallowed' r hr
        rw [workers_endPing] at hr
        exact h.heard ack' hack' hthis' hallowed' r hr
      · intro r hr _
        simp only [Network.endPing, Network.modify, update_self] at hr
        exact ⟨ack, hack, hthis, hallowed, (htime r hr).symm⟩
      · intro r hr _
        simp only [Network.endPing, Network.modify, update_self] at hr ⊢
        rw [htime r hr]
        omega
      · intro _
        omega
  · exact h.modify (fun h => absurd h hnode) hgrace

theorem Known.pingTimeout (node : Node) (ack : BeaconAck Node) :
    Known cfg worker master (s.endPing cfg node false ack) := by
  refine h.modify (fun _ => ?_) fun _ => keepsGrace_of_eq (workers_endPingInternal _ _ _ _)
  rcases @endPingInternal_cases _ _ master (s.detectors node) cfg.toSettings (s.now cfg node)
    false ack with hlease | ⟨hok, -⟩
  · exact hlease
  · cases hok

omit h in
theorem Known.step {e : Event Node} (hstep : s.step cfg e = some t)
    (htimely : Timely cfg worker master s e) (h : Known cfg worker master s) :
    Known cfg worker master t := by
  cases e with
  | elapse milliseconds => cases hstep; exact h.elapse htimely
  | checkMasters node => cases hstep; exact h.checkMasters node
  | checkWorkers node =>
    cases hstep
    exact h.modify (fun _ => noNewLease_of_eq rfl) fun _ => keepsGrace_checkWorkers _ _
  | registerMaster node target =>
    cases hstep
    exact h.modify (fun _ => noNewLease_registerMaster _ _) fun _ => keepsGrace_registerMaster _ _
  | switchMaster node source target =>
    cases hstep
    exact h.modify (fun hnode => noNewLease_switchMaster _ (htimely hnode))
      fun _ => keepsGrace_switchMaster _ _ _
  | unregisterMaster node target =>
    cases hstep
    exact h.modify (fun _ => noNewLease_unregisterMaster _) fun _ => keepsGrace_of_eq rfl
  | registerWorker node target isConnected =>
    cases hstep
    exact h.modify (fun _ => noNewLease_registerWorker _ _ _)
      fun _ => keepsGrace_registerWorker _ _ _
  | unregisterWorker node target =>
    cases hstep
    exact h.modify (fun _ => noNewLease_of_eq rfl) fun _ => keepsGrace_unregisterWorker _ _
  | clearWorkers node =>
    cases hstep
    exact h.modify (fun _ => noNewLease_of_eq rfl) fun _ r' hr' => by cases hr'
  | addAllowList node target =>
    cases hstep
    exact h.modify (fun _ => noNewLease_of_eq rfl) fun _ => keepsGrace_of_eq rfl
  | removeFromAllowList node target =>
    cases hstep
    exact h.modify (fun _ => noNewLease_of_eq rfl) fun _ => keepsGrace_of_eq rfl
  | sendBeacon node target => cases hstep; exact h.sendBeacon node target
  | onPing beacon =>
    obtain ⟨hbeacon, hstep⟩ := ite_none_right_eq_some.mp hstep
    cases hstep
    exact h.onPing hbeacon
  | endPing node ack =>
    obtain ⟨hack, hstep⟩ := ite_none_right_eq_some.mp hstep
    cases hstep
    exact h.endPing hack htimely
  | pingTimeout beacon =>
    obtain ⟨-, hstep⟩ := ite_none_right_eq_some.mp hstep
    cases hstep
    exact h.pingTimeout _ _

/-! ### Perfect detection -/

omit [DecidableEq Node] in
theorem Known.expires (hexpires : s.Expires cfg master worker) (hack : (worker, ack) ∈ s.acks)
    (hthis : ack.thisNode = master) (hallowed : ack.allowed = true) :
    ack.time + cfg.graceMilliseconds < s.now cfg worker := by
  obtain ⟨record, hrecord, halive, hdead⟩ := hexpires
  have hheard := h.heard ack hack hthis hallowed record hrecord
  unfold WorkerRecord.check at hdead
  split_ifs at hdead with hexpired
  · have hgrace := hexpired.2.2
    simp only [Network.now] at hgrace ⊢
    omega
  · exact absurd halive (by simp [hdead])

omit [DecidableEq Node] in
theorem Known.not_masterAlive (hlease : cfg.leaseMilliseconds < cfg.graceMilliseconds)
    (hexpires : s.Expires cfg master worker) : ¬ s.MasterAlive worker master := by
  rintro ⟨record, hrecord, halive⟩
  obtain ⟨ack, hack, hthis, hallowed, htime⟩ := h.source record hrecord halive
  have hexpired := h.expires hexpires hack hthis hallowed
  have hkept := h.lease record hrecord halive
  have hchecked := h.checked.2
  simp only [Network.now] at hexpired
  omega

omit h

theorem time_le_run {es : List (Event Node)} (hrun : run (Network.step cfg) s es = some t) :
    s.time ≤ t.time := by
  refine run_invariant (I := fun u => s.time ≤ u.time) ?_ hrun le_rfl
  intro u e u' hstep hle
  refine hle.trans ?_
  cases e with
  | elapse milliseconds => cases hstep; exact Nat.le_add_right _ _
  | onPing beacon =>
    obtain ⟨-, hstep⟩ := ite_none_right_eq_some.mp hstep
    cases hstep
    exact le_rfl
  | endPing node ack =>
    obtain ⟨-, hstep⟩ := ite_none_right_eq_some.mp hstep
    cases hstep
    exact le_rfl
  | pingTimeout beacon =>
    obtain ⟨-, hstep⟩ := ite_none_right_eq_some.mp hstep
    cases hstep
    exact le_rfl
  | _ => cases hstep; exact le_rfl

theorem isAlive_of_late {d : Detector Node} {now : Nat} {ok : Bool}
    (hlate : ack.allowed = true → ack.time + settings.leaseMilliseconds < now) {r' : MasterRecord}
    (hr' : (d.endPingInternal settings now ok ack).2.masters master = some r')
    (halive : r'.isAlive = true) : ∃ r, d.masters master = some r ∧ r.isAlive = true := by
  rcases @endPingInternal_cases _ _ master d settings now ok ack with
    hlease | ⟨-, hthis, hallowed, -⟩
  · obtain ⟨r, hr, hr_alive, -⟩ := hlease r' hr' halive
    exact ⟨r, hr, hr_alive⟩
  · have hlate := hlate hallowed
    have hexpired : ¬ now - ack.time ≤ settings.leaseMilliseconds := by omega
    unfold Detector.endPingInternal at hr'
    cases hrecord : d.masters ack.thisNode with
    | none =>
      simp only [hrecord] at hr'
      exact ⟨r', hr', halive⟩
    | some record =>
      subst hthis
      simp only [hrecord, hallowed, hexpired, decide_false, Bool.and_false, Bool.or_false] at hr'
      refine ⟨record, hrecord, ?_⟩
      split_ifs at hr'
      all_goals
        simp only [hrecord, update_self] at hr'
        cases hr'
        exact halive

/-- **Perfect failure detection.** When a master marks a worker as not alive, the worker does not
take the master for alive any more, and no reply to a beacon that the master has received by then
brings the master back, however late or often it comes. -/
theorem perfect_failure_detection (cfg : Config Node) {worker master : Node}
    (hlease : cfg.leaseMilliseconds < cfg.graceMilliseconds) {s₀ s : Network Node}
    (hinit : s₀.Initial) {es : List (Event Node)}
    (hrun : run (Network.step cfg) s₀ es = some s)
    (htimely : StepsMeet (Network.step cfg) (Timely cfg worker master) s₀ es)
    (hexpires : s.Expires cfg master worker) :
    ¬ s.MasterAlive worker master ∧
      ∀ fs t ack t',
        run (Network.step cfg) s (.checkWorkers master :: fs) = some t →
        (worker, ack) ∈ s.acks → ack.thisNode = master →
          t.step cfg (.endPing worker ack) = some t' → t'.MasterAlive worker master →
            t.MasterAlive worker master := by
  have hknown : Known cfg worker master s :=
    run_invariant_of_steps (fun _ _ _ hstep ht h => h.step hstep ht) hrun htimely
      (known_initial hinit)
  refine ⟨hknown.not_masterAlive hlease hexpires, ?_⟩
  intro fs t ack t' hrun' hack hthis hstep halive
  have htime := time_le_run hrun'
  obtain ⟨-, hstep⟩ := ite_none_right_eq_some.mp hstep
  cases hstep
  obtain ⟨r', hr', halive⟩ := halive
  simp only [Network.endPing, Network.modify, update_self] at hr'
  refine isAlive_of_late (fun hallowed => ?_) hr' halive
  have hexpired := hknown.expires hexpires hack hthis hallowed
  simp only [Network.now] at hexpired ⊢
  omega

end Known

/-! ### A run -/

/-- Node 0 is the master, node 1 a worker whose clock is ten milliseconds ahead. -/
def twoNodes : Config Nat where
  checkIntervalMilliseconds := 1
  leaseMilliseconds := 3
  graceMilliseconds := 5
  clockOffset node := if node = 1 then 10 else 0

def started : Network Nat where
  time := 0
  detectors _ := {}
  lastCheck _ := 0

/-- One beacon is acknowledged, and the worker hears nothing more. -/
def oneBeacon : List (Event Nat) :=
  [.registerMaster 1 0, .elapse 1, .checkMasters 1, .sendBeacon 1 0, .onPing ⟨11, 1, 0⟩, .elapse 1,
    .checkMasters 1, .endPing 1 ⟨11, 0, true, true⟩, .elapse 1, .checkMasters 1, .elapse 1,
    .checkMasters 1, .elapse 1, .checkMasters 1, .elapse 1, .checkMasters 1, .elapse 1]

/-- The master gives up the worker, which has given up the master before. -/
theorem perfect_failure_detection_one_beacon :
    ∃ s, run (Network.step twoNodes) started oneBeacon = some s ∧
      s.Expires twoNodes 0 1 ∧ ¬ s.MasterAlive 1 0 := by
  have hinit : started.Initial := ⟨fun _ _ => rfl, fun _ _ => rfl, rfl, rfl, fun _ => rfl⟩
  have htimely : StepsMeet (Network.step twoNodes) (Network.Timely twoNodes 1 0)
      started oneBeacon := by
    unfold oneBeacon
    iterate 17
      refine stepsMeet_cons ?_ rfl ?_
      · first
          | exact trivial
          | exact Nat.le_of_ble_eq_true rfl
          | exact fun _ _ => Nat.le_of_ble_eq_true rfl
    trivial
  have h := perfect_failure_detection twoNodes (by decide) hinit rfl htimely ⟨_, rfl, rfl, rfl⟩
  exact ⟨_, rfl, ⟨_, rfl, rfl, rfl⟩, h.1⟩

end Pegasus.FailureDetector
