/-
A change of the replica count is single-flight (`Pegasus.Meta.SingleFlight`).

A change goes through phases: the env is written, the partitions are, and then the count of the
table; a new meta server that finds the env recovers the partitions and then the count. In every
phase the counts of the partitions, what their slots hold and what the storage has are known.

- `Progress`: the phases, and `Progress.failover`: what a new meta server makes of them;
- `Progress.step`: every orderly step leads to a phase;
- `change_is_single_flight`: the main result;
- `second_request_reads_nothing`: events that are not orderly abort the meta server.
-/

import Pegasus.Meta.MaxReplicaCount

namespace Pegasus.Meta

open TransitionSystem Option

namespace ReplicaCount

/-! ### The phases of a change -/

variable {Members : Type} {n : Nat}

/-- A partition that keeps its count, also in the update that is being written. -/
structure Holding (count : Int) (retry : Option Counts) (p : Partition Members) : Prop where
  config : p.config.maxReplicaCount = count
  stored : p.stored.maxReplicaCount = count
  slot : ∀ config counts applied, p.slot = .pending config counts applied →
    counts = none ∧ config.maxReplicaCount = count ∧ p.config.ballot + 1 = config.ballot
  retry : p.retry = retry
  recovering : p.recovering = none

abbrev Settled (count : Int) (p : Partition Members) : Prop := Holding count none p

/-- A partition whose new count is still to be written: it waits for the slot, or has it. -/
inductive Waiting (counts : Counts) (p : Partition Members) : Prop where
  | retrying (h : Holding counts.old (some counts) p)
  | writing (applied : Bool) (hconfig : p.config.maxReplicaCount = counts.old)
      (hstored : applied = true → p.stored.maxReplicaCount = counts.new)
      (hslot : p.slot = .pending (Table.withCount p.config counts.new) (some counts) applied)
      (hretry : p.retry = none) (hrecovering : p.recovering = none)

structure Recovering (count : Int) (p : Partition Members) : Prop where
  slot : p.slot = .notPending
  retry : p.retry = none
  recovering : (p.recovering = none ∧ p.config.maxReplicaCount = count ∧
      p.stored.maxReplicaCount = count) ∨
    ∃ applied, p.recovering = some (Table.withCount p.config count, applied) ∧
      (applied = true → p.stored.maxReplicaCount = count)

structure Writes (t : Table Members n) (envWrites appWrites : List (Counts × Bool))
    (partitionsInProgress : Int) : Prop where
  env : t.envWrites = envWrites
  app : t.appWrites = appWrites
  partitions : t.partitionsInProgress = partitionsInProgress

structure Quiet (count : Int) (t : Table Members n) : Prop where
  mode : t.mode = .serving
  env : t.env = none
  storedEnv : t.storedEnv = none
  maxReplicaCount : t.maxReplicaCount = count
  storedCount : t.storedMaxReplicaCount = count
  writes : Writes t [] [] 0
  partitions : ∀ i, Settled count (t.partitions i)

structure WritingEnv (counts : Counts) (applied : Bool) (t : Table Members n) : Prop where
  ne : counts.old ≠ counts.new
  mode : t.mode = .serving
  maxReplicaCount : t.maxReplicaCount = counts.old
  storedCount : t.storedMaxReplicaCount = counts.old
  storedEnv : (applied = false ∧ t.storedEnv = none) ∨ t.storedEnv = some (.updating counts.new)
  writes : Writes t [(counts, applied)] [] 0
  partitions : ∀ i, Settled counts.old (t.partitions i)

structure Updating (counts : Counts) (outstanding : Finset (Fin n)) (t : Table Members n) :
    Prop where
  ne : counts.old ≠ counts.new
  mode : t.mode = .serving
  env : t.env = some (.updating counts.new)
  maxReplicaCount : t.maxReplicaCount = counts.old
  storedCount : t.storedMaxReplicaCount = counts.old
  storedEnv : t.storedEnv = some (.updating counts.new)
  writes : Writes t [] [] outstanding.card
  waiting : ∀ i ∈ outstanding, Waiting counts (t.partitions i)
  done : ∀ i ∉ outstanding, Settled counts.new (t.partitions i)

structure WritingApp (counts : Counts) (applied : Bool) (t : Table Members n) : Prop where
  mode : t.mode = .serving
  env : t.env = some (.updating counts.new)
  maxReplicaCount : t.maxReplicaCount = counts.old
  stored : (applied = false ∧ t.storedEnv = some (.updating counts.new)) ∨
    (t.storedMaxReplicaCount = counts.new ∧ t.storedEnv = none)
  writes : Writes t [] [(counts, applied)] 0
  partitions : ∀ i, Settled counts.new (t.partitions i)

structure RecoveringPartitions (count : Int) (t : Table Members n) : Prop where
  mode : t.mode = .recoveringPartitions count
  storedEnv : t.storedEnv = some (.updating count)
  writes : Writes t [] [] 0
  partitions : ∀ i, Recovering count (t.partitions i)

structure RecoveringApp (count : Int) (applied : Bool) (t : Table Members n) : Prop where
  mode : t.mode = .recoveringApp count applied
  stored : (applied = false ∧ t.storedEnv = some (.updating count)) ∨
    (t.storedMaxReplicaCount = count ∧ t.storedEnv = none)
  writes : Writes t [] [] 0
  partitions : ∀ i, Settled count (t.partitions i)

inductive Progress (t : Table Members n) : Prop where
  | quiet (count : Int) (h : Quiet count t)
  | writingEnv (counts : Counts) (applied : Bool) (h : WritingEnv counts applied t)
  | updating (counts : Counts) (outstanding : Finset (Fin n)) (hnonempty : outstanding.Nonempty)
      (h : Updating counts outstanding t)
  | writingApp (counts : Counts) (applied : Bool) (h : WritingApp counts applied t)
  | recoveringPartitions (count : Int) (h : RecoveringPartitions count t)
  | recoveringApp (count : Int) (applied : Bool) (h : RecoveringApp count applied t)

/-! ### Partitions -/

theorem Holding.update {count : Int} {retry : Option Counts} {p : Partition Members}
    (h : Holding count retry p) (config : Configuration Members)
    (hcount : config.maxReplicaCount = count)
    (hballot : p.config.ballot + 1 = config.ballot) (applied : Bool) :
    Holding count retry { p with slot := .pending config none applied } := by
  refine ⟨h.config, h.stored, ?_, h.retry, h.recovering⟩
  intro config' counts' applied' hslot
  cases hslot
  exact ⟨rfl, hcount, hballot⟩

namespace Table

variable {t : Table Members n} {count : Int}

theorem setPartition_self (i : Fin n) : t.setPartition i (t.partitions i) = t := by
  simp [setPartition]

variable {i : Fin n} {retry : Option Counts} {p : Partition Members}

theorem partitions_setPartition {P : Partition Members → Prop} {j : Fin n}
    (hp : j = i → P p) (hj : j ≠ i → P (t.partitions j)) :
    P ((t.setPartition i p).partitions j) := by
  by_cases h : j = i
  · subst h
    simpa [setPartition] using hp
  · simpa [setPartition, Function.update_of_ne h] using hj h

def OfPartition (i : Fin n) : Event Members n → Prop
  | .retry j | .storePartition j | .partitionWritten j | .updateConfiguration j _ _
  | .primaryDead j _ => j = i
  | _ => False

variable {e : Event Members n} {s : Except Fault (Table Members n)}

theorem holding_event (hi : Holding count retry (t.partitions i))
    (he : OfPartition i e) (hretry : e = .retry i → retry = none)
    (hstep : t.stepServing e = some s) :
    ∃ p, s = .ok (t.setPartition i p) ∧ Holding count retry p := by
  cases e with
  | retry j =>
    obtain rfl : j = i := he
    simp [stepServing, hi.retry, hretry rfl] at hstep
  | storePartition j =>
    obtain rfl : j = i := he
    cases hslot : (t.partitions j).slot with
    | notPending => simp [stepServing, storePartition, hslot] at hstep
    | pending config counts applied =>
      obtain ⟨rfl, hcount, hballot⟩ := hi.slot config counts applied hslot
      simp only [stepServing, storePartition, hslot, map_some, some.injEq] at hstep
      have hupdate := hi.update config hcount hballot true
      exact ⟨_, hstep.symm, hi.config, hcount, hupdate.slot, hi.retry, hi.recovering⟩
  | partitionWritten j =>
    obtain rfl : j = i := he
    cases hslot : (t.partitions j).slot with
    | notPending => simp [stepServing, partitionWritten, hslot] at hstep
    | pending config counts applied =>
      obtain ⟨rfl, hcount, hballot⟩ := hi.slot config counts applied hslot
      cases applied with
      | false => simp [stepServing, partitionWritten, hslot] at hstep
      | true =>
        simp only [stepServing, partitionWritten, hslot] at hstep
        rw [if_pos (.inr hballot)] at hstep
        exact ⟨_, (some.inj hstep).symm, hcount, hi.stored, by simp, hi.retry, hi.recovering⟩
  | updateConfiguration j ballot members =>
    obtain rfl : j = i := he
    simp only [stepServing, updateConfiguration, some.injEq] at hstep
    have hsame : t.setPartition j (t.partitions j) = t := setPartition_self j
    cases hslot : (t.partitions j).slot with
    | pending config counts applied =>
      simp only [hslot] at hstep
      exact ⟨_, by rw [hsame]; exact hstep.symm, hi⟩
    | notPending =>
      simp only [hslot] at hstep
      split_ifs at hstep with hballot
      · exact ⟨_, hstep.symm, hi.update ⟨ballot, _, members⟩ hi.config hballot.symm false⟩
      · exact ⟨_, by rw [hsame]; exact hstep.symm, hi⟩
  | primaryDead j members =>
    obtain rfl : j = i := he
    have hdead : s = .ok (t.setPartition j { t.partitions j with
        slot := .pending ⟨(t.partitions j).config.ballot + 1,
          (t.partitions j).config.maxReplicaCount, members⟩ none false }) := by
      simp only [stepServing, primaryDead, some.injEq] at hstep
      cases hslot : (t.partitions j).slot with
      | notPending => simpa only [hslot] using hstep.symm
      | pending config counts applied =>
        obtain ⟨rfl, -⟩ := hi.slot config counts applied hslot
        simpa only [hslot] using hstep.symm
    exact ⟨_, hdead, hi.update ⟨_, _, members⟩ hi.config rfl false⟩
  | _ => exact he.elim

theorem waiting_updatePartition {counts : Counts} (hne : counts.old ≠ counts.new)
    (h : Holding counts.old retry p) :
    Waiting counts (updatePartition counts p) := by
  have hnew : counts.new ≠ p.config.maxReplicaCount := by
    rw [h.config]
    exact Ne.symm hne
  unfold updatePartition
  rw [if_neg hnew]
  split
  · exact .retrying ⟨h.config, h.stored, h.slot, rfl, h.recovering⟩
  · exact .writing false h.config (by simp) rfl rfl h.recovering

theorem waiting_event {counts : Counts} (hne : counts.old ≠ counts.new)
    (hi : Waiting counts (t.partitions i)) (he : OfPartition i e)
    (horderly : t.Orderly e)
    (hstep : t.stepServing e = some s) :
    (∃ p, s = .ok (t.setPartition i p) ∧ Waiting counts p) ∨
      ∃ p, s = (t.setPartition i p).onPartitionUpdated counts ∧ Settled counts.new p := by
  cases hi with
  | retrying h =>
    refine .inl ?_
    by_cases hretry : e = .retry i
    · subst hretry
      simp only [stepServing, h.retry, map_some, some.injEq] at hstep
      exact ⟨_, hstep.symm, waiting_updatePartition hne h⟩
    · obtain ⟨p, hs, hp⟩ := holding_event h he (fun h => absurd h hretry) hstep
      exact ⟨p, hs, .retrying hp⟩
  | writing applied hconfig hstored hslot hretry hrecovering =>
    cases e with
    | retry j =>
      obtain rfl : j = i := he
      simp [stepServing, hretry] at hstep
    | storePartition j =>
      obtain rfl : j = i := he
      simp only [stepServing, storePartition, hslot, map_some, some.injEq] at hstep
      exact .inl ⟨_, hstep.symm, .writing true hconfig (fun _ => rfl) rfl hretry hrecovering⟩
    | partitionWritten j =>
      obtain rfl : j = i := he
      cases applied with
      | false => simp [stepServing, partitionWritten, hslot] at hstep
      | true =>
        simp only [stepServing, partitionWritten, hslot] at hstep
        rw [if_neg (by simp [withCount])] at hstep
        exact .inr ⟨_, (some.inj hstep).symm, rfl, hstored rfl, by simp, hretry, hrecovering⟩
    | updateConfiguration j ballot members =>
      obtain rfl : j = i := he
      simp only [stepServing, updateConfiguration, hslot, some.injEq] at hstep
      have hsame : t.setPartition j (t.partitions j) = t := setPartition_self j
      exact .inl ⟨_, by rw [hsame]; exact hstep.symm,
        .writing applied hconfig hstored hslot hretry hrecovering⟩
    | primaryDead j members =>
      obtain rfl : j = i := he
      exact absurd hslot (horderly _ _ _)
    | _ => exact he.elim

end Table

/-! ### A new meta server -/

section Steps

open Table

variable {t : Table Members n} {e : Event Members n} {s : Except Fault (Table Members n)}

variable {count : Int} {p : Partition Members} {counts : Counts} {applied : Bool}
  {outstanding : Finset (Fin n)}

theorem progress_failover_updating (h : t.storedEnv = some (.updating count)) :
    Progress t.failover := by
  have hfailover : t.failover = ⟨fun i => recoverPartition count (t.partitions i),
      t.storedMaxReplicaCount, t.storedEnv, t.storedMaxReplicaCount, t.storedEnv, [], [], 0,
      .recoveringPartitions count⟩ := by
    simp only [Table.failover, h]
  rw [hfailover]
  refine .recoveringPartitions count ⟨rfl, h, ⟨rfl, rfl, rfl⟩, fun i => ⟨rfl, rfl, ?_⟩⟩
  simp only [recoverPartition]
  split_ifs with hcount
  · exact .inl ⟨rfl, hcount, hcount⟩
  · exact .inr ⟨false, rfl, by simp⟩

theorem progress_failover_none (h : t.storedEnv = none)
    (hstored : ∀ i, (t.partitions i).stored.maxReplicaCount = t.storedMaxReplicaCount) :
    Progress t.failover := by
  have hfailover : t.failover = ⟨fun i => loadPartition (t.partitions i),
      t.storedMaxReplicaCount, t.storedEnv, t.storedMaxReplicaCount, t.storedEnv, [], [], 0,
      .serving⟩ := by
    simp only [Table.failover, h]
  rw [hfailover]
  refine .quiet t.storedMaxReplicaCount ⟨rfl, h, h, rfl, rfl, ⟨rfl, rfl, rfl⟩, fun i => ?_⟩
  exact ⟨hstored i, hstored i, by simp [loadPartition], rfl, rfl⟩

theorem Progress.failover (h : Progress t) : Progress t.failover := by
  -- without the env in the storage its counts are those of the partitions
  have hrest : ∀ {count}, (∀ i, Settled count (t.partitions i)) →
      t.storedMaxReplicaCount = count → t.storedEnv = none → Progress t.failover := by
    intro count hpartitions hcount henv
    exact progress_failover_none henv fun i => (hpartitions i).stored.trans hcount.symm
  cases h with
  | quiet count h => exact hrest h.partitions h.storedCount h.storedEnv
  | writingEnv counts applied h =>
    rcases h.storedEnv with ⟨-, henv⟩ | henv
    · exact hrest h.partitions h.storedCount henv
    · exact progress_failover_updating henv
  | updating counts outstanding _ h => exact progress_failover_updating h.storedEnv
  | writingApp counts applied h =>
    rcases h.stored with ⟨-, henv⟩ | ⟨hcount, henv⟩
    · exact progress_failover_updating henv
    · exact hrest h.partitions hcount henv
  | recoveringPartitions count h => exact progress_failover_updating h.storedEnv
  | recoveringApp count applied h =>
    rcases h.stored with ⟨-, henv⟩ | ⟨hcount, henv⟩
    · exact progress_failover_updating henv
    · exact hrest h.partitions hcount henv

/-! ### The phases are kept -/

def GoesOn (s : Except Fault (Table Members n)) : Prop := ∃ t, s = .ok t ∧ Progress t

theorem goesOn_ok (hs : some (.ok t) = some s) (h : Progress t) : GoesOn s :=
  ⟨t, (some.inj hs).symm, h⟩

theorem Quiet.setPartition (h : Quiet count t) (i : Fin n) (hp : Settled count p) :
    Quiet count (t.setPartition i p) :=
  ⟨h.mode, h.env, h.storedEnv, h.maxReplicaCount, h.storedCount, ⟨h.writes.env, h.writes.app,
    h.writes.partitions⟩, fun j => partitions_setPartition (fun _ => hp) fun _ => h.partitions j⟩

theorem WritingEnv.setPartition (h : WritingEnv counts applied t) (i : Fin n)
    (hp : Settled counts.old p) : WritingEnv counts applied (t.setPartition i p) :=
  ⟨h.ne, h.mode, h.maxReplicaCount, h.storedCount, h.storedEnv, ⟨h.writes.env, h.writes.app,
    h.writes.partitions⟩, fun j => partitions_setPartition (fun _ => hp) fun _ => h.partitions j⟩

theorem WritingApp.setPartition (h : WritingApp counts applied t) (i : Fin n)
    (hp : Settled counts.new p) : WritingApp counts applied (t.setPartition i p) :=
  ⟨h.mode, h.env, h.maxReplicaCount, h.stored, ⟨h.writes.env, h.writes.app, h.writes.partitions⟩,
    fun j => partitions_setPartition (fun _ => hp) fun _ => h.partitions j⟩

theorem Updating.setPartition (h : Updating counts outstanding t) (i : Fin n)
    (hwaiting : i ∈ outstanding → Waiting counts p)
    (hdone : i ∉ outstanding → Settled counts.new p) :
    Updating counts outstanding (t.setPartition i p) := by
  refine ⟨h.ne, h.mode, h.env, h.maxReplicaCount, h.storedCount, h.storedEnv,
    ⟨h.writes.env, h.writes.app, h.writes.partitions⟩, fun j hj => ?_, fun j hj => ?_⟩
  · exact partitions_setPartition (fun hji => hwaiting (hji ▸ hj)) fun _ => h.waiting j hj
  · exact partitions_setPartition (fun hji => hdone (hji ▸ hj)) fun _ => h.done j hj

theorem goesOn_serving (h : Progress t) (hstep : t.stepServing e = some s)
    (henv : t.envWrites ≠ [] → e = .storeEnv ∨ e = .envWritten → GoesOn s)
    (happ : t.appWrites ≠ [] → e = .storeApp ∨ e = .appWritten → GoesOn s)
    (hpartition : ∀ i, OfPartition i e → GoesOn s)
    (hset : ∀ c, e = .setMaxReplicaCount c → GoesOn s) : GoesOn s := by
  cases e with
  | setMaxReplicaCount c => exact hset c rfl
  | storeEnv =>
    refine henv (fun hnil => ?_) (.inl rfl)
    simp [stepServing, Table.storeEnv, hnil] at hstep
  | envWritten =>
    refine henv (fun hnil => ?_) (.inr rfl)
    simp [stepServing, hnil] at hstep
  | storeApp =>
    refine happ (fun hnil => ?_) (.inl rfl)
    simp [stepServing, Table.storeApp, hnil] at hstep
  | appWritten =>
    refine happ (fun hnil => ?_) (.inr rfl)
    simp [stepServing, hnil] at hstep
  | timeout => exact goesOn_ok hstep h
  | failover => exact goesOn_ok hstep h.failover
  | retry i | storePartition i | partitionWritten i | updateConfiguration i ballot members
  | primaryDead i members => exact hpartition i rfl
  | _ => cases hstep

theorem Quiet.step (h : Quiet count t) (hstep : t.stepServing e = some s) : GoesOn s := by
  refine goesOn_serving (.quiet count h) hstep (absurd h.writes.env) (absurd h.writes.app)
    (fun i he => ?_) fun c hc => ?_
  · obtain ⟨p, rfl, hp⟩ := holding_event (h.partitions i) he (fun _ => rfl) hstep
    exact ⟨_, rfl, .quiet count (h.setPartition i hp)⟩
  · subst hc
    have hsame : ¬ ∃ i, (t.partitions i).config.maxReplicaCount ≠ t.maxReplicaCount := by
      rintro ⟨i, hi⟩
      exact hi ((h.partitions i).config.trans h.maxReplicaCount.symm)
    simp only [stepServing, Table.setMaxReplicaCount, if_neg hsame, h.env] at hstep
    by_cases hc : c = t.maxReplicaCount
    · rw [if_pos hc] at hstep
      exact goesOn_ok hstep (.quiet count h)
    · rw [if_neg hc] at hstep
      refine goesOn_ok hstep (.writingEnv ⟨t.maxReplicaCount, c⟩ false ⟨Ne.symm hc, h.mode, rfl,
        h.storedCount.trans h.maxReplicaCount.symm, .inl ⟨rfl, h.storedEnv⟩,
        ⟨by simp [h.writes.env], h.writes.app, h.writes.partitions⟩, fun i => ?_⟩)
      exact h.maxReplicaCount ▸ h.partitions i

theorem WritingEnv.startPartitions (h : WritingEnv counts true t) :
    Updating counts Finset.univ ({ t with envWrites := [] }.startPartitions counts) := by
  have hstoredEnv : t.storedEnv = some (.updating counts.new) := by simpa using h.storedEnv
  refine ⟨h.ne, h.mode, rfl, h.maxReplicaCount, h.storedCount, hstoredEnv,
    ⟨rfl, h.writes.app, by simp [Table.startPartitions]⟩, ?_, by simp⟩
  intro i _
  exact waiting_updatePartition h.ne (h.partitions i)

theorem WritingEnv.step [NeZero n] (h : WritingEnv counts applied t) (horderly : t.Orderly e)
    (hstep : t.stepServing e = some s) :
    GoesOn s := by
  have hwriting : Progress t := .writingEnv counts applied h
  refine goesOn_serving hwriting hstep (fun _ he => ?_) (absurd h.writes.app) (fun i he => ?_)
    fun c hc => ?_
  · rcases he with rfl | rfl
    · simp only [stepServing, Table.storeEnv, h.writes.env, map_some] at hstep
      exact goesOn_ok hstep (.writingEnv counts true ⟨h.ne, h.mode, h.maxReplicaCount, rfl,
        .inr rfl, ⟨rfl, h.writes.app, h.writes.partitions⟩, h.partitions⟩)
    · cases applied with
      | false => simp [stepServing, h.writes.env] at hstep
      | true =>
        simp only [stepServing, h.writes.env] at hstep
        exact goesOn_ok hstep (.updating counts _ Finset.univ_nonempty h.startPartitions)
  · obtain ⟨p, rfl, hp⟩ := holding_event (h.partitions i) he (fun _ => rfl) hstep
    exact ⟨_, rfl, .writingEnv counts applied (h.setPartition i hp)⟩
  · subst hc
    rcases horderly with hnone | hsame
    · simp [h.writes.env] at hnone
    · simp only [stepServing, Table.setMaxReplicaCount, if_pos hsame, ite_self] at hstep
      exact goesOn_ok hstep hwriting

theorem Updating.onPartitionUpdated (h : Updating counts outstanding t) {i : Fin n}
    (hi : i ∈ outstanding) (hp : Settled counts.new p) :
    GoesOn ((t.setPartition i p).onPartitionUpdated counts) := by
  have hprogress : (t.setPartition i p).partitionsInProgress - 1 = (outstanding.erase i).card := by
    have hpos := Finset.card_pos.mpr ⟨i, hi⟩
    have hcard : t.partitionsInProgress = outstanding.card := h.writes.partitions
    have hset : (t.setPartition i p).partitionsInProgress = t.partitionsInProgress := rfl
    rw [hset, hcard, Finset.card_erase_of_mem hi]
    omega
  have hdone : ∀ j ∉ outstanding.erase i,
      Settled counts.new ((t.setPartition i p).partitions j) := by
    intro j hj
    refine partitions_setPartition (fun _ => hp) fun hji => h.done j fun hmem => hj ?_
    exact Finset.mem_erase.mpr ⟨hji, hmem⟩
  unfold Table.onPartitionUpdated
  simp only [hprogress]
  rw [if_neg (by omega)]
  by_cases hlast : outstanding.erase i = ∅
  · rw [if_neg (by simp [hlast])]
    refine ⟨_, rfl, .writingApp counts false ⟨h.mode, h.env, h.maxReplicaCount,
      .inl ⟨rfl, h.storedEnv⟩, ⟨h.writes.env, ?_, by simp [hlast]⟩,
      fun j => hdone j (by simp [hlast])⟩⟩
    change t.appWrites ++ [(counts, false)] = [(counts, false)]
    rw [h.writes.app]
    rfl
  · have hnonempty := Finset.nonempty_iff_ne_empty.mpr hlast
    rw [if_pos (by exact_mod_cast Finset.card_pos.mpr hnonempty)]
    refine ⟨_, rfl, .updating counts (outstanding.erase i) hnonempty ⟨h.ne, h.mode, h.env,
      h.maxReplicaCount, h.storedCount, h.storedEnv, ⟨h.writes.env, h.writes.app, rfl⟩,
      fun j hj => ?_, hdone⟩⟩
    obtain ⟨hji, hmem⟩ := Finset.mem_erase.mp hj
    simpa [Table.setPartition, Function.update_of_ne hji] using h.waiting j hmem

theorem Updating.step (hnonempty : outstanding.Nonempty) (h : Updating counts outstanding t)
    (horderly : t.Orderly e) (hstep : t.stepServing e = some s) : GoesOn s := by
  have hupdating : Progress t := .updating counts outstanding hnonempty h
  refine goesOn_serving hupdating hstep (absurd h.writes.env) (absurd h.writes.app)
    (fun i he => ?_) fun c hc => ?_
  · by_cases hi : i ∈ outstanding
    · rcases waiting_event h.ne (h.waiting i hi) he horderly hstep with ⟨p, rfl, hp⟩ | ⟨p, rfl, hp⟩
      · have hset := h.setPartition i (fun _ => hp) fun hnot => absurd hi hnot
        exact ⟨_, rfl, .updating counts outstanding hnonempty hset⟩
      · exact h.onPartitionUpdated hi hp
    · obtain ⟨p, rfl, hp⟩ := holding_event (h.done i hi) he (fun _ => rfl) hstep
      have hset := h.setPartition i (fun hmem => absurd hmem hi) fun _ => hp
      exact ⟨_, rfl, .updating counts outstanding hnonempty hset⟩
  · -- the env says that a change is under way
    subst hc
    simp only [stepServing, Table.setMaxReplicaCount, h.env] at hstep
    split_ifs at hstep <;> exact goesOn_ok hstep hupdating

theorem WritingApp.step (h : WritingApp counts applied t) (hstep : t.stepServing e = some s) :
    GoesOn s := by
  have hwriting : Progress t := .writingApp counts applied h
  refine goesOn_serving hwriting hstep (absurd h.writes.env) (fun _ he => ?_) (fun i he => ?_)
    fun c hc => ?_
  · rcases he with rfl | rfl
    · simp only [stepServing, Table.storeApp, h.writes.app, map_some] at hstep
      exact goesOn_ok hstep (.writingApp counts true ⟨h.mode, h.env, h.maxReplicaCount,
        .inr ⟨rfl, rfl⟩, ⟨h.writes.env, rfl, h.writes.partitions⟩, h.partitions⟩)
    · cases applied with
      | false => simp [stepServing, h.writes.app] at hstep
      | true =>
        simp only [stepServing, h.writes.app, Table.appWritten] at hstep
        rw [if_neg (by simp [h.maxReplicaCount])] at hstep
        obtain ⟨hstoredCount, hstoredEnv⟩ : t.storedMaxReplicaCount = counts.new ∧
            t.storedEnv = none := by
          simpa using h.stored
        exact goesOn_ok hstep (.quiet counts.new ⟨h.mode, rfl, hstoredEnv, rfl, hstoredCount,
          ⟨h.writes.env, rfl, h.writes.partitions⟩, h.partitions⟩)
  · obtain ⟨p, rfl, hp⟩ := holding_event (h.partitions i) he (fun _ => rfl) hstep
    exact ⟨_, rfl, .writingApp counts applied (h.setPartition i hp)⟩
  · subst hc
    simp only [stepServing, Table.setMaxReplicaCount, h.env] at hstep
    split_ifs at hstep <;> exact goesOn_ok hstep hwriting

theorem RecoveringPartitions.step (h : RecoveringPartitions count t) (horderly : t.Orderly e)
    (hstep : t.stepRecoveringPartitions count e = some s) :
    GoesOn s := by
  have hset : ∀ i p, Recovering count p → Progress (t.setPartition i p) := by
    intro i p hp
    exact .recoveringPartitions count ⟨h.mode, h.storedEnv, ⟨h.writes.env, h.writes.app,
      h.writes.partitions⟩, fun j => partitions_setPartition (fun _ => hp) fun _ => h.partitions j⟩
  cases e with
  | storeRecovery i =>
    have hi := h.partitions i
    rcases hi.recovering with ⟨hnone, -⟩ | ⟨applied, hwrite, -⟩
    · simp [stepRecoveringPartitions, hnone] at hstep
    · simp only [stepRecoveringPartitions, hwrite, map_some] at hstep
      exact goesOn_ok hstep (hset i _ ⟨hi.slot, hi.retry, .inr ⟨true, rfl, fun _ => rfl⟩⟩)
  | partitionRecovered i =>
    have hi := h.partitions i
    rcases hi.recovering with ⟨hnone, -⟩ | ⟨applied, hwrite, hstored⟩
    · simp [stepRecoveringPartitions, hnone] at hstep
    · cases applied with
      | false => simp [stepRecoveringPartitions, hwrite] at hstep
      | true =>
        simp only [stepRecoveringPartitions, hwrite] at hstep
        rw [if_neg (by simp [withCount])] at hstep
        exact goesOn_ok hstep (hset i _ ⟨hi.slot, hi.retry, .inl ⟨rfl, rfl, hstored rfl⟩⟩)
  | allPartitionsRecovered =>
    simp only [stepRecoveringPartitions] at hstep
    split_ifs at hstep with hall
    refine goesOn_ok hstep (.recoveringApp count false ⟨rfl, .inl ⟨rfl, h.storedEnv⟩,
      ⟨h.writes.env, h.writes.app, h.writes.partitions⟩, fun i => ?_⟩)
    have hi := h.partitions i
    rcases hi.recovering with ⟨hnone, hconfig, hstored⟩ | ⟨applied, hwrite, -⟩
    · exact ⟨hconfig, hstored, by simp [hi.slot], hi.retry, hnone⟩
    · simp [hall i] at hwrite
  | timeout =>
    have hserving : t.mode = .serving := horderly
    simp [h.mode] at hserving
  | failover => exact goesOn_ok hstep (Progress.recoveringPartitions count h).failover
  | _ => cases hstep

theorem RecoveringApp.step (h : RecoveringApp count applied t) (horderly : t.Orderly e)
    (hstep : t.stepRecoveringApp count applied e = some s) :
    GoesOn s := by
  cases e with
  | storeRecoveredApp =>
    exact goesOn_ok hstep (.recoveringApp count true ⟨rfl, .inr ⟨rfl, rfl⟩,
      ⟨h.writes.env, h.writes.app, h.writes.partitions⟩, h.partitions⟩)
  | appRecovered =>
    cases applied with
    | false => simp [stepRecoveringApp] at hstep
    | true =>
      obtain ⟨hstoredCount, hstoredEnv⟩ : t.storedMaxReplicaCount = count ∧ t.storedEnv = none := by
        simpa using h.stored
      exact goesOn_ok hstep (.quiet count ⟨rfl, rfl, hstoredEnv, rfl, hstoredCount,
        ⟨h.writes.env, h.writes.app, h.writes.partitions⟩, h.partitions⟩)
  | timeout =>
    have hserving : t.mode = .serving := horderly
    simp [h.mode] at hserving
  | failover => exact goesOn_ok hstep (Progress.recoveringApp count applied h).failover
  | _ => cases hstep

theorem Progress.step [NeZero n] (h : Progress t) (horderly : t.Orderly e)
    (hstep : Table.step (.ok t) e = some s) : GoesOn s := by
  cases h with
  | quiet count h =>
    simp only [Table.step, h.mode] at hstep
    exact h.step hstep
  | writingEnv counts applied h =>
    simp only [Table.step, h.mode] at hstep
    exact h.step horderly hstep
  | updating counts outstanding hnonempty h =>
    simp only [Table.step, h.mode] at hstep
    exact h.step hnonempty horderly hstep
  | writingApp counts applied h =>
    simp only [Table.step, h.mode] at hstep
    exact h.step hstep
  | recoveringPartitions count h =>
    simp only [Table.step, h.mode] at hstep
    exact h.step horderly hstep
  | recoveringApp count applied h =>
    simp only [Table.step, h.mode] at hstep
    exact h.step horderly hstep

end Steps

/-! ### The main result -/

section Changes

variable {t : Table Members n}

theorem Table.Initial.progress (h : t.Initial) : Progress t := by
  obtain ⟨henvWrites, happWrites, hprogress⟩ := h.writes
  refine .quiet t.maxReplicaCount ⟨h.mode, h.env.1, h.env.2, rfl, h.storedMaxReplicaCount,
    ⟨henvWrites, happWrites, hprogress⟩, fun i => ?_⟩
  obtain ⟨hslot, hretry, hrecovering⟩ := h.slots i
  exact ⟨h.configs i, h.stored i, by simp [hslot], hretry, hrecovering⟩

theorem Writes.changes {env app : List (Counts × Bool)} {k : Int} (h : Writes t env app k) :
    t.changes = env.length + app.length + if 0 < k then 1 else 0 := by
  rw [Table.changes, h.env, h.app, h.partitions]

theorem Progress.changes_le_one (h : Progress t) : t.changes ≤ 1 := by
  cases h with
  | updating counts outstanding _ h =>
    rw [h.writes.changes]
    split_ifs <;> simp
  | quiet count h | writingEnv counts applied h | writingApp counts applied h
  | recoveringPartitions count h | recoveringApp count applied h => simp [h.writes.changes]

theorem Progress.uniform (h : Progress t) (hquiescent : t.Quiescent) : t.Uniform := by
  obtain ⟨hserving, ⟨henvWrites, happWrites⟩, hslots⟩ := hquiescent
  cases h with
  | quiet count h =>
    exact ⟨fun i => (h.partitions i).config.trans h.maxReplicaCount.symm,
      fun i => (h.partitions i).stored.trans h.maxReplicaCount.symm,
      h.storedCount.trans h.maxReplicaCount.symm, h.env, h.storedEnv⟩
  | writingEnv counts applied h => simp [h.writes.env] at henvWrites
  | writingApp counts applied h => simp [h.writes.app] at happWrites
  | updating counts outstanding hnonempty h =>
    -- a partition that waits has the slot or a task
    obtain ⟨i, hi⟩ := hnonempty
    obtain ⟨hslot, hretry⟩ := hslots i
    cases h.waiting i hi with
    | retrying h => simp [h.retry] at hretry
    | writing applied _ _ hpending => simp [hpending] at hslot
  | recoveringPartitions count h | recoveringApp count applied h => simp [h.mode] at hserving

end Changes

/-- **A change of the replica count is single-flight and finishes.** Along a run whose steps are
orderly the meta server does not abort, at most one change is under way, and when nothing is pending
the table and its partitions have one count, in memory and in the storage, and the env is gone. -/
theorem change_is_single_flight [NeZero n] {t₀ : Table Members n} (hinitial : t₀.Initial)
    {events : List (Event Members n)} {s : Except Fault (Table Members n)}
    (hrun : run Table.step (.ok t₀) events = some s)
    (horderly : StepsMeet Table.step (fun s e => ∀ t, s = .ok t → t.Orderly e)
      (.ok t₀) events) :
    ∃ t, s = .ok t ∧ t.changes ≤ 1 ∧ (t.Quiescent → t.Uniform) := by
  have hkeep : ∀ (s : Except Fault (Table Members n)) e s', Table.step s e = some s' →
      (∀ t, s = .ok t → t.Orderly e) → GoesOn s → GoesOn s' := by
    rintro _ e s' hstep he ⟨t, rfl, ht⟩
    exact ht.step (he t rfl) hstep
  obtain ⟨t, rfl, ht⟩ := run_invariant_of_steps hkeep hrun horderly
    ⟨t₀, rfl, hinitial.progress⟩
  exact ⟨t, rfl, ht.changes_le_one, ht.uniform⟩

def threeReplicas : Table Unit 1 where
  partitions := fun _ => { config := ⟨1, 3, ()⟩, stored := ⟨1, 3, ()⟩ }
  maxReplicaCount := 3
  storedMaxReplicaCount := 3

theorem threeReplicas_initial : threeReplicas.Initial :=
  ⟨fun _ => rfl, fun _ => rfl, fun _ => ⟨rfl, rfl, rfl⟩, ⟨rfl, rfl⟩, rfl, ⟨rfl, rfl, rfl⟩, rfl⟩

/-- A meta server writes the env and dies; the next one finishes the change. -/
theorem failover_finishes_the_change :
    ∃ t, run Table.step (.ok threeReplicas)
        [.setMaxReplicaCount 5, .storeEnv, .failover, .storeRecovery 0, .partitionRecovered 0,
          .allPartitionsRecovered, .storeRecoveredApp, .appRecovered] = some (.ok t) ∧
      t.maxReplicaCount = 5 ∧ t.changes ≤ 1 ∧ t.Quiescent ∧ t.Uniform := by
  have horderly : StepsMeet Table.step
      (fun s e => ∀ t, s = .ok t → t.Orderly e) (.ok threeReplicas)
      [.setMaxReplicaCount 5, .storeEnv, .failover, .storeRecovery 0, .partitionRecovered 0,
        .allPartitionsRecovered, .storeRecoveredApp, .appRecovered] := by
    refine stepsMeet_cons (fun t ht => ?_) rfl ?_
    · cases ht
      exact .inl rfl
    iterate 7 refine stepsMeet_cons (fun _ _ => trivial) rfl ?_
    trivial
  obtain ⟨t, ht, hchanges, huniform⟩ :=
    change_is_single_flight threeReplicas_initial rfl horderly
  cases ht
  refine ⟨_, rfl, rfl, hchanges, ?_, huniform ?_⟩
  all_goals exact ⟨rfl, ⟨rfl, rfl⟩, Fin.forall_fin_one.mpr ⟨rfl, rfl⟩⟩

/-- A second request that comes before the env is written reads the first of no arguments, a
primary that dies while the count of its partition is being written has its absent request
dereferenced, and a write of a recovery that times out fails a `CHECK`. -/
theorem second_request_reads_nothing :
    threeReplicas.Initial ∧
    run Table.step (.ok threeReplicas)
      [.setMaxReplicaCount 5, .setMaxReplicaCount 5] = some (.error .emptyArguments) ∧
    run Table.step (.ok threeReplicas)
      [.setMaxReplicaCount 5, .storeEnv, .envWritten, .primaryDead 0 ()] =
        some (.error .nullRequest) ∧
    run Table.step (.ok threeReplicas)
      [.setMaxReplicaCount 5, .storeEnv, .failover, .timeout] = some (.error .check) :=
  ⟨threeReplicas_initial, rfl, rfl, rfl⟩

end ReplicaCount

end Pegasus.Meta
