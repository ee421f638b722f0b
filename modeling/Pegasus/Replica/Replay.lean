/-
Re-proposing the prepare list (`Pegasus.Replica.Replay`).

A replica that becomes primary, or that gets a new ballot as primary, proposes again
every mutation of its prepare list that is not committed. Some replicas may commit the
old version of a decree and some the new one, so both have to write the same.

- `preservesContent_iff`: the content is preserved exactly if every mutation that is
  replayed is admitted again and has neither a timestamp nor an idempotent writer, the
  two things `mutation::copy_from` leaves behind.
-/

import Pegasus.Replica.Primary

namespace Pegasus.Replica

open Mutation

namespace ReplicaState

variable {P W : Type}

/-- The prepare list of a primary: well formed, within its capacity, with ballots up to that of
the replica, and with at least one client request, possibly null, in every mutation. -/
structure Preparing (s : ReplicaState P W) : Prop where
  wellFormed : s.prepareList.WellFormed
  fits : s.prepareList.count ≤ s.prepareList.capacity
  started : 0 ≤ s.prepareList.lastCommittedDecree
  versions : ∀ d old, s.prepareList.lastCommittedDecree < d → s.prepareList.slots d = some old →
    old.header.ballot ≤ s.ballot ∧ old.clientRequests ≠ []

/-- Whichever of two versions of a decree a replica applies, it writes the same and answers the
same client. -/
structure SameContent (old new : Mutation P W) : Prop where
  updates_eq : new.updates = old.updates
  timestamp_eq : new.header.timestamp = old.header.timestamp
  idemWriter_eq : new.idemWriter = old.idemWriter
  requests_eq : new.batchedRequests = old.batchedRequests

/-- `replay_prepare_list` proposes every mutation of the prepare list that is not committed
again, with the same content. -/
def PreservesContent (opts : ReplicaOptions) (size : P → Nat)
    (translate : Message P → Option (List (Message P) × W)) (s : ReplicaState P W) : Prop :=
  ∃ s' proposed, s.replayPrepareList opts size translate = some (s', proposed) ∧
    ∀ d old, s.prepareList.lastCommittedDecree < d → d ≤ s.prepareList.maxDecree →
      s.prepareList.getMutationByDecree d = some old →
        ∃ new ∈ proposed, new.header.decree = d ∧ new.header.ballot = s.ballot ∧ SameContent old new

/-- `init_prepare` lets the copy of a mutation at decree `d` into the prepare list: its first
client request is not to be made idempotent, and the checks of `init_prepare` admit it. -/
def Readmits (opts : ReplicaOptions) (s : ReplicaState P W) (d : Int) (old : Mutation P W) : Prop :=
  s.needMakeIdempotent old.clientRequests.head?.join = false ∧
    s.admits opts true { (Mutation.new s.ballot d : Mutation P W) with updates := old.updates } = true

/-- Every mutation that is replayed is admitted again, was never given a timestamp and has no
idempotent writer. -/
def ReplaysPlain (opts : ReplicaOptions) (s : ReplicaState P W) : Prop :=
  ∀ d old, s.prepareList.lastCommittedDecree < d → d ≤ s.prepareList.maxDecree →
    s.prepareList.getMutationByDecree d = some old →
      s.Readmits opts d old ∧ old.header.timestamp = 0 ∧ old.idemWriter = none

/-- How the state of the loop relates to the one it started from when it is at decree `d`. -/
structure Replaying (s : ReplicaState P W) (d : Int) (t : ReplicaState P W) : Prop where
  preparing : t.Preparing
  ballot_eq : t.ballot = s.ballot
  flag_eq : t.atomicIdempotent = s.atomicIdempotent
  members_eq : t.appMaxReplicaCount = s.appMaxReplicaCount ∧
    t.maxReplicaCount = s.maxReplicaCount ∧ t.secondaries = s.secondaries
  committed_eq : t.prepareList.lastCommittedDecree = s.prepareList.lastCommittedDecree
  max_eq : t.prepareList.maxDecree = s.prepareList.maxDecree
  slots_eq : ∀ e, d ≤ e → s.prepareList.lastCommittedDecree < e →
    t.prepareList.slots e = s.prepareList.slots e

theorem Replaying.refl {s : ReplicaState P W} (preparing : s.Preparing) (d : Int) :
    s.Replaying d s :=
  ⟨preparing, rfl, rfl, ⟨rfl, rfl, rfl⟩, rfl, rfl, fun _ _ _ => rfl⟩

theorem Replaying.mono {s t : ReplicaState P W} {d d' : Int} (replaying : s.Replaying d t)
    (h : d ≤ d') : s.Replaying d' t :=
  { replaying with slots_eq := fun e he => replaying.slots_eq e (Int.le_trans h he) }

section

variable {opts : ReplicaOptions} {size : P → Nat}
  {translate : Message P → Option (List (Message P) × W)} {s t : ReplicaState P W} {d : Int}

theorem Preparing.getMutationByDecree_eq (preparing : s.Preparing)
    (lower : s.prepareList.lastCommittedDecree < d) (upper : d ≤ s.prepareList.maxDecree) :
    s.prepareList.getMutationByDecree d = s.prepareList.slots d := by
  have := preparing.wellFormed.lower
  rw [MutationCache.getMutationByDecree, if_neg (by omega)]

variable {mu old : Mutation P W}

theorem assignId_of_decree (h : mu.header.decree ≠ invalidDecree) (timestamp : Int) :
    t.assignId timestamp mu =
      { mu with header := { mu.header with
          ballot := t.ballot, lastCommittedDecree := t.prepareList.lastCommittedDecree } } := by
  simp only [assignId, h, if_false, setId]

variable (replaying : s.Replaying d t) (lower : s.prepareList.lastCommittedDecree < d)
include replaying lower

theorem Replaying.propose_of_admits (upper : d ≤ s.prepareList.maxDecree)
    (hdecree : mu.header.decree = d) (hballot : mu.header.ballot = t.ballot)
    (hrequests : mu.clientRequests ≠ []) (hadmits : t.admits opts true mu = true) :
    ∃ t', t.propose opts true false mu = some (t', some (t.withAckCounts mu)) ∧
      s.Replaying (d + 1) t' := by
  have preparing := replaying.preparing
  have hlower : t.prepareList.lastCommittedDecree < mu.header.decree := by
    rw [replaying.committed_eq, hdecree]
    exact lower
  have hupper : mu.header.decree ≤ t.prepareList.maxDecree := by
    rw [replaying.max_eq, hdecree]
    exact upper
  have hreplace : t.prepareList.mayReplace (t.withAckCounts mu) = true := by
    unfold MutationCache.mayReplace
    cases hslot : t.prepareList.slots (t.withAckCounts mu).header.decree with
    | none => rfl
    | some old =>
      refine decide_eq_true ?_
      change old.header.ballot ≤ mu.header.ballot
      rw [hballot]
      exact (preparing.versions _ _ hlower hslot).1
  have hlower' : t.prepareList.lastCommittedDecree < (t.withAckCounts mu).header.decree := hlower
  have hnext : mu.header.decree ≤ t.prepareList.maxDecree + 1 := by omega
  obtain ⟨l, hput, hfits, prepared⟩ := PrepareList.popAndPut_prepared false
    preparing.wellFormed hlower' hnext hreplace (.inr hupper) preparing.fits
  have hmax : l.maxDecree = t.prepareList.maxDecree :=
    prepared.max_eq.trans (Int.max_eq_left hupper)
  refine ⟨{ t with
    prepareList := l
    writeQueue := t.writeQueue.enter2pc opts.rowLockMapCapacity t.lastAppliedDecree mu
    nextTid := t.nextTid + 1 }, ?_, ?_⟩
  · simp only [propose, hadmits, if_true, Int.not_le.mpr hlower, if_false, hput]
  · constructor
    · refine ⟨prepared.wellFormed, hfits, ?_, ?_⟩
      · change 0 ≤ l.lastCommittedDecree
        rw [prepared.committed_eq]
        exact preparing.started
      · intro e old habove hslot
        change l.lastCommittedDecree < e at habove
        rw [prepared.committed_eq] at habove
        by_cases he : e = mu.header.decree
        · subst he
          obtain rfl := Option.some.inj (prepared.slot_eq.symm.trans hslot)
          exact ⟨Int.le_of_eq hballot, hrequests⟩
        · exact preparing.versions e old habove ((prepared.slots_eq e habove he).symm.trans hslot)
    · exact replaying.ballot_eq
    · exact replaying.flag_eq
    · exact replaying.members_eq
    · exact prepared.committed_eq.trans replaying.committed_eq
    · exact hmax.trans replaying.max_eq
    · intro e he habove
      have habove' : t.prepareList.lastCommittedDecree < e := by
        rw [replaying.committed_eq]
        exact habove
      have hne : e ≠ mu.header.decree := by omega
      exact (prepared.slots_eq e habove' hne).trans (replaying.slots_eq e (by omega) habove)

omit lower in
theorem Replaying.admits_eq (hdecree : d ≠ invalidDecree) :
    s.admits opts true { (new s.ballot d : Mutation P W) with updates := old.updates } =
      t.admits opts true (t.assignId 0 ((new t.ballot d).copyFrom old)) := by
  rw [assignId_of_decree hdecree]
  simp only [admits, enoughMembers, new, copyFrom, replaying.committed_eq,
    replaying.members_eq.1, replaying.members_eq.2.1, replaying.members_eq.2.2]
  rfl

omit lower replaying in
/-- The mutation the loop proposes for decree `d` in place of `old`. -/
def reproposal (t : ReplicaState P W) (d : Int) (old : Mutation P W) : Mutation P W :=
  t.withAckCounts (t.assignId 0 ((Mutation.new t.ballot d : Mutation P W).copyFrom old))

variable (opts size translate)

/-- What the loop of `replay_prepare_list` does at decree `d`, where the prepare list holds
`old`: it proposes a copy if the copy is admitted, and otherwise proposes nothing or aborts. -/
theorem Replaying.replay_old (upper : d ≤ s.prepareList.maxDecree)
    (hold : s.prepareList.getMutationByDecree d = some old) :
    (s.Readmits opts d old ∧
      ∃ t', t.initPrepare opts size translate true false 0 (t.replayed size d) =
          some (t', some (t.reproposal d old)) ∧ s.Replaying (d + 1) t') ∨
    (¬ s.Readmits opts d old ∧
      (t.initPrepare opts size translate true false 0 (t.replayed size d) = none ∨
        t.initPrepare opts size translate true false 0 (t.replayed size d) = some (t, none))) := by
  have preparing := replaying.preparing
  have hstarted := preparing.started
  have hcommitted := replaying.committed_eq
  have hmax := replaying.max_eq
  have hslot : t.prepareList.slots d = some old := by
    rw [replaying.slots_eq d (Int.le_refl d) lower]
    exact MutationCache.slots_of_getMutationByDecree hold
  have hget : t.prepareList.getMutationByDecree d = some old := by
    rw [preparing.getMutationByDecree_eq (by omega) (by omega), hslot]
  have hreplayed : t.replayed size d = (new t.ballot d : Mutation P W).copyFrom old := by
    simp only [replayed, hget]
  have hdecree : d ≠ invalidDecree := by
    unfold invalidDecree
    omega
  obtain ⟨request, rest, hrequests⟩ :=
    List.exists_cons_of_ne_nil (preparing.versions d old (by omega) hslot).2
  have hreadmits : s.Readmits opts d old ↔
      t.needMakeIdempotent request = false ∧
        t.admits opts true (t.assignId 0 ((new t.ballot d).copyFrom old)) = true := by
    rw [Readmits, hrequests, replaying.admits_eq hdecree]
    simp [needMakeIdempotent, replaying.flag_eq]
  rw [hreplayed, hreadmits]
  cases hneed : t.needMakeIdempotent request with
  | true =>
    refine .inr ⟨by simp, ?_⟩
    have hcopy : ((new t.ballot d : Mutation P W).copyFrom old).header.decree ≠
        invalidDecree := hdecree
    cases rest with
    | cons _ _ =>
      left
      simp only [initPrepare, makeIdempotent, copyFrom_clientRequests, hrequests, hneed, if_true]
    | nil =>
      cases htranslate : request.bind translate with
      | none =>
        right
        simp only [initPrepare, makeIdempotent, copyFrom_clientRequests, hrequests, hneed,
          if_true, htranslate]
      | some result =>
        left
        simp [initPrepare, makeIdempotent, hrequests, hneed, htranslate, new, hdecree]
  | false =>
    have hinit : t.initPrepare opts size translate true false 0
        ((new t.ballot d : Mutation P W).copyFrom old) =
        t.propose opts true false (t.assignId 0 ((new t.ballot d).copyFrom old)) := by
      simp [initPrepare, makeIdempotent, hrequests, hneed]
    rw [hinit]
    cases hadmits : t.admits opts true
        (t.assignId 0 ((new t.ballot d : Mutation P W).copyFrom old)) with
    | false =>
      refine .inr ⟨by simp, .inr ?_⟩
      simp [propose, hadmits]
    | true =>
      refine .inl ⟨⟨rfl, rfl⟩, ?_⟩
      rw [reproposal]
      refine replaying.propose_of_admits lower upper ?_ ?_ ?_ hadmits
      · rw [assignId_of_decree hdecree]
        rfl
      · rw [assignId_of_decree hdecree]
      · rw [assignId_of_decree hdecree]
        change old.clientRequests ≠ []
        simp [hrequests]

theorem Replaying.replay_hole (upper : d ≤ s.prepareList.maxDecree)
    (hole : s.prepareList.slots d = none) :
    ∃ t' proposed, t.initPrepare opts size translate true false 0 (t.replayed size d) =
        some (t', proposed) ∧ s.Replaying (d + 1) t' ∧
      ∀ new ∈ proposed, new.header.decree = d := by
  have hstarted := replaying.preparing.started
  have hcommitted := replaying.committed_eq
  have hmax := replaying.max_eq
  have hdecree : d ≠ invalidDecree := by
    unfold invalidDecree
    omega
  have hget : t.prepareList.getMutationByDecree d = none := by
    rw [replaying.preparing.getMutationByDecree_eq (by omega) (by omega),
      replaying.slots_eq d (Int.le_refl d) lower, hole]
  have hinit : t.initPrepare opts size translate true false 0 (t.replayed size d) =
      t.propose opts true false (t.assignId 0
        ((new t.ballot d : Mutation P W).addClientRequest size none)) := by
    simp [initPrepare, makeIdempotent, replayed, hget, addClientRequest, new, needMakeIdempotent]
  rw [hinit]
  cases hadmits : t.admits opts true
      (t.assignId 0 ((new t.ballot d : Mutation P W).addClientRequest size none)) with
  | false =>
    refine ⟨t, none, ?_, replaying.mono (Int.le_of_lt (Int.lt_succ d)), by simp⟩
    simp [propose, hadmits]
  | true =>
    have hassign := assignId_of_decree (t := t) (show ((new t.ballot d :
      Mutation P W).addClientRequest size none).header.decree ≠ invalidDecree from hdecree) 0
    obtain ⟨t', hpropose, hreplaying⟩ := replaying.propose_of_admits lower upper
      (by rw [hassign]; rfl) (by rw [hassign]) (by rw [hassign]; simp [addClientRequest])
      hadmits
    refine ⟨t', _, hpropose, hreplaying, ?_⟩
    intro new hnew
    obtain rfl : _ = new := by simpa using hnew
    change (t.assignId 0 _).header.decree = d
    rw [hassign]
    rfl

omit lower

omit replaying in
/-- What a proposal for decree `d` in place of `old` keeps: the updates and the client requests,
but neither the timestamp nor the idempotent writer. -/
structure Reproposes (s : ReplicaState P W) (d : Int) (old new : Mutation P W) : Prop where
  decree_eq : new.header.decree = d
  ballot_eq : new.header.ballot = s.ballot
  updates_eq : new.updates = old.updates
  timestamp_eq : new.header.timestamp = 0
  idemWriter_eq : new.idemWriter = none
  requests_eq : new.batchedRequests = old.batchedRequests

theorem Replaying.reproposes (hdecree : d ≠ invalidDecree) (old : Mutation P W) :
    s.Reproposes d old (t.reproposal d old) := by
  rw [reproposal, assignId_of_decree hdecree]
  exact ⟨rfl, replaying.ballot_eq, rfl, rfl, rfl, rfl⟩

omit replaying

/-- One round of the loop. It aborts only at a mutation that is not admitted again; otherwise it
proposes at most one mutation, a copy of the one at the decree if that is admitted. -/
theorem Replaying.replay_step (preparing : s.Preparing) (replaying : s.Replaying d t)
    (lower : s.prepareList.lastCommittedDecree < d) (upper : d ≤ s.prepareList.maxDecree) :
    (t.initPrepare opts size translate true false 0 (t.replayed size d) = none ∧
      ∃ old, s.prepareList.getMutationByDecree d = some old ∧ ¬ s.Readmits opts d old) ∨
    ∃ t' proposed, t.initPrepare opts size translate true false 0 (t.replayed size d) =
        some (t', proposed) ∧ s.Replaying (d + 1) t' ∧
      (∀ new ∈ proposed, new.header.decree = d) ∧
      ∀ old, s.prepareList.getMutationByDecree d = some old →
        (∀ new ∈ proposed, s.Readmits opts d old ∧ s.Reproposes d old new) ∧
        (s.Readmits opts d old → ∃ new ∈ proposed, s.Reproposes d old new) := by
  have hdecree : d ≠ invalidDecree := by
    have := preparing.started
    unfold invalidDecree
    omega
  cases hget : s.prepareList.getMutationByDecree d with
  | none =>
    have hole : s.prepareList.slots d = none := by
      rw [← preparing.getMutationByDecree_eq lower upper, hget]
    obtain ⟨t', proposed, hinit, hreplaying, hnew⟩ :=
      replaying.replay_hole opts size translate lower upper hole
    exact .inr ⟨t', proposed, hinit, hreplaying, hnew, by simp⟩
  | some old =>
    rcases replaying.replay_old opts size translate lower upper hget with
      ⟨hreadmits, t', hinit, hreplaying⟩ | ⟨hreadmits, hinit | hinit⟩
    · have hrep := replaying.reproposes hdecree old
      refine .inr ⟨t', _, hinit, hreplaying, ?_, ?_⟩
      · intro new hnew
        obtain rfl : _ = new := by simpa using hnew
        exact hrep.decree_eq
      · intro old' hold'
        cases hold'
        refine ⟨fun new hnew => ?_, fun _ => ⟨_, rfl, hrep⟩⟩
        obtain rfl : _ = new := by simpa using hnew
        exact ⟨hreadmits, hrep⟩
    · exact .inl ⟨hinit, old, rfl, hreadmits⟩
    · refine .inr ⟨t, none, hinit, replaying.mono (Int.le_of_lt (Int.lt_succ d)), by simp, ?_⟩
      intro old' hold'
      cases hold'
      exact ⟨by simp, fun h => absurd h hreadmits⟩

/-- **The proposals of the loop.** It ends if every mutation is admitted again, and whenever it
ends, it has proposed copies of exactly those that are. -/
theorem Replaying.replayFrom_spec (preparing : s.Preparing) {n : Nat}
    (replaying : s.Replaying d t) (lower : s.prepareList.lastCommittedDecree < d)
    (hn : d + n = s.prepareList.maxDecree + 1) :
    ((∀ e old, d ≤ e → e ≤ s.prepareList.maxDecree →
        s.prepareList.getMutationByDecree e = some old → s.Readmits opts e old) →
      ∃ result, replayFrom opts size translate n d t = some result) ∧
    ∀ t' proposed, replayFrom opts size translate n d t = some (t', proposed) →
      (∀ new ∈ proposed, d ≤ new.header.decree) ∧
      ∀ e old, d ≤ e → e ≤ s.prepareList.maxDecree →
        s.prepareList.getMutationByDecree e = some old →
          (∀ new ∈ proposed, new.header.decree = e →
            s.Readmits opts e old ∧ s.Reproposes e old new) ∧
          (s.Readmits opts e old → ∃ new ∈ proposed, s.Reproposes e old new) := by
  induction n generalizing d t with
  | zero =>
    refine ⟨fun _ => ⟨_, rfl⟩, ?_⟩
    intro t' proposed hreplay
    obtain ⟨rfl, rfl⟩ := Prod.mk.inj (Option.some.inj hreplay)
    refine ⟨by simp, fun e old hlower hupper => ?_⟩
    omega
  | succ n ih =>
    have upper : d ≤ s.prepareList.maxDecree := by omega
    rcases replaying.replay_step opts size translate preparing lower upper with
      ⟨hinit, old, hget, hreadmits⟩ | ⟨t₁, proposed₁, hinit, hreplaying, hnew, hold⟩
    · refine ⟨fun h => absurd (h d old (Int.le_refl d) upper hget) hreadmits, ?_⟩
      intro t' proposed hreplay
      simp [replayFrom, hinit] at hreplay
    · obtain ⟨hends, hproposes⟩ := ih hreplaying (by omega) (by omega)
      constructor
      · intro hall
        obtain ⟨result, hresult⟩ := hends fun e old he => hall e old (by omega)
        exact ⟨(result.1, proposed₁.toList ++ result.2), by simp [replayFrom, hinit, hresult]⟩
      · intro t' proposed hreplay
        simp only [replayFrom, hinit, Option.bind_eq_bind, Option.bind_some,
          Option.bind_eq_some_iff, Option.some.injEq, Prod.mk.injEq, Prod.exists] at hreplay
        obtain ⟨t₂, rest, hrest, rfl, rfl⟩ := hreplay
        obtain ⟨habove, hrest⟩ := hproposes t₂ rest hrest
        simp only [List.mem_append, Option.mem_toList]
        refine ⟨?_, fun e old hlower hupper hget => ?_⟩
        · rintro new (h | h)
          · exact Int.le_of_eq (hnew new h).symm
          · have := habove new h
            omega
        · -- the proposals of this round are for `d`, those of the rest for higher decrees
          by_cases he : e = d
          · subst he
            obtain ⟨honly, hsome⟩ := hold old hget
            refine ⟨?_, fun h => (hsome h).imp fun new hnew => ⟨.inl hnew.1, hnew.2⟩⟩
            rintro new (h | h) hdecree
            · exact honly new h
            · have := habove new h
              omega
          · obtain ⟨honly, hsome⟩ := hrest e old (by omega) hupper hget
            refine ⟨?_, fun h => (hsome h).imp fun new hnew => ⟨.inr hnew.1, hnew.2⟩⟩
            rintro new (h | h) hdecree
            · exact absurd (hdecree.symm.trans (hnew new h)) he
            · exact honly new h hdecree

end

/-- **Re-proposal preserves the content exactly of plain mutations**: those that are admitted
again and have neither a timestamp nor an idempotent writer to lose. -/
theorem preservesContent_iff (opts : ReplicaOptions) (size : P → Nat)
    (translate : Message P → Option (List (Message P) × W)) {s : ReplicaState P W}
    (preparing : s.Preparing) :
    s.PreservesContent opts size translate ↔ s.ReplaysPlain opts := by
  have hupper := preparing.wellFormed.upper
  obtain ⟨hends, hproposes⟩ :=
    (Replaying.refl preparing (s.prepareList.lastCommittedDecree + 1)).replayFrom_spec
      opts size translate preparing (Int.lt_succ _)
      (show s.prepareList.lastCommittedDecree + 1 +
        ((s.prepareList.maxDecree - s.prepareList.lastCommittedDecree).toNat : Int) =
          s.prepareList.maxDecree + 1 by omega)
  constructor
  · rintro ⟨s', proposed, hreplay, hsame⟩ d old lower upper hget
    obtain ⟨new, hnew, hdecree, -, hcontent⟩ := hsame d old lower upper hget
    obtain ⟨hreadmits, hrep⟩ :=
      ((hproposes s' proposed hreplay).2 d old (by omega) upper hget).1 new hnew hdecree
    exact ⟨hreadmits, hcontent.timestamp_eq.symm.trans hrep.timestamp_eq,
      hcontent.idemWriter_eq.symm.trans hrep.idemWriter_eq⟩
  · intro plain
    obtain ⟨⟨s', proposed⟩, hreplay⟩ :=
      hends fun e old hlower hle hget => (plain e old (by omega) hle hget).1
    refine ⟨s', proposed, hreplay, fun d old lower upper hget => ?_⟩
    obtain ⟨hreadmits, htimestamp, hwriter⟩ := plain d old lower upper hget
    obtain ⟨new, hnew, hrep⟩ :=
      ((hproposes s' proposed hreplay).2 d old (by omega) upper hget).2 hreadmits
    exact ⟨new, hnew, hrep.decree_eq, hrep.ballot_eq, hrep.updates_eq,
      hrep.timestamp_eq.trans htimestamp.symm, hrep.idemWriter_eq.trans hwriter.symm,
      hrep.requests_eq⟩

/-- A primary of ballot 2 with one mutation at decree 1 that it prepared with ballot 1. -/
def withOneInFlight (timestamp : Int) (writer : Option Unit) : ReplicaState Nat Unit where
  status := .primary
  ballot := 2
  prepareList :=
    { capacity := 110
      count := 1
      minDecree := 1
      maxDecree := 1
      slots := fun d => if d = 1 then some
        { header := { ballot := 1, decree := 1, timestamp := timestamp }
          updates := [{ code := .put, serializationType := .thriftBinary, data := some 7 }]
          clientRequests := [some { code := .put, body := 7 }]
          idemWriter := writer } else none
      lastCommittedDecree := 0 }
  lastAppliedDecree := 0
  writeQueue := {}
  atomicIdempotent := true
  appMaxReplicaCount := 3
  maxReplicaCount := 3
  secondaries := [2, 3]
  learners := []
  nextTid := 1

theorem withOneInFlight_preparing (timestamp : Int) (writer : Option Unit) :
    (withOneInFlight timestamp writer).Preparing where
  wellFormed :=
    { span := .inr ⟨by simp [withOneInFlight], by simp [withOneInFlight]⟩
      keyed := by
        intro d mu hslot
        by_cases h : d = 1
        · subst h
          cases hslot
          rfl
        · simp [withOneInFlight, h] at hslot
      lower := by simp [withOneInFlight]
      upper := by simp [withOneInFlight] }
  fits := by simp [withOneInFlight]
  started := by simp [withOneInFlight]
  versions := by
    intro d old _ hslot
    by_cases h : d = 1
    · subst h
      cases hslot
      exact ⟨by simp [withOneInFlight], by simp⟩
    · simp [withOneInFlight, h] at hslot

/-- A mutation that was itself proposed by a replay, and so has no timestamp, is preserved. -/
theorem preservesContent_without_timestamp :
    (withOneInFlight 0 none).Preparing ∧
      (withOneInFlight 0 none).PreservesContent {} (fun _ => 0) (fun _ => none) := by
  refine ⟨withOneInFlight_preparing 0 none,
    (preservesContent_iff {} (fun _ => 0) (fun _ => none)
      (withOneInFlight_preparing 0 none)).mpr ?_⟩
  intro d old lower upper hget
  obtain rfl : d = 1 := Int.le_antisymm upper lower
  cases hget
  exact ⟨⟨by decide, by decide⟩, rfl, rfl⟩

/-- An atomic write made idempotent, in flight when the ballot changes: the mutation proposed
again has neither its timestamp nor the writer that would answer its client. -/
theorem replay_drops_timestamp_and_writer :
    (withOneInFlight 100 (some ())).Preparing ∧
      ¬ (withOneInFlight 100 (some ())).PreservesContent {} (fun _ => 0) (fun _ => none) := by
  refine ⟨withOneInFlight_preparing 100 (some ()), ?_⟩
  rintro ⟨s', proposed, hreplay, hsame⟩
  have hproposed : ((withOneInFlight 100 (some ())).replayPrepareList {} (fun _ => 0)
      (fun _ => none)).map (fun result => result.2.map fun new =>
        (new.header.timestamp, new.idemWriter)) = some [(0, none)] := by decide
  rw [hreplay, Option.map_some, Option.some.injEq] at hproposed
  obtain ⟨new, hnew, -, -, hcontent⟩ := hsame 1 _ (by decide) (by decide) rfl
  have hzero := List.mem_map_of_mem (f := fun new => (new.header.timestamp, new.idemWriter)) hnew
  rw [hproposed, List.mem_singleton, Prod.mk.injEq] at hzero
  have htimestamp : new.header.timestamp = 100 := hcontent.timestamp_eq
  rw [hzero.1] at htimestamp
  exact absurd htimestamp (by decide)

end ReplicaState

end Pegasus.Replica
