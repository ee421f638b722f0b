/-
The rounds of a duplication, after `load_from_private_log.cpp` and `duplication_pipeline.cpp`.

A round loads mutations from the private log, from the decree after the last one shipped on,
and hands them over to be shipped. The log is read block by block while it goes on: files are
appended to, switched and collected. At the end of the last file, or when the batch is full,
the round ends; the next one goes on at the same place or finds a file to start anew. A block
that cannot be read is tried again, and after some tries the file is looked for again.

What a reader gets of the log is the log from some point on, with repetitions. Repetitions are
ignored by the mutation buffer, so the invariant is that the buffer is as if it had read the
log once, up to a frontier that is not before the place of the reader.

- `Reading.ignores_of_mem`: what has been read before is ignored;
- `addAll_block`: one block moves the frontier;
- `growsBy_step`: how one step of the log adds to its files.
-/

import Pegasus.Replica.Window
import Pegasus.Duplication.MutationBatch
import Pegasus.Duplication.StartFile

namespace Pegasus.Duplication

open Replica Replica.MutationLog Replica.PrepareList List LogRead
open Option hiding or_self mem_map

open MutationCache

variable {P W : Type}

/-- What is read where a mutation is logged: a mutation of its decree that announces a committed
decree below its own, by less than the buffer holds. -/
structure Contents (P W : Type) where
  mutation : LoggedMutation → Mutation P W
  decree_eq : ∀ m, (mutation m).header.decree = m.decree
  logged : ∀ m, (mutation m).isLogged = true
  announced_lt : ∀ m, (mutation m).header.lastCommittedDecree < m.decree
  window : ∀ m, m.decree < (mutation m).header.lastCommittedDecree + prepareListNumEntries

def maxAllowedBlockRepeats : Nat := 3

/-- Where a duplication is: in `load_mutation`, in `load_from_private_log`, or in `ship_mutation`
with the last decree of the round. -/
inductive Stage where
  | load
  | read
  | ship (lastDecree : Int)
deriving DecidableEq

structure Loader (P W : Type) where
  stage : Stage := .load
  /-- `progress().last_decree`. -/
  lastDecree : Int
  startDecree : Int := 0
  /-- `_current`, by its index, and the number of its blocks that have been read, that of the file
  header included. -/
  current : Option (Nat × Nat) := none
  /-- The buffer of `_mutation_batch`. -/
  buffer : PrepareList P W
  /-- What the committer has loaded in this round. -/
  loaded : List (Mutation P W) := []
  errBlockRepeats : Nat := 0
  errFileRepeats : Nat := 0
  /-- All that was handed over in the rounds before. -/
  handed : List (Mutation P W) := []

/-- A private log with a duplication. A file that is collected while it is open for reading can
still be read, so the collected files are kept. -/
structure Session (P W : Type) where
  plog : Plog
  collected : List LogFile := []
  loader : Loader P W

inductive ReadOutcome where
  | ok
  | eof
  | error
deriving DecidableEq

/-- What a run of `load_from_private_log` meets: whether the files can be opened, how reading ends,
the `last_applied_decree` of the replica as each mutation is added, and whether the batch is full
after the block. -/
structure ReadContext where
  opens : Bool := true
  outcome : ReadOutcome
  applied : LoggedMutation → Int
  full : Bool := false

inductive DupEvent where
  | plog (e : PlogEvent)
  | load (available : Int)
  | run (ctx : ReadContext)
  | shipped

namespace Loader

def start (confirmed : Int) : Loader P W where
  lastDecree := confirmed
  buffer := .init prepareListNumEntries confirmed

/-- `load_mutation::run`. `available` is the smaller one of `max_decree_on_disk` and
`last_applied_decree`. -/
def load (available : Int) (l : Loader P W) : Loader P W :=
  if l.lastDecree + 1 ≤ available then
    { l with stage := .read, startDecree := l.lastDecree + 1 }
  else l

/-- `step_down_next_stage` at the end of a round. -/
def stepDown (l : Loader P W) : Loader P W :=
  { l with
    stage := .ship l.buffer.lastCommittedDecree
    buffer := l.buffer.truncate l.buffer.lastCommittedDecree
    handed := l.handed ++ l.loaded
    loaded := [] }

def startFromLogFile (f : LogFile) (l : Loader P W) : Loader P W :=
  { l with current := some (f.index, 0), errBlockRepeats := 0 }

/-- `load_from_private_log::find_log_file_to_start`. It returns early, with `_current` as it was, if
there is nothing to read or if a file cannot be opened. -/
def findLogFileToStart (opens : Bool) (plog : Plog) (l : Loader P W) : Loader P W :=
  if plog.log.maxDecree ≤ plog.cleanableDecree ∨ opens = false then l
  else
    match plog.findLogFileToStart l.startDecree with
    | none => { l with current := none }
    | some f => l.startFromLogFile f

/-- `add_mutation_if_valid`, for the mutations that the buffer has committed. -/
def loadCommitted (calls : List (Mutation P W)) (l : Loader P W) : Loader P W :=
  { l with loaded := l.loaded ++ calls.filter fun mu => l.startDecree ≤ mu.header.decree }

/-- `replay_log_block` when a block cannot be read, in fail mode `FAIL_SLOW`. -/
def readFailed (opens : Bool) (plog : Plog) (l : Loader P W) : Loader P W :=
  let l := { l with errBlockRepeats := l.errBlockRepeats + 1 }
  if maxAllowedBlockRepeats ≤ l.errBlockRepeats then
    { l with errFileRepeats := l.errFileRepeats + 1 }.findLogFileToStart opens plog
  else l

/-- `replay_log_block` at the end of the file with this index: `switch_to_next_log_file`, or the end
of the round. -/
def readToEnd (opens : Bool) (plog : Plog) (index : Nat) (l : Loader P W) : Loader P W :=
  match plog.log.files.find? (fun f => f.index == index + 1), opens with
  | some f, true => l.startFromLogFile f
  | _, _ => { l with current := none }.stepDown

end Loader

/-- The mutations of block `k` of a file. The first block holds the header of the file. -/
def blockAt (f : LogFile) : Nat → Option (List LoggedMutation)
  | 0 => some []
  | k + 1 => (f.blocks[k]?).map LogBlock.mutations

/-- The number of blocks of a file that are on disk for certain, that of the header included. -/
def blocksOnDisk (s : MutationLog) (f : LogFile) : Nat :=
  if s.writing = some f.index then f.blocks.length else f.blocks.length + 1

namespace Session

def allFiles (s : Session P W) : List LogFile := s.collected ++ s.plog.log.files

/-- `max_gced_decree`: the lowest decree that a header names. -/
def maxGcedDecree (plog : Plog) : Int :=
  ((plog.log.files.map LogFile.previousMaxDecree).min?).getD invalidDecree

/-- `load_from_private_log::replay_log_block`, at block `k` of a file. A block that is being written
may or may not be seen; torn bytes at the end are an error. -/
def replayLogBlock (contents : Contents P W) (ctx : ReadContext) (f : LogFile) (k : Nat)
    (s : Session P W) : Option (Session P W) :=
  match ctx.outcome with
  | .error => some { s with loader := s.loader.readFailed ctx.opens s.plog }
  | .eof =>
    if blocksOnDisk s.plog.log f ≤ k ∧ f.torn = 0 then
      some { s with loader := s.loader.readToEnd ctx.opens s.plog f.index }
    else none
  | .ok => do
    let block ← blockAt f k
    let (buffer, calls) ← addAll s.loader.buffer
      (block.map fun m => ⟨contents.mutation m, ctx.applied m⟩)
    let loader := { s.loader with buffer := buffer, current := some (f.index, k + 1) }
    let loader := loader.loadCommitted calls
    some { s with loader := if ctx.full then loader.stepDown else loader }

/-- The loader as `run` goes to read a block: it has looked for a file if it had none. -/
def readyLoader (opens : Bool) (s : Session P W) : Loader P W :=
  if s.loader.current.isNone then s.loader.findLogFileToStart opens s.plog else s.loader

/-- `load_from_private_log::run`. `verify_start_decree` aborts. -/
def run (contents : Contents P W) (ctx : ReadContext) (s : Session P W) :
    Option (Session P W) :=
  if s.loader.startDecree ≤ maxGcedDecree s.plog then none
  else
    let s := { s with loader := s.readyLoader ctx.opens }
    match s.loader.current with
    | none => some s
    | some (index, k) =>
      (s.allFiles.find? fun f => f.index == index).bind fun f => s.replayLogBlock contents ctx f k

/-- One event, while the log stays open. What is confirmed has been shipped. -/
def step (cfg : LogConfig) (contents : Contents P W) (s : Session P W) :
    DupEvent → Option (Session P W)
  | .plog (.log e) =>
    (s.plog.step cfg (.log e)).map fun plog =>
      { s with
        plog := plog
        collected := s.collected ++ s.plog.log.files.filter fun f =>
          f.index ∉ plog.log.files.map LogFile.index }
  | .plog (.setCleanableDecree decree) =>
    (s.plog.step cfg (.setCleanableDecree decree)).map fun plog => { s with plog := plog }
  | .plog (.confirm decree) =>
    if decree ≤ s.loader.lastDecree then
      (s.plog.step cfg (.confirm decree)).map fun plog => { s with plog := plog }
    else none
  | .load available =>
    if s.loader.stage = .load then some { s with loader := s.loader.load available }
    else none
  | .run ctx => if s.loader.stage = .read then s.run contents ctx else none
  | .shipped =>
    match s.loader.stage with
    | .ship lastDecree => some { s with
        loader := { s.loader with
          stage := .load
          lastDecree := max s.loader.lastDecree lastDecree } }
    | _ => none

end Session

/-! ### The buffer -/

section Buffer

variable {confirmed : Int} {log : List (LogRead P W)} {l : PrepareList P W}
  {calls : List (Mutation P W)} {r : LogRead P W}

theorem ignores_of_committed (h : r.decree ≤ l.lastCommittedDecree) : ignores l r = true := by
  simp [ignores, h]

variable (reading : Reading confirmed log l calls)
include reading

/-- **What has been read before is ignored**: it is committed, or buffered with at least its
ballot. -/
theorem Reading.ignores_of_mem {q : LogRead P W} (hq : q ∈ log)
    (hmutation : r.mutation = q.mutation) : ignores l r = true := by
  by_contra hread
  have fresh := reading.fresh_of_not_ignores (Bool.eq_false_iff.mpr hread)
  have := fresh q hq (by rw [decree, decree, hmutation])
  rw [ballot, ballot, hmutation] at this
  exact Int.lt_irrefl _ this

theorem Reading.append_of_committed {more : List (LogRead P W)}
    (hmore : ∀ q ∈ more, q.decree ≤ l.lastCommittedDecree) :
    Reading confirmed (log ++ more) l calls := by
  induction more generalizing log with
  | nil => simpa using reading
  | cons q more ih =>
    have hq := ignores_of_committed (hmore q mem_cons_self)
    have := ih (reading.append_of_ignores hq) fun p hp => hmore p (mem_cons_of_mem _ hp)
    simpa using this

omit reading in
theorem popThrough_committed {c : MutationCache P W} {committed : Int}
    (span : 0 < c.count → (c.count : Int) = c.maxDecree - c.minDecree + 1)
    (lower : c.minDecree ≤ committed + 1) (upper : committed ≤ c.maxDecree) (fuel : Nat) :
    let popped := c.popThrough committed fuel
    popped.capacity = c.capacity ∧ popped.count ≤ c.count ∧
      (∀ d, committed < d → popped.slots d = c.slots d) ∧
      (∀ d mu, popped.slots d = some mu → c.slots d = some mu) ∧
      (0 < popped.count → popped.maxDecree = c.maxDecree ∧
        (popped.count : Int) = popped.maxDecree - popped.minDecree + 1 ∧
        popped.minDecree ≤ committed + 1) ∧
      (popped.count = 0 → 0 < c.count → c.maxDecree = committed) := by
  induction fuel generalizing c with
  | zero =>
    refine ⟨rfl, Nat.le_refl _, fun _ _ => rfl, fun _ _ h => h, fun h => ⟨rfl, span h, lower⟩, ?_⟩
    intro h h'
    simp only [popThrough] at h
    omega
  | succ fuel ih =>
    unfold popThrough
    by_cases hpop : c.minDecree ≤ committed ∧ 0 < c.count
    · rw [if_pos hpop]
      have hspan := span hpop.2
      have hne := Nat.ne_of_gt hpop.2
      have hslots := slots_popMin c hne
      have hcount : c.popMin.count = c.count - 1 := by simp [popMin, hne]
      have hmin : c.popMin.minDecree = if c.count = 1 then c.minDecree else c.minDecree + 1 := by
        simp [popMin, hne]
      have hmax : c.popMin.maxDecree = c.maxDecree := by
        simp only [popMin, hne, if_false]
        split <;> omega
      obtain ⟨hcapacity, hle, habove, hold, hleft, hempty⟩ :=
        ih (c := c.popMin) (by split at hmin <;> omega) (by split at hmin <;> omega) (by omega)
      refine ⟨hcapacity.trans (capacity_popMin c), by omega, ?_, ?_, ?_, ?_⟩
      · intro d hd
        rw [habove d hd, hslots, if_neg (by omega)]
      · intro d mu hslot
        have := hold d mu hslot
        rw [hslots] at this
        split at this
        · cases this
        · exact this
      · intro h
        rw [← hmax]
        exact hleft h
      · intro h _
        -- the last mutation of the window goes, or one below the last
        by_cases hone : c.count = 1
        · omega
        · rw [← hmax]
          exact hempty h (by omega)
    · rw [if_neg hpop]
      refine ⟨rfl, Nat.le_refl _, fun _ _ => rfl, fun _ _ h => h, fun h => ⟨rfl, span h, lower⟩, ?_⟩
      intro h h'
      omega

theorem Reading.truncate :
    Reading confirmed log (l.truncate l.lastCommittedDecree) calls ∧
      (l.truncate l.lastCommittedDecree).lastCommittedDecree = l.lastCommittedDecree ∧
      (l.truncate l.lastCommittedDecree).maxDecree = l.maxDecree := by
  have wellFormed := reading.wellFormed
  have span : 0 < l.count → (l.count : Int) = l.maxDecree - l.minDecree + 1 := by
    intro hcount
    rcases wellFormed.span with h | h
    · omega
    · exact h.2
  obtain ⟨hcapacity, hle, habove, hold, hleft, hempty⟩ :=
    popThrough_committed span wellFormed.lower wellFormed.upper l.count
  unfold PrepareList.truncate
  dsimp only
  by_cases hcount : (l.popThrough l.lastCommittedDecree l.count).count = 0
  · -- nothing is left, so nothing was above the last committed decree
    rw [if_pos hcount]
    have hmax : l.maxDecree = l.lastCommittedDecree := by
      rcases wellFormed.span with h | h
      · exact h.2.2.symm
      · exact hempty hcount h.1
    refine ⟨⟨wellFormed_init _ _, reading.capacity_eq, Nat.zero_le _, reading.started,
      reading.sorted, reading.covers, reading.calls_logged, ?_, ?_, ?_⟩, rfl, hmax.symm⟩
    · intro r hr
      change r.decree ≤ l.lastCommittedDecree
      rw [← hmax]
      exact reading.below_max r hr
    · intro d mu _ hslot
      simp [PrepareList.reset, PrepareList.init, MutationCache.init] at hslot
    · intro d hlower hupper
      exact absurd (Int.lt_of_lt_of_le hlower hupper) (Int.lt_irrefl _)
  · rw [if_neg hcount]
    obtain ⟨hmax, hspan, hmin⟩ := hleft (Nat.pos_of_ne_zero hcount)
    refine ⟨⟨⟨.inr ⟨Nat.pos_of_ne_zero hcount, hspan⟩, ?_, hmin, hmax ▸ wellFormed.upper⟩,
      hcapacity.trans reading.capacity_eq, ?_, reading.started, reading.sorted, reading.covers,
      reading.calls_logged, ?_, ?_, ?_⟩, rfl, hmax⟩
    · exact fun d mu hslot => wellFormed.keyed d mu (hold d mu hslot)
    · change (l.popThrough l.lastCommittedDecree l.count).count ≤
        (l.popThrough l.lastCommittedDecree l.count).capacity
      rw [hcapacity]
      exact hle.trans reading.fits
    · intro r hr
      exact (reading.below_max r hr).trans hmax.ge
    · exact fun d mu hlower hslot => reading.slots_logged d mu hlower (hold d mu hslot)
    · intro d hlower hupper
      obtain ⟨mu, hslot, hhighest⟩ := reading.slots_highest d hlower (hupper.trans hmax.le)
      exact ⟨mu, (habove d hlower).trans hslot, hhighest⟩

omit reading in
theorem add_cases {l' : PrepareList P W} {new : List (Mutation P W)} (hread : ignores l r = false)
    (hadd : add l r = some (l', new)) :
    ∃ m p announcedCalls appliedCalls, commitAnnounced commit l r.mutation =
        some (m, announcedCalls) ∧ popAndPutChecked false m r.mutation = some p ∧
      commitApplied p r = some (l', appliedCalls) ∧ new = announcedCalls ++ appliedCalls := by
  have hlower := (ignores_eq_false_iff.mp hread).1
  simp only [add, hread, Bool.false_eq_true, if_false, bind_eq_bind,
    bind_eq_some_iff, prepareInactive, Int.not_le.mpr hlower] at hadd
  obtain ⟨⟨q, calls₁⟩, ⟨⟨m, calls₂⟩, hcommit, p, hput, heq⟩, ⟨last, calls₃⟩, happlied, heq'⟩ := hadd
  simp only [some.injEq, Prod.mk.injEq] at heq heq'
  obtain ⟨rfl, rfl⟩ := heq
  obtain ⟨rfl, rfl⟩ := heq'
  exact ⟨m, p, calls₂, calls₃, hcommit, hput, happlied, rfl⟩

/-- Reading commits what the mutation announces, and never takes a commit back. -/
theorem Reading.committed_of_add (logged : ∀ q ∈ log, q.mutation.isLogged = true)
    (admissible : Admissible l.maxDecree r) {l' : PrepareList P W} {new : List (Mutation P W)}
    (hread : ignores l r = false) (hadd : add l r = some (l', new)) :
    r.announced ≤ l'.lastCommittedDecree ∧ l.lastCommittedDecree ≤ l'.lastCommittedDecree := by
  obtain ⟨m, p, announcedCalls, appliedCalls, hcommit, hput, happlied, rfl⟩ := add_cases hread hadd
  have hnext := admissible.next
  have hlt := admissible.announced_lt
  have hcommits := reading.commits_announced logged (by omega) hcommit
  have hcommitted := hcommits.committed_eq
  have hlower := (ignores_eq_false_iff.mp hread).1
  have hwindow := admissible.window
  obtain ⟨p', hput', hreading, hlast, hmax⟩ := hcommits.reading.append_of_prepare
    (reading.fresh_of_not_ignores hread) (by omega) (by rw [hcommits.max_eq]; exact hnext)
    (by omega)
  obtain rfl : p = p' := mem_unique hput hput'
  unfold commitApplied at happlied
  split at happlied
  · have logged' : ∀ q ∈ log ++ [r], q.mutation.isLogged = true := by
      exact forall_mem_concat logged admissible.logged
    have hcommits' := hreading.commits_commit logged' (by omega) hmax happlied
    have := hcommits'.committed_eq
    omega
  · obtain ⟨rfl, rfl⟩ := Prod.mk.inj (some.inj happlied)
    omega

end Buffer

/-! ### Reading a log with repetitions -/

/-- The version of a decree that a mutation is has a higher ballot than those logged before it. -/
def Contents.FreshAfter (contents : Contents P W) (before : List LoggedMutation)
    (m : LoggedMutation) : Prop :=
  ∀ q ∈ before, q.decree = m.decree →
    (contents.mutation q).header.ballot < (contents.mutation m).header.ballot

/-- The ballots of a log follow its decrees above `floor`: none is negative, and up to the decree of
a fresh version each decree is logged with the ballot of any lower one or a higher ballot. -/
structure Contents.BallotsFollow (contents : Contents P W) (floor : Int)
    (log : List LoggedMutation) : Prop where
  nonneg : ∀ m ∈ log, 0 ≤ (contents.mutation m).header.ballot
  follow : ∀ pre m post, log = pre ++ m :: post → contents.FreshAfter pre m →
    ∀ q ∈ pre ++ [m], floor < q.decree → ∀ e, q.decree < e → e ≤ m.decree →
      ∃ p ∈ pre ++ [m], p.decree = e ∧
        (contents.mutation q).header.ballot ≤ (contents.mutation p).header.ballot

/-- The buffer and what it has committed are as if the log up to a frontier had been read once. -/
structure ReadUpTo (contents : Contents P W) (confirmed : Int) (frontier : List LoggedMutation)
    (l : PrepareList P W) (calls : List (Mutation P W)) : Prop where
  reading : ∃ log, log.map LogRead.mutation = frontier.map contents.mutation ∧
    Reading confirmed log l calls
  announced : ∀ before m after, frontier = before ++ m :: after → contents.FreshAfter before m →
    (contents.mutation m).header.lastCommittedDecree ≤ l.lastCommittedDecree

namespace ReadUpTo

variable {contents : Contents P W} {confirmed : Int} {frontier log : List LoggedMutation}
  {l l' : PrepareList P W} {calls new : List (Mutation P W)}

theorem init (contents : Contents P W) (confirmed : Int) :
    ReadUpTo contents confirmed [] (.init prepareListNumEntries confirmed) [] :=
  ⟨⟨[], rfl, reading_init confirmed⟩, fun before m after h => by simp at h⟩

variable (read : ReadUpTo contents confirmed frontier l calls)
include read

theorem truncate :
    ReadUpTo contents confirmed frontier (l.truncate l.lastCommittedDecree) calls := by
  obtain ⟨log, hlog, reading⟩ := read.reading
  obtain ⟨hreading, hlast, _⟩ := reading.truncate
  refine ⟨⟨log, hlog, hreading⟩, fun before m after h hfresh => ?_⟩
  rw [hlast]
  exact read.announced before m after h hfresh

theorem append_committed {more : List LoggedMutation}
    (hmore : ∀ m ∈ more, m.decree ≤ l.lastCommittedDecree) :
    ReadUpTo contents confirmed (frontier ++ more) l calls := by
  obtain ⟨log, hlog, reading⟩ := read.reading
  constructor
  · refine ⟨log ++ more.map fun m => ⟨contents.mutation m, 0⟩, ?_, ?_⟩
    · simp [hlog]
    · refine reading.append_of_committed fun q hq => ?_
      obtain ⟨m, hm, rfl⟩ := mem_map.mp hq
      rw [decree, contents.decree_eq]
      exact hmore m hm
  · intro before m after h hfresh
    by_cases hm : m ∈ more
    · have := contents.announced_lt m
      have := hmore m hm
      omega
    · -- the mutation lies in the old frontier
      rcases append_eq_append_iff.mp h with ⟨rest, rfl, hrest⟩ | ⟨rest, rfl, hrest⟩
      · exact absurd (hrest ▸ by simp) hm
      · cases rest with
        | nil => exact absurd (show m ∈ more by simp [← show _ = more from by simpa using hrest]) hm
        | cons x rest =>
          obtain ⟨rfl, _⟩ := List.cons.inj hrest
          exact read.announced before m rest rfl hfresh

variable {m : LoggedMutation} {floor applied : Int} {pre : List LoggedMutation}
variable {block : List LoggedMutation} {reads : List (LogRead P W)}

omit read in
theorem mem_log (hreads : reads.map mutation = frontier.map contents.mutation)
    (hm : m ∈ frontier) : ∃ q ∈ reads, q.mutation = contents.mutation m := by
  have : contents.mutation m ∈ reads.map mutation := hreads ▸ mem_map_of_mem hm
  exact mem_map.mp this

omit read in
theorem mem_frontier (hreads : reads.map mutation = frontier.map contents.mutation)
    {q : LogRead P W} (hq : q ∈ reads) : ∃ m ∈ frontier, q.mutation = contents.mutation m := by
  have hmem : q.mutation ∈ frontier.map contents.mutation := hreads ▸ mem_map_of_mem hq
  obtain ⟨m, hm, heq⟩ := mem_map.mp hmem
  exact ⟨m, hm, heq.symm⟩

theorem add_known (hm : m ∈ frontier) (applied : Int) :
    add l ⟨contents.mutation m, applied⟩ = some (l, []) := by
  obtain ⟨reads, hreads, reading⟩ := read.reading
  obtain ⟨q, hq, hmutation⟩ := mem_log hreads hm
  exact add_of_ignores (reading.ignores_of_mem hq hmutation.symm)

theorem admissible_next {rest : List LoggedMutation}
    (inOrder : Plog.InOrder floor (frontier ++ m :: rest)) (hfloor : floor ≤ l.lastCommittedDecree)
    (applied : Int) : Admissible l.maxDecree (⟨contents.mutation m, applied⟩ : LogRead P W) where
  logged := contents.logged m
  next := by
    obtain ⟨reads, hreads, reading⟩ := read.reading
    rw [decree, contents.decree_eq]
    rcases inOrder frontier m rest rfl with h | ⟨a, ha, h⟩
    · have := reading.wellFormed.upper
      omega
    · obtain ⟨q, hq, hmutation⟩ := mem_log hreads ha
      have hmax := reading.below_max q hq
      rw [decree, hmutation, contents.decree_eq] at hmax
      omega
  announced_lt := by
    rw [decree, contents.decree_eq]
    exact contents.announced_lt m
  window := by
    rw [decree, contents.decree_eq]
    exact contents.window m

theorem add_next
    (admissible : Admissible l.maxDecree (⟨contents.mutation m, applied⟩ : LogRead P W))
    (hadd : add l ⟨contents.mutation m, applied⟩ = some (l', new)) :
    ReadUpTo contents confirmed (frontier ++ [m]) l' (calls ++ new) ∧
      l.lastCommittedDecree ≤ l'.lastCommittedDecree := by
  obtain ⟨reads, hreads, reading⟩ := read.reading
  have logged : ∀ q ∈ reads, q.mutation.isLogged = true := by
    intro q hq
    obtain ⟨m', _, heq⟩ := mem_frontier hreads hq
    rw [heq]
    exact contents.logged m'
  have hreads' : (reads ++ [(⟨contents.mutation m, applied⟩ : LogRead P W)]).map
      mutation = (frontier ++ [m]).map contents.mutation := by
    simp [hreads]
  have hsplit : ∀ before x after, frontier ++ [m] = before ++ x :: after →
      (before = frontier ∧ x = m) ∨ ∃ rest, frontier = before ++ x :: rest := by
    intro before x after h
    rcases eq_nil_or_concat' after with rfl | ⟨after, last, rfl⟩
    · obtain ⟨rfl, hx⟩ := append_inj' h rfl
      exact .inl ⟨rfl, by simpa using hx.symm⟩
    · refine .inr ⟨after, ?_⟩
      have : frontier ++ [m] = (before ++ x :: after) ++ [last] := by simpa using h
      exact (append_inj' this rfl).1
  cases hread : ignores l (⟨contents.mutation m, applied⟩ : LogRead P W) with
  | true =>
    obtain ⟨rfl, rfl⟩ := Prod.mk.inj (some.inj ((add_of_ignores hread).symm.trans hadd))
    refine ⟨⟨⟨_, hreads', by simpa using reading.append_of_ignores hread⟩, ?_⟩, Int.le_refl _⟩
    intro before x after h hfresh
    rcases hsplit before x after h with ⟨rfl, rfl⟩ | ⟨rest, rfl⟩
    · -- a fresh version is only ignored because its decree is committed
      have hlt := contents.announced_lt x
      by_contra hnot
      have hlower : l.lastCommittedDecree < x.decree := by omega
      refine Bool.noConfusion (hread.symm.trans (ignores_eq_false_iff.mpr ⟨?_, ?_⟩))
      · rw [decree, contents.decree_eq]
        exact hlower
      · intro old hold
        rw [decree, contents.decree_eq] at hold
        have hslot : l.slots x.decree = some old := by
          obtain ⟨-, hold⟩ := ite_none_left_eq_some.mp hold
          exact hold
        obtain ⟨q, hq, rfl⟩ := reading.slots_logged _ _ hlower hslot
        obtain ⟨m', hm', heq⟩ := mem_frontier hreads hq
        have hkey := reading.wellFormed.keyed _ _ hslot
        rw [heq, contents.decree_eq] at hkey
        rw [heq]
        exact hfresh m' hm' hkey
    · exact read.announced before x rest rfl hfresh
  | false =>
    have hreads'' := reading.reads_of_add logged admissible hread hadd
    obtain ⟨hannounced, hmono⟩ := reading.committed_of_add logged admissible hread hadd
    refine ⟨⟨⟨_, hreads', hreads''.reading⟩, ?_⟩, hmono⟩
    intro before x after h hfresh
    rcases hsplit before x after h with ⟨rfl, rfl⟩ | ⟨rest, rfl⟩
    · exact hannounced
    · exact (read.announced before x rest rfl hfresh).trans hmono

omit read in
theorem mem_or_next (hone : pre ++ [m] <+: log) (hfrontier : frontier <+: log)
    (hpre : pre <+: frontier) :
    m ∈ frontier ∧ pre ++ [m] <+: frontier ∨
      frontier = pre ∧ ∃ tail, log = frontier ++ m :: tail := by
  obtain ⟨rest, hrest⟩ := hpre
  obtain ⟨tail, htail⟩ := hone
  rw [append_assoc] at htail
  cases rest with
  | nil =>
    obtain rfl : pre = frontier := by simpa using hrest
    exact .inr ⟨rfl, tail, htail.symm⟩
  | cons x rest =>
    obtain ⟨tail', htail'⟩ := hfrontier
    have hx : m = x := by
      rw [← htail', ← hrest, append_assoc] at htail
      exact (List.cons.inj (append_cancel_left htail)).1
    subst hx
    exact .inl ⟨hrest ▸ by simp, rest, by simpa using hrest⟩

omit read in
theorem add_at (inOrder : Plog.InOrder floor log) (hone : pre ++ [m] <+: log)
    (read : ReadUpTo contents confirmed frontier l calls) (hfrontier : frontier <+: log)
    (hpre : pre <+: frontier) (hfloor : floor ≤ l.lastCommittedDecree)
    (hadd : add l ⟨contents.mutation m, applied⟩ = some (l', new)) :
    ∃ frontier', frontier <+: frontier' ∧ frontier' <+: log ∧ pre ++ [m] <+: frontier' ∧
      ReadUpTo contents confirmed frontier' l' (calls ++ new) ∧
      l.lastCommittedDecree ≤ l'.lastCommittedDecree := by
  rcases mem_or_next hone hfrontier hpre with ⟨hmem, hle⟩ | ⟨rfl, tail, rfl⟩
  · obtain ⟨rfl, rfl⟩ := Prod.mk.inj
      (some.inj ((read.add_known hmem applied).symm.trans hadd))
    exact ⟨frontier, prefix_rfl, hfrontier, hle, by simpa using read, Int.le_refl _⟩
  · obtain ⟨hread, hmono⟩ := read.add_next (read.admissible_next inOrder hfloor applied) hadd
    exact ⟨_, prefix_append _ _, hone, prefix_rfl, hread, hmono⟩

omit read in
/-- **Reading a block**: it lies in the log after `pre`, which has been read. The frontier moves to
the end of the block if it was not beyond it. -/
theorem addAll_block (inOrder : Plog.InOrder floor log) {applied : LoggedMutation → Int}
    (hblock : pre ++ block <+: log) (read : ReadUpTo contents confirmed frontier l calls)
    (hfrontier : frontier <+: log) (hpre : pre <+: frontier)
    (hfloor : floor ≤ l.lastCommittedDecree)
    (hadd : addAll l (block.map fun m => ⟨contents.mutation m, applied m⟩) = some (l', new)) :
    ∃ frontier', frontier <+: frontier' ∧ frontier' <+: log ∧ pre ++ block <+: frontier' ∧
      ReadUpTo contents confirmed frontier' l' (calls ++ new) ∧
      l.lastCommittedDecree ≤ l'.lastCommittedDecree := by
  induction block generalizing pre frontier l calls new with
  | nil =>
    obtain ⟨rfl, rfl⟩ := Prod.mk.inj (some.inj hadd)
    exact ⟨frontier, prefix_rfl, hfrontier, by simpa using hpre, by simpa using read, Int.le_refl _⟩
  | cons m block ih =>
    simp only [map_cons, addAll, bind_eq_bind, bind_eq_some_iff] at hadd
    obtain ⟨⟨l₁, new₁⟩, hfirst, ⟨l₂, new₂⟩, hrest, heq⟩ := hadd
    obtain ⟨rfl, rfl⟩ := Prod.mk.inj (some.inj heq)
    rw [append_cons] at hblock ⊢
    have hone : pre ++ [m] <+: log := (prefix_append _ _).trans hblock
    obtain ⟨frontier₁, hf₁, hlog₁, hpos₁, hread₁, hmono₁⟩ :=
      add_at inOrder hone read hfrontier hpre hfloor hfirst
    obtain ⟨frontier', hf, hlog, hpos, hread', hmono⟩ :=
      ih hblock hread₁ hlog₁ hpos₁ (hfloor.trans hmono₁) hrest
    exact ⟨frontier', hf₁.trans hf, hlog, hpos, by simpa [append_assoc] using hread',
      hmono₁.trans hmono⟩

theorem add_next_isSome {tail : List LoggedMutation}
    (ballots : contents.BallotsFollow confirmed (frontier ++ m :: tail))
    (admissible : Admissible l.maxDecree (⟨contents.mutation m, applied⟩ : LogRead P W)) :
    ∃ result, add l ⟨contents.mutation m, applied⟩ = some result := by
  obtain ⟨reads, hreads, reading⟩ := read.reading
  cases hread : ignores l (⟨contents.mutation m, applied⟩ : LogRead P W) with
  | true => exact ⟨_, add_of_ignores hread⟩
  | false =>
    have hreads' : (reads ++ [(⟨contents.mutation m, applied⟩ : LogRead P W)]).map
        mutation = (frontier ++ [m]).map contents.mutation := by
      simp [hreads]
    have hfresh : contents.FreshAfter frontier m := by
      intro q hq hdecree
      obtain ⟨r, hr, hmutation⟩ := mem_log hreads hq
      have := reading.fresh_of_not_ignores hread r hr
      rw [decree, decree, ballot, ballot, hmutation, contents.decree_eq, contents.decree_eq] at this
      exact this hdecree
    refine reading.add_isSome ?_ ?_ admissible hread ?_
    · intro q hq
      obtain ⟨m', _, hm'⟩ := mem_frontier hreads' hq
      rw [hm']
      exact contents.logged m'
    · intro q hq
      obtain ⟨m', hmem, hm'⟩ := mem_frontier hreads' hq
      rw [ballot, hm']
      exact ballots.nonneg m' (by
        rw [append_cons]
        exact mem_append_left _ hmem)
    · intro q hq hfloor e hlt hle
      obtain ⟨m', hmem, hm'⟩ := mem_frontier hreads' hq
      rw [decree, hm', contents.decree_eq] at hfloor hlt
      have hsettled : e ≤ m.decree := by
        have := admissible.announced_lt
        rw [decree, contents.decree_eq] at this
        unfold settledDecree at hle
        rw [decree, contents.decree_eq] at hle
        split at hle <;> omega
      obtain ⟨p, hp, hdecree, hballot⟩ :=
        ballots.follow frontier m tail rfl hfresh m' hmem hfloor e hlt hsettled
      obtain ⟨r, hr, hmutation⟩ := mem_log hreads' hp
      refine ⟨r, hr, ?_, ?_⟩
      · rw [decree, hmutation, contents.decree_eq, hdecree]
      · rw [ballot, ballot, hmutation, hm']
        exact hballot

omit read

theorem addAll_isSome (inOrder : Plog.InOrder floor log)
    (ballots : contents.BallotsFollow confirmed log) (applied : LoggedMutation → Int)
    (hblock : pre ++ block <+: log) (read : ReadUpTo contents confirmed frontier l calls)
    (hfrontier : frontier <+: log) (hpre : pre <+: frontier)
    (hfloor : floor ≤ l.lastCommittedDecree) :
    ∃ result, addAll l (block.map fun m => ⟨contents.mutation m, applied m⟩) = some result := by
  induction block generalizing pre frontier l calls with
  | nil => exact ⟨_, rfl⟩
  | cons m block ih =>
    rw [append_cons] at hblock
    have hone : pre ++ [m] <+: log := (prefix_append _ _).trans hblock
    have hfirst : ∃ result, add l ⟨contents.mutation m, applied m⟩ = some result := by
      rcases mem_or_next hone hfrontier hpre with ⟨hmem, _⟩ | ⟨rfl, tail, rfl⟩
      · exact ⟨_, read.add_known hmem (applied m)⟩
      · exact read.add_next_isSome ballots (read.admissible_next inOrder hfloor (applied m))
    obtain ⟨⟨l₁, new₁⟩, hfirst⟩ := hfirst
    obtain ⟨frontier₁, _, hlog₁, hpos₁, hread₁, hmono₁⟩ :=
      add_at inOrder hone read hfrontier hpre hfloor hfirst
    obtain ⟨⟨l₂, new₂⟩, hrest⟩ := ih hblock hread₁ hlog₁ hpos₁ (hfloor.trans hmono₁)
    exact ⟨(l₂, new₁ ++ new₂), by simp [addAll, hfirst, hrest]⟩

end ReadUpTo

/-! ### The files -/

/-- How files grow, with the index of the last one: a file with the next index that has not been
written to may come after the others, or a block at the end of the last one. -/
inductive GrowsBy : List LogFile → Nat → List LogFile → Nat → Prop where
  | none {files : List LogFile} {index : Nat} : GrowsBy files index files index
  | file {files : List LogFile} {index : Nat} {f : LogFile} (hindex : f.index = index + 1)
      (hblocks : f.blocks = []) : GrowsBy files index (files ++ [f]) (index + 1)
  | block {pre : List LogFile} {index : Nat} {last last' : LogFile} {b : LogBlock}
      (hindex : last'.index = last.index) (hblocks : last'.blocks = last.blocks ++ [b]) :
      GrowsBy (pre ++ [last]) index (pre ++ [last']) index

/-- A place in the files, before block `k` of the file with an index: everything before it is before
the frontier. -/
def At (files : List LogFile) (frontier : List LoggedMutation) (index k : Nat) : Prop :=
  ∃ before f after, files = before ++ f :: after ∧ f.index = index ∧ k ≤ f.blocks.length + 1 ∧
    before.flatMap LogFile.mutations ++ (f.blocks.take (k - 1)).flatMap LogBlock.mutations <+:
      frontier

section Growth

variable {files files' : List LogFile} {i j : Nat} {frontier : List LoggedMutation}
  {index k : Nat}

variable (hgrows : GrowsBy files i files' j)
include hgrows

theorem GrowsBy.flatMap_prefix :
    files.flatMap LogFile.mutations <+: files'.flatMap LogFile.mutations := by
  cases hgrows with
  | none => exact prefix_rfl
  | file hindex hblocks => simp
  | block hindex hblocks => simp [LogFile.mutations, hblocks]

theorem At.grows (place : At files frontier index k) : At files' frontier index k := by
  obtain ⟨before, f, after, hfiles, hindex, hk, hpre⟩ := place
  cases hgrows with
  | none => exact ⟨before, f, after, hfiles, hindex, hk, hpre⟩
  | @file _ _ g hg hblocks => exact ⟨before, f, after ++ [g], by simp [hfiles], hindex, hk, hpre⟩
  | @block pre _ last last' b hlast hblocks =>
    rcases eq_nil_or_concat' after with rfl | ⟨after, x, rfl⟩
    · -- the place is in the last file
      obtain ⟨rfl, hf⟩ := append_inj' hfiles rfl
      obtain rfl : last = f := by simpa using hf
      refine ⟨pre, last', [], rfl, hlast.trans hindex, ?_, ?_⟩
      · rw [hblocks, length_append]
        exact hk.trans (by simp)
      · rw [hblocks, take_append_of_le_length (by omega)]
        exact hpre
    · have hinit : pre ++ [last] = (before ++ f :: after) ++ [x] := by simpa using hfiles
      obtain ⟨rfl, hx⟩ := append_inj' hinit rfl
      exact ⟨before, f, after ++ [last'], by simp, hindex, hk, hpre⟩

theorem GrowsBy.append_left (earlier : List LogFile) :
    GrowsBy (earlier ++ files) i (earlier ++ files') j := by
  cases hgrows with
  | none => exact .none
  | file hindex hblocks =>
    rw [← append_assoc]
    exact .file hindex hblocks
  | block hindex hblocks =>
    rw [← append_assoc, ← append_assoc]
    exact .block hindex hblocks

theorem GrowsBy.index_subset : files.map LogFile.index ⊆ files'.map LogFile.index := by
  cases hgrows with
  | none => exact List.Subset.refl _
  | file hindex hblocks => simp
  | block hindex hblocks => simp [hindex]

theorem GrowsBy.chain (hchain : files.IsChain fun f g => g.index = f.index + 1)
    (hlast : ∀ f, files.getLast? = some f → f.index = i) :
    (files'.IsChain fun f g => g.index = f.index + 1) ∧
      ∀ f, files'.getLast? = some f → f.index = j := by
  cases hgrows with
  | none => exact ⟨hchain, hlast⟩
  | @file _ _ g hindex hblocks =>
    refine ⟨isChain_append.mpr ⟨hchain, .singleton _, ?_⟩, ?_⟩
    · intro f hf x hx
      obtain rfl : g = x := by simpa using hx
      rw [hindex, hlast f hf]
    · intro f hf
      obtain rfl : g = f := by simpa using hf
      exact hindex
  | @block pre _ last last' b hindex hblocks =>
    refine ⟨isChain_replace_last (fun f h => by rw [hindex, h]) hchain, ?_⟩
    intro f hf
    obtain rfl : last' = f := by simpa using hf
    rw [hindex]
    exact hlast last (by simp)

omit hgrows

variable {cfg : LogConfig} {s s' : MutationLog}

theorem growsBy_writePendingMutations (recorded : Recorded cfg s) (hopen : s.isOpened = true)
    {index : Nat} (hcurrent : s.current = some index) (pending : List (Int × Nat)) :
    GrowsBy s.files s.lastFileIndex (s.writePendingMutations cfg index pending).files
      (s.writePendingMutations cfg index pending).lastFileIndex := by
  obtain ⟨pre, last, hfiles, -, hnew⟩ :=
    (recorded.opened hopen).files_writePendingMutations recorded.ordered hcurrent pending
  rw [hnew, hfiles]
  exact .block rfl rfl

theorem growsBy_step {e : LogEvent} (recorded : Recorded cfg s) (hkeeps : e.KeepsOpen)
    (hcollects : ∀ args view, e ≠ .garbageCollection args view)
    (hstep : MutationLog.step cfg s e = some s') :
    ∃ files i, GrowsBy s.files s.lastFileIndex files i ∧
      GrowsBy files i s'.files s'.lastFileIndex := by
  cases stepped_of_step hstep with
  | append decree size hopen hsize happend =>
    obtain ⟨t, index, rfl, hcurrent, hs'⟩ := append_cases happend
    obtain ⟨hrecorded, hopen'⟩ := recorded.readyToAppend hopen
    refine ⟨(s.readyToAppend cfg).files, (s.readyToAppend cfg).lastFileIndex, ?_, ?_⟩
    · exact readyToAppend_induction .none (.file rfl rfl)
    · rcases hs' with ⟨_, rfl⟩ | ⟨_, rfl⟩
      · exact growsBy_writePendingMutations hrecorded hopen' hcurrent _
      · exact .none
  | writeCompleted hopen hcompleted =>
    refine ⟨s.files, s.lastFileIndex, .none, ?_⟩
    rcases (writeCompleted_cases hcompleted).2 with ⟨_, rfl⟩ | ⟨pending, index, _, hcurrent, rfl⟩
    · exact .none
    · exact growsBy_writePendingMutations recorded hopen hcurrent pending
  | hintSwitchFile | demandSwitchFile | onPartitionReset decree =>
    exact ⟨s.files, s.lastFileIndex, .none, .none⟩
  | garbageCollection args view => exact absurd rfl (hcollects args view)
  | close | crash loss | openLog condition => exact hkeeps.elim

end Growth

namespace Session

/-- What holds of the files while a duplication reads them. -/
structure Filed (cfg : LogConfig) (s : Session P W) : Prop where
  kept : s.plog.Kept cfg
  opened : s.plog.log.isOpened = true
  inOrder : Plog.InOrder s.plog.confirmedDecree (s.plog.log.logged cfg)
  chain : s.allFiles.IsChain fun f g => g.index = f.index + 1
  last_index : ∀ f, s.allFiles.getLast? = some f → f.index = s.plog.log.lastFileIndex
  collected_le : ∀ f ∈ s.collected, ∀ m ∈ f.mutations, m.decree ≤ s.plog.confirmedDecree

variable {cfg : LogConfig} {s : Session P W}

theorem Filed.inOrder_files (filed : Filed cfg s) :
    Plog.InOrder s.plog.confirmedDecree (s.allFiles.flatMap LogFile.mutations) := by
  rw [allFiles, flatMap_append]
  refine (filed.inOrder.of_prefix (prefix_append _ _)).append_left fun m hm => ?_
  obtain ⟨f, hf, hm⟩ := mem_flatMap.mp hm
  exact filed.collected_le f hf m hm

theorem filter_collected {log : MutationLog} (recorded : Recorded cfg log) (args : GcArgs)
    (view : GcView) :
    (log.files.filter fun f =>
      f.index ∉ (log.garbageCollection cfg args view).files.map LogFile.index) =
        gcDeleted cfg args view log := by
  have happend := gcDeleted_append cfg args view log
  have hpairwise := recorded.ordered.pairwise
  rw [← happend, pairwise_append] at hpairwise
  conv_lhs => arg 2; rw [← happend]
  rw [filter_append, filter_eq_self.mpr, filter_eq_nil_iff.mpr, append_nil]
  · intro f hf
    simpa using ⟨f, hf, rfl⟩
  · intro f hf
    simp only [mem_map, not_exists, not_and, decide_eq_true_eq]
    intro g hg hindex
    have := (hpairwise.2.2 f hf g hg).1
    omega

def afterLog (s : Session P W) (plog : Plog) : Session P W :=
  { s with
    plog := plog
    collected := s.collected ++ s.plog.log.files.filter fun f =>
      f.index ∉ plog.log.files.map LogFile.index }

theorem Filed.collect (filed : Filed cfg s) {args : GcArgs} {view : GcView} {plog : Plog}
    (hlog : plog.log = s.plog.log.garbageCollection cfg args view) :
    (s.afterLog plog).collected = s.collected ++ gcDeleted cfg args view s.plog.log ∧
      (s.afterLog plog).allFiles = s.allFiles := by
  have hcollected : (s.afterLog plog).collected =
      s.collected ++ gcDeleted cfg args view s.plog.log := by
    rw [afterLog, hlog]
    exact congrArg (s.collected ++ ·) (filter_collected filed.kept.recorded args view)
  refine ⟨hcollected, ?_⟩
  rw [allFiles, hcollected, append_assoc]
  change s.collected ++ (_ ++ plog.log.files) = _
  rw [hlog, gcDeleted_append, allFiles]

/-- **The files while the log goes on**: what a collection takes away stays readable, and otherwise
they grow. -/
theorem Filed.log_step (hheader : 0 < cfg.fileHeaderSize) (filed : Filed cfg s) {e : LogEvent}
    {plog : Plog} (hkeeps : e.KeepsOpen) (hcollects : s.plog.Collects (.log e))
    (happends : s.plog.AppendsInOrder cfg (.log e))
    (hstep : s.plog.step cfg (.log e) = some plog) :
    Filed cfg (s.afterLog plog) ∧
      ∃ files i, GrowsBy s.allFiles s.plog.log.lastFileIndex files i ∧
        GrowsBy files i (s.afterLog plog).allFiles plog.log.lastFileIndex := by
  have kept := filed.kept
  have hforgets : s.plog.ForgetsNothing (.log e) := by
    cases e with
    | openLog condition => exact hkeeps.elim
    | _ => trivial
  have hkept := kept.step hheader hcollects hforgets hstep
  have hinOrder := kept.inOrder_step hcollects happends hstep filed.inOrder
  obtain ⟨hlog, hconfirmed⟩ := Plog.step_log hstep
  have hopened := isOpened_step hkeeps filed.opened hlog
  by_cases hgc : ∃ args view, e = .garbageCollection args view
  · obtain ⟨args, view, rfl⟩ := hgc
    simp only [MutationLog.step, filed.opened, if_true] at hlog
    obtain ⟨hvalid, hlog⟩ := ite_none_right_eq_some.mp hlog
    rw [kept.nonneg.valid_zero, or_self] at hvalid
    have hcollect := some.inj hlog
    obtain ⟨hcollected, hall⟩ := filed.collect hcollect.symm
    have hindex : plog.log.lastFileIndex = s.plog.log.lastFileIndex := by rw [← hcollect]; rfl
    refine ⟨⟨hkept, hopened, hinOrder, hall ▸ filed.chain, ?_, ?_⟩, s.allFiles, _, .none, ?_⟩
    · intro f hf
      rw [hall] at hf
      exact (filed.last_index f hf).trans hindex.symm
    · intro f hf m hm
      rw [hcollected] at hf
      refine le_of_le_of_eq ?_ hconfirmed.symm
      rcases mem_append.mp hf with hf | hf
      · exact filed.collected_le f hf m hm
      · exact kept.deleted_le filed.opened hvalid hcollects hf hm
    · rw [hall, hindex]
      exact .none
  · obtain ⟨files, i, hfirst, hsecond⟩ := growsBy_step kept.recorded hkeeps
      (fun args view h => hgc ⟨args, view, h⟩) hlog
    -- no file goes
    have hnone : (s.plog.log.files.filter fun f =>
        f.index ∉ plog.log.files.map LogFile.index) = [] := by
      refine filter_eq_nil_iff.mpr fun f hf => ?_
      simpa using hsecond.index_subset (hfirst.index_subset (mem_map_of_mem hf))
    have hcollected : (s.afterLog plog).collected = s.collected := by
      rw [afterLog, hnone, append_nil]
    have hall : (s.afterLog plog).allFiles = s.collected ++ plog.log.files := by
      rw [allFiles, hcollected]
      rfl
    have hfirst := hfirst.append_left s.collected
    have hsecond := hsecond.append_left s.collected
    have hbetween := hfirst.chain filed.chain filed.last_index
    have hafter := hsecond.chain hbetween.1 hbetween.2
    refine ⟨⟨hkept, hopened, hinOrder, hall ▸ hafter.1, ?_, ?_⟩, _, i, hfirst, hall ▸ hsecond⟩
    · rw [hall]
      exact hafter.2
    · intro f hf m hm
      rw [hcollected] at hf
      exact (filed.collected_le f hf m hm).trans hconfirmed.ge

end Session

end Pegasus.Duplication
