/-
The part of a private log that a learner is sent (`Pegasus.Replica.LearnState`), after
`mutation_log::get_learn_state` and `mutation_log_private::get_learn_state_in_memory`.

The call reads the log twice. It first copies the mutations in memory, those of the
appender whose write was issued last and those of the pending one, and later, under
another lock, the list of the log files. Mutations move from pending to issued to disk
between the two. From the files it takes the latest ones, back to the first whose header
says that everything before it has a decree below the one the learner starts at.

- `InFlight`: which mutations a file holds that are not on disk yet, kept by every step;
- `Carried`: what is on disk stays there while the call is running;
- `learned_logs_complete`: along every run in which opening the log forgets no decree, what
  is returned is complete and in log order.
-/

import Pegasus.Replica.LogGc

namespace Pegasus.Replica

open TransitionSystem List Option LogFile

/-- A private log with the mutations of the appender that `_issued_write` points to. The pointer
is a weak one: the appender goes some time after its write has completed. -/
structure LearnableLog where
  log : MutationLog := {}
  issued : List LoggedMutation := []

/-- What happens to such a log: what happens to any log, and that the appender of a completed
write is released. -/
inductive LearnEvent where
  | log (e : MutationLog.LogEvent)
  | released

namespace MutationLog

/-- The mutations of `_pending_write`, at the offsets they are going to be written to. -/
def pendingMutations (cfg : LogConfig) (s : MutationLog) : List LoggedMutation :=
  match s.pending with
  | none => []
  | some pending => (blockOf cfg s.globalEndOffset pending).mutations

/-- The mutations of a file whose block is not being written any more. -/
def onDisk (s : MutationLog) (f : LogFile) : List LoggedMutation :=
  (if s.writing = some f.index then f.blocks.dropLast else f.blocks).flatMap LogBlock.mutations

/-- The `issued` mutations after an event. A write is issued by an append while none is in flight,
and by the completion of another one while mutations are pending. -/
def issuedAfter (cfg : LogConfig) (s : MutationLog) (issued : List LoggedMutation) :
    LogEvent → List LoggedMutation
  | .append decree size =>
    if s.writing.isNone then
      (blockOf cfg (s.readyToAppend cfg).globalEndOffset
        (s.pending.getD [] ++ [(decree, size)])).mutations
    else issued
  | .writeCompleted =>
    match s.pending with
    | none => issued
    | some pending => (blockOf cfg s.globalEndOffset pending).mutations
  | .close | .crash _ | .openLog _ => []
  | _ => issued

end MutationLog

open MutationLog

/-- `learn_state`. The mutations in `meta` (`metaBuffer`) and those in the files are told by their offsets. -/
structure LearnState where
  metaBuffer : List LoggedMutation
  files : List LogFile

/-- The variables of the loop of `get_learn_state` over the files: `learn_files` in the order of
their indices, `last_max_decree` and `learned_file_start_offset`. -/
structure FileWalk where
  files : List LogFile := []
  lastMaxDecree : Int := 0
  startOffset : Int := 0

namespace LearnableLog

def step (cfg : LogConfig) (s : LearnableLog) : LearnEvent → Option LearnableLog
  | .log e => (MutationLog.step cfg s.log e).map fun log =>
      { log := log, issued := s.log.issuedAfter cfg s.issued e }
  | .released => if s.log.writing.isNone then some { s with issued := [] } else none

/-- `mutation_log_private::get_learn_state_in_memory`: what it writes to the buffer. -/
def getLearnStateInMemory (cfg : LogConfig) (start : Int) (s : LearnableLog) :
    List LoggedMutation :=
  (s.issued ++ s.log.pendingMutations cfg).filter fun m => start ≤ m.decree

end LearnableLog

/-- The loop of `get_learn_state` over the files, the latest first. The header of a file of a
private log always has an entry for the partition, so no file is skipped for want of one. -/
def walkFiles (cfg : LogConfig) (validStartOffset start : Int) :
    List LogFile → FileWalk → FileWalk
  | [], walk => walk
  | f :: older, walk =>
    if f.endOffset cfg ≤ validStartOffset then walk
    else
      let walk : FileWalk :=
        if f.startOffset < f.endOffset cfg then
          { walk with files := f :: walk.files, startOffset := f.startOffset }
        else walk
      let walk := { walk with lastMaxDecree := f.previousMaxDecree }
      if f.previousMaxDecree < start then walk
      else walkFiles cfg validStartOffset start older walk

/-- `mutation_log::get_learn_state`, for what was found in memory before. -/
def getLearnState (cfg : LogConfig) (start : Int) (inMemory : List LoggedMutation)
    (s : MutationLog) : Bool × LearnState :=
  if inMemory.isEmpty ∧ s.maxDecree < start then (false, { metaBuffer := inMemory, files := [] })
  else
    let walk := walkFiles cfg s.validStartOffset start s.files.reverse {}
    (decide (s.validStartOffset ≤ walk.startOffset ∧ 0 < walk.lastMaxDecree ∧
        walk.lastMaxDecree < start),
      { metaBuffer := inMemory, files := walk.files })

/-! ### The walk over the files -/

/-- **Where the walk stops** when a decree is left over that is positive and below `start`: at a
file whose header says so, with all later files taken. -/
theorem walkFiles_cut {cfg : LogConfig} (hheader : 0 < cfg.fileHeaderSize)
    {validStartOffset start : Int} {files : List LogFile} {walk : FileWalk}
    (hwalk : walk.lastMaxDecree ≤ 0 ∨ start ≤ walk.lastMaxDecree)
    (hpos : 0 < (walkFiles cfg validStartOffset start files walk).lastMaxDecree)
    (hlt : (walkFiles cfg validStartOffset start files walk).lastMaxDecree < start) :
    ∃ newer head older, files = newer ++ head :: older ∧ head.previousMaxDecree < start ∧
      (walkFiles cfg validStartOffset start files walk).files =
        (newer ++ [head]).reverse ++ walk.files := by
  induction files generalizing walk with
  | nil =>
    simp only [walkFiles] at hpos hlt
    omega
  | cons f older ih =>
    simp only [walkFiles] at hpos hlt ⊢
    by_cases hend : f.endOffset cfg ≤ validStartOffset
    · simp only [hend, if_true] at hpos hlt
      omega
    have hfile : f.startOffset < f.endOffset cfg := by
      unfold endOffset dataEnd
      omega
    simp only [hend, if_false, hfile, if_true] at hpos hlt ⊢
    by_cases hstop : f.previousMaxDecree < start
    · simp only [hstop, if_true] at hpos hlt ⊢
      exact ⟨[], f, older, rfl, hstop, rfl⟩
    · simp only [hstop, if_false] at hpos hlt ⊢
      obtain ⟨newer, head, rest, rfl, hhead, hfiles⟩ := ih (.inr (not_lt.mp hstop)) hpos hlt
      refine ⟨f :: newer, head, rest, rfl, hhead, ?_⟩
      rw [hfiles]
      simp

/-- What `get_learn_state` takes when it returns true: the last files, from one on whose header
says that all files before it hold decrees below `start` only. -/
theorem getLearnState_true {cfg : LogConfig} (hheader : 0 < cfg.fileHeaderSize) {start : Int}
    {inMemory : List LoggedMutation} {s : MutationLog} {state : LearnState}
    (h : getLearnState cfg start inMemory s = (true, state)) :
    state.metaBuffer = inMemory ∧ ∃ older head newer, s.files = older ++ head :: newer ∧
      state.files = head :: newer ∧ head.previousMaxDecree < start := by
  unfold getLearnState at h
  split at h
  · simp at h
  obtain ⟨hret, rfl⟩ := Prod.mk.inj h
  obtain ⟨_, hpos, hlt⟩ := of_decide_eq_true hret
  obtain ⟨newer, head, older, hfiles, hhead, htaken⟩ := walkFiles_cut hheader (.inl le_rfl) hpos hlt
  refine ⟨rfl, older.reverse, head, newer.reverse, ?_, ?_, hhead⟩
  · rw [← reverse_reverse s.files, hfiles]
    simp
  · rw [htaken]
    simp

/-! ### What is on disk -/

section Keyed

/-- Lists of increasing keys: if every element of the one has a counterpart in the other that
yields all that it yields, then the one yields no more than the other, in the same order. -/
theorem flatMap_sublist_flatMap {α β : Type} {key : α → Nat} (yield yield' : α → List β)
    {as bs : List α} (has : as.Pairwise fun a b => key a < key b)
    (hbs : bs.Pairwise fun a b => key a < key b)
    (hmatch : ∀ a ∈ as, ∃ b ∈ bs, key b = key a ∧ (yield a).Sublist (yield' b)) :
    (as.flatMap yield).Sublist (bs.flatMap yield') := by
  induction bs generalizing as with
  | nil =>
    cases as with
    | nil => exact .slnil
    | cons a as =>
      obtain ⟨b, hb, _⟩ := hmatch a mem_cons_self
      cases hb
  | cons b bs ih =>
    obtain ⟨hb, hbs'⟩ := pairwise_cons.mp hbs
    cases as with
    | nil => exact nil_sublist _
    | cons a as =>
      obtain ⟨ha, has'⟩ := pairwise_cons.mp has
      obtain ⟨c, hc, hkey, hyield⟩ := hmatch a mem_cons_self
      -- a later element matches a later one, as its key is larger
      have hlater : ∀ x ∈ a :: as, key b < key x →
          ∃ y ∈ bs, key y = key x ∧ (yield x).Sublist (yield' y) := by
        intro x hx hlt
        obtain ⟨y, hy, hkeyy, hyieldy⟩ := hmatch x hx
        rcases mem_cons.mp hy with rfl | hy
        · omega
        · exact ⟨y, hy, hkeyy, hyieldy⟩
      rcases mem_cons.mp hc with rfl | hc
      · refine hyield.append (ih has' hbs' fun x hx => ?_)
        exact hlater x (mem_cons_of_mem _ hx) (hkey ▸ ha x hx)
      · have hlt : ∀ x ∈ a :: as, key b < key x := by
          intro x hx
          have := hb c hc
          rcases mem_cons.mp hx with rfl | hx
          · omega
          · have := ha x hx
            omega
        exact (ih has hbs' fun x hx => hlater x hx (hlt x hx)).trans (sublist_append_right _ _)

end Keyed

namespace MutationLog

variable {cfg : LogConfig} {s t : MutationLog} {issued : List LoggedMutation} {e : LogEvent}
  {files : List LogFile} {f : LogFile} {index : Nat}

theorem Ordered.index_inj (ordered : Ordered cfg files) {g : LogFile}
    (hf : f ∈ files) (hg : g ∈ files) (hindex : f.index = g.index) : f = g := by
  have hnodup : (files.map index).Nodup := pairwise_map.mpr (ordered.pairwise.imp fun h => h.1.ne)
  exact inj_on_of_nodup_map hnodup hf hg hindex

theorem Recorded.index_le (recorded : Recorded cfg s) (hopen : s.isOpened = true)
    (hf : f ∈ s.files) : f.index ≤ s.lastFileIndex := by
  obtain ⟨last, hlast⟩ : ∃ last, s.files.getLast? = some last :=
    ⟨_, List.getLast?_eq_some_getLast (ne_nil_of_mem hf)⟩
  rw [← ((recorded.opened hopen).ends_at_last last hlast).2]
  exact (recorded.ordered.dataEnd_le_last hlast hf).2

theorem Recorded.current_eq (recorded : Recorded cfg s) (hopen : s.isOpened = true)
    (hcurrent : s.current = some index) : index = s.lastFileIndex := by
  have opened := recorded.opened hopen
  obtain ⟨last, hlast, rfl⟩ := opened.current_last index hcurrent
  exact (opened.ends_at_last last hlast).2

/-- The mutations in flight: while a block is being written it is the last one of its file, its
mutations are those of the appender, and nothing is written after it. -/
structure InFlight (s : MutationLog) (issued : List LoggedMutation) : Prop where
  issued_last : ∀ i, s.writing = some i → ∀ f ∈ s.files, f.index = i →
    ∃ blocks b, f.blocks = blocks ++ [b] ∧ b.mutations = issued
  tail_empty : ∀ i, s.writing = some i → ∀ f ∈ s.files, i < f.index → f.blocks = []
  writing_le : ∀ i, s.writing = some i → i ≤ s.lastFileIndex

theorem inFlight_of_idle (hidle : s.writing = none) : InFlight s issued := by
  constructor <;> simp [hidle]

theorem InFlight.createNewLogFile (inFlight : InFlight s issued) :
    InFlight (s.createNewLogFile cfg) issued := by
  constructor
  · intro i hi f hf hindex
    rcases mem_append.mp hf with hf | hf
    · exact inFlight.issued_last i hi f hf hindex
    · have := inFlight.writing_le i hi
      rw [mem_singleton.mp hf] at hindex
      change s.lastFileIndex + 1 = i at hindex
      omega
  · intro i hi f hf hlt
    rcases mem_concat_iff.mp hf with hf | rfl
    · exact inFlight.tail_empty i hi f hf hlt
    · rfl
  · exact fun i hi => (inFlight.writing_le i hi).trans (Nat.le_succ _)

theorem inFlight_writePendingMutations (recorded : Recorded cfg s) (hopen : s.isOpened = true)
    (hcurrent : s.current = some index) (pending : List (Int × Nat)) :
    InFlight (s.writePendingMutations cfg index pending)
      (blockOf cfg s.globalEndOffset pending).mutations := by
  have hlast := recorded.current_eq hopen hcurrent
  constructor
  · intro i hi f hf hindex
    cases hi
    obtain ⟨g, hg, rfl⟩ := List.mem_map.mp hf
    by_cases h : g.index = index
    · exact ⟨g.blocks, blockOf cfg s.globalEndOffset pending, by simp [h], rfl⟩
    · simp [h] at hindex
  · intro i hi f hf hlt
    cases hi
    obtain ⟨g, hg, rfl⟩ := List.mem_map.mp hf
    have hle := recorded.index_le hopen hg
    by_cases h : g.index = index
    · simp [h] at hlt
    · simp only [h, if_false] at hlt
      omega
  · intro i hi
    cases hi
    exact hlast.le

theorem InFlight.mono (inFlight : InFlight s issued) (hfiles : t.files ⊆ s.files)
    (hwriting : t.writing = s.writing) (hindex : t.lastFileIndex = s.lastFileIndex) :
    InFlight t issued := by
  constructor
  · exact fun i hi f hf => inFlight.issued_last i (hwriting ▸ hi) f (hfiles hf)
  · exact fun i hi f hf => inFlight.tail_empty i (hwriting ▸ hi) f (hfiles hf)
  · exact fun i hi => hindex ▸ inFlight.writing_le i (hwriting ▸ hi)

theorem readyToAppend_writing (cfg : LogConfig) (s : MutationLog) :
    (s.readyToAppend cfg).writing = s.writing :=
  readyToAppend_induction rfl rfl

theorem InFlight.step (inFlight : InFlight s issued) (recorded : Recorded cfg s)
    (hstep : MutationLog.step cfg s e = some t) : InFlight t (s.issuedAfter cfg issued e) := by
  cases stepped_of_step hstep with
  | append decree size hopen hsize happend =>
    obtain ⟨u, index, rfl, hcurrent, h⟩ := append_cases happend
    obtain ⟨hrecorded, hopen'⟩ := recorded.readyToAppend hopen
    rw [readyToAppend_writing] at h
    rcases h with ⟨hidle, rfl⟩ | ⟨hbusy, rfl⟩
    · simp only [issuedAfter, hidle, isNone_none, if_true]
      exact inFlight_writePendingMutations hrecorded hopen' hcurrent _
    · have hready : InFlight (s.readyToAppend cfg) issued :=
        readyToAppend_induction inFlight inFlight.createNewLogFile
      simp only [issuedAfter, isNone_iff_eq_none, hbusy, if_false]
      exact hready.mono (fun _ h => h) (readyToAppend_writing cfg s).symm rfl
  | writeCompleted hopen hcompleted =>
    rcases (writeCompleted_cases hcompleted).2 with
      ⟨_, rfl⟩ | ⟨pending, index, hpending, hcurrent, rfl⟩
    · exact inFlight_of_idle rfl
    · simp only [issuedAfter, hpending]
      exact inFlight_writePendingMutations recorded hopen hcurrent pending
  | hintSwitchFile | demandSwitchFile | onPartitionReset decree =>
    exact inFlight.mono (fun _ h => h) rfl rfl
  | garbageCollection args view => exact inFlight.mono (drop_subset _ _) rfl rfl
  | close =>
    rcases close_cases cfg s with hclose | ⟨_, _, _, _, hclose⟩
    · exact inFlight_of_idle (hclose ▸ rfl)
    · exact inFlight_of_idle (hclose ▸ rfl)
  | crash loss => exact inFlight_of_idle rfl
  | openLog condition hclosed hlog =>
    obtain ⟨_, _, rfl⟩ := map_eq_some_iff.mp hlog
    exact inFlight_of_idle rfl

theorem onDisk_of_ne (h : s.writing ≠ some f.index) : s.onDisk f = f.mutations := by
  simp [onDisk, h, mutations]

theorem onDisk_sublist (s : MutationLog) (f : LogFile) : (s.onDisk f).Sublist f.mutations := by
  refine List.Sublist.flatMap ?_ _
  split
  · exact dropLast_sublist _
  · exact .refl _

theorem InFlight.flatMap_mutations (inFlight : InFlight s issued)
    (hfiles : files ⊆ s.files) (hsorted : files.Pairwise fun f g => f.index < g.index) :
    ∃ rest, rest.Sublist issued ∧
      files.flatMap mutations = files.flatMap s.onDisk ++ rest := by
  induction files with
  | nil => exact ⟨[], nil_sublist _, rfl⟩
  | cons f newer ih =>
    obtain ⟨hf, hnewer⟩ := pairwise_cons.mp hsorted
    obtain ⟨hmem, hsub⟩ := cons_subset.mp hfiles
    by_cases hwriting : s.writing = some f.index
    · obtain ⟨blocks, b, hblocks, hissued⟩ := inFlight.issued_last _ hwriting f hmem rfl
      have hempty : ∀ g ∈ newer, g.blocks = [] := fun g hg =>
        inFlight.tail_empty _ hwriting g (hsub hg) (hf g hg)
      have hmutations : newer.flatMap mutations = [] := by
        simpa [flatMap_eq_nil_iff, mutations] using fun g hg => by simp [hempty g hg]
      have hondisk : newer.flatMap s.onDisk = [] := by
        simpa [flatMap_eq_nil_iff, onDisk] using fun g hg => by simp [hempty g hg]
      refine ⟨issued, .refl _, ?_⟩
      simp [hmutations, hondisk, mutations, onDisk, hwriting, hblocks, hissued]
    · obtain ⟨rest, hrest, heq⟩ := ih hsub hnewer
      refine ⟨rest, hrest, ?_⟩
      rw [flatMap_cons, flatMap_cons, heq, onDisk_of_ne hwriting, append_assoc]

/-- How the files of a log relate to those it had before: the old files that are left have kept
what was on disk, and the others have new indices. -/
structure Carried (s t : MutationLog) : Prop where
  old_index : ∀ g ∈ t.files, g.index ≤ s.lastFileIndex → ∃ f ∈ s.files, f.index = g.index
  last_le : s.lastFileIndex ≤ t.lastFileIndex
  on_disk : ∀ f ∈ s.files, ∀ g ∈ t.files, g.index = f.index → (s.onDisk f).Sublist (t.onDisk g)

theorem Carried.trans {u : MutationLog} (first : Carried s t) (second : Carried t u)
    (hindex : ∀ f ∈ s.files, f.index ≤ s.lastFileIndex) : Carried s u where
  old_index := by
    intro h hh hle
    obtain ⟨g, hg, hgh⟩ := second.old_index h hh (hle.trans first.last_le)
    obtain ⟨f, hf, hfg⟩ := first.old_index g hg (hgh ▸ hle)
    exact ⟨f, hf, hfg.trans hgh⟩
  last_le := first.last_le.trans second.last_le
  on_disk := by
    intro f hf h hh hfh
    obtain ⟨g, hg, hgh⟩ := second.old_index h hh (hfh ▸ (hindex f hf).trans first.last_le)
    exact (first.on_disk f hf g hg (hgh.trans hfh)).trans (second.on_disk g hg h hh hgh.symm)

variable (recorded : Recorded cfg s)
include recorded

theorem Recorded.carried_of_subset (hfiles : t.files ⊆ s.files)
    (hlast : t.lastFileIndex = s.lastFileIndex)
    (hwriting : t.writing = s.writing ∨ t.writing = none) : Carried s t where
  old_index := fun g hg _ => ⟨g, hfiles hg, rfl⟩
  last_le := hlast.ge
  on_disk := by
    intro f hf g hg hindex
    obtain rfl := recorded.ordered.index_inj (hfiles hg) hf hindex
    rcases hwriting with hwriting | hwriting
    · rw [onDisk, onDisk, hwriting]
    · rw [onDisk_of_ne (s := t) (by simp [hwriting])]
      exact onDisk_sublist s g

theorem Recorded.carried_createNewLogFile (hopen : s.isOpened = true) :
    Carried s (s.createNewLogFile cfg) where
  old_index := by
    intro g hg hle
    rcases mem_concat_iff.mp hg with hg | rfl
    · exact ⟨g, hg, rfl⟩
    · exact absurd hle (Nat.not_succ_le_self _)
  last_le := Nat.le_succ _
  on_disk := by
    intro f hf g hg hindex
    rcases mem_append.mp hg with hg | hg
    · obtain rfl := recorded.ordered.index_inj hg hf hindex
      exact .refl _
    · have hle := recorded.index_le hopen hf
      rw [mem_singleton.mp hg] at hindex
      change s.lastFileIndex + 1 = f.index at hindex
      omega

theorem Recorded.carried_writePendingMutations (index : Nat) (pending : List (Int × Nat)) :
    Carried s (s.writePendingMutations cfg index pending) where
  old_index := by
    intro g hg _
    obtain ⟨f, hf, rfl⟩ := List.mem_map.mp hg
    exact ⟨f, hf, by split <;> rfl⟩
  last_le := le_rfl
  on_disk := by
    intro f hf g hg hindex
    obtain ⟨g, hmem, rfl⟩ := List.mem_map.mp hg
    obtain rfl : g = f := recorded.ordered.index_inj hmem hf (by rw [← hindex]; split <;> rfl)
    by_cases h : g.index = index
    · have hnew : (s.writePendingMutations cfg index pending).onDisk
          { g with blocks := g.blocks ++ [blockOf cfg s.globalEndOffset pending] } =
            g.mutations := by
        simp [onDisk, MutationLog.writePendingMutations, h, mutations]
      rw [if_pos h, hnew]
      exact onDisk_sublist s g
    · have hne : (s.writePendingMutations cfg index pending).writing ≠ some g.index :=
        fun hw => h (some.inj hw).symm
      rw [if_neg h, onDisk_of_ne hne]
      exact onDisk_sublist s g

omit recorded in
def LogEvent.KeepsOpen : LogEvent → Prop
  | .close | .crash _ | .openLog _ => False
  | _ => True

/-- **While the log stays open, what is on disk stays on disk**, but for what is collected. -/
theorem Recorded.carried_step (hkeeps : e.KeepsOpen)
    (hstep : MutationLog.step cfg s e = some t) : s.isOpened = true ∧ Carried s t := by
  cases stepped_of_step hstep with
  | append decree size hopen hsize happend =>
    refine ⟨hopen, ?_⟩
    obtain ⟨u, index, rfl, hcurrent, h⟩ := append_cases happend
    obtain ⟨hrecorded, hopen'⟩ := recorded.readyToAppend hopen
    have hready : Carried s (s.readyToAppend cfg) :=
      readyToAppend_induction (recorded.carried_of_subset (fun _ h => h) rfl (.inl rfl))
        (recorded.carried_createNewLogFile hopen)
    have hindex : ∀ f ∈ s.files, f.index ≤ s.lastFileIndex := fun f hf => recorded.index_le hopen hf
    rcases h with ⟨_, rfl⟩ | ⟨_, rfl⟩
    · exact hready.trans (hrecorded.carried_writePendingMutations index _) hindex
    · exact hready.trans (hrecorded.carried_of_subset (fun _ h => h) rfl (.inl rfl)) hindex
  | writeCompleted hopen hcompleted =>
    refine ⟨hopen, ?_⟩
    rcases (writeCompleted_cases hcompleted).2 with ⟨_, rfl⟩ | ⟨pending, index, _, _, rfl⟩
    · exact recorded.carried_of_subset (fun _ h => h) rfl (.inr rfl)
    · exact recorded.carried_writePendingMutations index pending
  | hintSwitchFile hopen | demandSwitchFile hopen | onPartitionReset decree hopen =>
    exact ⟨hopen, recorded.carried_of_subset (fun _ h => h) rfl (.inl rfl)⟩
  | garbageCollection args view hopen =>
    exact ⟨hopen, recorded.carried_of_subset (drop_subset _ _) rfl (.inl rfl)⟩
  | close | crash loss | openLog condition => exact hkeeps.elim

end MutationLog

/-! ### Runs -/

namespace LearnableLog

variable {cfg : LogConfig} {s t : LearnableLog}

def ForgetsNothing (s : LearnableLog) : LearnEvent → Prop
  | .log (.openLog condition) => s.log.ReplayCovers condition
  | _ => True

/-- Events that can happen while a call of `get_learn_state` is running. -/
def KeepsOpen : LearnEvent → Prop
  | .log e => e.KeepsOpen
  | .released => True

/-- The mutations of the log when the call starts, in the order of the log, apart from those whose
file has been collected by the time the files are listed. -/
def retained (cfg : LogConfig) (s : MutationLog) (listed : MutationLog) : List LoggedMutation :=
  (s.files.filter fun f => f.index ∈ listed.files.map LogFile.index).flatMap LogFile.mutations ++
    s.pendingMutations cfg

/-- What a learner replays: the files first, then the buffer. -/
def replayOrder (listed : MutationLog) (state : LearnState) : List LoggedMutation :=
  state.files.flatMap listed.onDisk ++ state.metaBuffer

/-- A learn state is complete for a call that started at `s` and listed the files at `listed`. -/
structure Complete (cfg : LogConfig) (start : Int) (s listed : MutationLog) (state : LearnState) :
    Prop where
  contained : ∀ m ∈ retained cfg s listed, start ≤ m.decree →
    listed.validStartOffset ≤ m.offset →
      m ∈ state.metaBuffer ∨ ∃ f ∈ state.files, m ∈ listed.onDisk f
  consecutive : state.files.IsChain fun f g => g.index = f.index + 1
  latest : state.files <:+ listed.files
  in_order : ((retained cfg s listed).filter fun m =>
    start ≤ m.decree ∧ listed.validStartOffset ≤ m.offset).Sublist (replayOrder listed state)

/-- A mutation in a file before one whose header names a lower decree than `start` is not needed. -/
theorem filter_before_head {start : Int} {older newer : List LogFile} {head : LogFile}
    {listed : MutationLog} (recorded : Recorded cfg listed)
    (hfiles : listed.files = older ++ head :: newer) (hhead : head.previousMaxDecree < start) :
    (listed.files.flatMap listed.onDisk).filter
        (fun m => start ≤ m.decree ∧ listed.validStartOffset ≤ m.offset) =
      ((head :: newer).flatMap listed.onDisk).filter
        (fun m => start ≤ m.decree ∧ listed.validStartOffset ≤ m.offset) := by
  have hcovered := recorded.covered
  rw [hfiles, pairwise_append] at hcovered
  have hnone : (older.flatMap listed.onDisk).filter
      (fun m => start ≤ m.decree ∧ listed.validStartOffset ≤ m.offset) = [] := by
    refine filter_eq_nil_iff.mpr fun m hm => ?_
    obtain ⟨f, hf, hm⟩ := mem_flatMap.mp hm
    have hcovers := hcovered.2.2 f hf head mem_cons_self m ((onDisk_sublist _ f).subset hm)
    simp only [decide_eq_true_eq, not_and, not_le]
    intro hstart
    by_contra hvalid
    have := hcovers (not_lt.mp hvalid)
    omega
  rw [hfiles, flatMap_append, filter_append, hnone, nil_append]

theorem complete_of_true (hheader : 0 < cfg.fileHeaderSize) (hs : Recorded cfg s.log)
    (inFlight : InFlight s.log s.issued) (ht : Recorded cfg t.log)
    (carried : Carried s.log t.log) {start : Int} {state : LearnState}
    (hlearn : getLearnState cfg start (s.getLearnStateInMemory cfg start) t.log = (true, state)) :
    Complete cfg start s.log t.log state := by
  obtain ⟨hmeta, older, head, newer, hfiles, hstate, hhead⟩ := getLearnState_true hheader hlearn
  have hsorted : (s.log.files.filter fun f => f.index ∈ t.log.files.map index).Pairwise
      fun f g => f.index < g.index := (hs.ordered.pairwise.imp fun h => h.1).filter _
  have hlatest : state.files <:+ t.log.files := ⟨older, by rw [hstate, hfiles]⟩
  have hsub : ((retained cfg s.log t.log).filter fun m =>
      start ≤ m.decree ∧ t.log.validStartOffset ≤ m.offset).Sublist (replayOrder t.log state) := by
    obtain ⟨rest, hrest, heq⟩ := inFlight.flatMap_mutations filter_sublist.subset hsorted
    rw [retained, heq, append_assoc, filter_append]
    refine List.Sublist.append ?_ ?_
    · -- what was on disk is in a listed file, and not in one before the head
      have hdisk := flatMap_sublist_flatMap s.log.onDisk t.log.onDisk hsorted
        (ht.ordered.pairwise.imp fun h => h.1) ?_
      · refine (hdisk.filter _).trans ?_
        rw [filter_before_head ht hfiles hhead, hstate]
        exact filter_sublist
      · intro f hf
        obtain ⟨hf, hleft⟩ := mem_filter.mp hf
        obtain ⟨g, hg, hindex⟩ := List.mem_map.mp (of_decide_eq_true hleft)
        exact ⟨g, hg, hindex, carried.on_disk f hf g hg hindex⟩
    · -- the rest was in memory
      rw [hmeta]
      refine ((hrest.append (.refl _)).filter _).trans ?_
      refine monotone_filter_right _ fun m hm => ?_
      exact decide_eq_true (of_decide_eq_true hm).1
  refine ⟨?_, ?_, hlatest, hsub⟩
  · intro m hm hstart hvalid
    have hmem := hsub.subset (mem_filter.mpr ⟨hm, decide_eq_true ⟨hstart, hvalid⟩⟩)
    rcases mem_append.mp hmem with hfile | hmem
    · exact .inr (mem_flatMap.mp hfile)
    · exact .inl hmem
  · exact (List.IsChain.suffix ht.ordered hlatest).imp fun _ _ h => h.1

theorem recorded_step {e : LearnEvent} (hrecorded : Recorded cfg s.log)
    (inFlight : InFlight s.log s.issued) (hcovers : s.ForgetsNothing e)
    (hstep : step cfg s e = some t) : Recorded cfg t.log ∧ InFlight t.log t.issued := by
  cases e with
  | log e =>
    obtain ⟨log, hlog, rfl⟩ := map_eq_some_iff.mp hstep
    refine ⟨hrecorded.step hlog ?_, inFlight.step hrecorded hlog⟩
    rintro condition rfl
    exact hcovers
  | released =>
    obtain ⟨hidle, rfl⟩ := of_guard hstep
    exact ⟨hrecorded, inFlight_of_idle (isNone_iff_eq_none.mp hidle)⟩

structure Calling (cfg : LogConfig) (s t : LearnableLog) : Prop where
  recorded : Recorded cfg t.log
  carried : Carried s.log t.log
  was_opened : t.log.isOpened = true → s.log.isOpened = true

theorem Calling.step {u : LearnableLog} {e : LearnEvent} (hs : Recorded cfg s.log)
    (calling : Calling cfg s t) (hkeeps : KeepsOpen e) (hstep : step cfg t e = some u) :
    Calling cfg s u := by
  cases e with
  | log e =>
    obtain ⟨log, hlog, rfl⟩ := map_eq_some_iff.mp hstep
    obtain ⟨hopen, carried⟩ := calling.recorded.carried_step hkeeps hlog
    have hopened := calling.was_opened hopen
    refine ⟨calling.recorded.step hlog ?_, ?_, fun _ => hopened⟩
    · rintro condition rfl
      exact hkeeps.elim
    · exact calling.carried.trans carried fun f hf => hs.index_le hopened hf
  | released =>
    obtain ⟨-, rfl⟩ := of_guard hstep
    exact ⟨calling.recorded, calling.carried, calling.was_opened⟩

/-- **Learned logs are complete.** Take any run of a private log in which opening it forgets no
decree, and a call of `get_learn_state` that copies what is in memory after this run and lists the
files later, while the log goes on. If the call returns true, every valid mutation from `start` on
that has not been collected is in the buffer or on disk in one of the files, the files are the
latest ones and have consecutive indices, and replaying files and buffer gives these mutations in
the order of the log. -/
theorem learned_logs_complete (hheader : 0 < cfg.fileHeaderSize) {events during : List LearnEvent}
    (hrun : run (step cfg) {} events = some s)
    (hcovers : StepsMeet (step cfg) ForgetsNothing {} events)
    (hduring : run (step cfg) s during = some t)
    (hkeeps : ∀ e ∈ during, KeepsOpen e) {start : Int} {state : LearnState}
    (hlearn : getLearnState cfg start (s.getLearnStateInMemory cfg start) t.log = (true, state)) :
    Complete cfg start s.log t.log state := by
  obtain ⟨hrecorded, inFlight⟩ : Recorded cfg s.log ∧ InFlight s.log s.issued :=
    run_invariant_of_steps (I := fun s => Recorded cfg s.log ∧ InFlight s.log s.issued)
      (fun _ _ _ hstep hmeet h => recorded_step h.1 h.2 hmeet hstep) hrun hcovers
      ⟨consistent_init.toRecorded, inFlight_of_idle rfl⟩
  have calling : Calling cfg s t :=
    run_invariant_of_steps (C := fun _ e => KeepsOpen e)
      (fun _ _ _ hstep hkeeps calling => calling.step hrecorded hkeeps hstep) hduring
      (stepsMeet_of_forall (fun e he _ => hkeeps e he) s)
      ⟨hrecorded, hrecorded.carried_of_subset (fun _ h => h) rfl (.inl rfl), id⟩
  exact complete_of_true hheader hrecorded inFlight calling.recorded calling.carried hlearn

/-- Decrees 1 and 2 are in a first file, the block of decree 3 is being written to a second one and
decree 4 is pending. -/
def pendingRun : List LearnEvent := switchedRun.map .log ++ [.log (.append 4 5)]

/-- Decree 3 gets to the disk and decree 4 is issued between the two readings of a call; nothing
falls between. -/
theorem learned_logs_complete_while_writing :
    ∃ s t state, run (step smallConfig) {} pendingRun = some s ∧
      run (step smallConfig) s [.log .writeCompleted] = some t ∧
      getLearnState smallConfig 3 (s.getLearnStateInMemory smallConfig 3) t.log = (true, state) ∧
      state.metaBuffer = [⟨3, 36⟩, ⟨4, 43⟩] ∧ state.files.map LogFile.index = [2] ∧
      Complete smallConfig 3 s.log t.log state := by
  have hcovers : StepsMeet (step smallConfig) ForgetsNothing {} pendingRun := by
    refine ⟨fun f hf => absurd hf (by simp), fun _ _ => ?_⟩
    refine stepsMeet_of_forall ?_ _
    simp [ForgetsNothing]
  have hkeeps : ∀ e ∈ [LearnEvent.log .writeCompleted], KeepsOpen e := by
    intro e he
    rw [mem_singleton.mp he]
    trivial
  exact ⟨_, _, _, rfl, rfl, rfl, rfl, rfl,
    learned_logs_complete (by decide) rfl hcovers rfl hkeeps rfl⟩

/-- Decrees 1 to 3 are in a first file. Decree 1 is sent again and goes to a second file, whose header
names decree 3. The log is opened for a replica that has decree 3 in its checkpoint. -/
def skippedRun : List LearnEvent :=
  [.log (.openLog none), .log (.append 1 5), .log .writeCompleted, .log (.append 2 5),
    .log .writeCompleted, .log (.append 3 5), .log .writeCompleted, .log .demandSwitchFile,
    .log (.append 1 5), .log .writeCompleted, .log .close, .log (.openLog (some 3)),
    .log (.append 4 5)]

/-- Only the second file is replayed, so the header of the third one names decree 1. A learner that
starts at decree 2 is told that the third file is all it needs; decrees 2 and 3 are in the first. -/
theorem learned_logs_miss_skipped_decrees :
    ∃ s state, run (step smallConfig) {} skippedRun = some s ∧
      getLearnState smallConfig 2 (s.getLearnStateInMemory smallConfig 2) s.log = (true, state) ∧
      state.files.map LogFile.index = [3] ∧ state.metaBuffer = [⟨4, 60⟩] ∧
      ¬ Complete smallConfig 2 s.log s.log state := by
  refine ⟨_, _, rfl, rfl, rfl, rfl, fun complete => ?_⟩
  have hcontained := complete.contained ⟨2, 19⟩ (by decide) (by decide) (by decide)
  exact absurd hcontained (by decide)

end LearnableLog

end Pegasus.Replica
