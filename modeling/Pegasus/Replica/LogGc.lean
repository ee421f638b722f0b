/-
Garbage collection of the private log (`Pegasus.Replica.LogGc`).

A collection deletes the oldest files as soon as everything in them is cleanable. What is
in a file it only knows from the header of the next one, or for the last file from the
highest decree in memory, so the whole rests on these numbers covering the mutations
before them (`Recorded.covered`, `Opened.covered_memory`).

- `gcMark_cases`: what the loop marks; `gcMark_covered`: where the numbers cover,
  everything up to the marked file is cleanable or before the valid start offset;
- `Recorded`: what every step keeps, one lemma for each event, if opening the log does
  not forget the decrees of the files it skips; `Consistent`: the same without holes;
- `gc_keeps_needed`: along every run in which opening the log does not forget the decrees
  of the files it skips, no needed mutation is deleted.
-/

import Pegasus.Lib.Run
import Pegasus.Replica.MutationLog

namespace Pegasus.Replica

open TransitionSystem List Option MutationLog LogFile

namespace MutationLog

/-- The indices of the files are consecutive, and each file starts where the data of the one
before it ends. -/
def Contiguous (cfg : LogConfig) (files : List LogFile) : Prop :=
  files.IsChain fun f g => g.index = f.index + 1 ∧ g.startOffset = f.dataEnd cfg

/-- The indices of the files are consecutive, and no file starts before the one before it ends.
Losing a block that is not the last one leaves a hole between two files. -/
def Ordered (cfg : LogConfig) (files : List LogFile) : Prop :=
  files.IsChain fun f g => g.index = f.index + 1 ∧ f.dataEnd cfg ≤ g.startOffset

/-- The decree covers every mutation of the file that is not before the offset. -/
def Covers (validStartOffset decree : Int) (f : LogFile) : Prop :=
  ∀ m ∈ f.mutations, validStartOffset ≤ m.offset → m.decree ≤ decree

/-- A step deletes no file that is current or holds a mutation that is still needed. -/
def KeepsNeeded (s : MutationLog) (e : LogEvent) (s' : MutationLog) : Prop :=
  match e with
  | .garbageCollection args _ => ∀ f ∈ s.files, f ∉ s'.files →
      s.current ≠ some f.index ∧ Covers args.validStartOffset args.cleanableDecree f
  | _ => True

section Blocks

/-- The mutations of every block lie before its end, when the blocks start at an offset. -/
def BlocksWithin : Int → List LogBlock → Prop
  | _, [] => True
  | offset, b :: rest =>
    (∀ m ∈ b.mutations, m.offset < offset + b.size) ∧ BlocksWithin (offset + b.size) rest

variable {offset : Int} {blocks : List LogBlock} {m : LoggedMutation}
variable {b : LogBlock} {pending : List (Int × Nat)}

variable (within : BlocksWithin offset blocks)
include within

theorem BlocksWithin.lt_end (hb : b ∈ blocks) (hm : m ∈ b.mutations) :
    m.offset < offset + ((blocks.map LogBlock.size).sum : Nat) := by
  induction blocks generalizing offset with
  | nil => simp at hb
  | cons c rest ih =>
    simp only [map_cons, sum_cons, Nat.cast_add]
    rcases mem_cons.mp hb with rfl | hb
    · have := within.1 m hm
      omega
    · have := ih within.2 hb
      omega

theorem BlocksWithin.append
    (last : ∀ m ∈ b.mutations,
      m.offset < offset + ((blocks.map LogBlock.size).sum : Nat) + b.size) :
    BlocksWithin offset (blocks ++ [b]) := by
  induction blocks generalizing offset with
  | nil => exact ⟨by simpa using last, trivial⟩
  | cons c rest ih =>
    refine ⟨within.1, ih within.2 fun m hm => ?_⟩
    have := last m hm
    simp only [map_cons, sum_cons, Nat.cast_add] at this
    omega

theorem BlocksWithin.dropLast : BlocksWithin offset blocks.dropLast := by
  induction blocks generalizing offset with
  | nil => trivial
  | cons c rest ih =>
    cases rest with
    | nil => trivial
    | cons d rest => exact ⟨within.1, ih within.2⟩

omit within

theorem place_lt (positive : ∀ p ∈ pending, 0 < p.2) (hm : m ∈ place offset pending) :
    m.offset < offset + ((pending.map Prod.snd).sum : Nat) := by
  induction pending generalizing offset with
  | nil => simp [place] at hm
  | cons p rest ih =>
    have hp := positive p mem_cons_self
    simp only [map_cons, sum_cons, Nat.cast_add]
    rcases mem_cons.mp hm with rfl | hm
    · change offset < _
      omega
    · have := ih (fun q hq => positive q (mem_cons_of_mem _ hq)) hm
      omega

theorem place_decree (hm : m ∈ place offset pending) : m.decree ∈ pending.map Prod.fst := by
  induction pending generalizing offset with
  | nil => simp [place] at hm
  | cons p rest ih =>
    rcases mem_cons.mp hm with rfl | hm
    · exact mem_cons_self
    · exact mem_cons_of_mem _ (ih hm)

end Blocks

/-! ### The invariant -/

/-- What holds of the memory of an open log: the highest decree in it covers the files, and the
log goes on at the end of the last file, which is the current one if there is one. -/
structure Opened (cfg : LogConfig) (s : MutationLog) : Prop where
  covered_memory : ∀ f ∈ s.files, Covers s.validStartOffset s.maxDecree f
  ends_at_last : ∀ f, s.files.getLast? = some f →
    f.dataEnd cfg = s.globalEndOffset ∧ f.index = s.lastFileIndex
  current_last : ∀ i, s.current = some i → ∃ f, s.files.getLast? = some f ∧ f.index = i
  pending_positive : ∀ pending, s.pending = some pending → ∀ p ∈ pending, 0 < p.2

/-- What holds of the log after every step: the files follow one another, the mutations of a file
lie in it, and the header of each file covers the files before it. -/
structure Recorded (cfg : LogConfig) (s : MutationLog) : Prop where
  ordered : Ordered cfg s.files
  within : ∀ f ∈ s.files, BlocksWithin (f.startOffset + cfg.fileHeaderSize) f.blocks
  covered : s.files.Pairwise fun f g => Covers s.validStartOffset g.previousMaxDecree f
  opened : s.isOpened = true → Opened cfg s

/-- A recorded log without a hole: the files are contiguous. -/
structure Consistent (cfg : LogConfig) (s : MutationLog) : Prop extends Recorded cfg s where
  contiguous : Contiguous cfg s.files

section Files

variable {cfg : LogConfig} {files : List LogFile} {f : LogFile}

theorem startOffset_le_dataEnd (cfg : LogConfig) (f : LogFile) : f.startOffset ≤ f.dataEnd cfg := by
  unfold dataEnd
  omega

theorem Ordered.pairwise (ordered : Ordered cfg files) :
    files.Pairwise fun f g => f.index < g.index ∧ f.dataEnd cfg ≤ g.startOffset := by
  have trans : IsTrans LogFile fun f g => f.index < g.index ∧ f.dataEnd cfg ≤ g.startOffset :=
    ⟨fun f g h hfg hgh => ⟨hfg.1.trans hgh.1,
      (hfg.2.trans (startOffset_le_dataEnd cfg g)).trans hgh.2⟩⟩
  refine isChain_iff_pairwise.mp (ordered.imp ?_)
  intro f g h
  exact ⟨by omega, h.2⟩

theorem lt_dataEnd (within : BlocksWithin (f.startOffset + cfg.fileHeaderSize) f.blocks)
    {m : LoggedMutation} (hm : m ∈ f.mutations) : m.offset < f.dataEnd cfg := by
  obtain ⟨b, hb, hm⟩ := mem_flatMap.mp hm
  exact within.lt_end hb hm

variable {last : LogFile} {pre : List LogFile} {last' : LogFile}

theorem Ordered.dataEnd_le_last (ordered : Ordered cfg files) (hlast : files.getLast? = some last)
    (hf : f ∈ files) :
    f.dataEnd cfg ≤ last.dataEnd cfg ∧ f.index ≤ last.index := by
  obtain ⟨pre, rfl⟩ := List.getLast?_eq_some_iff.mp hlast
  rcases mem_concat_iff.mp hf with hf | rfl
  · obtain ⟨hindex, hend⟩ := (pairwise_append.mp ordered.pairwise).2.2 f hf last (by simp)
    exact ⟨hend.trans (startOffset_le_dataEnd cfg last), hindex.le⟩
  · exact ⟨le_rfl, le_rfl⟩

theorem Ordered.map_last (ordered : Ordered cfg files) (hfiles : files = pre ++ [last])
    (change : LogFile → LogFile) :
    (files.map fun f => if f.index = last.index then change f else f) = pre ++ [change last] := by
  subst hfiles
  have hpre : pre.map (fun f => if f.index = last.index then change f else f) = pre := by
    conv_rhs => rw [← map_id pre]
    refine map_congr_left fun f hf => ?_
    have := ((pairwise_append.mp ordered.pairwise).2.2 f hf last (by simp)).1
    simp [this.ne]
  simp [hpre]

theorem isChain_replace_last {R : LogFile → LogFile → Prop} (hR : ∀ f, R f last → R f last')
    (h : (pre ++ [last]).IsChain R) :
    (pre ++ [last']).IsChain R := by
  rw [isChain_append] at h ⊢
  refine ⟨h.1, .singleton _, ?_⟩
  intro f hf g hg
  obtain rfl : last' = g := by simpa using hg
  exact hR f (h.2.2 f hf last (by simp))

theorem Ordered.replace_last (ordered : Ordered cfg (pre ++ [last]))
    (hindex : last'.index = last.index) (hstart : last'.startOffset = last.startOffset) :
    Ordered cfg (pre ++ [last']) :=
  isChain_replace_last (fun f h => by rwa [hindex, hstart]) ordered

theorem Contiguous.replace_last (contiguous : Contiguous cfg (pre ++ [last]))
    (hindex : last'.index = last.index) (hstart : last'.startOffset = last.startOffset) :
    Contiguous cfg (pre ++ [last']) :=
  isChain_replace_last (fun f h => by rwa [hindex, hstart]) contiguous

theorem Ordered.map {change : LogFile → LogFile} (ordered : Ordered cfg files)
    (hindex : ∀ f, (change f).index = f.index)
    (hstart : ∀ f, (change f).startOffset = f.startOffset)
    (hend : ∀ f, (change f).dataEnd cfg ≤ f.dataEnd cfg) : Ordered cfg (files.map change) := by
  refine isChain_map_of_isChain change ?_ ordered
  intro f g h
  rw [hindex, hindex, hstart]
  exact ⟨h.1, (hend f).trans h.2⟩

theorem Contiguous.ordered (contiguous : Contiguous cfg files) : Ordered cfg files :=
  contiguous.imp fun _ _ h => ⟨h.1, h.2.ge⟩

end Files

section Steps

variable {cfg : LogConfig} {s s' : MutationLog}

theorem le_foldl_max (decrees : List Int) (start : Int) :
    start ≤ decrees.foldl max start ∧ ∀ d ∈ decrees, d ≤ decrees.foldl max start := by
  induction decrees generalizing start with
  | nil => exact ⟨le_rfl, by simp⟩
  | cons d rest ih =>
    obtain ⟨hstart, hrest⟩ := ih (max start d)
    refine ⟨(le_max_left start d).trans hstart, ?_⟩
    exact forall_mem_cons.mpr ⟨(le_max_right _ _).trans hstart, hrest⟩

theorem Opened.files_writePendingMutations (opened : Opened cfg s) (ordered : Ordered cfg s.files)
    {index : Nat} (hcurrent : s.current = some index) (pending : List (Int × Nat)) :
    ∃ pre last, s.files = pre ++ [last] ∧ last.index = index ∧
      (s.writePendingMutations cfg index pending).files =
        pre ++ [{ last with blocks := last.blocks ++ [blockOf cfg s.globalEndOffset pending] }] := by
  obtain ⟨last, hlast, rfl⟩ := opened.current_last index hcurrent
  obtain ⟨pre, hfiles⟩ := List.getLast?_eq_some_iff.mp hlast
  exact ⟨pre, last, hfiles, rfl, ordered.map_last hfiles _⟩

variable (recorded : Recorded cfg s) (hopen : s.isOpened = true)
include recorded hopen

theorem Recorded.lt_globalEndOffset {f : LogFile} (hf : f ∈ s.files) {m : LoggedMutation}
    (hm : m ∈ f.mutations) : m.offset < s.globalEndOffset := by
  obtain ⟨last, hlast⟩ : ∃ last, s.files.getLast? = some last :=
    ⟨_, List.getLast?_eq_some_getLast (ne_nil_of_mem hf)⟩
  have hend := ((recorded.opened hopen).ends_at_last last hlast).1
  have hle := (recorded.ordered.dataEnd_le_last hlast hf).1
  have hlt := lt_dataEnd (recorded.within f hf) hm
  omega

theorem Recorded.createNewLogFile : Recorded cfg (s.createNewLogFile cfg) := by
  have opened := recorded.opened hopen
  constructor
  · refine isChain_append.mpr ⟨recorded.ordered, .singleton _, ?_⟩
    intro f hf g hg
    cases hg
    obtain ⟨hend, hindex⟩ := opened.ends_at_last f hf
    exact ⟨by rw [hindex], hend.le⟩
  · refine forall_mem_concat recorded.within ?_
    trivial
  · refine pairwise_append.mpr ⟨recorded.covered, pairwise_singleton _ _, ?_⟩
    intro f hf g hg
    rw [mem_singleton.mp hg]
    exact opened.covered_memory f hf
  · intro _
    refine ⟨?_, ?_, ?_, opened.pending_positive⟩
    · refine forall_mem_concat opened.covered_memory ?_
      intro m hm
      simp [mutations] at hm
    · intro f hf
      have : f = _ := (some.inj (List.getLast?_concat.symm.trans hf)).symm
      subst this
      exact ⟨by simp [dataEnd, MutationLog.createNewLogFile], rfl⟩
    · intro i hi
      exact ⟨_, List.getLast?_concat, some.inj hi⟩

theorem Recorded.writePendingMutations {index : Nat} (hcurrent : s.current = some index)
    {pending : List (Int × Nat)} (positive : ∀ p ∈ pending, 0 < p.2) :
    Recorded cfg (s.writePendingMutations cfg index pending) := by
  have opened := recorded.opened hopen
  obtain ⟨pre, last, hfiles, rfl, hnew⟩ :=
    opened.files_writePendingMutations recorded.ordered hcurrent pending
  obtain ⟨hend, hindex⟩ := opened.ends_at_last last (by simp [hfiles])
  set block := blockOf cfg s.globalEndOffset pending with hblock
  set last' : LogFile := { last with blocks := last.blocks ++ [block] } with hlast'
  have hmutations : last'.mutations = last.mutations ++ block.mutations := by
    simp [mutations, hlast']
  have hpre : ∀ f ∈ pre, f ∈ s.files := fun f hf => by simp [hfiles, hf]
  have hmem : last ∈ s.files := by simp [hfiles]
  -- the decrees of the block are counted before the write starts
  have hdecrees : ∀ m ∈ block.mutations, m.decree ≤
      max s.maxDecree ((pending.map Prod.fst).foldl max 0) := by
    intro m hm
    exact ((le_foldl_max _ 0).2 _ (place_decree hm)).trans (le_max_right _ _)
  constructor
  · rw [hnew]
    exact (hfiles ▸ recorded.ordered).replace_last rfl rfl
  · rw [hnew]
    refine forall_mem_concat (fun f hf => recorded.within f (hpre f hf)) ?_
    refine (recorded.within last hmem).append fun m hm => ?_
    have hlt := place_lt positive hm
    have hdata : last.startOffset + cfg.fileHeaderSize +
        ((last.blocks.map LogBlock.size).sum : Nat) = s.globalEndOffset := hend
    have hsize : (block.size : Int) = cfg.blockHeaderSize + ((pending.map Prod.snd).sum : Nat) := by
      simp [hblock, blockOf]
    omega
  · rw [hnew]
    have hcovered := recorded.covered
    rw [hfiles, pairwise_append] at hcovered
    refine pairwise_append.mpr ⟨hcovered.1, pairwise_singleton _ _, ?_⟩
    intro f hf g hg
    rw [mem_singleton.mp hg]
    exact hcovered.2.2 f hf last (by simp)
  · intro _
    constructor
    · rw [hnew]
      intro f hf m hm hvalid
      rcases mem_append.mp hf with hf | hf
      · exact (opened.covered_memory f (hpre f hf) m hm hvalid).trans (le_max_left _ _)
      · rw [mem_singleton.mp hf, hmutations] at hm
        rcases mem_append.mp hm with hm | hm
        · exact (opened.covered_memory last hmem m hm hvalid).trans (le_max_left _ _)
        · exact hdecrees m hm
    · rw [hnew]
      intro f hf
      obtain rfl := some.inj (List.getLast?_concat.symm.trans hf)
      refine ⟨?_, hindex⟩
      change last'.dataEnd cfg = s.globalEndOffset + block.size
      rw [← hend]
      simp [dataEnd, hlast']
      omega
    · rw [hnew]
      intro i hi
      exact ⟨last', List.getLast?_concat, mem_unique hcurrent hi⟩
    · intro p hp
      exact absurd hp (by simp [MutationLog.writePendingMutations])

omit hopen recorded

/-- The log with the file that a mutation is going to be appended to. -/
def readyToAppend (cfg : LogConfig) (s : MutationLog) : MutationLog :=
  if s.pending.isNone && s.needsNewFile cfg then s.createNewLogFile cfg else s

theorem readyToAppend_cases (cfg : LogConfig) (s : MutationLog) :
    s.readyToAppend cfg = s ∨ s.readyToAppend cfg = s.createNewLogFile cfg ∧ s.pending = none := by
  unfold readyToAppend
  split
  · rename_i hnew
    simp only [Bool.and_eq_true, isNone_iff_eq_none] at hnew
    exact .inr ⟨rfl, hnew.1⟩
  · exact .inl rfl

@[elab_as_elim]
theorem readyToAppend_induction {motive : MutationLog → Prop} (same : motive s)
    (new : motive (s.createNewLogFile cfg)) : motive (s.readyToAppend cfg) := by
  rcases readyToAppend_cases cfg s with h | ⟨h, _⟩ <;> rwa [h]

theorem readyToAppend_pending (cfg : LogConfig) (s : MutationLog) :
    (s.readyToAppend cfg).pending = s.pending :=
  readyToAppend_induction rfl rfl

variable {decree maxDecree reserved : Int} {size mark : Nat} {current : Option Nat}

/-- What appending does: a new pending block may first need a new file, and the mutation is written
at once if nothing is being written. -/
theorem append_cases (h : s.append cfg decree size = some s') :
    ∃ t index, s.readyToAppend cfg = t ∧ t.current = some index ∧
      (t.writing = none ∧
          s' = t.writePendingMutations cfg index (s.pending.getD [] ++ [(decree, size)]) ∨
        t.writing ≠ none ∧
          s' = { t with pending := some (s.pending.getD [] ++ [(decree, size)]) }) := by
  rw [← readyToAppend_pending cfg s]
  unfold append at h
  rw [← readyToAppend] at h
  generalize s.readyToAppend cfg = t at h ⊢
  dsimp only at h
  cases hcurrent : t.current with
  | none => simp [hcurrent] at h
  | some index =>
    refine ⟨t, index, rfl, hcurrent, ?_⟩
    cases hwriting : t.writing with
    | none =>
      simp only [hcurrent, hwriting, some.injEq] at h
      exact .inl ⟨rfl, h.symm⟩
    | some _ =>
      simp only [hcurrent, hwriting, some.injEq] at h
      exact .inr ⟨by simp, by rw [← h, hcurrent]⟩

theorem writeCompleted_cases (h : s.writeCompleted cfg = some s') :
    s.writing ≠ none ∧ (s.pending = none ∧ s' = { s with writing := none } ∨
      ∃ pending index, s.pending = some pending ∧ s.current = some index ∧
        s' = s.writePendingMutations cfg index pending) := by
  unfold writeCompleted at h
  cases hwriting : s.writing with
  | none => simp [hwriting] at h
  | some _ =>
    refine ⟨by simp, ?_⟩
    cases hpending : s.pending with
    | none =>
      simp only [hwriting, hpending, some.injEq] at h
      exact .inl ⟨rfl, h.symm⟩
    | some pending =>
      cases hcurrent : s.current with
      | none => simp [hwriting, hpending, hcurrent] at h
      | some index =>
        simp only [hwriting, hpending, hcurrent, some.injEq] at h
        exact .inr ⟨pending, index, rfl, rfl, h.symm⟩

theorem close_cases (cfg : LogConfig) (s : MutationLog) : s.close cfg = s.initStates ∨
    ∃ pending index, s.pending = some pending ∧ s.current = some index ∧
      s.close cfg = (s.writePendingMutations cfg index pending).initStates := by
  unfold close
  cases hpending : s.pending with
  | none => exact .inl rfl
  | some pending =>
    cases hcurrent : s.current with
    | none => exact .inl rfl
    | some index => exact .inr ⟨pending, index, rfl, rfl, rfl⟩

theorem Opened.pending_getD (opened : Opened cfg s) (decree : Int) (hsize : 0 < size) :
    ∀ p ∈ s.pending.getD [] ++ [(decree, size)], 0 < p.2 := by
  intro p hp
  rcases mem_concat_iff.mp hp with hp | rfl
  · cases hold : s.pending with
    | none => simp [hold] at hp
    | some pending =>
      rw [hold] at hp
      exact opened.pending_positive pending hold p hp
  · exact hsize

variable (recorded : Recorded cfg s) (hopen : s.isOpened = true)
include recorded hopen

theorem Recorded.readyToAppend :
    Recorded cfg (s.readyToAppend cfg) ∧ (s.readyToAppend cfg).isOpened = true :=
  readyToAppend_induction ⟨recorded, hopen⟩ ⟨recorded.createNewLogFile hopen, hopen⟩

theorem Recorded.append (hsize : 0 < size) (happend : s.append cfg decree size = some s') :
    Recorded cfg s' := by
  obtain ⟨t, index, rfl, hcurrent, hs'⟩ := append_cases happend
  have hpositive := (recorded.opened hopen).pending_getD decree hsize
  obtain ⟨hrecorded, hopen'⟩ := recorded.readyToAppend hopen
  have opened := hrecorded.opened hopen'
  rcases hs' with ⟨_, rfl⟩ | ⟨_, rfl⟩
  · exact hrecorded.writePendingMutations hopen' hcurrent hpositive
  · refine ⟨hrecorded.ordered, hrecorded.within, hrecorded.covered, fun _ => ?_⟩
    refine ⟨opened.covered_memory, opened.ends_at_last, opened.current_last, ?_⟩
    intro pending hpending p hp
    cases hpending
    exact hpositive p hp

theorem Recorded.writeCompleted (hcompleted : s.writeCompleted cfg = some s') :
    Recorded cfg s' := by
  have opened := recorded.opened hopen
  rcases (writeCompleted_cases hcompleted).2 with ⟨_, rfl⟩ | ⟨pending, index, hpending, hcurrent, rfl⟩
  · exact ⟨recorded.ordered, recorded.within, recorded.covered,
      fun _ => ⟨opened.covered_memory, opened.ends_at_last, opened.current_last,
        opened.pending_positive⟩⟩
  · exact recorded.writePendingMutations hopen hcurrent (opened.pending_positive pending hpending)

theorem Recorded.onPartitionReset (decree : Int) : Recorded cfg (s.onPartitionReset decree) := by
  have opened := recorded.opened hopen
  have hinvalid : ∀ f ∈ s.files, ∀ d, Covers s.globalEndOffset d f := by
    intro f hf d m hm hvalid
    have := recorded.lt_globalEndOffset hopen hf hm
    omega
  refine ⟨recorded.ordered, recorded.within, ?_, fun _ => ?_⟩
  · exact pairwise_of_forall_mem_list fun f hf g _ => hinvalid f hf g.previousMaxDecree
  · exact ⟨fun f hf => hinvalid f hf decree, opened.ends_at_last, opened.current_last,
      opened.pending_positive⟩

omit hopen in
theorem Recorded.initStates : Recorded cfg s.initStates :=
  ⟨recorded.ordered, recorded.within, recorded.covered, fun h => by cases h⟩

theorem Recorded.close : Recorded cfg (s.close cfg) := by
  have opened := recorded.opened hopen
  rcases close_cases cfg s with hclose | ⟨pending, index, hpending, hcurrent, hclose⟩
  · rw [hclose]
    exact recorded.initStates
  · rw [hclose]
    exact (recorded.writePendingMutations hopen hcurrent
      (opened.pending_positive pending hpending)).initStates

omit hopen

theorem Recorded.dropLast : Recorded cfg { s with files := s.files.dropLast }.initStates := by
  have hsub := dropLast_sublist s.files
  exact ⟨recorded.ordered.dropLast, fun f hf => recorded.within f (hsub.subset hf),
    recorded.covered.sublist hsub, fun h => by cases h⟩

omit recorded

def loseLastBlock (index torn : Nat) (f : LogFile) : LogFile :=
  if f.index = index then { f with blocks := f.blocks.dropLast, torn := torn } else f

section LoseLastBlock

variable (index torn : Nat) (f : LogFile)

@[simp]
theorem loseLastBlock_index : (loseLastBlock index torn f).index = f.index := by
  unfold loseLastBlock
  split <;> rfl

@[simp]
theorem loseLastBlock_startOffset : (loseLastBlock index torn f).startOffset = f.startOffset := by
  unfold loseLastBlock
  split <;> rfl

@[simp]
theorem loseLastBlock_previousMaxDecree :
    (loseLastBlock index torn f).previousMaxDecree = f.previousMaxDecree := by
  unfold loseLastBlock
  split <;> rfl

theorem loseLastBlock_blocks : (loseLastBlock index torn f).blocks = f.blocks ∨
    (loseLastBlock index torn f).blocks = f.blocks.dropLast := by
  unfold loseLastBlock
  split
  · exact .inr rfl
  · exact .inl rfl

theorem blocks_loseLastBlock_sublist : (loseLastBlock index torn f).blocks.Sublist f.blocks := by
  rcases loseLastBlock_blocks index torn f with h | h
  · rw [h]
  · rw [h]
    exact dropLast_sublist _

theorem dataEnd_loseLastBlock_le (cfg : LogConfig) :
    (loseLastBlock index torn f).dataEnd cfg ≤ f.dataEnd cfg := by
  have hsum := ((blocks_loseLastBlock_sublist index torn f).map LogBlock.size).sum_le_sum
    (fun _ _ => Nat.zero_le _)
  simp only [dataEnd, loseLastBlock_startOffset]
  omega

theorem Covers.loseLastBlock {f : LogFile} {start decree : Int} (covers : Covers start decree f) :
    Covers start decree (loseLastBlock index torn f) := by
  intro m hm
  obtain ⟨b, hb, hm⟩ := mem_flatMap.mp hm
  have hb := (blocks_loseLastBlock_sublist index torn f).subset hb
  exact covers m (mem_flatMap.mpr ⟨b, hb, hm⟩)

end LoseLastBlock

variable (recorded : Recorded cfg s)
include recorded

theorem Recorded.loseBlock (torn : Nat) :
    Recorded cfg { s with files := s.loseBlock torn }.initStates := by
  cases hw : s.writing with
  | none =>
    have hfiles : s.loseBlock torn = s.files := by simp [MutationLog.loseBlock, hw]
    rw [hfiles]
    exact recorded.initStates
  | some i =>
    have hfiles : s.loseBlock torn = s.files.map (loseLastBlock i torn) := by
      simp only [MutationLog.loseBlock, hw]
      rfl
    rw [hfiles]
    refine ⟨?_, ?_, ?_, fun h => by cases h⟩
    · exact recorded.ordered.map (loseLastBlock_index i torn) (loseLastBlock_startOffset i torn)
        fun f => dataEnd_loseLastBlock_le i torn f cfg
    · intro f hf
      obtain ⟨f, hmem, rfl⟩ := mem_map.mp hf
      rw [loseLastBlock_startOffset]
      rcases loseLastBlock_blocks i torn f with h | h
      · rw [h]
        exact recorded.within f hmem
      · rw [h]
        exact (recorded.within f hmem).dropLast
    · refine pairwise_map.mpr (recorded.covered.imp fun {f g} covers => ?_)
      rw [loseLastBlock_previousMaxDecree]
      exact covers.loseLastBlock i torn

theorem Recorded.crash (loss : CrashLoss) : Recorded cfg (s.crash loss) := by
  set files := if loss.block then s.loseBlock loss.torn else s.files with hfiles
  have hlost : Recorded cfg { s with files := files }.initStates := by
    rw [hfiles]
    split
    · exact recorded.loseBlock loss.torn
    · exact recorded.initStates
  change Recorded cfg
    { s with files := if loss.header then loseHeader files else files }.initStates
  cases loss.header with
  | false => exact hlost
  | true =>
    change Recorded cfg { s with files := loseHeader files }.initStates
    unfold loseHeader
    split
    · exact hlost.dropLast
    · exact hlost

/-! ### Collection -/

variable {args : GcArgs} {view : GcView} {files : List LogFile} {f : LogFile}

omit recorded in
/-- **What the loop of `garbage_collection` marks**: a file that is not the current one and ends
before the valid start offset, or for which a cleanable decree is found in the header of the next
file, or in memory if it is the latest one. -/
theorem gcMark_cases (hmark : gcMark cfg args view current files maxDecree reserved = some mark) :
    ∃ newer f older, files = newer ++ f :: older ∧ f.index = mark ∧ current ≠ some mark ∧
      (f.endOffset cfg ≤ args.validStartOffset ∨
        (newer.getLast?.map previousMaxDecree).getD maxDecree ≤ args.cleanableDecree) := by
  induction files generalizing maxDecree reserved with
  | nil => simp [gcMark] at hmark
  | cons f older ih =>
    -- whatever keeps the file, the loop goes on with the decree in its header
    have hnext : ∀ reserved,
        gcMark cfg args view current older f.previousMaxDecree reserved = some mark →
        ∃ newer g rest, f :: older = newer ++ g :: rest ∧ g.index = mark ∧
          current ≠ some mark ∧ (g.endOffset cfg ≤ args.validStartOffset ∨
            (newer.getLast?.map previousMaxDecree).getD maxDecree ≤
              args.cleanableDecree) := by
      intro reserved hmark
      obtain ⟨newer, g, rest, holder, hindex, hcurrent, hdelete⟩ := ih hmark
      refine ⟨f :: newer, g, rest, by rw [holder, cons_append], hindex, hcurrent, ?_⟩
      cases hlast : newer.getLast? with
      | none | some g => simpa [List.getLast?_cons, hlast] using hdelete
    simp only [gcMark] at hmark
    split at hmark
    · exact hnext _ hmark
    · rename_i hcurrent
      split at hmark
      · exact hnext _ hmark
      · split at hmark
        · rename_i hdelete
          cases hmark
          exact ⟨[], f, older, rfl, rfl, hcurrent, hdelete⟩
        · exact hnext _ hmark

omit recorded in
/-- If the decree in memory covers the files and every header those before it, the marked file and
those before it hold nothing that is needed. -/
theorem gcMark_covered {start : Int}
    (covered : files.Pairwise fun g f => Covers start g.previousMaxDecree f)
    (hmax : ∀ f ∈ files, Covers start maxDecree f)
    (hmark : gcMark cfg args view current files maxDecree reserved = some mark) :
    ∃ newer f older, files = newer ++ f :: older ∧ f.index = mark ∧ current ≠ some mark ∧
      (f.endOffset cfg ≤ args.validStartOffset ∨
        ∀ g ∈ f :: older, Covers start args.cleanableDecree g) := by
  obtain ⟨newer, f, older, rfl, hindex, hcurrent, hdelete⟩ := gcMark_cases hmark
  refine ⟨newer, f, older, rfl, hindex, hcurrent, hdelete.imp_right fun hclean => ?_⟩
  intro g hg m hm hvalid
  refine le_trans ?_ hclean
  cases hlast : newer.getLast? with
  | none => exact hmax g (mem_append_right _ hg) m hm hvalid
  | some next =>
    have hnext := mem_of_getLast? hlast
    exact (pairwise_append.mp covered).2.2 next hnext g hg m hm hvalid

variable (hopen : s.isOpened = true)
include hopen

theorem Recorded.gcDeleted_mark (hf : f ∈ gcDeleted cfg args view s) :
    f ∈ s.files ∧ ∃ g ∈ s.files, f.index ≤ g.index ∧ f.dataEnd cfg ≤ g.dataEnd cfg ∧
      s.current ≠ some g.index ∧ (g.endOffset cfg ≤ args.validStartOffset ∨
        Covers s.validStartOffset args.cleanableDecree f) := by
  have opened := recorded.opened hopen
  unfold gcDeleted at hf
  split at hf
  · simp at hf
  split at hf
  · simp at hf
  rename_i mark hmark
  have hf := mem_of_mem_take hf
  have hmem : f ∈ s.files := (List.takeWhile_prefix _).subset hf
  have hle : f.index ≤ mark := by simpa using mem_takeWhile_imp hf
  obtain ⟨newer, g, older, hfiles, rfl, hcurrent, hcovered⟩ :=
    gcMark_covered (pairwise_reverse.mpr recorded.covered)
      (fun f hf => opened.covered_memory f (mem_reverse.mp hf)) hmark
  -- the files up to the marked one are those with an index up to its index
  have hpairwise := pairwise_reverse.mpr recorded.ordered.pairwise
  rw [hfiles] at hpairwise
  have hbefore : f ∈ g :: older := by
    have hrev : f ∈ newer ++ g :: older := hfiles ▸ mem_reverse.mpr hmem
    rcases mem_append.mp hrev with hnew | hold
    · have := (pairwise_append.mp hpairwise).2.2 f hnew g (by simp)
      omega
    · exact hold
  have hend : f.dataEnd cfg ≤ g.dataEnd cfg := by
    rcases mem_cons.mp hbefore with rfl | hold
    · exact le_rfl
    · have := (pairwise_cons.mp (pairwise_append.mp hpairwise).2.1).1 f hold
      exact this.2.trans (startOffset_le_dataEnd cfg g)
  exact ⟨hmem, g, mem_reverse.mp (hfiles ▸ by simp), hle, hend, hcurrent,
    hcovered.imp_right fun hclean => hclean f hbefore⟩

theorem Recorded.gcDeleted_not_current (hf : f ∈ gcDeleted cfg args view s) :
    s.current ≠ some f.index := by
  obtain ⟨_, g, hg, hle, _, hcurrent, _⟩ := recorded.gcDeleted_mark hopen hf
  intro hcur
  obtain ⟨last, hlast, hindex⟩ := (recorded.opened hopen).current_last _ hcur
  have hlast' := (recorded.ordered.dataEnd_le_last hlast hg).2
  exact hcurrent (by rw [hcur]; congr 1; omega)

/-- What a collection may delete: in a log whose numbers cover the files, and given the offset
of the last reset, or a decree at which everything before that offset is cleanable. -/
theorem Recorded.gcDeleted_covered (hstart : args.validStartOffset = s.validStartOffset ∨
      ∀ f ∈ s.files, ∀ m ∈ f.mutations, m.offset < s.validStartOffset →
        args.validStartOffset ≤ m.offset → m.decree ≤ args.cleanableDecree)
    (hf : f ∈ gcDeleted cfg args view s) : Covers args.validStartOffset args.cleanableDecree f := by
  obtain ⟨hmem, g, hg, _, hfg, _, hcovered⟩ := recorded.gcDeleted_mark hopen hf
  intro m hm hvalid
  rcases hcovered with hend | hclean
  · -- the file ends before the offset, and so does the mutation
    exfalso
    have hlt := lt_dataEnd (recorded.within f hmem) hm
    unfold endOffset at hend
    omega
  · by_cases hreset : s.validStartOffset ≤ m.offset
    · exact hclean m hm hreset
    · rcases hstart with hstart | hstart
      · omega
      · exact hstart f hmem m hm (by omega) hvalid

omit hopen recorded in
theorem gcDeleted_append (cfg : LogConfig) (args : GcArgs) (view : GcView) (s : MutationLog) :
    gcDeleted cfg args view s ++ (s.garbageCollection cfg args view).files = s.files := by
  have hprefix : gcDeleted cfg args view s <+: s.files := by
    unfold gcDeleted
    split
    · exact nil_prefix
    · split
      · exact nil_prefix
      · exact (List.take_prefix _ _).trans (List.takeWhile_prefix _)
  exact (prefix_append_drop hprefix).symm

theorem Recorded.garbageCollection (args : GcArgs) (view : GcView) :
    Recorded cfg (s.garbageCollection cfg args view) := by
  have opened := recorded.opened hopen
  have happend := gcDeleted_append cfg args view s
  set rest := (s.garbageCollection cfg args view).files with hrest
  have hsuffix : rest <:+ s.files := ⟨_, happend⟩
  refine ⟨recorded.ordered.suffix hsuffix, ?_, recorded.covered.sublist hsuffix.sublist,
    fun _ => ⟨?_, ?_, ?_, opened.pending_positive⟩⟩
  · exact fun f hf => recorded.within f (hsuffix.subset hf)
  · exact fun f hf => opened.covered_memory f (hsuffix.subset hf)
  · intro f hf
    refine opened.ends_at_last f ?_
    rw [← happend, List.getLast?_append, hf]
    rfl
  · intro i hi
    obtain ⟨last, hlast, hindex⟩ := opened.current_last i hi
    refine ⟨last, ?_, hindex⟩
    rw [← happend, List.getLast?_append] at hlast
    cases hr : rest.getLast? with
    | some f =>
      rw [hr] at hlast
      exact hlast
    | none =>
      -- only deleted files are left, so the last one, the current one, would be deleted
      rw [hr, none_or] at hlast
      have := recorded.gcDeleted_not_current hopen (mem_of_getLast? hlast)
      rw [hindex] at this
      exact absurd hi this

omit hopen recorded

/-! ### Opening -/

theorem replayEnd_eq_some {endOffset : Int} {last : LogFile}
    (hreplay : replayEnd cfg files = some endOffset) (hlast : files.getLast? = some last) :
    last.dataEnd cfg = endOffset := by
  induction files using replayEnd.induct cfg with
  | case1 => simp at hlast
  | case2 f =>
    cases hlast
    exact some.inj hreplay
  | case3 f g rest hnext ih =>
    rw [replayEnd, if_pos hnext] at hreplay
    exact ih hreplay (by simpa using hlast)
  | case4 f g rest hnext =>
    rw [replayEnd, if_neg hnext] at hreplay
    cases hreplay

/-- The files that are replayed are the last ones, and the last file is always one of them. -/
theorem getLast?_replayedFiles (condition : Option Int) (files : List LogFile) :
    (replayedFiles condition files).getLast? = files.getLast? := by
  unfold replayedFiles
  split
  · rfl
  · rename_i decree
    cases files with
    | nil => rfl
    | cons f rest =>
      rw [List.getLast?_drop, if_neg]
      have := (List.takeWhile_prefix (l := f :: rest)
        fun g => decide (g.previousMaxDecree ≤ decree)).length_le
      simp only [length_cons] at this ⊢
      omega

/-- Opening the log forgets nothing: every valid mutation of the files that it skips is matched
by one of at least its decree in the files that it replays. -/
def ReplayCovers (s : MutationLog) (condition : Option Int) : Prop :=
  ∀ f ∈ s.files, ∀ m ∈ f.mutations, s.validStartOffset ≤ m.offset →
    m.decree ≤ 0 ∨ ∃ g ∈ replayedFiles condition s.files, ∃ m' ∈ g.mutations,
      s.validStartOffset ≤ m'.offset ∧ m.decree ≤ m'.decree

theorem Recorded.openLog (recorded : Recorded cfg s) {condition : Option Int}
    (hcovers : s.ReplayCovers condition) (hopenLog : s.openLog cfg condition = some s') :
    Recorded cfg s' := by
  obtain ⟨endOffset, hreplay, rfl⟩ := map_eq_some_iff.mp hopenLog
  refine ⟨recorded.ordered, recorded.within, recorded.covered, fun _ => ⟨?_, ?_, ?_, ?_⟩⟩
  · intro f hf m hm hvalid
    obtain ⟨hstart, hall⟩ := le_foldl_max ((((replayedFiles condition s.files).flatMap
      mutations).filter fun m => s.validStartOffset ≤ m.offset).map LoggedMutation.decree) 0
    rcases hcovers f hf m hm hvalid with hzero | ⟨g, hg, m', hm', hvalid', hle⟩
    · exact hzero.trans hstart
    · have hmem := mem_flatMap.mpr ⟨g, hg, hm'⟩
      exact hle.trans (hall _ (mem_map_of_mem (mem_filter.mpr ⟨hmem, by simpa using hvalid'⟩)))
  · intro f hf
    refine ⟨replayEnd_eq_some hreplay ((getLast?_replayedFiles condition s.files).trans hf), ?_⟩
    change f.index = (s.files.getLast?.map index).getD 0
    have hf : s.files.getLast? = some f := hf
    rw [hf]
    rfl
  · intro i hi
    cases hi
  · intro p hp
    cases hp

end Steps

/-! ### Runs -/

/-- When a step is harmless.

- A crash that loses the block being written does not lose one in a file that is followed by
  another.
- The log is opened with a replay condition that does not skip the highest decrees.
- A collection that is given another offset than that of the last reset finds everything before
  that offset cleanable. -/
def Harmless (s : MutationLog) : LogEvent → Prop
  | .crash loss => loss.block = true → ∀ i, s.writing = some i →
      s.files.getLast?.map LogFile.index = some i
  | .openLog condition => s.ReplayCovers condition
  | .garbageCollection args _ => args.validStartOffset = s.validStartOffset ∨
      ∀ f ∈ s.files, ∀ m ∈ f.mutations, m.offset < s.validStartOffset →
        args.validStartOffset ≤ m.offset → m.decree ≤ args.cleanableDecree
  | _ => True

variable {cfg : LogConfig} {s s' : MutationLog} {e : LogEvent}

/-- **One step keeps the log recorded**, whatever a crash loses and whatever is collected, if
opening the log forgets no decree. -/
theorem Recorded.step (recorded : Recorded cfg s) (hstep : step cfg s e = some s')
    (hcovers : ∀ condition, e = .openLog condition → s.ReplayCovers condition) :
    Recorded cfg s' := by
  cases stepped_of_step hstep with
  | append decree size hopen hsize happend => exact recorded.append hopen hsize happend
  | writeCompleted hopen hcompleted => exact recorded.writeCompleted hopen hcompleted
  | hintSwitchFile hopen | demandSwitchFile hopen =>
    have opened := recorded.opened hopen
    exact ⟨recorded.ordered, recorded.within, recorded.covered,
      fun _ => ⟨opened.covered_memory, opened.ends_at_last, opened.current_last,
        opened.pending_positive⟩⟩
  | onPartitionReset decree hopen => exact recorded.onPartitionReset hopen decree
  | garbageCollection args view hopen hvalid => exact recorded.garbageCollection hopen args view
  | close hopen => exact recorded.close hopen
  | crash loss hopen => exact recorded.crash loss
  | openLog condition hclosed hlog => exact recorded.openLog (hcovers condition rfl) hlog

section Contiguity

variable (contiguous : Contiguous cfg s.files)
include contiguous

theorem Contiguous.createNewLogFile (opened : Opened cfg s) :
    Contiguous cfg (s.createNewLogFile cfg).files := by
  refine isChain_append.mpr ⟨contiguous, .singleton _, ?_⟩
  intro f hf g hg
  cases hg
  obtain ⟨hend, hindex⟩ := opened.ends_at_last f hf
  exact ⟨by rw [hindex], hend.symm⟩

theorem Contiguous.writePendingMutations (opened : Opened cfg s) {index : Nat}
    (hcurrent : s.current = some index) (pending : List (Int × Nat)) :
    Contiguous cfg (s.writePendingMutations cfg index pending).files := by
  obtain ⟨pre, last, hfiles, -, hnew⟩ :=
    opened.files_writePendingMutations contiguous.ordered hcurrent pending
  rw [hnew]
  exact (hfiles ▸ contiguous).replace_last rfl rfl

theorem Contiguous.append (recorded : Recorded cfg s) (hopen : s.isOpened = true) {decree : Int}
    {size : Nat} (happend : s.append cfg decree size = some s') : Contiguous cfg s'.files := by
  obtain ⟨t, index, rfl, hcurrent, hs'⟩ := append_cases happend
  have hready : Contiguous cfg (s.readyToAppend cfg).files :=
    readyToAppend_induction contiguous (contiguous.createNewLogFile (recorded.opened hopen))
  obtain ⟨hrecorded, hopen'⟩ := recorded.readyToAppend hopen
  rcases hs' with ⟨_, rfl⟩ | ⟨_, rfl⟩
  · exact hready.writePendingMutations (hrecorded.opened hopen') hcurrent _
  · exact hready

theorem Contiguous.crash (loss : CrashLoss)
    (hwriting : loss.block = true → ∀ i, s.writing = some i →
      s.files.getLast?.map index = some i) : Contiguous cfg (s.crash loss).files := by
  set files := if loss.block then s.loseBlock loss.torn else s.files with hfiles
  have hlost : Contiguous cfg files := by
    rw [hfiles]
    split
    · rename_i hblock
      unfold loseBlock
      split
      · exact contiguous
      · rename_i i hw
        obtain ⟨last, hlast, rfl⟩ := map_eq_some_iff.mp (hwriting hblock i hw)
        obtain ⟨pre, hpre⟩ := List.getLast?_eq_some_iff.mp hlast
        have hmap := contiguous.ordered.map_last hpre fun f =>
          { f with blocks := f.blocks.dropLast, torn := loss.torn }
        rw [hmap]
        exact (hpre ▸ contiguous).replace_last rfl rfl
    · exact contiguous
  change Contiguous cfg (if loss.header then loseHeader files else files)
  cases loss.header with
  | false => exact hlost
  | true =>
    change Contiguous cfg (loseHeader files)
    unfold loseHeader
    split
    · exact hlost.dropLast
    · exact hlost

end Contiguity

/-- **One step keeps the log consistent**, and deletes nothing that is needed. -/
theorem Consistent.step (consistent : Consistent cfg s)
    (hstep : step cfg s e = some s') (harmless : s.Harmless e) :
    Consistent cfg s' ∧ KeepsNeeded s e s' := by
  have contiguous := consistent.contiguous
  have recorded : Recorded cfg s' := consistent.toRecorded.step hstep
    (by rintro condition rfl; exact harmless)
  cases stepped_of_step hstep with
  | append decree size hopen hsize happend =>
    exact ⟨⟨recorded, contiguous.append consistent.toRecorded hopen happend⟩, trivial⟩
  | writeCompleted hopen hcompleted =>
    refine ⟨⟨recorded, ?_⟩, trivial⟩
    rcases (writeCompleted_cases hcompleted).2 with ⟨_, rfl⟩ | ⟨pending, index, _, hcurrent, rfl⟩
    · exact contiguous
    · exact contiguous.writePendingMutations (consistent.opened hopen) hcurrent pending
  | hintSwitchFile | demandSwitchFile | onPartitionReset decree =>
    exact ⟨⟨recorded, contiguous⟩, trivial⟩
  | garbageCollection args view hopen hvalid =>
    have happend := gcDeleted_append cfg args view s
    refine ⟨⟨recorded, contiguous.suffix ⟨_, happend⟩⟩, ?_⟩
    intro f hf hgone
    rw [← happend] at hf
    have hdeleted := (mem_append.mp hf).resolve_right hgone
    exact ⟨consistent.toRecorded.gcDeleted_not_current hopen hdeleted,
      consistent.toRecorded.gcDeleted_covered hopen harmless hdeleted⟩
  | close hopen =>
    refine ⟨⟨recorded, ?_⟩, trivial⟩
    rcases close_cases cfg s with hclose | ⟨pending, index, _, hcurrent, hclose⟩
    · rw [hclose]
      exact contiguous
    · rw [hclose]
      exact contiguous.writePendingMutations (consistent.opened hopen) hcurrent pending
  | crash loss => exact ⟨⟨recorded, contiguous.crash loss harmless⟩, trivial⟩
  | openLog condition hclosed hlog =>
    obtain ⟨endOffset, _, rfl⟩ := map_eq_some_iff.mp hlog
    exact ⟨⟨recorded, contiguous⟩, trivial⟩

theorem consistent_init : Consistent cfg {} := ⟨⟨.nil, by simp, .nil, fun h => by cases h⟩, .nil⟩

/-- **A collection keeps every needed mutation.** Along every run of harmless steps from an empty
log, no step deletes the current file or a file with a mutation that is not before the given
offset and not cleanable, and the files stay contiguous. -/
theorem gc_keeps_needed {events : List LogEvent} {e : LogEvent} {s s' : MutationLog}
    (hrun : run (MutationLog.step cfg) {} events = some s)
    (hharmless : StepsMeet (MutationLog.step cfg) Harmless {} events)
    (hstep : MutationLog.step cfg s e = some s') (hlast : s.Harmless e) :
    KeepsNeeded s e s' ∧ Contiguous cfg s'.files := by
  have consistent : Consistent cfg s :=
    run_invariant_of_steps
      (fun _ _ _ hstep hmeet consistent => (consistent.step hstep hmeet).1)
      hrun hharmless consistent_init
  obtain ⟨hconsistent, hkeeps⟩ := consistent.step hstep hlast
  exact ⟨hkeeps, hconsistent.contiguous⟩

/-- Headers of 10 bytes, and files that are only switched on demand. -/
def smallConfig : LogConfig where
  fileHeaderSize := 10
  blockHeaderSize := 2
  maxLogFileSize := 1000

/-- A log of decrees 1 and 2 whose next block went to a new file. -/
def switchedRun : List LogEvent :=
  [.openLog none, .append 1 5, .writeCompleted, .append 2 5, .writeCompleted, .demandSwitchFile,
    .append 3 5]

/-- Everything is kept but the mutations that are cleanable. -/
def collectUpTo (decree : Int) : LogEvent :=
  .garbageCollection ⟨decree, 0, 0, 0⟩ { removable := 10 }

/-- Once decrees 1 and 2 are cleanable, their file goes and the current one stays. -/
theorem gc_keeps_needed_after_switch :
    ∃ s s', run (MutationLog.step smallConfig) {} switchedRun = some s ∧
      MutationLog.step smallConfig s (collectUpTo 2) = some s' ∧
      s'.files.map LogFile.index = [2] ∧
      KeepsNeeded s (collectUpTo 2) s' ∧ Contiguous smallConfig s'.files := by
  have hharmless : StepsMeet (MutationLog.step smallConfig) Harmless {}
      switchedRun := by
    refine ⟨fun f hf => absurd hf (by simp), fun _ _ => ⟨trivial, fun _ _ => ⟨trivial, fun _ _ => ?_⟩⟩⟩
    exact ⟨trivial, fun _ _ => ⟨trivial, fun _ _ => ⟨trivial, fun _ _ => ⟨trivial,
      fun _ _ => trivial⟩⟩⟩⟩
  exact ⟨_, _, rfl, rfl, rfl, gc_keeps_needed rfl hharmless rfl (.inl rfl)⟩

/-- A crash loses the first block of a new file and leaves its header. The log is opened for a
replica that has decree 2 in its checkpoint, so only the new file is replayed and no decree is
found in it: the collection believes that the files hold nothing above decree 0, and deletes
decree 2 although only decree 1 is cleanable. -/
theorem gc_deletes_skipped_decrees :
    ∃ s s', run (MutationLog.step smallConfig) {}
        (switchedRun ++ [.crash { block := true }, .openLog (some 2)]) = some s ∧
      MutationLog.step smallConfig s (collectUpTo 1) = some s' ∧
      ¬ KeepsNeeded s (collectUpTo 1) s' := by
  refine ⟨_, _, rfl, rfl, ?_⟩
  intro hkeeps
  have hcovers := (hkeeps
    { index := 1, startOffset := 0, previousMaxDecree := 0,
      blocks := [⟨7, [⟨1, 12⟩]⟩, ⟨7, [⟨2, 19⟩]⟩] } (by decide) (by decide)).2
  exact absurd (hcovers ⟨2, 19⟩ (by decide) (by decide)) (by decide)

end MutationLog

end Pegasus.Replica
