/-
What a quiet log announces is handed over.

- `Toward`: a duplication that reads a log nobody writes to and that can be read to its end;
- `duplication_without_gap`: the main result;
- `skipped_file_is_forgotten`: a log that was opened with a replay condition may hide decrees.
-/

import Pegasus.Duplication.WithoutGap

namespace Pegasus.Duplication

open TransitionSystem hiding run
open Session Loader Replica Replica.MutationLog Replica.PrepareList List Option

variable {P W : Type}

/-! ### Getting to the end of a quiet log -/

/-- The reads of whole files: their blocks with that of the header, and their end. -/
def readsOf (files : List LogFile) : Nat := (files.map fun f => f.blocks.length + 2).sum

/-- The reads from block `k` of the file with an index to the end of the log. -/
def readsFrom (index k : Nat) : List LogFile → Nat
  | [] => 0
  | f :: newer =>
    if f.index = index then f.blocks.length + 2 - k + readsOf newer else readsFrom index k newer

theorem readsOf_cons (f : LogFile) (files : List LogFile) :
    readsOf (f :: files) = f.blocks.length + 2 + readsOf files := by
  simp [readsOf]

theorem readsFrom_eq {files before after : List LogFile} {f : LogFile}
    (hchain : files.IsChain fun f g => g.index = f.index + 1)
    (hfiles : files = before ++ f :: after) (k : Nat) :
    readsFrom f.index k files = f.blocks.length + 2 - k + readsOf after := by
  have hpairwise := index_lt_of_chain hchain
  rw [hfiles] at hpairwise
  subst hfiles
  clear hchain
  induction before with
  | nil => simp [readsFrom]
  | cons g before ih =>
    obtain ⟨hg, hpairwise⟩ := pairwise_cons.mp hpairwise
    have hlt := hg f (by simp)
    rw [cons_append, readsFrom, if_neg (by omega)]
    exact ih hpairwise

theorem readsFrom_le (index : Nat) (files : List LogFile) :
    readsFrom index 0 files ≤ readsOf files := by
  induction files with
  | nil => exact Nat.le_refl _
  | cons f newer ih =>
    rw [readsFrom, readsOf_cons]
    split <;> omega

/-- Loader steps without an error, while the replica has applied `target`. -/
def DupEvent.Clean (target : Int) : DupEvent → Prop
  | .plog _ => False
  | .load available => target ≤ available
  | .run ctx => ctx.opens = true ∧ ctx.outcome ≠ .error
  | .shipped => True

namespace Session

variable {cfg : LogConfig} {contents : Contents P W} {confirmed target : Int}
  {frontier : List LoggedMutation} {s s' : Session P W}

/-- The reads of a loader to the end of the log. Where it reads a collected file, it may have to
start anew. -/
def readsLeft (s : Session P W) : Nat :=
  match s.loader.current with
  | none => readsOf s.allFiles + 1
  | some (index, k) =>
    if s.plog.log.files.any fun f => f.index == index then readsFrom index k s.allFiles
    else readsFrom index k s.allFiles + (readsOf s.allFiles + 1)

/-- A bound on the steps until `target` is handed over. -/
def rank (target : Int) (s : Session P W) : Nat :=
  match s.loader.stage with
  | .read => 3 * s.readsLeft
  | .load => 3 * s.readsLeft + 1
  | .ship lastDecree => if target ≤ lastDecree then 1 else 3 * s.readsLeft + 2

/-- A log that nobody writes to and that can be read to its end. -/
structure Quiet (contents : Contents P W) (confirmed : Int) (s : Session P W) : Prop where
  idle : s.plog.log.writing = none
  intact : ∀ f ∈ s.allFiles, f.torn = 0
  ballots : contents.BallotsFollow confirmed (s.allFiles.flatMap LogFile.mutations)

def Announces (contents : Contents P W) (target : Int) (s : Session P W) : Prop :=
  ∃ before m after, s.allFiles.flatMap LogFile.mutations = before ++ m :: after ∧
    contents.FreshAfter before m ∧ target ≤ (contents.mutation m).header.lastCommittedDecree

theorem replayLogBlock_files {ctx : ReadContext} {f : LogFile} {k : Nat}
    (hreplay : s.replayLogBlock contents ctx f k = some s') :
    s'.plog = s.plog ∧ s'.collected = s.collected := by
  unfold replayLogBlock at hreplay
  split at hreplay
  · cases hreplay
    exact ⟨rfl, rfl⟩
  · obtain ⟨-, rfl⟩ := of_guard hreplay
    exact ⟨rfl, rfl⟩
  · simp only [bind_eq_bind, bind_eq_some_iff, some.injEq] at hreplay
    obtain ⟨_, _, _, _, rfl⟩ := hreplay
    exact ⟨rfl, rfl⟩

variable {e : DupEvent}

theorem step_files (hclean : e.Clean target) (hstep : step cfg contents s e = some s') :
    s'.plog = s.plog ∧ s'.collected = s.collected := by
  cases e with
  | plog e => exact hclean.elim
  | load available =>
    obtain ⟨-, rfl⟩ := of_guard hstep
    exact ⟨rfl, rfl⟩
  | run ctx =>
    obtain ⟨-, hstep⟩ := ite_none_right_eq_some.mp hstep
    obtain ⟨_, ⟨_, rfl⟩ | ⟨f, k, _, _, hreplay⟩⟩ := run_cases hstep
    · exact ⟨rfl, rfl⟩
    · have hfiles := replayLogBlock_files hreplay
      exact hfiles
  | shipped =>
    simp only [step] at hstep
    split at hstep
    · cases hstep
      exact ⟨rfl, rfl⟩
    · cases hstep

theorem Quiet.seesWholeFile (quiet : Quiet contents confirmed s) (filed : Filed cfg s)
    (hstep : step cfg contents s e = some s') : s.SeesWholeFile e := by
  cases e with
  | run ctx =>
    intro heof index k hcurrent f hf hindex _
    obtain ⟨-, hstep⟩ := ite_none_right_eq_some.mp hstep
    have hready : s.readyLoader ctx.opens = s.loader := by simp [readyLoader, hcurrent]
    obtain ⟨_, ⟨hnone, _⟩ | ⟨g, k', hplace, hfind, hreplay⟩⟩ := run_cases hstep
    · rw [hready, hcurrent] at hnone
      cases hnone
    · rw [hready, hcurrent] at hplace
      obtain ⟨rfl, rfl⟩ := Prod.mk.inj (some.inj hplace)
      obtain ⟨before, after, hfiles⟩ := append_of_mem hf
      have hsame := find?_index filed.chain hfiles
      rw [hindex, hfind] at hsame
      cases hsame
      have hdisk := (replayLogBlock_eof heof hreplay).1
      simp only [blocksOnDisk, quiet.idle] at hdisk
      rw [if_neg (by simp)] at hdisk
      omega
  | _ => trivial

/-- A duplication that is on its way to handing over what a quiet log announces. -/
structure Toward (cfg : LogConfig) (contents : Contents P W) (confirmed target : Int)
    (s : Session P W) : Prop where
  loading : ∃ frontier, Loading cfg contents confirmed frontier s
  quiet : Quiet contents confirmed s
  announces : Announces contents target s

theorem Toward.step (hheader : 0 < cfg.fileHeaderSize)
    (toward : Toward cfg contents confirmed target s) (hclean : e.Clean target)
    (hstep : step cfg contents s e = some s') :
    Toward cfg contents confirmed target s' := by
  obtain ⟨⟨frontier, loading⟩, quiet, announces⟩ := toward
  obtain ⟨hplog, hcollected⟩ := step_files hclean hstep
  have hfiles : s'.allFiles = s.allFiles := by rw [allFiles, allFiles, hplog, hcollected]
  have hallowed : Allowed cfg s e := by
    refine ⟨quiet.seesWholeFile loading.filed hstep, ?_⟩
    cases e with
    | plog e => exact hclean.elim
    | _ => trivial
  obtain ⟨frontier', _, loading'⟩ := loading.step hheader hallowed hstep
  refine ⟨⟨frontier', loading'⟩, ⟨by rw [hplog]; exact quiet.idle, ?_, ?_⟩, ?_⟩
  · rw [hfiles]
    exact quiet.intact
  · rw [hfiles]
    exact quiet.ballots
  · rw [Announces, hfiles]
    exact announces

theorem Announces.mem_files (announces : Announces contents target s) (filed : Filed cfg s)
    (hlt : s.plog.confirmedDecree < target) :
    ∃ f ∈ s.plog.log.files, ∃ m ∈ f.mutations, target < m.decree := by
  obtain ⟨before, m, after, hlog, _, hle⟩ := announces
  have hmem : m ∈ s.allFiles.flatMap LogFile.mutations := by simp [hlog]
  have hdecree := contents.announced_lt m
  obtain ⟨f, hf, hm⟩ := mem_flatMap.mp hmem
  rcases mem_append.mp hf with hf | hf
  · have := filed.collected_le f hf m hm
    omega
  · exact ⟨f, hf, m, hm, by omega⟩

end Session

/-! ### A file is found -/

namespace Plog

variable {files : List LogFile} {m : LoggedMutation}

theorem chooseFile_isSome {start : Int} {current : Option LogFile} (hfiles : files ≠ []) :
    ∃ f, chooseFile start current files = some f := by
  induction current, files using chooseFile.induct start with
  | case1 current => exact absurd rfl hfiles
  | case2 current g => exact ⟨_, rfl⟩
  | case3 current g h newer ih =>
    rw [chooseFile]
    exact ih (by simp)

theorem filesToSearch_ne_nil {cleanableDecree : Int} (hfiles : files ≠ []) :
    filesToSearch cleanableDecree files ≠ [] := by
  cases files with
  | nil => exact absurd rfl hfiles
  | cons f older =>
    rw [filesToSearch]
    split <;> simp

theorem findLogFileToStart_isSome {s : Plog} (hmax : s.cleanableDecree < s.log.maxDecree)
    (hfiles : s.log.files ≠ []) (start : Int) : ∃ f, s.findLogFileToStart start = some f := by
  unfold findLogFileToStart
  rw [if_neg (Int.not_le.mpr hmax)]
  exact chooseFile_isSome (filesToSearch_ne_nil (by simpa using hfiles))

variable {cfg : LogConfig} {f : LogFile}

theorem Kept.decree_le_max {s : Plog} (kept : s.Kept cfg)
    (hopen : s.log.isOpened = true) (hf : f ∈ s.log.files) (hm : m ∈ f.mutations) :
    m.decree ≤ s.log.maxDecree :=
  covers_zero kept.nonneg hf ((kept.recorded.opened hopen).covered_memory f hf) hm

/-- No header names a decree above the confirmed one, where something is logged above it. -/
theorem Kept.maxGcedDecree_le {s : Plog} (kept : s.Kept cfg)
    (hf : f ∈ s.log.files) (hm : m ∈ f.mutations) (hlt : s.confirmedDecree < m.decree) :
    maxGcedDecree s ≤ s.confirmedDecree := by
  rcases kept.anchored with ⟨h, hh, hle⟩ | ⟨hall, _⟩
  · obtain ⟨g, hg, rfl⟩ := List.mem_map.mp hh
    have hmem : g.previousMaxDecree ∈ s.log.files.map LogFile.previousMaxDecree :=
      List.mem_map_of_mem hg
    unfold maxGcedDecree
    cases hmin : (s.log.files.map LogFile.previousMaxDecree).min? with
    | none => simp [List.min?_eq_none_iff.mp hmin] at hmem
    | some low => exact ((List.min?_eq_some_iff.mp hmin).2 _ hmem).trans hle
  · have := hall m (mem_flatMap.mpr ⟨f, hf, hm⟩)
    omega

end Plog

namespace Session

variable {cfg : LogConfig} {contents : Contents P W} {confirmed target : Int}
  {frontier : List LoggedMutation} {s s' : Session P W}

theorem Toward.ready (toward : Toward cfg contents confirmed target s)
    (hstage : s.loader.stage = .read) (hlt : s.loader.lastDecree < target) :
    maxGcedDecree s.plog < s.loader.startDecree ∧
      ∃ index k, (s.readyLoader true).current = some (index, k) := by
  obtain ⟨⟨frontier, loading⟩, _, announces⟩ := toward
  have hconfirmed := loading.confirmed_le
  have hstart := loading.follows.reading hstage
  have kept := loading.filed.kept
  obtain ⟨f, hf, m, hm, htarget⟩ := announces.mem_files loading.filed (by omega)
  have hgced := kept.maxGcedDecree_le hf hm (by omega)
  refine ⟨by omega, ?_⟩
  unfold readyLoader
  split
  · have hmax := kept.decree_le_max loading.filed.opened hf hm
    have hclean := kept.cleanable_le
    obtain ⟨g, hg⟩ := Plog.findLogFileToStart_isSome (by omega) (ne_nil_of_mem hf)
      s.loader.startDecree
    refine ⟨g.index, 0, ?_⟩
    unfold findLogFileToStart
    rw [if_neg (by simp; omega), hg]
    rfl
  · rename_i hsome
    cases hcurrent : s.loader.current with
    | none => simp [hcurrent] at hsome
    | some place => exact ⟨place.1, place.2, rfl⟩

/-! ### The rank decreases -/

variable {before after : List LogFile} {f : LogFile} {k : Nat}

theorem readsLeft_at (filed : Filed cfg s) (hfiles : s.allFiles = before ++ f :: after)
    (hcurrent : s.loader.current = some (f.index, k)) :
    (f ∈ s.plog.log.files → s.readsLeft = f.blocks.length + 2 - k + readsOf after) ∧
      (f ∉ s.plog.log.files → s.readsLeft =
        f.blocks.length + 2 - k + readsOf after + (readsOf s.allFiles + 1)) := by
  have hreads := readsFrom_eq filed.chain hfiles k
  have hfind := find?_index filed.chain hfiles
  constructor
  · intro hf
    have hany : (s.plog.log.files.any fun g => g.index == f.index) = true :=
      List.any_eq_true.mpr ⟨f, hf, by simp⟩
    simp only [readsLeft, hcurrent, hany, if_true, hreads]
  · intro hf
    have hany : (s.plog.log.files.any fun g => g.index == f.index) = false := by
      refine List.any_eq_false.mpr fun g hg hindex => hf ?_
      -- files are told apart by their indices
      have hmem : g ∈ s.allFiles := mem_append_right _ hg
      obtain ⟨before', after', hfiles'⟩ := append_of_mem hmem
      have hsame := find?_index filed.chain hfiles'
      rw [show g.index = f.index by simpa using hindex, hfind] at hsame
      rw [some.inj hsame]
      exact hg
    simp only [readsLeft, hcurrent, hany, hreads]
    rfl

theorem readsLeft_readyLoader (filed : Filed cfg s) {opens : Bool} {index : Nat}
    (hplace : (s.readyLoader opens).current = some (index, k)) :
    { s with loader := s.readyLoader opens }.readsLeft ≤ s.readsLeft := by
  cases hcurrent : s.loader.current with
  | some place =>
    have hready : s.readyLoader opens = s.loader := by simp [readyLoader, hcurrent]
    rw [hready]
  | none =>
    obtain ⟨f, hfind, rfl, rfl⟩ := readyLoader_found hcurrent hplace
    have hf : f ∈ s.plog.log.files := (Plog.findLogFileToStart_mem hfind)
    have hmem : f ∈ s.allFiles := mem_append_right _ hf
    obtain ⟨before, after, hfiles⟩ := append_of_mem hmem
    have hat := (readsLeft_at (filed.withLoader (s.readyLoader opens)) hfiles hplace).1 hf
    have hle := readsFrom_le f.index s.allFiles
    rw [readsFrom_eq filed.chain hfiles 0] at hle
    have hnone : s.readsLeft = readsOf s.allFiles + 1 := by simp [readsLeft, hcurrent]
    omega

theorem Filed.last_of_no_next (filed : Filed cfg s) (hfiles : s.allFiles = before ++ f :: after)
    (hf : f ∈ s.plog.log.files)
    (hnext : s.plog.log.files.find? (fun g => g.index == f.index + 1) = none) : after = [] := by
  cases after with
  | nil => rfl
  | cons x rest =>
    have hchain := filed.chain
    rw [hfiles] at hchain
    have hindex : x.index = f.index + 1 := (isChain_cons_cons.mp (isChain_append.mp hchain).2.1).1
    have hx : x ∈ s.allFiles := by simp [hfiles]
    rcases mem_append.mp hx with hx | hx
    · have hlt := (pairwise_append.mp (index_lt_of_chain filed.chain)).2.2 x hx f hf
      omega
    · have := List.find?_eq_none.mp hnext x hx
      simp [hindex] at this

/-- **Reading a block, or the end of a file**, leads nearer to the target. -/
theorem Loading.rank_replayLogBlock (loading : Loading cfg contents confirmed frontier s)
    (quiet : Quiet contents confirmed s) (announces : Announces contents target s)
    (hstage : s.loader.stage = .read) {ctx : ReadContext} (hopens : ctx.opens = true)
    (herror : ctx.outcome ≠ .error) (hcurrent : s.loader.current = some (f.index, k))
    (hfind : s.allFiles.find? (fun g => g.index == f.index) = some f)
    (hreplay : s.replayLogBlock contents ctx f k = some s') :
    s'.rank target < 3 * s.readsLeft := by
  obtain ⟨filed, follows, _⟩ := loading
  obtain ⟨before, after, hfiles, _, hk, hread⟩ :=
    (follows.place _ _ hcurrent).find? filed.chain hfind
  obtain ⟨hkept, hgone⟩ := readsLeft_at filed hfiles hcurrent
  cases houtcome : ctx.outcome with
  | error => exact absurd houtcome herror
  | ok =>
    simp only [Session.replayLogBlock, houtcome, bind_eq_bind,
      bind_eq_some_iff, some.injEq] at hreplay
    obtain ⟨block, hblock, ⟨buffer, calls⟩, _, rfl⟩ := hreplay
    obtain ⟨hlt, _⟩ := take_blockAt hblock
    -- one read less is left
    have hless : ∀ l : Loader P W, l.current = some (f.index, k + 1) →
        { s with loader := l }.readsLeft + 1 = s.readsLeft := by
      intro l hl
      obtain ⟨hkept', hgone'⟩ := readsLeft_at (filed.withLoader l) hfiles hl
      by_cases hf : f ∈ s.plog.log.files
      · rw [hkept hf, hkept' hf]
        omega
      · rw [hgone hf, hgone' hf]
        change _ + (readsOf s.allFiles + 1) + 1 = _
        omega
    dsimp only
    split
    · have := hless ({ s.loader with
        buffer := buffer, current := some (f.index, k + 1) }.loadCommitted calls).stepDown rfl
      simp only [rank, stepDown]
      split <;> simp only [stepDown] at this <;> omega
    · have := hless ({ s.loader with
        buffer := buffer, current := some (f.index, k + 1) }.loadCommitted calls) rfl
      simp only [rank, loadCommitted, hstage] at this ⊢
      omega
  | eof =>
    obtain ⟨hdisk, rfl⟩ := replayLogBlock_eof houtcome hreplay
    simp only [blocksOnDisk, quiet.idle] at hdisk
    rw [if_neg (by simp)] at hdisk
    obtain rfl : k = f.blocks.length + 1 := by omega
    simp only [readToEnd, hopens]
    cases hnext : s.plog.log.files.find? (fun g => g.index == f.index + 1) with
    | some g =>
      have hg := mem_of_find?_eq_some hnext
      have hindex : g.index = f.index + 1 := by simpa using List.find?_some hnext
      obtain ⟨rest, rfl⟩ := next_file filed.chain hfiles (mem_append_right _ hg) hindex
      have hfiles' : s.allFiles = (before ++ [f]) ++ g :: rest := by simpa using hfiles
      have hat := (readsLeft_at (filed.withLoader (s.loader.startFromLogFile g)) hfiles' rfl).1 hg
      simp only [rank, startFromLogFile, hstage] at hat ⊢
      rw [readsOf_cons] at hkept hgone
      by_cases hf : f ∈ s.plog.log.files
      · have := hkept hf
        omega
      · have := hgone hf
        omega
    | none =>
      by_cases hf : f ∈ s.plog.log.files
      · -- the last file, and all of the log is read
        have hlast : after = [] := filed.last_of_no_next hfiles hf hnext
        have hpos := hkept hf
        have hall : frontier = s.allFiles.flatMap LogFile.mutations := by
          refine follows.frontier_le.eq_of_length_le ?_
          rw [hfiles, hlast]
          simpa [LogFile.mutations] using hread.length_le
        obtain ⟨pre, m, post, hlog, hfresh, hle⟩ := announces
        have hcommitted := follows.read.announced pre m post (hall.trans hlog) hfresh
        simp only [rank, stepDown]
        rw [if_pos (hle.trans hcommitted)]
        omega
      · -- a collected file, and the loader has to look for another
        rw [hgone hf]
        simp only [rank, stepDown, readsLeft, allFiles]
        split <;> omega

/-- **Every step of the loader leads nearer to the target.** -/
theorem Toward.rank_lt (toward : Toward cfg contents confirmed target s) {e : DupEvent}
    (hclean : e.Clean target) (hnot : s.loader.handedUpTo < target)
    (hstep : Session.step cfg contents s e = some s') : s'.rank target < s.rank target := by
  cases e with
  | plog e => exact hclean.elim
  | load available =>
    obtain ⟨hstage, rfl⟩ := of_guard hstep
    simp only [handedUpTo, hstage] at hnot
    have htarget : target ≤ available := hclean
    have hload : s.loader.load available =
        { s.loader with stage := .read, startDecree := s.loader.lastDecree + 1 } := by
      rw [load, if_pos (by omega)]
    simp only [hload, rank, hstage, readsLeft]
    exact Nat.lt_succ_self _
  | shipped =>
    simp only [Session.step] at hstep
    split at hstep
    · rename_i lastDecree hstage
      cases hstep
      simp only [handedUpTo, hstage] at hnot
      simp only [rank, hstage, readsLeft]
      rw [if_neg (Int.not_le.mpr hnot)]
      exact Nat.lt_succ_self _
    · cases hstep
  | run ctx =>
    obtain ⟨hopens, herror⟩ := hclean
    obtain ⟨hstage, hstep⟩ := ite_none_right_eq_some.mp hstep
    simp only [handedUpTo, hstage] at hnot
    obtain ⟨_, index, k, hready⟩ := toward.ready hstage hnot
    rw [← hopens] at hready
    obtain ⟨⟨frontier, loading⟩, quiet, announces⟩ := toward
    have hle := readsLeft_readyLoader loading.filed hready
    obtain ⟨hstage', frontier', _, loading'⟩ := loading.readyLoader hstage ctx.opens
    obtain ⟨_, ⟨hnone, _⟩ | ⟨f, k, hcurrent, hfind, hreplay⟩⟩ := run_cases hstep
    · rw [hready] at hnone
      cases hnone
    · have hlt := loading'.rank_replayLogBlock
        ⟨quiet.idle, quiet.intact, quiet.ballots⟩ announces hstage' hopens herror hcurrent hfind
        hreplay
      have hrank : s.rank target = 3 * s.readsLeft := by simp only [rank, hstage]
      omega

theorem Loading.exists_replay (loading : Loading cfg contents confirmed frontier s)
    (quiet : Quiet contents confirmed s) (hfiles : s.allFiles = before ++ f :: after)
    (hk : k ≤ f.blocks.length + 1)
    (hread : before.flatMap LogFile.mutations ++
      (f.blocks.take (k - 1)).flatMap LogBlock.mutations <+: frontier) :
    ∃ ctx s', ctx.opens = true ∧ ctx.outcome ≠ .error ∧
      s.replayLogBlock contents ctx f k = some s' := by
  by_cases hend : k = f.blocks.length + 1
  · have htorn : f.torn = 0 := quiet.intact f (hfiles ▸ by simp)
    have hdisk : blocksOnDisk s.plog.log f ≤ k := by
      rw [blocksOnDisk, quiet.idle, if_neg (by simp), hend]
    exact ⟨⟨true, .eof, fun _ => 0, false⟩, _, rfl, by simp, if_pos ⟨hdisk, htorn⟩⟩
  · obtain ⟨block, hblock⟩ : ∃ block, blockAt f k = some block := by
      cases k with
      | zero => exact ⟨[], rfl⟩
      | succ k =>
        have hlt : k < f.blocks.length := by omega
        exact ⟨_, by rw [blockAt, List.getElem?_eq_getElem hlt]; rfl⟩
    obtain ⟨_, htake⟩ := take_blockAt hblock
    have hupTo := flatMap_take_prefix hfiles k
    rw [htake, ← append_assoc] at hupTo
    obtain ⟨⟨buffer, calls⟩, hadd⟩ := ReadUpTo.addAll_isSome loading.filed.inOrder_files
      quiet.ballots (fun _ => 0) hupTo loading.follows.read loading.follows.frontier_le hread
      (loading.confirmed_le.trans loading.follows.last_le)
    have hreplay : ∃ s',
        s.replayLogBlock contents ⟨true, .ok, fun _ => 0, false⟩ f k = some s' := by
      simp only [Session.replayLogBlock, hblock, bind_eq_bind, bind_some, hadd]
      exact ⟨_, rfl⟩
    obtain ⟨s', hreplay⟩ := hreplay
    exact ⟨_, s', rfl, by simp, hreplay⟩

/-- **The loader is never stuck**: until the target is handed over, some step is possible. -/
theorem Toward.exists_step (toward : Toward cfg contents confirmed target s)
    (hnot : s.loader.handedUpTo < target) :
    ∃ e s', e.Clean target ∧ Session.step cfg contents s e = some s' := by
  cases hstage : s.loader.stage with
  | load =>
    refine ⟨.load target, { s with loader := s.loader.load target }, Int.le_refl target, ?_⟩
    simp only [Session.step, hstage, if_true]
  | ship lastDecree =>
    refine ⟨.shipped, { s with
      loader := { s.loader with
        stage := .load
        lastDecree := max s.loader.lastDecree lastDecree } }, trivial, ?_⟩
    simp only [Session.step, hstage]
  | read =>
    simp only [handedUpTo, hstage] at hnot
    obtain ⟨hgced, index, k, hready⟩ := toward.ready hstage hnot
    obtain ⟨⟨frontier, loading⟩, quiet, _⟩ := toward
    obtain ⟨_, frontier', _, loading'⟩ := loading.readyLoader hstage true
    obtain ⟨before, f, after, hfiles, rfl, hk, hread⟩ := loading'.follows.place _ _ hready
    have hfind := find?_index loading'.filed.chain hfiles
    obtain ⟨ctx, s', hopens, herror, hreplay⟩ := loading'.exists_replay
      ⟨quiet.idle, quiet.intact, quiet.ballots⟩ hfiles hk hread
    refine ⟨.run ctx, s', ⟨hopens, herror⟩, ?_⟩
    simp only [Session.step, hstage, if_true, Session.run, hopens]
    rw [if_neg (Int.not_le.mpr hgced)]
    simp only [hready]
    rw [hfind]
    exact hreplay

/-- A clean run towards a target is bounded, and it can go on until the target is handed over. -/
theorem Toward.run (hheader : 0 < cfg.fileHeaderSize)
    (toward : Toward cfg contents confirmed target s) {events : List DupEvent}
    (hrun : TransitionSystem.run (Session.step cfg contents) s events = some s')
    (hclean : StepsMeet (Session.step cfg contents)
      (fun s e => e.Clean target ∧ s.loader.handedUpTo < target) s events) :
    events.length ≤ s.rank target ∧ (s'.loader.handedUpTo < target →
      ∃ e s'', e.Clean target ∧ Session.step cfg contents s' e = some s'') := by
  have hkeep : ∀ s e s', Session.step cfg contents s e = some s' →
      e.Clean target ∧ s.loader.handedUpTo < target → Toward cfg contents confirmed target s →
        Toward cfg contents confirmed target s' :=
    fun s e s' hstep hmeet toward => toward.step hheader hmeet.1 hstep
  have hrank : ∀ s e s', Session.step cfg contents s e = some s' →
      e.Clean target ∧ s.loader.handedUpTo < target → Toward cfg contents confirmed target s →
        s'.rank target + 1 ≤ s.rank target + 0 :=
    fun s e s' hstep hmeet toward => toward.rank_lt hmeet.1 hmeet.2 hstep
  have hlength := run_length_le_of_steps hkeep hrank hrun hclean toward
  have htoward := run_invariant_of_steps hkeep hrun hclean toward
  exact ⟨by simp at hlength; omega, htoward.exists_step⟩

/-! ### The main result -/

def start (plog : Plog) : Session P W where
  plog := plog
  loader := .start plog.confirmedDecree

/-- What has been handed over is every decree after `confirmed` up to the last one, once and in
order. -/
def WithoutGap (confirmed : Int) (s : Session P W) : Prop :=
  s.loader.handed.Pairwise (fun mu mu' => mu.header.decree < mu'.header.decree) ∧
    ∀ d, (∃ mu ∈ s.loader.handed, mu.header.decree = d) ↔ confirmed < d ∧ d ≤ s.loader.handedUpTo

theorem Loading.withoutGap (loading : Loading cfg contents confirmed frontier s) :
    s.WithoutGap confirmed := by
  obtain ⟨_, _, reading⟩ := loading.follows.read.reading
  exact ⟨(pairwise_append.mp reading.sorted).1, loading.follows.handed⟩

theorem loading_start {plog : Plog} (kept : plog.Kept cfg) (hopen : plog.log.isOpened = true)
    (inOrder : Plog.InOrder plog.confirmedDecree (plog.log.logged cfg)) :
    Loading cfg contents plog.confirmedDecree [] (start plog) where
  filed :=
    { kept := kept
      opened := hopen
      inOrder := inOrder
      chain := by
        have hchain : plog.log.files.IsChain fun f g => g.index = f.index + 1 :=
          kept.recorded.ordered.imp fun _ _ h => h.1
        simpa [start, allFiles] using hchain
      last_index := by
        intro f hf
        have hlast : plog.log.files.getLast? = some f := by simpa [start, allFiles] using hf
        exact ((kept.recorded.opened hopen).ends_at_last f hlast).2
      collected_le := by simp [start] }
  follows := Follows.start contents plog.confirmedDecree _
  confirmed_le := Int.le_refl _

end Session

/-- **Duplication starts at the right file and hands the log over without a gap.** The log is never
reset, collections stay below the confirmed decree, and opening it forgets no decree. Then no file
before the selected one holds a decree from the start decree on. If mutations are appended in order,
what a duplication hands over while the log goes on, is collected and fails to be read is without a
gap; and when the log gets quiet, every way to go on reading it without an error hands over what the
log announces. -/
theorem duplication_without_gap {cfg : LogConfig} (hheader : 0 < cfg.fileHeaderSize)
    {confirmed : Int} (hconfirmed : 0 ≤ confirmed) {events : List PlogEvent} {plog : Plog}
    (hrun : TransitionSystem.run (Plog.step cfg) { confirmedDecree := confirmed } events =
      some plog)
    (hmeet : StepsMeet (Plog.step cfg)
      (fun s e => s.Collects e ∧ s.ForgetsNothing e) { confirmedDecree := confirmed } events) :
    (∀ start, plog.cleanableDecree < start → (plog.confirmedDecree < start ∨
        ∃ f ∈ plog.log.files, f.previousMaxDecree < start) → plog.StartsRight start) ∧
    (StepsMeet (Plog.step cfg) (fun s e => s.AppendsInOrder cfg e)
        { confirmedDecree := confirmed } events → plog.log.isOpened = true →
      ∀ (contents : Contents P W) (reads : List DupEvent) (s : Session P W),
        TransitionSystem.run (Session.step cfg contents) (.start plog) reads = some s →
        StepsMeet (Session.step cfg contents) (Session.Allowed cfg)
          (.start plog) reads →
        s.WithoutGap plog.confirmedDecree ∧
        ∀ target, s.Quiet contents plog.confirmedDecree → s.Announces contents target →
          ∀ more t, TransitionSystem.run (Session.step cfg contents) s more = some t →
            StepsMeet (Session.step cfg contents)
              (fun s e => e.Clean target ∧ s.loader.handedUpTo < target) s more →
            more.length ≤ s.rank target ∧ (t.loader.handedUpTo < target →
              ∃ e t', e.Clean target ∧ Session.step cfg contents t e = some t')) := by
  have hkeep : ∀ s e s', Plog.step cfg s e = some s' → s.Collects e ∧ s.ForgetsNothing e →
      Plog.Kept cfg s → Plog.Kept cfg s' :=
    fun s e s' hstep hmeet kept => kept.step hheader hmeet.1 hmeet.2 hstep
  have kept := run_invariant_of_steps hkeep hrun hmeet (Plog.kept_init hconfirmed)
  refine ⟨fun start hclean hstart => kept.startsRight hclean hstart, ?_⟩
  intro happends hopen contents reads s hreads hallowed
  have hkeepOrder : ∀ s e s', Plog.step cfg s e = some s' →
      (s.Collects e ∧ s.ForgetsNothing e) ∧ s.AppendsInOrder cfg e →
      (Plog.Kept cfg s ∧ Plog.InOrder s.confirmedDecree (s.log.logged cfg)) →
        Plog.Kept cfg s' ∧ Plog.InOrder s'.confirmedDecree (s'.log.logged cfg) := by
    rintro s e s' hstep ⟨hmeet, happend⟩ ⟨kept, inOrder⟩
    exact ⟨hkeep s e s' hstep hmeet kept, kept.inOrder_step hmeet.1 happend hstep inOrder⟩
  have inOrder := (run_invariant_of_steps hkeepOrder hrun
    (stepsMeet_and hmeet happends)
    ⟨Plog.kept_init hconfirmed, fun pre m post h => by
      simp [MutationLog.logged, MutationLog.pendingMutations] at h⟩).2
  have hkeepLoading : ∀ (s : Session P W) e s', Session.step cfg contents s e = some s' →
      Session.Allowed cfg s e →
      (∃ frontier, Session.Loading cfg contents plog.confirmedDecree frontier s) →
        ∃ frontier, Session.Loading cfg contents plog.confirmedDecree frontier s' := by
    rintro s e s' hstep hallowed ⟨frontier, loading⟩
    obtain ⟨frontier', _, loading'⟩ := loading.step hheader hallowed hstep
    exact ⟨frontier', loading'⟩
  obtain ⟨frontier, loading⟩ := run_invariant_of_steps hkeepLoading hreads hallowed
    ⟨[], Session.loading_start kept hopen inOrder⟩
  refine ⟨loading.withoutGap, fun target quiet announces more t hmore hclean => ?_⟩
  have toward : Session.Toward cfg contents plog.confirmedDecree target s :=
    ⟨⟨frontier, loading⟩, quiet, announces⟩
  exact toward.run hheader hmore hclean

theorem sub_one_lt_decree (m : LoggedMutation) : m.decree - 1 < m.decree := by omega

theorem decree_lt_window (m : LoggedMutation) :
    m.decree < m.decree - 1 + prepareListNumEntries := by
  rw [prepareListNumEntries]
  omega

/-- Every mutation announces that the one before it is committed. -/
def announcing : Contents Unit Unit where
  mutation m :=
    { header := { ballot := 1, decree := m.decree, lastCommittedDecree := m.decree - 1 }
      notLogged := false }
  decree_eq := fun _ => rfl
  logged := fun _ => rfl
  announced_lt := sub_one_lt_decree
  window := decree_lt_window

def twoFiles : List PlogEvent :=
  [.log (.openLog none), .log (.append 1 5), .log .writeCompleted, .log .demandSwitchFile,
    .log (.append 2 5), .log .writeCompleted]

/-- The header of the first file and its block are read, and the batch is full. -/
def readOne : List DupEvent :=
  [.load 2, .run { outcome := .ok, applied := fun _ => 1 },
    .run { outcome := .ok, applied := fun _ => 1, full := true }]

/-- Decree 1 is handed over, and decree 2 is in the file that a duplication from there starts at. -/
theorem duplication_without_gap_two_files :
    ∃ plog s, TransitionSystem.run (Plog.step smallConfig) {} twoFiles = some plog ∧
      TransitionSystem.run (Session.step smallConfig announcing) (.start plog) readOne = some s ∧
      plog.StartsRight 2 ∧ s.WithoutGap 0 ∧ s.loader.handedUpTo = 1 ∧
      readOne.length ≤ (Session.start plog : Session Unit Unit).rank 1 := by
  have hmeet : StepsMeet (Plog.step smallConfig)
      (fun s e => s.Collects e ∧ s.ForgetsNothing e) {} twoFiles := by
    refine stepsMeet_cons ⟨trivial, fun f hf => absurd hf (by simp)⟩ rfl ?_
    iterate 5 refine stepsMeet_cons ⟨trivial, trivial⟩ rfl ?_
    trivial
  have happends : StepsMeet (Plog.step smallConfig)
      (fun s e => s.AppendsInOrder smallConfig e) {} twoFiles := by
    refine stepsMeet_cons trivial rfl ?_
    refine stepsMeet_cons (.inl (by decide)) rfl ?_
    iterate 2 refine stepsMeet_cons trivial rfl ?_
    refine stepsMeet_cons (.inr ⟨⟨1, 12⟩, by decide, by decide⟩) rfl ?_
    refine stepsMeet_cons trivial rfl ?_
    trivial
  have hallowed : ∀ plog, StepsMeet (Session.step smallConfig announcing)
      (Session.Allowed smallConfig) (.start plog) readOne := by
    refine fun plog => stepsMeet_of_forall ?_ _
    intro e he s
    simp only [readOne, mem_cons, not_mem_nil, or_false] at he
    rcases he with rfl | rfl | rfl
    · exact ⟨trivial, trivial⟩
    · exact ⟨fun heof => absurd heof (by decide), trivial⟩
    · exact ⟨fun heof => absurd heof (by decide), trivial⟩
  obtain ⟨hstarts, hloads⟩ := duplication_without_gap (by decide) (Int.le_refl 0) rfl hmeet
  obtain ⟨hgapless, _⟩ := hloads happends rfl announcing readOne _ rfl (hallowed _)
  -- the log is quiet from the start, and its second mutation announces the first one
  obtain ⟨-, hquiet⟩ := hloads happends rfl announcing [] _ rfl trivial
  have hclean : ∀ plog s, TransitionSystem.run (Plog.step smallConfig) {} twoFiles = some plog →
      s = Session.start plog → StepsMeet (Session.step smallConfig announcing)
        (fun s e => e.Clean 1 ∧ s.loader.handedUpTo < 1) s readOne := by
    rintro plog s ⟨⟩ rfl
    refine stepsMeet_cons ⟨show (1 : Int) ≤ 2 by decide, by decide⟩ rfl ?_
    iterate 2 refine stepsMeet_cons ⟨⟨rfl, by decide⟩, by decide⟩ rfl ?_
    trivial
  have hballots : announcing.BallotsFollow 0 [⟨1, 12⟩, ⟨2, 29⟩] := by
    refine ⟨by decide, fun pre m post heq _ q _ hfloor e hlt hle => ?_⟩
    have hm : m ∈ [(⟨1, 12⟩ : LoggedMutation), ⟨2, 29⟩] := by
      rw [heq]
      simp
    have hmax : ∀ m ∈ [(⟨1, 12⟩ : LoggedMutation), ⟨2, 29⟩], m.decree ≤ 2 := by decide
    have := hmax m hm
    exact ⟨m, by simp, by omega, Int.le_refl _⟩
  have hbound := (hquiet 1 ⟨rfl, by decide, hballots⟩
    ⟨[⟨1, 12⟩], ⟨2, 29⟩, [], rfl, by unfold Contents.FreshAfter; decide, by decide⟩ readOne _ rfl
    (hclean _ _ rfl rfl)).1
  exact ⟨_, _, rfl, rfl, hstarts 2 (by decide) (.inl (by decide)), hgapless, rfl, hbound⟩

/-- Decrees 1 and 2 are in a first file, and decree 3 is lost with the block of a second one. The
log is opened for a replica that has decree 2 in its checkpoint. -/
def skippedFile : List PlogEvent :=
  [.log (.openLog none), .log (.append 1 5), .log .writeCompleted, .log (.append 2 5),
    .log .writeCompleted, .log .demandSwitchFile, .log (.append 3 5),
    .log (.crash { block := true }), .log (.openLog (some 2)), .log (.append 3 5)]

/-- Only the second file is replayed, so the header of the third one names no decree. A duplication
that starts at decree 1 selects the third file; decrees 1 and 2 are in the first. -/
theorem skipped_file_is_forgotten :
    ∃ plog, TransitionSystem.run (Plog.step smallConfig) {} skippedFile = some plog ∧
      StepsMeet (Plog.step smallConfig)
        (fun s e => s.Collects e ∧ s.AppendsInOrder smallConfig e) {} skippedFile ∧
      plog.cleanableDecree = 0 ∧ plog.confirmedDecree = 0 ∧ plog.log.maxDecree = 3 ∧
      ¬ plog.StartsRight 1 := by
  refine ⟨_, rfl, ?_, rfl, rfl, rfl, fun hstarts => ?_⟩
  · refine stepsMeet_cons ⟨trivial, trivial⟩ rfl ?_
    refine stepsMeet_cons ⟨trivial, .inl (by decide)⟩ rfl ?_
    refine stepsMeet_cons ⟨trivial, trivial⟩ rfl ?_
    refine stepsMeet_cons ⟨trivial, .inr ⟨⟨1, 12⟩, by decide, by decide⟩⟩ rfl ?_
    iterate 2 refine stepsMeet_cons ⟨trivial, trivial⟩ rfl ?_
    refine stepsMeet_cons ⟨trivial, .inr ⟨⟨2, 19⟩, by decide, by decide⟩⟩ rfl ?_
    iterate 2 refine stepsMeet_cons ⟨trivial, trivial⟩ rfl ?_
    refine stepsMeet_cons ⟨trivial, .inr ⟨⟨2, 19⟩, by decide, by decide⟩⟩ rfl ?_
    trivial
  · obtain ⟨_, hearlier⟩ := hstarts _ rfl
    have := hearlier _ mem_cons_self (by decide) ⟨1, 12⟩ (by decide)
    exact absurd this (by decide)

end Pegasus.Duplication
