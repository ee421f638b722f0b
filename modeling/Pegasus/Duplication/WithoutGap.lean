/-
The rounds of a duplication hand the log over without a gap.

- `Follows`: the buffer of a duplication is as if it had read the log once, up to a frontier
  that is not before the place of the reader;
- `Filed.find`, `Filed.readToEnd`, `Filed.readBlock`: what looking for a file and reading do;
- `Loading.step`: one event of the log or of the duplication keeps what holds.
-/

import Pegasus.Duplication.LoadRounds

namespace Pegasus.Duplication

open Replica Replica.MutationLog Replica.PrepareList List Option TransitionSystem LogFile

variable {P W : Type}

def Loader.handedUpTo (l : Loader P W) : Int :=
  match l.stage with
  | .ship lastDecree => lastDecree
  | _ => l.lastDecree

/-- Where a duplication is in the files, and what it has handed over. -/
structure Follows (contents : Contents P W) (confirmed : Int) (files : List LogFile)
    (frontier : List LoggedMutation) (l : Loader P W) : Prop where
  frontier_le : frontier <+: files.flatMap LogFile.mutations
  read : ReadUpTo contents confirmed frontier l.buffer (l.handed ++ l.loaded)
  place : ∀ index k, l.current = some (index, k) → At files frontier index k
  last_le : l.lastDecree ≤ l.buffer.lastCommittedDecree
  handed : ∀ d, (∃ mu ∈ l.handed, mu.header.decree = d) ↔ confirmed < d ∧ d ≤ l.handedUpTo
  reading : l.stage = .read → l.startDecree = l.lastDecree + 1
  between : l.stage ≠ .read → l.loaded = [] ∧ l.handedUpTo = l.buffer.lastCommittedDecree

namespace Follows

variable {contents : Contents P W} {confirmed : Int} {files : List LogFile}
  {frontier : List LoggedMutation} {l : Loader P W}

theorem start (contents : Contents P W) (confirmed : Int) (files : List LogFile) :
    Follows contents confirmed files [] (Loader.start confirmed) where
  frontier_le := nil_prefix
  read := .init contents confirmed
  place := by simp [Loader.start]
  last_le := Int.le_refl _
  handed := by
    intro d
    simp only [Loader.start, Loader.handedUpTo, not_mem_nil, false_and, exists_false, false_iff]
    omega
  reading := by simp [Loader.start]
  between := fun _ => ⟨rfl, rfl⟩

variable (follows : Follows contents confirmed files frontier l)
include follows

theorem grows {i j : Nat} {files' : List LogFile} (grows : GrowsBy files i files' j) :
    Follows contents confirmed files' frontier l :=
  { follows with
    frontier_le := follows.frontier_le.trans grows.flatMap_prefix
    place := fun index k h => (follows.place index k h).grows grows }

theorem move {frontier' : List LoggedMutation}
    (hfrontier : frontier' <+: files.flatMap mutations)
    (hread : ReadUpTo contents confirmed frontier' l.buffer (l.handed ++ l.loaded))
    {current : Option (Nat × Nat)}
    (hplace : ∀ index k, current = some (index, k) → At files frontier' index k)
    (blockRepeats fileRepeats : Nat) :
    Follows contents confirmed files frontier'
      { l with
        current := current
        errBlockRepeats := blockRepeats
        errFileRepeats := fileRepeats } :=
  ⟨hfrontier, hread, hplace, follows.last_le, follows.handed, follows.reading, follows.between⟩

theorem load (hstage : l.stage = .load) (available : Int) :
    Follows contents confirmed files frontier (l.load available) := by
  unfold Loader.load
  split
  · refine ⟨follows.frontier_le, follows.read, follows.place, follows.last_le, ?_, fun _ => rfl,
      fun h => absurd rfl h⟩
    have := follows.handed
    simp only [Loader.handedUpTo, hstage] at this
    exact this
  · exact follows

theorem shipped {lastDecree : Int} (hstage : l.stage = .ship lastDecree) :
    Follows contents confirmed files frontier
      { l with stage := .load, lastDecree := max l.lastDecree lastDecree } := by
  obtain ⟨hloaded, hupTo⟩ := follows.between (by simp [hstage])
  have hhanded := follows.handed
  simp only [Loader.handedUpTo, hstage] at hupTo hhanded
  have hmax : max l.lastDecree lastDecree = lastDecree :=
    max_eq_right (follows.last_le.trans hupTo.ge)
  rw [hmax]
  exact ⟨follows.frontier_le, follows.read, follows.place, hupTo.le, hhanded, by simp,
    fun _ => ⟨hloaded, hupTo⟩⟩

theorem stepDown : Follows contents confirmed files frontier l.stepDown := by
  obtain ⟨log, _, reading⟩ := follows.read.reading
  have hlast := reading.truncate.2.1
  refine ⟨follows.frontier_le, ?_, follows.place, ?_, reading.covers, fun h => ?_,
    fun _ => ⟨rfl, hlast.symm⟩⟩
  · simpa [Loader.stepDown] using follows.read.truncate
  · exact follows.last_le.trans hlast.ge
  · cases h

end Follows

/-! ### Places in the files -/

section Places

variable {files before after : List LogFile} {f : LogFile} {frontier : List LoggedMutation}
  {index k : Nat}

variable (hchain : files.IsChain fun f g => g.index = f.index + 1)
include hchain

theorem index_lt_of_chain : files.Pairwise fun f g => f.index < g.index := by
  have trans : IsTrans LogFile fun f g => f.index < g.index := ⟨fun _ _ _ => Nat.lt_trans⟩
  exact isChain_iff_pairwise.mp (hchain.imp fun f g h => by omega)

theorem find?_index (hfiles : files = before ++ f :: after) :
    files.find? (fun g => g.index == f.index) = some f := by
  have hpairwise := index_lt_of_chain hchain
  rw [hfiles, pairwise_append] at hpairwise
  have hbefore : before.find? (fun g => g.index == f.index) = none := by
    refine List.find?_eq_none.mpr fun g hg => ?_
    have := hpairwise.2.2 g hg f mem_cons_self
    simp only [beq_iff_eq]
    omega
  rw [hfiles, List.find?_append, hbefore, none_or, List.find?_cons_of_pos (by simp)]

theorem At.find? (place : At files frontier index k)
    (hfind : files.find? (fun g => g.index == index) = some f) :
    ∃ before after, files = before ++ f :: after ∧ f.index = index ∧ k ≤ f.blocks.length + 1 ∧
      before.flatMap mutations ++ (f.blocks.take (k - 1)).flatMap LogBlock.mutations <+:
        frontier := by
  obtain ⟨before, g, after, hfiles, rfl, hk, hpre⟩ := place
  obtain rfl : g = f := some.inj ((find?_index hchain hfiles).symm.trans hfind)
  exact ⟨before, after, hfiles, rfl, hk, hpre⟩

omit hchain in
theorem take_blockAt {block : List LoggedMutation} (hblock : blockAt f k = some block) :
    k < f.blocks.length + 1 ∧
      (f.blocks.take k).flatMap LogBlock.mutations =
        (f.blocks.take (k - 1)).flatMap LogBlock.mutations ++ block := by
  cases k with
  | zero =>
    cases hblock
    simp
  | succ k =>
    obtain ⟨b, hb, rfl⟩ := map_eq_some_iff.mp hblock
    obtain ⟨hk, rfl⟩ := List.getElem?_eq_some_iff.mp hb
    refine ⟨by omega, ?_⟩
    rw [take_succ_eq_append_getElem hk, flatMap_append]
    simp

omit hchain in
theorem flatMap_take_prefix (hfiles : files = before ++ f :: after) (n : Nat) :
    before.flatMap mutations ++ (f.blocks.take n).flatMap LogBlock.mutations <+:
      files.flatMap mutations := by
  rw [hfiles, flatMap_append, flatMap_cons, ← append_assoc]
  refine (prefix_append_right_inj _ |>.mpr ?_).trans (prefix_append _ _)
  exact (List.take_prefix n f.blocks).flatMap _

theorem next_file (hfiles : files = before ++ f :: after) {g : LogFile} (hg : g ∈ files)
    (hindex : g.index = f.index + 1) : ∃ rest, after = g :: rest := by
  have hpairwise := index_lt_of_chain hchain
  rw [hfiles] at hpairwise hg hchain
  obtain ⟨_, hafter, hbefore⟩ := pairwise_append.mp hpairwise
  rcases mem_append.mp hg with hg | hg
  · have := hbefore g hg f mem_cons_self
    omega
  · cases after with
    | nil =>
      obtain rfl : g = f := by simpa using hg
      omega
    | cons x rest =>
      have hx : x.index = f.index + 1 := (isChain_cons_cons.mp (isChain_append.mp hchain).2.1).1
      rcases mem_cons.mp hg with rfl | hg
      · omega
      · rcases mem_cons.mp hg with rfl | hg
        · exact ⟨rest, rfl⟩
        · have := (pairwise_cons.mp (pairwise_cons.mp hafter).2).1 g hg
          omega

end Places

/-! ### One step -/

variable (opens : Bool)

variable (plog : Plog)

variable (l : Loader P W)

theorem Loader.findLogFileToStart_cases :
    l.findLogFileToStart opens plog = l ∨
      l.findLogFileToStart opens plog = { l with current := none } ∨
      ∃ f, plog.findLogFileToStart l.startDecree = some f ∧
        l.findLogFileToStart opens plog = l.startFromLogFile f := by
  unfold Loader.findLogFileToStart
  split
  · exact .inl rfl
  · cases h : plog.findLogFileToStart l.startDecree with
    | none => exact .inr (.inl rfl)
    | some f => exact .inr (.inr ⟨f, rfl, rfl⟩)

theorem Loader.findLogFileToStart_kept :
    (l.findLogFileToStart opens plog).stage = l.stage ∧
      (l.findLogFileToStart opens plog).lastDecree = l.lastDecree ∧
      (l.findLogFileToStart opens plog).buffer = l.buffer := by
  rcases l.findLogFileToStart_cases opens plog with h | h | ⟨f, _, h⟩
  all_goals
    rw [h]
    exact ⟨rfl, rfl, rfl⟩

theorem Loader.readFailed_lastDecree : (l.readFailed opens plog).lastDecree = l.lastDecree := by
  unfold Loader.readFailed
  dsimp only
  split
  · rw [(Loader.findLogFileToStart_kept opens plog _).2.1]
  · rfl

theorem Loader.readToEnd_lastDecree (index : Nat) (l : Loader P W) :
    (l.readToEnd opens plog index).lastDecree = l.lastDecree := by
  unfold Loader.readToEnd
  split <;> rfl

namespace Session

/-- What holds while a duplication that started after `confirmed` reads a log. -/
structure Loading (cfg : LogConfig) (contents : Contents P W) (confirmed : Int)
    (frontier : List LoggedMutation) (s : Session P W) : Prop where
  filed : Filed cfg s
  follows : Follows contents confirmed s.allFiles frontier s.loader
  confirmed_le : s.plog.confirmedDecree ≤ s.loader.lastDecree

variable {cfg : LogConfig} {contents : Contents P W} {confirmed : Int}
  {frontier : List LoggedMutation} {s s' : Session P W} {l : Loader P W}

variable (filed : Filed cfg s)
include filed

theorem Filed.withLoader (l : Loader P W) :
    Filed cfg { s with loader := l } :=
  ⟨filed.kept, filed.opened, filed.inOrder, filed.chain, filed.last_index, filed.collected_le⟩

variable (follows : Follows contents confirmed s.allFiles frontier l)
include follows

/-- **Looking for the file to start at**: what is before it has been handed over, so the frontier
may move there. -/
theorem Filed.find (hstage : l.stage = .read) (hconfirmed : s.plog.confirmedDecree ≤ l.lastDecree)
    (opens : Bool) :
    ∃ frontier', frontier <+: frontier' ∧
      Follows contents confirmed s.allFiles frontier' (l.findLogFileToStart opens s.plog) := by
  rcases l.findLogFileToStart_cases opens s.plog with heq | heq | ⟨f, hfind, heq⟩
  · rw [heq]
    exact ⟨frontier, prefix_rfl, follows⟩
  · rw [heq]
    exact ⟨frontier, prefix_rfl, follows.move follows.frontier_le follows.read (by simp) _ _⟩
  · have hstart := follows.reading hstage
    have hlast := follows.last_le
    have hclean := filed.kept.cleanable_le
    have hright : s.plog.StartsRight l.startDecree :=
      filed.kept.startsRight (by omega) (.inl (by omega))
    obtain ⟨hf, hearlier⟩ := hright f hfind
    have hmem : f ∈ s.allFiles := mem_append_right s.collected hf
    obtain ⟨before, after, hfiles⟩ := append_of_mem hmem
    -- the files before are committed
    have hcommitted : ∀ m ∈ before.flatMap mutations,
        m.decree ≤ l.buffer.lastCommittedDecree := by
      intro m hm
      obtain ⟨g, hg, hm⟩ := mem_flatMap.mp hm
      have hpairwise := index_lt_of_chain filed.chain
      rw [hfiles] at hpairwise
      have hlt := (pairwise_append.mp hpairwise).2.2 g hg f mem_cons_self
      have hmem : g ∈ s.allFiles := hfiles ▸ mem_append_left _ hg
      rcases mem_append.mp hmem with hcollected | hkept
      · have := filed.collected_le g hcollected m hm
        omega
      · have := hearlier g hkept hlt m hm
        omega
    have hbefore : before.flatMap mutations <+: s.allFiles.flatMap mutations := by
      simpa using flatMap_take_prefix hfiles 0
    have hplace : ∀ frontier', before.flatMap mutations <+: frontier' →
        At s.allFiles frontier' f.index 0 := fun frontier' hpre =>
      ⟨before, f, after, hfiles, rfl, Nat.zero_le _, by simpa using hpre⟩
    rw [heq]
    rcases prefix_or_prefix_of_prefix hbefore follows.frontier_le with hle | hle
    · refine ⟨frontier, prefix_rfl, follows.move follows.frontier_le follows.read ?_ _ _⟩
      rintro _ _ ⟨⟩
      exact hplace frontier hle
    · obtain ⟨more, hmore⟩ := hle
      have hcommitted' : ∀ m ∈ more, m.decree ≤ l.buffer.lastCommittedDecree :=
        fun m hm => hcommitted m (hmore ▸ mem_append_right _ hm)
      have hread := follows.read.append_committed hcommitted'
      rw [hmore] at hread
      refine ⟨_, ⟨more, hmore⟩, follows.move hbefore hread ?_ _ _⟩
      rintro _ _ ⟨⟩
      exact hplace _ prefix_rfl

theorem Filed.readFailed (hstage : l.stage = .read)
    (hconfirmed : s.plog.confirmedDecree ≤ l.lastDecree) (opens : Bool) :
    ∃ frontier', frontier <+: frontier' ∧
      Follows contents confirmed s.allFiles frontier' (l.readFailed opens s.plog) := by
  have hcount : ∀ b r, Follows contents confirmed s.allFiles frontier
      { l with errBlockRepeats := b, errFileRepeats := r } := fun b r =>
    follows.move follows.frontier_le follows.read follows.place b r
  unfold Loader.readFailed
  dsimp only
  split
  · exact filed.find (hcount (l.errBlockRepeats + 1) (l.errFileRepeats + 1)) hstage hconfirmed opens
  · exact ⟨frontier, prefix_rfl, hcount _ _⟩

variable {f : LogFile} {k : Nat} {ctx : ReadContext} {before after : List LogFile}

theorem Filed.readToEnd (hfiles : s.allFiles = before ++ f :: after)
    (hread : before.flatMap mutations ++
      (f.blocks.take (k - 1)).flatMap LogBlock.mutations <+: frontier)
    (hwhole : (∃ g ∈ s.plog.log.files, g.index = f.index + 1) → f.blocks.length ≤ k - 1)
    (opens : Bool) :
    Follows contents confirmed s.allFiles frontier (l.readToEnd opens s.plog f.index) := by
  have hend : Follows contents confirmed s.allFiles frontier { l with current := none }.stepDown :=
    (follows.move follows.frontier_le follows.read (by simp) _ _).stepDown
  unfold Loader.readToEnd
  cases hnext : s.plog.log.files.find? (fun g => g.index == f.index + 1) with
  | none => exact hend
  | some g =>
    cases opens with
    | false => exact hend
    | true =>
      have hmem := mem_of_find?_eq_some hnext
      have hindex : g.index = f.index + 1 := by simpa using List.find?_some hnext
      obtain ⟨after, rfl⟩ := next_file filed.chain hfiles (mem_append_right _ hmem) hindex
      refine follows.move follows.frontier_le follows.read ?_ _ _
      rintro _ _ ⟨⟩
      refine ⟨before ++ [f], g, after, by simpa using hfiles, rfl, Nat.zero_le _, ?_⟩
      rw [take_of_length_le (hwhole ⟨g, hmem, hindex⟩)] at hread
      simpa [mutations] using hread

omit follows filed in
theorem committed_lt_of_mem {frontier' : List LoggedMutation} {buffer : PrepareList P W}
    {calls new : List (Mutation P W)}
    (read : ReadUpTo contents confirmed frontier l.buffer calls)
    (read' : ReadUpTo contents confirmed frontier' buffer (calls ++ new)) {mu : Mutation P W}
    (hmu : mu ∈ new) : l.buffer.lastCommittedDecree < mu.header.decree := by
  obtain ⟨_, _, reading⟩ := read.reading
  obtain ⟨_, _, reading'⟩ := read'.reading
  by_contra hle
  have hlower := ((reading'.covers _).mp ⟨mu, mem_append_right _ hmu, rfl⟩).1
  obtain ⟨old, hold, hdecree⟩ := (reading.covers _).mpr ⟨hlower, Int.not_lt.mp hle⟩
  have := (pairwise_append.mp reading'.sorted).2.2 old hold mu hmu
  omega

/-- **Reading a block**: the frontier moves over it, and everything that is committed is loaded. -/
theorem Filed.readBlock (hstage : l.stage = .read)
    (hconfirmed : s.plog.confirmedDecree ≤ l.lastDecree)
    (hfiles : s.allFiles = before ++ f :: after) (hread : before.flatMap mutations ++
      (f.blocks.take (k - 1)).flatMap LogBlock.mutations <+: frontier) {block : List LoggedMutation}
    (hblock : blockAt f k = some block) {applied : LoggedMutation → Int} {buffer : PrepareList P W}
    {calls : List (Mutation P W)}
    (hadd : addAll l.buffer (block.map fun m => ⟨contents.mutation m, applied m⟩) =
      some (buffer, calls)) :
    ∃ frontier', frontier <+: frontier' ∧
      Follows contents confirmed s.allFiles frontier'
        ({ l with buffer := buffer, current := some (f.index, k + 1) }.loadCommitted calls) := by
  have hstart := follows.reading hstage
  have hlast := follows.last_le
  obtain ⟨hk, htake⟩ := take_blockAt hblock
  have hupTo := flatMap_take_prefix hfiles k
  rw [htake, ← append_assoc] at hupTo
  obtain ⟨frontier', hle, hlog, hplace, hread', hmono⟩ := ReadUpTo.addAll_block filed.inOrder_files
    hupTo follows.read follows.frontier_le hread (hconfirmed.trans hlast) hadd
  have hkept : calls.filter (fun mu => l.startDecree ≤ mu.header.decree) = calls := by
    refine filter_eq_self.mpr fun mu hmu => ?_
    have := committed_lt_of_mem follows.read hread' hmu
    simp only [decide_eq_true_eq]
    omega
  refine ⟨frontier', hle, hlog, ?_, ?_, hlast.trans hmono, follows.handed, follows.reading,
    fun h => absurd hstage h⟩
  · change ReadUpTo contents confirmed frontier' buffer (l.handed ++ (l.loaded ++ calls.filter _))
    rw [hkept, ← append_assoc]
    exact hread'
  · rintro _ _ ⟨⟩
    refine ⟨before, f, after, hfiles, rfl, hk, ?_⟩
    rw [Nat.add_sub_cancel, htake, ← append_assoc]
    exact hplace

omit follows filed

/-- A reader that gets to the end of a file, where there is a next one, has seen all of it: its last
block is not still being written. -/
def SeesWholeFile (s : Session P W) : DupEvent → Prop
  | .run ctx => ctx.outcome = .eof → ∀ index k, s.loader.current = some (index, k) →
      ∀ f ∈ s.allFiles, f.index = index → (∃ g ∈ s.plog.log.files, g.index = index + 1) →
        f.blocks.length ≤ k - 1
  | _ => True

/-- What the log and its reader are asked for while a duplication is running. -/
def Allowed (cfg : LogConfig) (s : Session P W) (e : DupEvent) : Prop :=
  s.SeesWholeFile e ∧ match e with
    | .plog e => s.plog.Collects e ∧ s.plog.AppendsInOrder cfg e ∧ ∀ e', e = .log e' → e'.KeepsOpen
    | _ => True

theorem replayLogBlock_eof (heof : ctx.outcome = .eof)
    (hreplay : s.replayLogBlock contents ctx f k = some s') :
    blocksOnDisk s.plog.log f ≤ k ∧
      s' = { s with loader := s.loader.readToEnd ctx.opens s.plog f.index } := by
  simp only [Session.replayLogBlock, heof] at hreplay
  split at hreplay
  · rename_i hdisk
    exact ⟨hdisk.1, (some.inj hreplay).symm⟩
  · cases hreplay

variable (loading : Loading cfg contents confirmed frontier s)
include loading

theorem Loading.replayLogBlock (hstage : s.loader.stage = .read)
    (hcurrent : s.loader.current = some (f.index, k))
    (hfind : s.allFiles.find? (fun g => g.index == f.index) = some f)
    (hwhole : ctx.outcome = .eof → (∃ g ∈ s.plog.log.files, g.index = f.index + 1) →
      f.blocks.length ≤ k - 1) (hreplay : s.replayLogBlock contents ctx f k = some s') :
    ∃ frontier', frontier <+: frontier' ∧ Loading cfg contents confirmed frontier' s' := by
  obtain ⟨filed, follows, hconfirmed⟩ := loading
  obtain ⟨before, after, hfiles, _, _, hread⟩ :=
    (follows.place _ _ hcurrent).find? filed.chain hfind
  cases houtcome : ctx.outcome with
  | error =>
    simp only [Session.replayLogBlock, houtcome, some.injEq] at hreplay
    obtain ⟨frontier', hle, hfollows⟩ := filed.readFailed follows hstage hconfirmed ctx.opens
    subst hreplay
    refine ⟨frontier', hle, filed.withLoader _, hfollows, ?_⟩
    rw [Loader.readFailed_lastDecree]
    exact hconfirmed
  | eof =>
    obtain ⟨_, rfl⟩ := replayLogBlock_eof houtcome hreplay
    refine ⟨frontier, prefix_rfl, filed.withLoader _,
      filed.readToEnd follows hfiles hread (hwhole houtcome) ctx.opens, ?_⟩
    rw [Loader.readToEnd_lastDecree]
    exact hconfirmed
  | ok =>
    simp only [Session.replayLogBlock, houtcome, bind_eq_bind,
      bind_eq_some_iff, some.injEq] at hreplay
    obtain ⟨block, hblock, ⟨buffer, calls⟩, hadd, rfl⟩ := hreplay
    obtain ⟨frontier', hle, hfollows⟩ :=
      filed.readBlock follows hstage hconfirmed hfiles hread hblock hadd
    refine ⟨frontier', hle, filed.withLoader _, ?_, ?_⟩
    · dsimp only
      split
      · exact hfollows.stepDown
      · exact hfollows
    · dsimp only
      split <;> exact hconfirmed

omit loading in
theorem readyLoader_found {opens : Bool} {index : Nat} (hnone : s.loader.current = none)
    (hcurrent : (s.readyLoader opens).current = some (index, k)) :
    ∃ f, s.plog.findLogFileToStart s.loader.startDecree = some f ∧ f.index = index ∧ k = 0 := by
  rw [Session.readyLoader, hnone] at hcurrent
  rcases s.loader.findLogFileToStart_cases opens s.plog with h | h | ⟨f, hfind, h⟩
  · rw [isNone_none, if_pos rfl, h, hnone] at hcurrent
    cases hcurrent
  · rw [isNone_none, if_pos rfl, h] at hcurrent
    cases hcurrent
  · rw [isNone_none, if_pos rfl, h] at hcurrent
    cases hcurrent
    exact ⟨f, hfind, rfl, rfl⟩

omit loading in
theorem run_cases (hrun : s.run contents ctx = some s') :
    maxGcedDecree s.plog < s.loader.startDecree ∧
      ((s.readyLoader ctx.opens).current = none ∧
          s' = { s with loader := s.readyLoader ctx.opens } ∨
        ∃ f k, (s.readyLoader ctx.opens).current = some (f.index, k) ∧
          s.allFiles.find? (fun g => g.index == f.index) = some f ∧
          { s with loader := s.readyLoader ctx.opens }.replayLogBlock contents ctx f k =
            some s') := by
  unfold Session.run at hrun
  split at hrun
  · cases hrun
  rename_i hstart
  refine ⟨Int.not_le.mp hstart, ?_⟩
  dsimp only at hrun
  cases hcurrent : (s.readyLoader ctx.opens).current with
  | none =>
    simp only [hcurrent, some.injEq] at hrun
    exact .inl ⟨rfl, hrun.symm⟩
  | some place =>
    obtain ⟨index, k⟩ := place
    simp only [hcurrent] at hrun
    obtain ⟨f, hfind, hreplay⟩ := bind_eq_some_iff.mp hrun
    obtain rfl : f.index = index := by simpa using List.find?_some hfind
    exact .inr ⟨f, k, rfl, hfind, hreplay⟩

theorem Loading.readyLoader (hstage : s.loader.stage = .read) (opens : Bool) :
    (s.readyLoader opens).stage = .read ∧
      ∃ frontier', frontier <+: frontier' ∧ Loading cfg contents confirmed frontier'
        { s with loader := s.readyLoader opens } := by
  obtain ⟨filed, follows, hconfirmed⟩ := loading
  unfold Session.readyLoader
  split
  · obtain ⟨frontier', hle, hfollows⟩ := filed.find follows hstage hconfirmed opens
    obtain ⟨hstage', hlast, _⟩ := Loader.findLogFileToStart_kept opens s.plog s.loader
    exact ⟨hstage'.trans hstage, frontier', hle, filed.withLoader _, hfollows,
      hconfirmed.trans hlast.ge⟩
  · exact ⟨hstage, frontier, prefix_rfl, filed, follows, hconfirmed⟩

theorem Loading.run (hstage : s.loader.stage = .read) (hsees : s.SeesWholeFile (.run ctx))
    (hrun : s.run contents ctx = some s') :
    ∃ frontier', frontier <+: frontier' ∧ Loading cfg contents confirmed frontier' s' := by
  obtain ⟨hstage', frontier', hle, hready⟩ := loading.readyLoader hstage ctx.opens
  obtain ⟨_, ⟨_, rfl⟩ | ⟨f, k, hcurrent, hfind, hreplay⟩⟩ := run_cases hrun
  · exact ⟨frontier', hle, hready⟩
  · have hwhole : ctx.outcome = .eof → (∃ g ∈ s.plog.log.files, g.index = f.index + 1) →
        f.blocks.length ≤ k - 1 := by
      intro heof hnext
      cases hplace : s.loader.current with
      | some place =>
        rw [Session.readyLoader, hplace] at hcurrent
        exact hsees heof f.index k hcurrent f (mem_of_find?_eq_some hfind) rfl hnext
      | none =>
        -- a file that was just found is read from its start
        obtain ⟨_, _, _, rfl⟩ := readyLoader_found hplace hcurrent
        have := (replayLogBlock_eof heof hreplay).1
        unfold blocksOnDisk at this
        split at this <;> omega
    obtain ⟨frontier'', hle', hloading⟩ :=
      hready.replayLogBlock hstage' hcurrent hfind hwhole hreplay
    exact ⟨frontier'', hle.trans hle', hloading⟩

omit loading

variable (hheader : 0 < cfg.fileHeaderSize)
include hheader

theorem Filed.setCleanableDecree (filed : Filed cfg s) {decree : Int} {plog : Plog}
    (hcollects : s.plog.Collects (.setCleanableDecree decree))
    (hstep : s.plog.step cfg (.setCleanableDecree decree) = some plog) :
    Filed cfg { s with plog := plog } ∧ plog.confirmedDecree = s.plog.confirmedDecree ∧
      plog.log = s.plog.log := by
  have hkept := filed.kept.step hheader hcollects trivial hstep
  simp only [Plog.step, filed.opened, if_true, some.injEq] at hstep
  subst hstep
  exact ⟨⟨hkept, filed.opened, filed.inOrder, filed.chain, filed.last_index, filed.collected_le⟩,
    rfl, rfl⟩

theorem Filed.confirm (filed : Filed cfg s) {decree : Int} {plog : Plog}
    (hstep : s.plog.step cfg (.confirm decree) = some plog) :
    Filed cfg { s with plog := plog } ∧ plog.confirmedDecree = decree ∧ plog.log = s.plog.log := by
  have hcollects : s.plog.Collects (.confirm decree) := trivial
  have hkept := filed.kept.step hheader hcollects trivial hstep
  obtain ⟨hle, rfl⟩ := of_guard hstep
  exact ⟨⟨hkept, filed.opened, filed.inOrder.mono hle, filed.chain, filed.last_index,
    fun f hf m hm => (filed.collected_le f hf m hm).trans hle⟩, rfl, rfl⟩

/-- **One event of the log or of its duplication** keeps what holds, and the frontier never moves
back. -/
theorem Loading.step (loading : Loading cfg contents confirmed frontier s) {e : DupEvent}
    (hallowed : Allowed cfg s e) (hstep : Session.step cfg contents s e = some s') :
    ∃ frontier', frontier <+: frontier' ∧ Loading cfg contents confirmed frontier' s' := by
  obtain ⟨hsees, hallowed⟩ := hallowed
  cases e with
  | plog e =>
    obtain ⟨hcollects, happends, hkeeps⟩ := hallowed
    obtain ⟨filed, follows, hconfirmed⟩ := loading
    refine ⟨frontier, prefix_rfl, ?_⟩
    cases e with
    | log e =>
      obtain ⟨plog, hplog, rfl⟩ := map_eq_some_iff.mp hstep
      obtain ⟨hfiled, files, i, hfirst, hsecond⟩ :=
        filed.log_step hheader (hkeeps e rfl) hcollects happends hplog
      exact ⟨hfiled, (follows.grows hfirst).grows hsecond,
        (Plog.step_log hplog).2.trans_le hconfirmed⟩
    | setCleanableDecree decree =>
      obtain ⟨plog, hplog, rfl⟩ := map_eq_some_iff.mp hstep
      obtain ⟨hfiled, heq, hlog⟩ := filed.setCleanableDecree hheader hcollects hplog
      refine ⟨hfiled, ?_, heq.trans_le hconfirmed⟩
      rw [allFiles, hlog]
      exact follows
    | confirm decree =>
      obtain ⟨hle, hstep⟩ := ite_none_right_eq_some.mp hstep
      obtain ⟨plog, hplog, rfl⟩ := map_eq_some_iff.mp hstep
      obtain ⟨hfiled, heq, hlog⟩ := filed.confirm hheader hplog
      refine ⟨hfiled, ?_, heq.trans_le hle⟩
      rw [allFiles, hlog]
      exact follows
  | load available =>
    obtain ⟨hstage, rfl⟩ := of_guard hstep
    refine ⟨frontier, prefix_rfl, loading.filed.withLoader _,
      loading.follows.load hstage available, ?_⟩
    unfold Loader.load
    split <;> exact loading.confirmed_le
  | run ctx =>
    obtain ⟨hstage, hstep⟩ := ite_none_right_eq_some.mp hstep
    exact loading.run hstage hsees hstep
  | shipped =>
    simp only [Session.step] at hstep
    split at hstep
    · rename_i lastDecree hstage
      cases hstep
      exact ⟨frontier, prefix_rfl, loading.filed.withLoader _,
        loading.follows.shipped hstage, loading.confirmed_le.trans (le_max_left _ _)⟩
    · cases hstep

end Session

end Pegasus.Duplication
