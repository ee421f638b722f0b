/-
Rounds of a bulk load.

A round is what one request to download starts: the metadata is loaded, and one task after another
downloads a file and counts its bytes. If no round is started while a task of an earlier one is
running, there is one task at a time, and the bytes that are counted are those of the files that are
in the local directory.

- `Loader.Calm`: no round is started while a task of an earlier one is running, and the metadata has
  no empty files;
- `Loader.Round`, `Loader.Stage`: the files that are left and those that are there, and where the
  task of the round is;
- `downloaded_files_are_there`: the main result;
- `stale_task_ends_the_download`: a task of a paused round counts for the next one.
-/

import Pegasus.Replica.BulkLoader

namespace Pegasus.Replica.BulkLoad

open TransitionSystem List Function

/-! ### One round -/

/-- Metadata without empty files, whose sizes agree and can be counted in doubles. -/
structure Metadata.Regular (m : Metadata) : Prop where
  total : m.fileTotalSize = (m.files.map FileMeta.size).sum
  positive : ∀ f ∈ m.files, 0 < f.size
  sameName : ∀ f ∈ m.files, ∀ g ∈ m.files, f.name = g.name → f.size = g.size
  small : m.fileTotalSize ≤ 2 ^ 53

variable {files : List FileMeta}

theorem sum_sizes_nonneg (h : ∀ f ∈ files, 0 < f.size) :
    0 ≤ (files.map FileMeta.size).sum :=
  sum_nonneg fun size hsize => by
    obtain ⟨f, hf, rfl⟩ := mem_map.mp hsize
    exact (h f hf).le

theorem sum_sizes_pos (h : ∀ f ∈ files, 0 < f.size) (hne : files ≠ []) :
    0 < (files.map FileMeta.size).sum := by
  obtain ⟨f, rest, rfl⟩ := exists_cons_of_ne_nil hne
  have hrest := sum_sizes_nonneg fun g hg => h g (mem_cons_of_mem f hg)
  have hf := h f mem_cons_self
  simp only [map_cons, sum_cons]
  omega

theorem Metadata.Regular.eq_empty {m : Metadata} (h : m.Regular) (htotal : m.fileTotalSize ≤ 0) :
    m = {} := by
  have hfiles : m.files = [] := by
    by_contra hne
    have hpos := sum_sizes_pos h.positive hne
    rw [← h.total] at hpos
    omega
  have hzero := h.total
  obtain ⟨files, total⟩ := m
  simp only at hfiles hzero
  subst hfiles
  simpa using hzero

namespace Loader

/-- No round is started while a task of an earlier one is running: `cleanup_download_tasks` cancels
tasks without waiting for those that run. And the metadata is regular. -/
def Calm (l : Loader) : Event → Prop
  | .request req => req.metaStatus = .downloading → l.startsDownload = true → l.running = []
  | .metadata _ (some m) => m.Regular
  | _ => True

/-- The files behind `rest` are there, and they have been counted. -/
structure Round (l : Loader) (rest done : List FileMeta) : Prop where
  files : l.metadata.files = rest ++ done
  regular : l.metadata.Regular
  counted : (l.curDownloadedSize : Int) = (done.map FileMeta.size).sum
  progress : l.downloadProgress = progressOf l.curDownloadedSize l.metadata.fileTotalSize
  there : ∀ f ∈ done, l.dir f.name = some f.size

/-- Where the one task of a round is. Without metadata, a task may be left of an earlier round, but
not while the status is `BLS_DOWNLOADING`. -/
inductive Stage (l : Loader) : Prop where
  | cleared (hmetadata : l.metadata = {}) (hcur : l.curDownloadedSize = 0)
      (hprogress : l.downloadProgress = 0)
      (htasks : l.status = .downloading →
        (l.waiting = [] ∨ l.waiting = [.files]) ∧ (l.running = [] ∨ l.running = [.metadata]))
  | idle (rest done : List FileMeta) (round : l.Round rest done) (hwaiting : l.waiting = [])
      (hrunning : l.running = [])
  | parsed (rest : List FileMeta) (round : l.Round rest []) (hrunning : l.running = [.parsed])
  | waits (rest done : List FileMeta) (round : l.Round rest done)
      (hwaiting : l.waiting = [.sstFile rest])
  | fetches (rest done : List FileMeta) (round : l.Round rest done)
      (hrunning : l.running = [.fetch rest])
  | updates (rest done : List FileMeta) (f : FileMeta) (round : l.Round (rest ++ [f]) done)
      (hrunning : l.running = [.update (rest ++ [f]) f.size.toNat])
      (hthere : l.dir f.name = some f.size)
  | nexts (rest done : List FileMeta) (f : FileMeta) (round : l.Round rest (f :: done))
      (hrunning : l.running = [.next (rest ++ [f])])

structure Sound (l : Loader) : Prop where
  one : l.waiting.length + l.running.length ≤ 1
  stage : l.Stage
  finished : l.status = .downloaded → l.downloadProgress = PROGRESS_FINISHED

variable {l l' : Loader} {i : Nat} {rest done : List FileMeta}

/-! #### What a round says about the progress -/

section Progress

variable (h : l.Round rest done)
include h

theorem Round.congr (hmetadata : l'.metadata = l.metadata)
    (hcur : l'.curDownloadedSize = l.curDownloadedSize)
    (hprogress : l'.downloadProgress = l.downloadProgress) (hdir : l'.dir = l.dir) :
    l'.Round rest done := by
  obtain ⟨hfiles, hregular, hcounted, hprog, hthere⟩ := h
  constructor
  · rw [hmetadata, hfiles]
  · rw [hmetadata]
    exact hregular
  · rw [hcur, hcounted]
  · rw [hprogress, hcur, hmetadata, hprog]
  · rwa [hdir]

theorem Round.total_eq :
    l.metadata.fileTotalSize = (rest.map FileMeta.size).sum + l.curDownloadedSize := by
  rw [h.regular.total, h.files, h.counted, map_append, List.sum_append]

theorem Round.positive : ∀ f ∈ rest, 0 < f.size := fun f hf =>
  h.regular.positive f (by rw [h.files]; exact mem_append_left _ hf)

theorem Round.progress_lt (hne : rest ≠ []) : l.downloadProgress < PROGRESS_FINISHED := by
  have hrest := sum_sizes_pos h.positive hne
  have htotal := h.total_eq
  have hsmall := h.regular.small
  obtain ⟨total, heq⟩ : ∃ total : Nat, l.metadata.fileTotalSize = total :=
    ⟨l.metadata.fileTotalSize.toNat, by omega⟩
  rw [h.progress, heq]
  exact progressOf_lt (by omega) (by omega)

theorem Round.rest_eq_nil (hfinished : l.downloadProgress = PROGRESS_FINISHED) : rest = [] := by
  by_contra hne
  exact absurd hfinished (h.progress_lt hne).ne

theorem Round.progress_le : l.downloadProgress ≤ PROGRESS_FINISHED := by
  by_cases hne : rest = []
  · have htotal := h.total_eq
    rw [hne, map_nil, sum_nil, zero_add] at htotal
    rw [h.progress, htotal]
    rcases Nat.eq_zero_or_pos l.curDownloadedSize with hzero | hpos
    · rw [hzero, progressOf_zero]
      decide
    · have hsmall := h.regular.small
      exact (progressOf_self hpos (by omega)).le
  · exact (h.progress_lt hne).le

end Progress

theorem only_element {α β : Type*} {xs : List α} {ys : List β} {x : α}
    (hone : xs.length + ys.length ≤ 1) (hi : xs[i]? = some x) : xs = [x] ∧ i = 0 ∧ ys = [] := by
  have hlt : i < xs.length := (List.getElem?_eq_some_iff.mp hi).1
  obtain ⟨p, rfl⟩ : ∃ p, xs = [p] := length_eq_one_iff.mp (by omega)
  rw [length_singleton] at hlt hone
  obtain rfl : i = 0 := by omega
  obtain rfl : p = x := by simpa using hi
  exact ⟨rfl, rfl, eq_nil_of_length_eq_zero (by omega)⟩

/-! #### Steps that keep the stage -/

theorem Stage.congr (h : l.Stage) (hmetadata : l'.metadata = l.metadata)
    (hcur : l'.curDownloadedSize = l.curDownloadedSize)
    (hprogress : l'.downloadProgress = l.downloadProgress) (hdir : l'.dir = l.dir)
    (hwaiting : l'.waiting = l.waiting) (hrunning : l'.running = l.running)
    (hstatus : l'.status = .downloading → l.status = .downloading) : l'.Stage := by
  cases h with
  | cleared hm hc hp ht =>
    exact .cleared (hmetadata.trans hm) (hcur.trans hc) (hprogress.trans hp) fun hs => by
      rw [hwaiting, hrunning]
      exact ht (hstatus hs)
  | idle rest done round hw hr =>
    exact .idle rest done (round.congr hmetadata hcur hprogress hdir) (hwaiting.trans hw)
      (hrunning.trans hr)
  | parsed rest round hr =>
    exact .parsed rest (round.congr hmetadata hcur hprogress hdir) (hrunning.trans hr)
  | waits rest done round hw =>
    exact .waits rest done (round.congr hmetadata hcur hprogress hdir) (hwaiting.trans hw)
  | fetches rest done round hr =>
    exact .fetches rest done (round.congr hmetadata hcur hprogress hdir) (hrunning.trans hr)
  | updates rest done f round hr ht =>
    exact .updates rest done f (round.congr hmetadata hcur hprogress hdir) (hrunning.trans hr)
      (by rw [hdir, ht])
  | nexts rest done f round hr =>
    exact .nexts rest done f (round.congr hmetadata hcur hprogress hdir) (hrunning.trans hr)

variable (h : l.Sound)
include h

theorem Sound.cancel : ({ l with waiting := [] } : Loader).Stage := by
  have hone := h.one
  cases h.stage with
  | cleared hm hc hp ht => exact .cleared hm hc hp fun hs => ⟨.inl rfl, (ht hs).2⟩
  | idle rest done round hw hr => exact .idle rest done (round.congr rfl rfl rfl rfl) rfl hr
  | parsed rest round hr => exact .parsed rest (round.congr rfl rfl rfl rfl) hr
  | waits rest done round hw =>
    have hr : l.running = [] := by
      rw [hw, length_singleton] at hone
      exact eq_nil_of_length_eq_zero (by omega)
    exact .idle rest done (round.congr rfl rfl rfl rfl) rfl hr
  | fetches rest done round hr => exact .fetches rest done (round.congr rfl rfl rfl rfl) hr
  | updates rest done f round hr ht =>
    exact .updates rest done f (round.congr rfl rfl rfl rfl) hr ht
  | nexts rest done f round hr => exact .nexts rest done f (round.congr rfl rfl rfl rfl) hr

theorem Sound.running_le : l.running.length ≤ 1 := by
  have := h.one
  omega

theorem Sound.clear : l.clearBulkLoadStates.Sound where
  one := by simpa [clearBulkLoadStates] using h.running_le
  stage := .cleared rfl rfl rfl fun hs => by cases hs
  finished hs := by cases hs

theorem Sound.removeDir (removed : Bool) :
    (l.removeLocalBulkLoadDir removed).clearBulkLoadStates.Sound where
  one := by simpa [clearBulkLoadStates, removeLocalBulkLoadDir] using h.running_le
  stage := .cleared rfl rfl rfl fun hs => by cases hs
  finished hs := by cases hs

theorem Sound.setStatus {status : BulkLoadStatus} (hne : status ≠ .downloading)
    (hne' : status ≠ .downloaded) : ({ l with status := status } : Loader).Sound where
  one := h.one
  stage := h.stage.congr rfl rfl rfl rfl rfl rfl fun hs => absurd hs hne
  finished hs := absurd hs hne'

theorem Sound.handleBulkLoadFinish (req : Request) : (l.handleBulkLoadFinish req).Sound := by
  unfold Loader.handleBulkLoadFinish
  split
  · exact h
  · exact h.removeDir req.dirRemoved

theorem Sound.pauseBulkLoad : l.pauseBulkLoad.Sound := by
  unfold Loader.pauseBulkLoad
  split
  · exact h
  · split
    · refine ⟨by simpa using h.running_le, ?_, fun hs => by cases hs⟩
      exact h.cancel.congr rfl rfl rfl rfl rfl rfl fun hs => by cases hs
    · exact h.setStatus (by simp) (by simp)

theorem Sound.startDownload (req : Request) (hrunning : l.running = []) :
    (l.startDownload req).Sound := by
  unfold Loader.startDownload
  split
  · exact h
  · have hnone : (if l.status = .invalid then l.removeLocalBulkLoadDir req.dirRemoved
        else l).running = [] := by
      split <;> exact hrunning
    constructor
    · simp only [clearBulkLoadStates, hnone]
      split <;> simp
    · refine .cleared rfl rfl rfl fun _ => ⟨?_, .inl hnone⟩
      simp only
      split
      · exact .inr rfl
      · exact .inl rfl
    · intro hs
      cases hs

theorem Sound.doBulkLoad {req : Request} (hcalm : l.Calm (.request req)) :
    (l.doBulkLoad req).Sound := by
  unfold Loader.doBulkLoad
  split
  · exact h
  · split
    · exact h
    · split
      · rename_i hmeta
        split
        · rename_i hstarts
          exact h.startDownload req (hcalm hmeta hstarts)
        · exact h
      · split
        · exact h.setStatus (by simp) (by simp)
        · exact h
      · split
        · exact h.setStatus (by simp) (by simp)
        · exact h.handleBulkLoadFinish req
      · exact h.pauseBulkLoad
      · exact h.handleBulkLoadFinish req
      · exact h.handleBulkLoadFinish req
      · exact h
      · exact h
      · exact h

theorem Sound.changeRole (role : Role) : (l.changeRole role).Sound := by
  have hrole : ∀ {m : Loader}, m.Sound → ({ m with role := role } : Loader).Sound := fun hm =>
    ⟨hm.one, hm.stage.congr rfl rfl rfl rfl rfl rfl id, hm.finished⟩
  unfold Loader.changeRole
  simp only
  split
  · exact hrole h.clear
  · exact hrole h

theorem Sound.check : l.checkDownloadFinish.Sound := by
  unfold checkDownloadFinish
  split
  · rename_i hfinished
    refine ⟨by simpa using h.running_le, ?_, fun _ => hfinished.1⟩
    exact h.cancel.congr rfl rfl rfl rfl rfl rfl fun hs => by cases hs
  · exact h

/-! #### Steps of the tasks -/

theorem Sound.alone {task : Running} (hi : l.running[i]? = some task) :
    l.running = [task] ∧ i = 0 ∧ l.waiting = [] :=
  only_element ((Nat.add_comm _ _).trans_le h.one) hi

theorem Sound.alone_waiting {task : Waiting} (hi : l.waiting[i]? = some task) :
    l.waiting = [task] ∧ i = 0 ∧ l.running = [] :=
  only_element h.one hi

theorem Sound.startTask {task : Waiting} (hi : l.waiting[i]? = some task) :
    (l.startTask i task).Sound := by
  obtain ⟨hwaiting, rfl, hrunning⟩ := h.alone_waiting hi
  have hnone : l.waiting.eraseIdx 0 = [] := by rw [hwaiting]; rfl
  cases task with
  | files =>
    refine ⟨by simp [Loader.startTask, hnone, hrunning], ?_, h.finished⟩
    cases h.stage with
    | cleared hm hc hp ht =>
      exact .cleared hm hc hp fun _ => ⟨.inl hnone, .inr (by simp [Loader.startTask, hrunning])⟩
    | idle rest done round hw hr | waits rest done round hw => simp [hwaiting] at hw
    | parsed rest round hr | fetches rest done round hr | updates rest done f round hr ht
    | nexts rest done f round hr => simp [hrunning] at hr
  | sstFile rest =>
    simp only [Loader.startTask]
    split
    · rename_i hs
      refine ⟨by simp [hnone, hrunning], ?_, h.finished⟩
      cases h.stage with
      | cleared hm hc hp ht =>
        -- no file waits in a round without metadata
        rcases (ht hs).1 with hw | hw <;> simp [hwaiting] at hw
      | waits rest' done round hw =>
        obtain rfl : rest = rest' := by simpa [hwaiting] using hw
        exact .fetches rest done (round.congr rfl rfl rfl rfl) (by simp [hrunning])
      | idle rest' done round hw hr => simp [hwaiting] at hw
      | parsed rest' round hr | fetches rest' done round hr | updates rest' done f round hr ht
      | nexts rest' done f round hr => simp [hrunning] at hr
    · refine ⟨by simp [hnone, hrunning], ?_, h.finished⟩
      exact h.cancel.congr rfl rfl rfl rfl hnone rfl id

theorem Sound.loadMetadata {loaded : Option Metadata} (hcalm : l.Calm (.metadata i loaded))
    (hi : l.running[i]? = some .metadata) : (l.loadMetadata i loaded).Sound := by
  obtain ⟨hrunning, rfl, hwaiting⟩ := h.alone hi
  have hnone : l.running.eraseIdx 0 = [] := by rw [hrunning]; rfl
  have hto : l.running.set 0 .parsed = [.parsed] := by rw [hrunning]; rfl
  cases h.stage with
  | cleared hm hc hp ht =>
    have hfinished : l.status ≠ .downloaded := fun hs => by
      have hdone := h.finished hs
      rw [hp] at hdone
      cases hdone
    cases loaded with
    | none =>
      exact ⟨by simp [Loader.loadMetadata, leave, hnone, hwaiting],
        .cleared hm hc hp fun _ => ⟨.inl hwaiting, .inl hnone⟩, fun hs => absurd hs hfinished⟩
    | some m =>
      have hregular : m.Regular := hcalm
      simp only [Loader.loadMetadata]
      split
      · rename_i htotal
        exact ⟨by simp [leave, hnone, hwaiting],
          .cleared (hregular.eq_empty htotal) hc hp fun _ => ⟨.inl hwaiting, .inl hnone⟩,
          fun hs => absurd hs hfinished⟩
      · refine ⟨by simp [goTo, hto, hwaiting], .parsed m.files ?_ hto,
          fun hs => absurd hs hfinished⟩
        refine ⟨by simp [goTo], hregular, by simp [goTo, hc], ?_, by simp⟩
        simp only [goTo, hc, hp, progressOf_zero]
  | idle rest done round hw hr => simp [hrunning] at hr
  | waits rest done round hw => simp [hwaiting] at hw
  | parsed rest round hr | fetches rest done round hr | updates rest done f round hr ht
  | nexts rest done f round hr => simp [hrunning] at hr

omit h in
/-- Without metadata only the task that loads it runs while the status is `BLS_DOWNLOADING`. -/
theorem not_downloading {task : Running} (hrunning : l.running = [task]) (hne : task ≠ .metadata)
    (htasks : l.status = .downloading →
      (l.waiting = [] ∨ l.waiting = [.files]) ∧ (l.running = [] ∨ l.running = [.metadata])) :
    l.status ≠ .downloading := by
  intro hs
  rcases (htasks hs).2 with hr | hr <;> simp [hrunning, hne] at hr

theorem Sound.enqueueFile {task : Running} (hi : l.running[i]? = some task)
    (hround : (l.metadata = {} ∧ l.curDownloadedSize = 0 ∧ l.downloadProgress = 0 ∧
      l.status ≠ .downloading) ∨ ∃ done, l.Round rest done) :
    ((l.leave i).enqueueFile rest).Sound := by
  obtain ⟨hrunning, rfl, hwaiting⟩ := h.alone hi
  have hnone : (l.leave 0).running = [] := by simp [leave, hrunning]
  unfold Loader.enqueueFile
  split
  · refine ⟨by simp [leave, hrunning, hwaiting], ?_, h.finished⟩
    rcases hround with ⟨hm, hc, hp, hs⟩ | ⟨done, round⟩
    · exact .cleared hm hc hp fun hs' => absurd hs' hs
    · exact .idle rest done (round.congr rfl rfl rfl rfl) hwaiting hnone
  · refine ⟨by simp [leave, hrunning, hwaiting], ?_, h.finished⟩
    rcases hround with ⟨hm, hc, hp, hs⟩ | ⟨done, round⟩
    · exact .cleared hm hc hp fun hs' => absurd hs' hs
    · exact .waits rest done (round.congr rfl rfl rfl rfl) (by simp [leave, hwaiting])

theorem Sound.first (hi : l.running[i]? = some .parsed) :
    ((l.leave i).enqueueFile l.metadata.files).Sound := by
  obtain ⟨hrunning, -, hwaiting⟩ := h.alone hi
  refine h.enqueueFile hi ?_
  cases h.stage with
  | cleared hm hc hp ht => exact .inl ⟨hm, hc, hp, not_downloading hrunning nofun ht⟩
  | parsed rest round hr =>
    have hfiles : l.metadata.files = rest := by simpa using round.files
    exact .inr ⟨[], hfiles ▸ round⟩
  | idle rest done round hw hr => simp [hrunning] at hr
  | waits rest done round hw => simp [hwaiting] at hw
  | fetches rest done round hr | updates rest done f round hr ht | nexts rest done f round hr =>
    simp [hrunning] at hr

variable {left : List FileMeta} {dir' : String → Option Int} {f : FileMeta} {removed : Bool}
  {fetched : Fetched} {verified : Option Nat}

theorem Sound.next (hi : l.running[i]? = some (.next left)) :
    ((l.leave i).enqueueFile left.dropLast).Sound := by
  obtain ⟨hrunning, -, hwaiting⟩ := h.alone hi
  refine h.enqueueFile hi ?_
  cases h.stage with
  | cleared hm hc hp ht => exact .inl ⟨hm, hc, hp, not_downloading hrunning nofun ht⟩
  | nexts rest done f round hr =>
    obtain rfl : left = rest ++ [f] := by simpa [hrunning] using hr
    rw [dropLast_concat]
    exact .inr ⟨_, round⟩
  | idle rest done round hw hr => simp [hrunning] at hr
  | waits rest done round hw => simp [hwaiting] at hw
  | parsed rest round hr | fetches rest done round hr | updates rest done f round hr ht =>
    simp [hrunning] at hr

omit h

theorem fetchFile_spec {dir : String → Option Int} (hpos : 0 < f.size) (hsmall : f.size ≤ 2 ^ 53)
    (h : fetchFile dir f removed fetched = (dir', verified)) :
    (∀ name, name ≠ f.name → dir' name = dir name) ∧
      (dir f.name = some f.size → dir' = dir ∧ verified = some f.size.toNat) ∧
      ∀ fSize, verified = some fSize → fSize = f.size.toNat ∧ dir' f.name = some f.size := by
  have hdownload : ∀ {d : String → Option Int}, (∀ name, name ≠ f.name → d name = dir name) →
      fetchFile.download f fetched d = (dir', verified) →
      (∀ name, name ≠ f.name → dir' name = dir name) ∧
        ∀ fSize, verified = some fSize → fSize = f.size.toNat ∧ dir' f.name = some f.size := by
    intro d hd heq
    unfold fetchFile.download at heq
    split at heq
    · cases heq
      exact ⟨fun name hname => by rw [update_of_ne hname, hd name hname],
        fun fSize hsome => by cases hsome⟩
    · rename_i size md5
      cases heq
      refine ⟨fun name hname => by rw [update_of_ne hname, hd name hname], fun fSize hsome => ?_⟩
      split at hsome
      · cases hsome
      · rename_i hok
        cases hsome
        have hsize : (size : Int) = f.size := not_not.mp fun hne => hok (.inr hne)
        exact ⟨by omega, by rw [update_self, hsize]⟩
  unfold fetchFile at h
  split at h
  · rename_i hfile
    obtain ⟨hothers, hverified⟩ := hdownload (fun _ _ => rfl) h
    exact ⟨hothers, fun hsome => by simp [hfile] at hsome, hverified⟩
  · rename_i size hfile
    split at h
    · rename_i hsize
      cases h
      have hmod : (f.size % 2 ^ 64).toNat = f.size.toNat := by
        rw [Int.emod_eq_of_lt hpos.le (by omega)]
      refine ⟨fun _ _ => rfl, fun _ => ⟨rfl, by rw [hmod]⟩, fun fSize hsome => ?_⟩
      cases hsome
      exact ⟨hmod, by rw [hfile, hsize]⟩
    · rename_i hsize
      have hwrong : dir f.name = some f.size → False := fun hsome =>
        hsize (Option.some.inj (hfile.symm.trans hsome))
      split at h
      · obtain ⟨hothers, hverified⟩ := hdownload
          (fun name hname => update_of_ne hname _ _) h
        exact ⟨hothers, fun hsome => (hwrong hsome).elim, hverified⟩
      · cases h
        exact ⟨fun _ _ => rfl, fun hsome => (hwrong hsome).elim, fun fSize hsome => by cases hsome⟩

theorem Round.size_le (h : l.Round rest done) (hf : f ∈ rest) : f.size ≤ 2 ^ 53 := by
  obtain ⟨front, back, rfl⟩ := append_of_mem hf
  have hfront := sum_sizes_nonneg fun g hg => h.positive g (mem_append_left _ hg)
  have hback := sum_sizes_nonneg fun g hg =>
    h.positive g (mem_append_right _ (mem_cons_of_mem f hg))
  have htotal := h.total_eq
  have hsmall := h.regular.small
  simp only [map_append, map_cons, List.sum_append, sum_cons] at htotal
  omega

theorem Round.fetch (h : l.Round (rest ++ [f]) done)
    (hfetch : fetchFile l.dir f removed fetched = (dir', verified)) :
    (∀ g ∈ done, dir' g.name = some g.size) ∧
      ∀ fSize, verified = some fSize → fSize = f.size.toNat ∧ dir' f.name = some f.size := by
  have hf : f ∈ rest ++ [f] := mem_append_right _ mem_cons_self
  obtain ⟨hothers, hsame, hverified⟩ := fetchFile_spec (h.positive f hf) (h.size_le hf) hfetch
  refine ⟨fun g hg => ?_, hverified⟩
  by_cases hname : g.name = f.name
  · -- a file of the same name has the same size, and is not downloaded again
    have hsize : g.size = f.size := h.regular.sameName g
      (by rw [h.files]; exact mem_append_right _ hg) f
      (by rw [h.files]; exact mem_append_left _ hf) hname
    have hthere := h.there g hg
    rw [hname, hsize] at hthere
    rw [(hsame hthere).1]
    exact h.there g hg
  · rw [hothers g.name hname]
    exact h.there g hg

theorem Round.withDir (h : l.Round rest done) {running : List Running}
    (hthere : ∀ g ∈ done, dir' g.name = some g.size) :
    ({ l with dir := dir', running := running } : Loader).Round rest done :=
  ⟨h.files, h.regular, h.counted, h.progress, hthere⟩

theorem Sound.fetch (h : l.Sound) (hi : l.running[i]? = some (.fetch left))
    (hlast : left.getLast? = some f)
    (hfetch : fetchFile l.dir f removed fetched = (dir', verified)) :
    (match verified with
      | none => ({ l with dir := dir' } : Loader).leave i
      | some fSize => ({ l with dir := dir' } : Loader).goTo i (.update left fSize)).Sound := by
  obtain ⟨hrunning, rfl, hwaiting⟩ := h.alone hi
  have hnone : l.running.eraseIdx 0 = [] := by rw [hrunning]; rfl
  have hto : ∀ task, l.running.set 0 task = [task] := fun task => by rw [hrunning]; rfl
  cases h.stage with
  | cleared hm hc hp ht =>
    have hs := not_downloading hrunning nofun ht
    cases verified with
    | none =>
      exact ⟨by simp [leave, hnone, hwaiting], .cleared hm hc hp fun hs' => absurd hs' hs,
        h.finished⟩
    | some fSize =>
      exact ⟨by simp [goTo, hto, hwaiting], .cleared hm hc hp fun hs' => absurd hs' hs, h.finished⟩
  | fetches rest done round hr =>
    obtain rfl : left = rest := by simpa [hrunning] using hr
    obtain ⟨front, rfl⟩ := List.getLast?_eq_some_iff.mp hlast
    obtain ⟨hthere, hverified⟩ := round.fetch hfetch
    cases verified with
    | none =>
      exact ⟨by simp [leave, hnone, hwaiting],
        .idle (front ++ [f]) done (round.withDir hthere) hwaiting hnone, h.finished⟩
    | some fSize =>
      obtain ⟨rfl, hfile⟩ := hverified fSize rfl
      exact ⟨by simp [goTo, hto, hwaiting],
        .updates front done f (round.withDir hthere) (hto _) hfile, h.finished⟩
  | idle rest done round hw hr => simp [hrunning] at hr
  | waits rest done round hw => simp [hwaiting] at hw
  | parsed rest round hr | updates rest done f round hr ht | nexts rest done f round hr =>
    simp [hrunning] at hr

theorem Round.update (h : l.Round (rest ++ [f]) done) (hthere : l.dir f.name = some f.size) :
    (l.updateProgress f.size.toNat).Round rest (f :: done) := by
  have hf : f ∈ rest ++ [f] := mem_append_right _ mem_cons_self
  have hpos := h.positive f hf
  have hrest := sum_sizes_nonneg fun g hg => h.positive g (mem_append_left [f] hg)
  have htotal := h.total_eq
  have hsmall := h.regular.small
  simp only [map_append, map_cons, map_nil, List.sum_append, sum_cons, sum_nil] at htotal
  have hfits : (l.curDownloadedSize + f.size.toNat) % 2 ^ 64 =
      l.curDownloadedSize + f.size.toNat := Nat.mod_eq_of_lt (by omega)
  unfold updateProgress
  rw [if_neg (by omega)]
  simp only [hfits]
  refine ⟨by simpa using h.files, h.regular, ?_, rfl, ?_⟩
  · have hcounted := h.counted
    simp only [map_cons, sum_cons]
    push_cast
    omega
  · exact forall_mem_cons.mpr ⟨hthere, h.there⟩

theorem Sound.update (h : l.Sound) {fSize : Nat} (hi : l.running[i]? = some (.update left fSize)) :
    ((l.updateProgress fSize).goTo i (.next left)).Sound := by
  obtain ⟨hrunning, rfl, hwaiting⟩ := h.alone hi
  have htasks : (l.updateProgress fSize).running = l.running ∧
      (l.updateProgress fSize).waiting = l.waiting ∧
      (l.updateProgress fSize).status = l.status := by
    unfold updateProgress
    split <;> exact ⟨rfl, rfl, rfl⟩
  have hto : ((l.updateProgress fSize).goTo 0 (.next left)).running = [.next left] := by
    simp [goTo, htasks.1, hrunning]
  have hone : ((l.updateProgress fSize).goTo 0 (.next left)).waiting.length +
      ((l.updateProgress fSize).goTo 0 (.next left)).running.length ≤ 1 := by
    rw [hto]
    simp [goTo, htasks.2.1, hwaiting]
  cases h.stage with
  | cleared hm hc hp ht =>
    have hs := not_downloading hrunning nofun ht
    have hsame : l.updateProgress fSize = l := by simp [updateProgress, hm]
    refine ⟨hone, ?_, ?_⟩
    · rw [hsame]
      exact .cleared hm hc hp fun hs' => absurd hs' hs
    · rw [hsame]
      exact h.finished
  | updates rest done f round hr ht =>
    obtain ⟨rfl, rfl⟩ : left = rest ++ [f] ∧ fSize = f.size.toNat := by simpa [hrunning] using hr
    refine ⟨hone, .nexts rest done f ((round.update ht).congr rfl rfl rfl rfl) hto, fun hs => ?_⟩
    -- the download has not ended while a file is left to be counted
    have hdone := h.finished (htasks.2.2.symm.trans hs)
    exact absurd hdone (round.progress_lt (by simp)).ne
  | idle rest done round hw hr => simp [hrunning] at hr
  | waits rest done round hw => simp [hwaiting] at hw
  | parsed rest round hr | fetches rest done round hr | nexts rest done f round hr =>
    simp [hrunning] at hr

/-! ### Whole runs -/

theorem Sound.step (h : l.Sound) {e : Event} (hcalm : l.Calm e) (hstep : l.step e = some l') :
    l'.Sound := by
  cases e with
  | request req =>
    cases hstep
    exact h.doBulkLoad hcalm
  | changeRole role =>
    cases hstep
    exact h.changeRole role
  | start i =>
    obtain ⟨task, hi, rfl⟩ := Option.map_eq_some_iff.mp hstep
    exact h.startTask hi
  | metadata i loaded =>
    simp only [Loader.step] at hstep
    split at hstep <;> cases hstep
    exact h.loadMetadata hcalm ‹_›
  | first i =>
    simp only [Loader.step] at hstep
    split at hstep <;> cases hstep
    exact h.first ‹_›
  | fetch i removed fetched =>
    simp only [Loader.step] at hstep
    split at hstep
    · rename_i left hi
      obtain ⟨f, hlast, rfl⟩ := Option.map_eq_some_iff.mp hstep
      exact h.fetch hi hlast rfl
    · cases hstep
  | update i =>
    simp only [Loader.step] at hstep
    split at hstep <;> cases hstep
    exact h.update ‹_›
  | next i =>
    simp only [Loader.step] at hstep
    split at hstep <;> cases hstep
    exact h.next ‹_›
  | check =>
    simp only [Loader.step] at hstep
    split at hstep <;> cases hstep
    exact ⟨h.check.one, h.check.stage.congr rfl rfl rfl rfl rfl rfl id, h.check.finished⟩

theorem sound_start (role : Role) (dir : String → Option Int) :
    ({ role := role, dir := dir } : Loader).Sound :=
  ⟨by simp, .cleared rfl rfl rfl (fun hs => by cases hs), fun hs => by cases hs⟩

theorem Stage.progress (h : l.Stage) : l.downloadProgress ≤ PROGRESS_FINISHED ∧
    (l.downloadProgress = PROGRESS_FINISHED →
      ∀ f ∈ l.metadata.files, l.dir f.name = some f.size) := by
  have hround : ∀ {rest done}, l.Round rest done → l.downloadProgress ≤ PROGRESS_FINISHED ∧
      (l.downloadProgress = PROGRESS_FINISHED →
        ∀ f ∈ l.metadata.files, l.dir f.name = some f.size) := by
    intro rest done round
    refine ⟨round.progress_le, fun hfinished f hf => round.there f ?_⟩
    rwa [round.files, round.rest_eq_nil hfinished, nil_append] at hf
  cases h with
  | cleared hm hc hp ht =>
    rw [hp]
    exact ⟨by decide, fun hfinished => absurd hfinished (by decide)⟩
  | idle rest done round hw hr | parsed rest round hr | waits rest done round hw
  | fetches rest done round hr | updates rest done f round hr ht | nexts rest done f round hr =>
    exact hround round

end Loader

/-- **A finished download is complete.** For every run of requests, role changes and background
tasks in which no round is started while a task of an earlier one is running, and all metadata is
regular: in the status `BLS_DOWNLOADED` every file of the metadata is in the local directory with
its size, and the progress is never above a hundred. -/
theorem downloaded_files_are_there {role : Role} {dir : String → Option Int} {events : List Event}
    {l : Loader}
    (hrun : run Loader.step { role := role, dir := dir } events = some l)
    (hcalm : StepsMeet Loader.step Loader.Calm
      { role := role, dir := dir } events) :
    (l.status = .downloaded → ∀ f ∈ l.metadata.files, l.dir f.name = some f.size) ∧
      l.downloadProgress ≤ PROGRESS_FINISHED := by
  have h : l.Sound := run_invariant_of_steps
    (fun _ _ _ hstep hmeet hl => hl.step hmeet hstep) hrun hcalm (Loader.sound_start role dir)
  obtain ⟨hle, hfiles⟩ := h.stage.progress
  exact ⟨fun hs => hfiles (h.finished hs), hle⟩

def byteFiles (names : List String) : Metadata where
  files := names.map fun name => ⟨name, 1, ""⟩
  fileTotalSize := names.length

theorem regular_byteFiles {names : List String} (h : names.length ≤ 2 ^ 53) :
    (byteFiles names).Regular where
  total := by simp [byteFiles, comp_def]
  positive f hf := by
    obtain ⟨name, -, rfl⟩ := mem_map.mp hf
    exact Int.one_pos
  sameName f hf g hg _ := by
    obtain ⟨name, -, rfl⟩ := mem_map.mp hf
    obtain ⟨name', -, rfl⟩ := mem_map.mp hg
    rfl
  small := by
    simp only [byteFiles]
    exact_mod_cast h

/-- A round that is paused before its first file, and another one that downloads both files. -/
def twoFiles : List Event :=
  [.request { metaStatus := .downloading }, .start 0, .metadata 0 (some (byteFiles ["a", "b"])),
    .first 0, .request { metaStatus := .pausing }, .request { metaStatus := .downloading },
    .start 0, .metadata 0 (some (byteFiles ["a", "b"])), .first 0, .start 0,
    .fetch 0 true (.ok 1 ""), .update 0, .next 0, .start 0, .fetch 0 true (.ok 1 ""), .update 0]

theorem check_finished {l : Loader} (hprogress : l.downloadProgress = PROGRESS_FINISHED)
    (hstatus : l.status = .downloading) (hchecks : l.checks ≠ 0) :
    l.step .check =
      some { l with status := .downloaded, waiting := [], checks := l.checks - 1 } := by
  simp [Loader.step, Loader.checkDownloadFinish, hprogress, hstatus, hchecks]

theorem downloaded_files_are_there_two :
    ∃ l, run Loader.step { role := .primary } (twoFiles ++ [.check]) = some l ∧
      l.status = .downloaded ∧ l.metadata = byteFiles ["a", "b"] ∧ l.dir "a" = some 1 := by
  have hcalm : StepsMeet Loader.step Loader.Calm { role := .primary }
      (twoFiles ++ [.check]) := by
    iterate 16
      refine stepsMeet_cons
        (by first | trivial | exact fun _ _ => rfl | exact regular_byteFiles (by decide)) rfl ?_
    exact ⟨trivial, fun _ _ => trivial⟩
  obtain ⟨l, hrun, hprogress, hstatus, hchecks, hmetadata⟩ :
      ∃ l, run Loader.step { role := .primary } twoFiles = some l ∧
        l.downloadProgress = progressOf 2 (2 : Nat) ∧ l.status = .downloading ∧ l.checks = 2 ∧
        l.metadata = byteFiles ["a", "b"] := ⟨_, rfl, rfl, rfl, rfl, rfl⟩
  rw [progressOf_self (by decide) (by decide)] at hprogress
  have hend : run Loader.step { role := .primary } (twoFiles ++ [.check]) =
      some { l with status := .downloaded, waiting := [], checks := l.checks - 1 } := by
    rw [run_append, hrun]
    simp [run, check_finished hprogress hstatus (by simp [hchecks])]
  refine ⟨_, hend, rfl, hmetadata, ?_⟩
  exact (downloaded_files_are_there hend hcalm).1 rfl ⟨"a", 1, ""⟩ (by simp [hmetadata, byteFiles])

/-- A replica is paused while a task downloads the file `b`, and starts again. The task of the first
round counts its file for the second one, whose own task counts it again. -/
def pausedAndRestarted : List Event :=
  [.request { metaStatus := .downloading }, .start 0, .metadata 0 (some (byteFiles ["a", "b"])),
    .first 0, .start 0, .request { metaStatus := .pausing },
    .request { metaStatus := .downloading }, .start 0,
    .metadata 1 (some (byteFiles ["a", "b"])), .first 1, .fetch 0 true (.ok 1 ""), .update 0,
    .start 0, .fetch 1 true (.ok 1 ""), .update 1]

/-- **A file that is not there.** The status is `BLS_DOWNLOADED`, and the file `a` is missing. -/
theorem stale_task_ends_the_download :
    ∃ l, run Loader.step { role := .primary } (pausedAndRestarted ++ [.check]) =
        some l ∧ l.status = .downloaded ∧ l.metadata = byteFiles ["a", "b"] ∧ l.dir "a" = none := by
  obtain ⟨l, hrun, hprogress, hstatus, hchecks, hmetadata, hdir⟩ :
      ∃ l, run Loader.step { role := .primary } pausedAndRestarted = some l ∧
        l.downloadProgress = progressOf 2 (2 : Nat) ∧ l.status = .downloading ∧ l.checks = 2 ∧
        l.metadata = byteFiles ["a", "b"] ∧ l.dir "a" = none := ⟨_, rfl, rfl, rfl, rfl, rfl, rfl⟩
  rw [progressOf_self (by decide) (by decide)] at hprogress
  refine ⟨{ l with status := .downloaded, waiting := [], checks := l.checks - 1 }, ?_, rfl,
    hmetadata, hdir⟩
  rw [run_append, hrun]
  simp [run, check_finished hprogress hstatus (by simp [hchecks])]

end Pegasus.Replica.BulkLoad
