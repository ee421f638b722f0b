/-
What a client scan delivers (`Pegasus.Scan.Delivery`).

What the callbacks have been given, what the scanner holds and what the context at the server owes
make up the records of the partition. When the context is lost, the scanner has to know where to go
on, and it only knows the last key of the last answer. So a context may be lost only while the last
answer has a record, or while nothing has been returned (`Exchange.Restartable`).

- `Sound.step`: every step keeps the account, as long as no context is lost otherwise, and makes
  progress, apart from losses;
- `delivered_exactly_once`: the main result.
-/

import Pegasus.Scan.Batches

namespace Pegasus.Scan

open TransitionSystem List Option Function

variable {Key Value Partition : Type} [LinearOrder Key]

/-- The records of a partition that a scan is to return, in the order of the keys. -/
def expected (q : Query Key Value Partition) (servers : Servers Key Value Partition)
    (h : Partition) : List (Key × Value) :=
  q.restFrom h (servers.data h) q.startKey q.startInclusive

/-- The scan can be opened: the range is not empty, also where the filter moves its start, and an
iterator whose start is moved is not bound to a hash key. -/
structure Query.Seekable (q : Query Key Value Partition) : Prop where
  seek : (q.seekStart q.startKey q.startInclusive).1 = q.startKey ∨ q.seeksAnywhere = true
  range : isAfter (q.seekStart q.startKey q.startInclusive).1
    ((q.seekStart q.startKey q.startInclusive).2 && q.stopInclusive) q.stopKey

def Query.shown (q : Query Key Value Partition) (record : Key × Value) : Option (Key × Value) :=
  if q.onlyReturnCount then none else some record

def Output.given : Output Key Value → List (Option (Key × Value))
  | .record kv => [some kv]
  | .count kvCount => List.replicate kvCount none
  | .complete => []
  | .failed => []

def Output.record? : Output Key Value → Option (Key × Value)
  | .record kv => some kv
  | _ => none

def Output.counts : Output Key Value → Nat
  | .count kvCount => kvCount
  | _ => 0

namespace Exchange

/-- What the scanner has received and not given to a callback. -/
def held (s : Exchange Key Value Partition) : List (Option (Key × Value)) :=
  if s.type = .countOnly then List.replicate s.kvCount none
  else (s.kvs.drop s.position).map some

def given (s : Exchange Key Value Partition) : List (Option (Key × Value)) :=
  s.outputs.flatMap Output.given

/-- The scanner can open its scan again where it stands. -/
def Restartable (s : Exchange Key Value Partition) : Prop := s.kvs ≠ [] ∨ s.taken = []

/-- A context of the scan is lost, or an answer to it, only while the scan can be opened again. -/
def Benign (s : Exchange Key Value Partition) : Event Partition → Prop
  | .lose h handle => s.hash = some h → s.context = .valid handle → s.Restartable
  | .fail true => (∃ handle, s.context = .valid handle) → s.Restartable
  | _ => True

/-- What is still to come from the partition `h`. -/
def Standing (q : Query Key Value Partition) (s : Exchange Key Value Partition) (h : Partition)
    (rest : List (Key × Value)) : Prop :=
  match s.context with
  | .completed => rest = []
  | .notExist => s.Restartable
  | .valid handle => handle < (s.caches h).counter ∧
    ((s.caches h).contexts handle = none → s.Restartable) ∧
    ∀ context, (s.caches h).contexts handle = some context → q.owed h context.iterator = rest ∧
      context.iterator ≠ [] ∧ Increasing context.iterator ∧ 0 < context.batchSize

/-- **The account of a scan** of the partitions `all`. -/
structure Sound (q : Query Key Value Partition) (servers : Servers Key Value Partition)
    (all : List Partition) (s : Exchange Key Value Partition) : Prop where
  order : ∃ finished, all.reverse = finished ++ s.hash.toList ++ s.splits.reverse ∧
    s.given ++ s.held = ((finished.flatMap (expected q servers)) ++ s.taken).map q.shown
  current : ∀ h, s.hash = some h →
    ∃ rest, s.taken ++ rest = expected q servers h ∧ s.Standing q h rest
  fresh : s.hash = none → s.context = .completed ∧ s.taken = []
  last : ∃ earlier, s.taken = earlier ++ s.kvs
  below : s.context ≠ .completed → ∀ record ∈ s.kvs, record.1 < q.stopKey
  counting : q.onlyReturnCount = true → s.kvs = []
  plain : q.onlyReturnCount = false → s.type = .normal
  calling : ∀ call, s.call = some call → s.kvs.length ≤ s.position ∧ s.type ≠ .countOnly ∧
    ∃ h, s.hash = some h ∧ ((s.context = .notExist ∧ call = s.startScan q) ∨
      ∃ handle, s.context = .valid handle ∧ call = .scan handle)
  finished : s.finished = true → s.splits = [] ∧ s.context = .completed ∧ s.held = []

section Steps

variable {q : Query Key Value Partition}
  {servers : Servers Key Value Partition} {all : List Partition}
  {s : Exchange Key Value Partition}

omit [LinearOrder Key] in
theorem held_eq_nil (hposition : s.kvs.length ≤ s.position) (htype : s.type ≠ .countOnly) :
    s.held = [] := by
  simp [held, htype, drop_eq_nil_of_le hposition]

theorem sound_initial (hinit : s.Initial) : Sound q servers s.splits s where
  order := ⟨[], by simp [hinit.hash], by
    simp [given, held, hinit.outputs, hinit.kvs, hinit.type, hinit.taken]⟩
  current h hh := by simp [hinit.hash] at hh
  fresh _ := ⟨hinit.context, hinit.taken⟩
  last := ⟨[], by simp [hinit.taken, hinit.kvs]⟩
  below _ := by simp [hinit.kvs]
  counting _ := hinit.kvs
  plain _ := hinit.type
  calling call hcall := by simp [hinit.call] at hcall
  finished hfinished := by simp [hinit.finished] at hfinished

variable {p : Partition} {call : Call Key} {steps handle most : Nat} {rest : List (Key × Value)}
  {cache : ContextCache Key Value} {served : Served Key Value}
  {caches : Partition → ContextCache Key Value} {outputs : List (Output Key Value)}
  {e : Event Partition} {t : Exchange Key Value Partition}

variable (h : Sound q servers all s)
include h

theorem Sound.splitReset (hcall : s.call = none) (hfinished : s.finished = false)
    (hcompleted : s.context = .completed) (hheld : s.held = []) (htype : s.type ≠ .countOnly)
    (hp : s.splits.getLast? = some p) :
    Sound q servers all { s.splitReset p with splits := s.splits.dropLast } := by
  obtain ⟨finished, horder, hgiven⟩ := h.order
  have hsplits : s.splits = s.splits.dropLast ++ [p] := (dropLast_append_getLast? p hp).symm
  refine ⟨⟨finished ++ s.hash.toList, ?_, ?_⟩, ?_, by simp [Exchange.splitReset], ⟨[], rfl⟩,
    by simp [Exchange.splitReset], fun _ => rfl, h.plain, ?_, ?_⟩
  · rw [horder]
    conv_lhs => rw [hsplits]
    simp [Exchange.splitReset]
  · have hheld' : ({ s.splitReset p with splits := s.splits.dropLast } :
        Exchange Key Value Partition).held = [] := by
      simp [held, Exchange.splitReset, htype]
    have htaken : (s.hash.toList.flatMap (expected q servers)) = s.taken := by
      cases hhash : s.hash with
      | none => simp [(h.fresh hhash).2]
      | some h' =>
        obtain ⟨rest, hrest, hstanding⟩ := h.current h' hhash
        simp only [Standing, hcompleted] at hstanding
        simp [← hrest, hstanding]
    rw [hheld']
    simp only [given, Exchange.splitReset, append_nil, flatMap_append, htaken]
    rw [hheld, append_nil] at hgiven
    exact hgiven
  · intro h' hh'
    exact ⟨_, nil_append _, .inr rfl⟩
  · intro call hcall'
    simp [Exchange.splitReset, hcall] at hcall'
  · intro hfinished'
    simp [Exchange.splitReset, hfinished] at hfinished'

theorem Sound.exists_hash (hcontext : s.context ≠ .completed) : ∃ p, s.hash = some p := by
  cases hhash : s.hash with
  | none => exact absurd (h.fresh hhash).1 hcontext
  | some p => exact ⟨p, rfl⟩

theorem Sound.startCall (hfinished : s.finished = false) (hposition : s.kvs.length ≤ s.position)
    (htype : s.type ≠ .countOnly) (hcontext : (s.context = .notExist ∧ call = s.startScan q) ∨
      ∃ handle, s.context = .valid handle ∧ call = .scan handle) :
    Sound q servers all { s with position := s.position + 1, call := some call } := by
  obtain ⟨finished, horder, hgiven⟩ := h.order
  have hcompleted : s.context ≠ .completed := by
    rcases hcontext with ⟨h, -⟩ | ⟨handle, h, -⟩ <;> simp [h]
  have hheld := held_eq_nil hposition htype
  have hheld' : ({ s with position := s.position + 1, call := some call } :
      Exchange Key Value Partition).held = [] := held_eq_nil (by simpa using by omega) htype
  refine ⟨⟨finished, horder, ?_⟩, h.current, h.fresh, h.last, h.below, h.counting, h.plain, ?_, ?_⟩
  · rw [hheld', ← hheld]
    exact hgiven
  · intro call' hcall'
    cases hcall'
    obtain ⟨p, hp⟩ := h.exists_hash hcompleted
    exact ⟨by simpa using by omega, htype, p, hp, hcontext⟩
  · intro hfinished'
    simp [hfinished] at hfinished'

theorem Sound.give (hcall : s.call = none) (hfinished : s.finished = false) {position : Nat}
    {type : AsyncScanType} {output : Output Key Value}
    (hplain : q.onlyReturnCount = false → type = .normal) (hheld : s.held = output.given ++
      ({ s with position := position, type := type } : Exchange Key Value Partition).held) :
    Sound q servers all
      { s with position := position, outputs := s.outputs ++ [output], type := type } := by
  obtain ⟨finished, horder, hgiven⟩ := h.order
  refine ⟨⟨finished, horder, ?_⟩, h.current, h.fresh, h.last, h.below, h.counting, hplain, ?_, ?_⟩
  · rw [← hgiven, hheld]
    simp [given, held]
  · intro call hcall'
    simp [hcall] at hcall'
  · intro hfinished'
    simp [hfinished] at hfinished'

/-! ### Answers -/

omit h in
theorem map_shown_of_onlyReturnCount (honly : q.onlyReturnCount = true)
    (records : List (Key × Value)) :
    records.map q.shown = List.replicate records.length none := by
  rw [map_congr_left (g := fun _ => none) fun r _ => by simp [Query.shown, honly]]
  simp

omit h in
theorem map_shown_of_not_onlyReturnCount (honly : q.onlyReturnCount = false)
    (records : List (Key × Value)) : records.map q.shown = records.map some :=
  map_congr_left fun r _ => by simp [Query.shown, honly]

omit h in
theorem mem_expected {record : Key × Value} (hrecord : record ∈ expected q servers p) :
    q.validate p record = .normal ∧ isAfter q.startKey q.startInclusive record.1 := by
  simp only [expected, Query.restFrom, Query.owed, mem_filter, decide_eq_true_eq] at hrecord
  exact ⟨hrecord.2.2, hrecord.1.2⟩

omit h in
theorem increasing_expected (p : Partition) : Increasing (expected q servers p) :=
  (((servers.data p).sorted.sublist filter_sublist).sublist filter_sublist)

omit h in
theorem restFrom_last {earlier rest : List (Key × Value)} {last : Key × Value}
    (hexpected : earlier ++ [last] ++ rest = expected q servers p) :
    q.restFrom p (servers.data p) last.1 false = rest := by
  have hsorted : Increasing (expected q servers p) := increasing_expected p
  have hlast : last ∈ expected q servers p := by simp [← hexpected]
  -- a record after the last one is in the range of the scan
  have hfrom : q.restFrom p (servers.data p) last.1 false =
      (expected q servers p).filter fun record => last.1 < record.1 := by
    simp only [expected, Query.restFrom, Query.owed, List.filter_filter]
    refine filter_congr fun record _ => ?_
    by_cases hlt : last.1 < record.1
    · have hafter : isAfter q.startKey q.startInclusive record.1 := by
        rcases (mem_expected hlast).2 with h | ⟨h, -⟩
        · exact .inl (h.trans hlt)
        · exact .inl (h ▸ hlt)
      have hafter' : isAfter last.1 false record.1 := .inl hlt
      simp [hafter, hafter', hlt]
    · simp [isAfter, hlt]
  rw [hfrom, ← hexpected, filter_append]
  rw [← hexpected] at hsorted
  obtain ⟨hbefore, -, hcross⟩ := pairwise_append.mp hsorted
  have hnone : ((earlier ++ [last]).filter fun record => last.1 < record.1) = [] := by
    rw [filter_eq_nil_iff]
    intro record hrecord
    rcases mem_append.mp hrecord with h | h
    · have := (pairwise_append.mp hbefore).2.2 record h last (by simp)
      simpa using this.le
    · simp [mem_singleton.mp h]
  have hall : (rest.filter fun record => last.1 < record.1) = rest := by
    rw [filter_eq_self]
    intro record hrecord
    simpa using hcross last (by simp) record hrecord
  rw [hnone, hall, nil_append]

variable [DecidableEq Partition]

/-- An answer that stands for what is still to come keeps the account. -/
theorem Sound.answered (hcall : s.call = some call) (hp : s.hash = some p)
    (hrest : s.taken ++ rest = expected q servers p)
    (hanswers : Answers q p cache rest steps served) :
    Sound q servers all ((s.withCache p served.cache).receive served) := by
  obtain ⟨hposition, htype, -⟩ := h.calling call hcall
  obtain ⟨response, hresponse, hkvs, hkvCount, hend⟩ := hanswers.response
  obtain ⟨finished, horder, hgiven⟩ := h.order
  rw [held_eq_nil hposition htype, append_nil] at hgiven
  have hfinished : s.finished = false := by
    by_contra hne
    obtain ⟨-, hcompleted, -⟩ := h.finished (by simpa using hne)
    obtain ⟨-, -, -, -, ⟨hcontext, -⟩ | ⟨handle, hcontext, -⟩⟩ := h.calling call hcall <;>
      simp [hcontext] at hcompleted
  simp only [receive, hresponse]
  refine ⟨⟨finished, horder, ?_⟩, ?_, ?_, ?_, ?_, ?_, ?_, ?_, ?_⟩
  · -- what has been found is held
    have hheld : ∀ t : Exchange Key Value Partition, t.kvs = response.kvs → t.position = 0 →
        t.type = (if response.kvCount.isSome then .countOnly else s.type) →
        t.kvCount = response.kvCount.getD s.kvCount → t.held = served.found.map q.shown := by
      intro t htkvs htposition httype htcount
      by_cases honly : q.onlyReturnCount = true
      · rw [map_shown_of_onlyReturnCount honly]
        simp [held, httype, htcount, hkvCount, honly]
      · have honly' : q.onlyReturnCount = false := by simpa using honly
        rw [map_shown_of_not_onlyReturnCount honly']
        simp [held, httype, htkvs, htposition, hkvCount, hkvs, honly', h.plain honly']
    rw [hheld _ rfl rfl rfl rfl, ← append_assoc, map_append]
    exact congrArg (· ++ _) hgiven
  · intro p' hp'
    obtain rfl : p = p' := mem_unique hp hp'
    rcases hend with ⟨hcompleted, hfound, -, -⟩ | ⟨context, hvalid, hcache, hfound, -, hne, hsorted,
      hbatchSize, -⟩
    · refine ⟨[], ?_, ?_⟩
      · simpa [withCache, hfound] using hrest
      · simp [Standing, hcompleted]
    · refine ⟨q.owed p context.iterator, ?_, ?_⟩
      · simpa [withCache, hfound] using hrest
      · simp only [Standing, hvalid, withCache, update_self, hcache]
        refine ⟨by simp [ContextCache.put], by simp [ContextCache.put], ?_⟩
        intro context' hcontext'
        simp only [ContextCache.put, update_self, some.injEq] at hcontext'
        subst hcontext'
        exact ⟨rfl, hne, hsorted, hbatchSize⟩
  · intro hnone
    simp [withCache, hp] at hnone
  · by_cases honly : q.onlyReturnCount = true
    · exact ⟨s.taken ++ served.found, by simp [hkvs, honly, withCache]⟩
    · exact ⟨s.taken, by simp [hkvs, honly, withCache]⟩
  · intro hcontext record hrecord
    rcases hend with ⟨hcompleted, -⟩ | ⟨context, -, -, -, hbelow, -⟩
    · exact absurd hcompleted hcontext
    · simp only [hkvs] at hrecord
      split_ifs at hrecord
      · cases hrecord
      · exact hbelow record hrecord
  · intro honly
    simp [hkvs, honly]
  · intro honly
    simp [hkvCount, honly, withCache, h.plain honly]
  · intro call' hcall'
    simp [withCache] at hcall'
  · intro hfinished'
    simp [withCache, hfinished] at hfinished'

omit [DecidableEq Partition] in
theorem Sound.startScan_answers (hmax : 0 < servers.maxIterationCount) (hseekable : q.Seekable)
    (hrest : s.taken ++ rest = expected q servers p) (hcontext : s.context = .notExist)
    (hrestartable : s.Restartable) :
    ∃ served, s.answer q servers p (s.startScan q) = some served ∧
      ∃ steps ≤ (servers.data p).records.length, Answers q p (s.caches p) rest steps served := by
  unfold startScan
  cases hlast : s.kvs.getLast? with
  | none =>
    have hkvs : s.kvs = [] := List.getLast?_eq_none_iff.mp hlast
    obtain hne | htaken := hrestartable
    · exact absurd hkvs hne
    obtain rfl : rest = expected q servers p := by simpa [htaken] using hrest
    exact onGetScanner_answers hmax _ _ hseekable.seek hseekable.range
  | some last =>
    obtain ⟨earlier, hearlier⟩ := h.last
    have hkvs : s.kvs = s.kvs.dropLast ++ [last] := (dropLast_append_getLast? last hlast).symm
    have hexpected : (earlier ++ s.kvs.dropLast) ++ [last] ++ rest = expected q servers p := by
      rw [← hrest, hearlier]
      conv_rhs => rw [hkvs]
      simp
    have hmem : last ∈ expected q servers p := by simp [← hexpected]
    have hbelow : last.1 < q.stopKey := h.below (by simp [hcontext]) last (mem_of_getLast? hlast)
    -- the filter does not move a start that has passed it
    have hseek : q.seekStart last.1 false = (last.1, false) := by
      unfold Query.seekStart
      cases hleast : q.prefixStartKey with
      | none => rfl
      | some least =>
        have hle := q.prefixStartKey_le p last (mem_expected hmem).1 least (by simp [hleast])
        simp [not_lt.mpr hle]
    rw [← restFrom_last hexpected]
    exact onGetScanner_answers hmax _ _ (by simp [hseek]) (by simp [hseek, isAfter, hbelow])

theorem Sound.notFound (hcontext : s.context = .valid handle) (hp : s.hash = some p)
    (hcontexts : (s.caches p).contexts handle = none) (hserved : served = ⟨none, s.caches p, []⟩) :
    Sound q servers all ((s.withCache p served.cache).receive served) := by
  subst hserved
  obtain ⟨finished, horder, hgiven⟩ := h.order
  obtain ⟨rest, hrest, hstanding⟩ := h.current p hp
  simp only [Standing, hcontext] at hstanding
  have hnotFinished : s.finished = false := by
    by_contra hne
    simpa [hcontext] using (h.finished (by simpa using hne)).2.1
  simp only [receive]
  refine ⟨⟨finished, horder, hgiven⟩, ?_, ?_, h.last, ?_, h.counting, h.plain, ?_, ?_⟩
  · intro p' hp'
    obtain rfl : p = p' := mem_unique hp hp'
    exact ⟨rest, hrest, hstanding.2.1 hcontexts⟩
  · intro hnone
    simp [withCache, hp] at hnone
  · intro _
    exact h.below (by simp [hcontext])
  · intro call hcall
    simp [withCache] at hcall
  · intro hfinished
    simp [withCache, hnotFinished] at hfinished

/-! ### Losses -/

omit [DecidableEq Partition] in
theorem Sound.recache {call : Option (Call Key)} (hcall : call = none ∨ call = s.call)
    (houtputs : outputs.flatMap Output.given = s.given)
    (hstanding : ∀ p rest, s.hash = some p → s.Standing q p rest →
      ({ s with caches := caches } : Exchange Key Value Partition).Standing q p rest) :
    Sound q servers all { s with call := call, caches := caches, outputs := outputs } := by
  obtain ⟨finished, horder, hgiven⟩ := h.order
  refine ⟨⟨finished, horder, ?_⟩, ?_, h.fresh, h.last, h.below, h.counting, h.plain, ?_, h.finished⟩
  · rw [← hgiven, ← houtputs]
    rfl
  · intro p hp
    obtain ⟨rest, hrest, hs⟩ := h.current p hp
    exact ⟨rest, hrest, hstanding p rest hp hs⟩
  · intro call' hcall'
    rcases hcall with rfl | rfl
    · cases hcall'
    · exact h.calling call' hcall'

theorem Sound.lose (hbenign : s.Benign (.lose p handle)) :
    Sound q servers all
      { s with caches := update s.caches p ((s.caches p).erase handle) } := by
  refine h.recache (.inr rfl) rfl fun p' rest hp' hs => ?_
  unfold Standing at hs ⊢
  split at hs <;> rename_i hcontext <;> simp only [hcontext]
  · exact hs
  · exact hs
  · rename_i handle'
    by_cases hp : p' = p
    · subst hp
      simp only [update_self, ContextCache.erase]
      by_cases hhandle : handle' = handle
      · subst hhandle
        exact ⟨hs.1, fun _ => hbenign hp' hcontext, by simp⟩
      · rw [update_of_ne hhandle]
        exact hs
    · rw [update_of_ne hp]
      exact hs

omit h [DecidableEq Partition] in
theorem finish_cache (q : Query Key Value Partition) (cache : ContextCache Key Value)
    (batchSize : Int) (e : LoopEnd Key Value) :
    (finish q cache batchSize e).cache = cache ∨
      ∃ context, (finish q cache batchSize e).cache = (cache.put context).2 := by
  unfold finish
  by_cases hmore : e.iterator ≠ [] ∧ e.complete = false
  · simp only [if_pos hmore]
    exact .inr ⟨_, rfl⟩
  · simp only [if_neg hmore]
    exact .inl trivial

omit h [DecidableEq Partition] in
theorem contexts_onScan {maxIterationCount : Nat} (hhandle : handle < cache.counter) :
    handle < (onScan q p maxIterationCount cache handle).cache.counter ∧
      (onScan q p maxIterationCount cache handle).cache.contexts handle = none := by
  unfold onScan
  cases hcontext : cache.contexts handle with
  | none => exact ⟨hhandle, hcontext⟩
  | some context =>
    dsimp only
    rcases finish_cache q (cache.erase handle) context.batchSize _ with hcache | ⟨put, hcache⟩
    · rw [hcache]
      exact ⟨hhandle, by simp [ContextCache.erase]⟩
    · rw [hcache]
      refine ⟨Nat.lt_succ_of_lt hhandle, ?_⟩
      simp only [ContextCache.put, ContextCache.erase]
      rw [update_of_ne hhandle.ne, update_self]

theorem Sound.fail (hcall : s.call = some call) (hbenign : s.Benign (.fail true))
    (hp : s.hash = some p) (hserved : s.answer q servers p call = some served) :
    Sound q servers all (({ s with call := none, outputs := s.outputs ++ [.failed] } :
      Exchange Key Value Partition).withCache p served.cache) := by
  refine h.recache (.inl rfl) (by simp [given, Output.given]) fun p' rest hp' hs => ?_
  obtain rfl : p = p' := mem_unique hp hp'
  obtain ⟨-, -, -, -, ⟨hcontext, -⟩ | ⟨handle, hcontext, rfl⟩⟩ := h.calling call hcall
  · simp only [Standing, hcontext] at hs ⊢
    exact hs
  · simp only [Standing, hcontext] at hs ⊢
    cases hserved
    obtain ⟨hlt, hnone⟩ := @contexts_onScan _ _ _ _ q p handle (s.caches p)
      servers.maxIterationCount hs.1
    simp only [update_self]
    exact ⟨hlt, fun _ => hbenign ⟨handle, hcontext⟩, by simp [hnone]⟩

omit [DecidableEq Partition] in
theorem Sound.seekable (hseekable : all ≠ [] → q.Seekable) (hp : s.hash = some p) : q.Seekable := by
  obtain ⟨finished, horder, -⟩ := h.order
  refine hseekable fun hnil => ?_
  simp [hnil, hp] at horder

/-! ### Progress -/

omit h in
def size (servers : Servers Key Value Partition) (p : Partition) : Nat :=
  (servers.data p).records.length

omit h in
/-- A bound on the calls and turns that the scan of a partition still takes. -/
def partitionWork (servers : Servers Key Value Partition) (context : ContextId)
    (caches : Partition → ContextCache Key Value) (p : Partition) : Nat :=
  match context with
  | .completed => 0
  | .notExist => 3 * size servers p + 3
  | .valid handle =>
    match (caches p).contexts handle with
    | none => 3 * size servers p + 5
    | some context => 3 * context.iterator.length

omit h in
def heldTurns (s : Exchange Key Value Partition) : Nat :=
  if s.type = .countOnly then 1 else s.kvs.length - s.position

omit h in
/-- A bound on the calls and turns that the scan still takes. -/
def workLeft (servers : Servers Key Value Partition) (s : Exchange Key Value Partition) : Nat :=
  (if s.finished then 0 else 1) + (s.splits.map fun p => 3 * size servers p + 4).sum + s.heldTurns +
    (s.hash.elim 0 (partitionWork servers s.context s.caches)) + if s.call.isNone then 1 else 0

omit h in
/-- What a loss may cost, if no partition has more than `most` records. -/
def lossCost (most : Nat) : Event Partition → Nat
  | .turn => 0
  | .serve => 0
  | .fail _ => 3 * most + 7
  | .lose _ _ => 3 * most + 7

omit [DecidableEq Partition] in
theorem Sound.turn (hcall : s.call = none) (hfinished : s.finished = false) :
    Sound q servers all (s.turn q) ∧ workLeft servers (s.turn q) + 1 ≤ workLeft servers s := by
  unfold Exchange.turn
  dsimp only
  by_cases hempty : s.kvs.length ≤ s.position ∧ s.type ≠ .countOnly
  · rw [if_pos hempty]
    have hheld := held_eq_nil hempty.1 hempty.2
    split
    · rename_i hcontext
      split
      · -- all partitions have been scanned
        rename_i hp
        have hsplits : s.splits = [] := List.getLast?_eq_none_iff.mp hp
        obtain ⟨finished, horder, hgiven⟩ := h.order
        refine ⟨⟨⟨finished, horder, ?_⟩, h.current, h.fresh, h.last, h.below, h.counting, h.plain,
          h.calling, fun _ => ⟨hsplits, hcontext, hheld⟩⟩, ?_⟩
        · rw [← hgiven]
          simp [given, held, Output.given]
        · simp only [workLeft, heldTurns, hfinished, if_true, Bool.false_eq_true, if_false]
          omega
      · rename_i p hp
        refine ⟨h.splitReset hcall hfinished hcontext hheld hempty.2 hp, ?_⟩
        have hsum : (s.splits.map fun p => 3 * size servers p + 4).sum =
            (s.splits.dropLast.map fun p => 3 * size servers p + 4).sum +
              (3 * size servers p + 4) := by
          conv_lhs => rw [(dropLast_append_getLast? p hp).symm]
          simp
        simp only [workLeft, hsum, Exchange.splitReset, heldTurns, partitionWork, hempty.2,
          if_false, hfinished, hcall, elim_some, length_nil]
        omega
    · rename_i hcontext
      refine ⟨h.startCall hfinished hempty.1 hempty.2 (.inl ⟨hcontext, rfl⟩), ?_⟩
      simp only [workLeft, heldTurns, hcall, hempty.2, if_false, isNone_none, if_true,
        isNone_some, Bool.false_eq_true]
      omega
    · rename_i handle hcontext
      refine ⟨h.startCall hfinished hempty.1 hempty.2 (.inr ⟨handle, hcontext, rfl⟩), ?_⟩
      simp only [workLeft, heldTurns, hcall, hempty.2, if_false, isNone_none, if_true,
        isNone_some, Bool.false_eq_true]
      omega
  · rw [if_neg hempty]
    by_cases honly : q.onlyReturnCount = true
    · rw [if_pos honly]
      have hkvs := h.counting honly
      have htype : s.type = .countOnly := by
        by_contra hne
        exact hempty ⟨by simp [hkvs], hne⟩
      refine ⟨h.give hcall hfinished (fun hplain => absurd honly (by simp [hplain])) ?_, ?_⟩
      · simp [held, htype, hkvs, Output.given]
      · simp only [workLeft, heldTurns, htype, hkvs, if_true, reduceCtorEq, if_false, length_nil]
        omega
    · rw [if_neg honly]
      have htype := h.plain (by simpa using honly)
      have hposition : s.position < s.kvs.length := by
        by_contra hge
        exact hempty ⟨not_lt.mp hge, by simp [htype]⟩
      rw [List.getElem?_eq_getElem hposition]
      refine ⟨h.give hcall hfinished (fun _ => htype) ?_, ?_⟩
      · have hnormal : s.type ≠ .countOnly := by simp [htype]
        simp only [held, if_neg hnormal]
        rw [drop_eq_getElem_cons hposition]
        rfl
      · simp only [workLeft, heldTurns, htype, reduceCtorEq, if_false]
        omega

theorem workLeft_answered (hcall : s.call = some call) (hp : s.hash = some p)
    (hanswers : Answers q p cache rest steps served)
    (hsteps : 3 * steps ≤ partitionWork servers s.context s.caches p)
    (hwork : 3 ≤ partitionWork servers s.context s.caches p) :
    workLeft servers ((s.withCache p served.cache).receive served) + 1 ≤ workLeft servers s := by
  obtain ⟨hposition, htype, -⟩ := h.calling call hcall
  obtain ⟨response, hresponse, hkvs, hkvCount, hend⟩ := hanswers.response
  have hheld : ((s.withCache p served.cache).receive served).heldTurns ≤
      max served.found.length 1 := by
    simp only [receive, hresponse, heldTurns, hkvs, hkvCount, withCache]
    by_cases honly : q.onlyReturnCount = true
    · simp [honly]
    · simp [honly, htype]
  have hold : s.heldTurns = 0 := by simp [heldTurns, htype, hposition]
  have hnew : partitionWork servers ((s.withCache p served.cache).receive served).context
      ((s.withCache p served.cache).receive served).caches p + max served.found.length 1 + 2 ≤
        partitionWork servers s.context s.caches p := by
    simp only [receive, hresponse, withCache]
    rcases hend with ⟨hcompleted, -, -, hfew⟩ | ⟨context, hvalid, hcache, -, -, -, -, -, hused, hlt⟩
    · rw [hcompleted]
      simp only [partitionWork] at hsteps hwork ⊢
      omega
    · rw [hvalid, hcache]
      have hput : partitionWork servers (.valid cache.counter)
          (update s.caches p (cache.put context).2) p = 3 * context.iterator.length := by
        simp [partitionWork, ContextCache.put]
      rw [hput]
      omega
  have hsame : ((s.withCache p served.cache).receive served).finished = s.finished ∧
      ((s.withCache p served.cache).receive served).splits = s.splits ∧
      ((s.withCache p served.cache).receive served).hash = s.hash ∧
      ((s.withCache p served.cache).receive served).call = none := by
    simp [receive, hresponse, withCache]
  simp only [workLeft, hsame, hp, elim_some, hold, hcall, isNone_none, if_true,
    isNone_some, Bool.false_eq_true, if_false]
  omega

theorem Sound.serve (hmax : 0 < servers.maxIterationCount) (hseekable : q.Seekable)
    (hcall : s.call = some call) :
    ∃ p served, s.hash = some p ∧ s.answer q servers p call = some served ∧
      Sound q servers all ((s.withCache p served.cache).receive served) ∧
      workLeft servers ((s.withCache p served.cache).receive served) + 1 ≤ workLeft servers s := by
  obtain ⟨hposition, htype, p, hp, hmade⟩ := h.calling call hcall
  obtain ⟨rest, hrest, hstanding⟩ := h.current p hp
  rcases hmade with ⟨hcontext, rfl⟩ | ⟨handle, hcontext, rfl⟩
  · simp only [Standing, hcontext] at hstanding
    obtain ⟨served, hserved, steps, hsteps, hanswers⟩ :=
      h.startScan_answers hmax hseekable hrest hcontext hstanding
    have hwork : partitionWork servers s.context s.caches p = 3 * size servers p + 3 := by
      simp [partitionWork, hcontext]
    refine ⟨p, served, hp, hserved, h.answered hcall hp hrest hanswers,
      workLeft_answered h hcall hp hanswers ?_ (by omega)⟩
    rw [hwork, size]
    omega
  · simp only [Standing, hcontext] at hstanding
    refine ⟨p, _, hp, rfl, ?_⟩
    cases hcontexts : (s.caches p).contexts handle with
    | none =>
      -- the scan is to be opened again
      have hfound : onScan q p servers.maxIterationCount (s.caches p) handle =
          ⟨none, s.caches p, []⟩ := by simp [onScan, hcontexts]
      refine ⟨h.notFound hcontext hp hcontexts hfound, ?_⟩
      simp only [hfound, receive, withCache, workLeft, heldTurns, htype, if_false, hp, hcall,
        elim_some, partitionWork, hcontext, hcontexts, isNone_none, if_true,
        isNone_some, Bool.false_eq_true]
      omega
    | some context =>
      obtain ⟨howed, hne, hsorted, hbatchSize⟩ := hstanding.2.2 context hcontexts
      have hlength := length_pos_iff.mpr hne
      have hwork : partitionWork servers s.context s.caches p = 3 * context.iterator.length := by
        simp [partitionWork, hcontext, hcontexts]
      have hanswers := onScan_answers (q := q) (h := p) hmax hcontexts hsorted hbatchSize
      exact ⟨h.answered hcall hp (howed ▸ hrest) hanswers,
        workLeft_answered h hcall hp hanswers (by omega) (by omega)⟩

omit h

omit [DecidableEq Partition] in
theorem partitionWork_recache {context : ContextId}
    {caches caches' : Partition → ContextCache Key Value}
    (h : ∀ handle, context = .valid handle → (caches' p).contexts handle = none ∨
      (caches' p).contexts handle = (caches p).contexts handle) :
    partitionWork servers context caches' p ≤
      partitionWork servers context caches p + (3 * size servers p + 5) := by
  cases context with
  | completed | notExist => simp [partitionWork]
  | valid handle =>
    rcases h handle rfl with h | h
    · simp [partitionWork, h]
    · simp [partitionWork, h]

omit [DecidableEq Partition] in
theorem workLeft_recache (hmost : ∀ p, size servers p ≤ most) {call : Option (Call Key)}
    (h : ∀ p handle, s.hash = some p → s.context = .valid handle →
      (caches p).contexts handle = none ∨
        (caches p).contexts handle = (s.caches p).contexts handle) :
    workLeft servers { s with call := call, caches := caches, outputs := outputs } + 1 ≤
      workLeft servers s + (3 * most + 7) := by
  have hpartition : s.hash.elim 0 (partitionWork servers s.context caches) ≤
      s.hash.elim 0 (partitionWork servers s.context s.caches) + (3 * most + 5) := by
    cases hp : s.hash with
    | none => simp
    | some p =>
      have hwork : partitionWork servers s.context caches p ≤
          partitionWork servers s.context s.caches p + (3 * size servers p + 5) :=
        partitionWork_recache fun handle hcontext => h p handle hp hcontext
      have := hmost p
      simp only [elim_some]
      omega
  simp only [workLeft, heldTurns]
  split_ifs <;> omega

/-- **Every benign step keeps the account**, and makes progress apart from losses. -/
theorem Sound.step (hmost : ∀ p, size servers p ≤ most) (hmax : 0 < servers.maxIterationCount)
    (hseekable : all ≠ [] → q.Seekable) (hstep : s.step q servers e = some t)
    (hbenign : s.Benign e) (h : Sound q servers all s) :
    Sound q servers all t ∧ workLeft servers t + 1 ≤ workLeft servers s + lossCost most e := by
  cases e with
  | turn =>
    obtain ⟨⟨hcall, hfinished⟩, ht⟩ := ite_none_right_eq_some.mp hstep
    rw [isNone_iff_eq_none] at hcall
    cases ht
    exact h.turn hcall hfinished
  | serve =>
    simp only [Exchange.step, bind_eq_bind, bind_eq_some_iff, Option.pure_def, some.injEq] at hstep
    obtain ⟨p, hp, call, hcall, served, hserved, p', hp', rfl⟩ := hstep
    obtain ⟨p'', served', hp'', hserved', hsound⟩ := h.serve hmax (h.seekable hseekable hp) hcall
    obtain rfl : p = p' := mem_unique hp hp'
    obtain rfl : p = p'' := mem_unique hp hp''
    obtain rfl : served = served' := mem_unique hserved hserved'
    exact hsound
  | fail answered =>
    simp only [Exchange.step, bind_eq_bind, bind_eq_some_iff] at hstep
    obtain ⟨call, hcall, hstep⟩ := hstep
    cases answered with
    | true =>
      simp only [if_true, bind_eq_some_iff, Option.pure_def, some.injEq] at hstep
      obtain ⟨p, hp, served, hserved, p', hp', rfl⟩ := hstep
      obtain rfl : p = p' := mem_unique hp hp'
      refine ⟨h.fail hcall hbenign hp hserved, ?_⟩
      simp only [withCache, lossCost]
      refine workLeft_recache hmost fun p' handle hp' hcontext => .inl ?_
      obtain rfl : p = p' := mem_unique hp hp'
      obtain ⟨rest, -, hstanding⟩ := h.current p hp
      simp only [Standing, hcontext] at hstanding
      obtain ⟨-, -, -, -, ⟨hcontext', -⟩ | ⟨handle', hcontext', rfl⟩⟩ := h.calling call hcall
      · simp [hcontext'] at hcontext
      · obtain rfl : handle' = handle := by simpa [hcontext'] using hcontext
        cases hserved
        simpa using (contexts_onScan hstanding.1).2
    | false =>
      simp only [Bool.false_eq_true, if_false, Option.pure_def, some.injEq] at hstep
      subst hstep
      refine ⟨h.recache (.inl rfl) (by simp [given, Output.given]) fun _ _ _ hs => hs, ?_⟩
      exact workLeft_recache hmost fun _ _ _ _ => .inr rfl
  | lose p handle =>
    cases hstep
    refine ⟨h.lose hbenign, workLeft_recache hmost fun p' handle' hp' hcontext => ?_⟩
    by_cases hp : p' = p
    · subst hp
      simp only [update_self, ContextCache.erase]
      by_cases hhandle : handle' = handle
      · subst hhandle
        exact .inl (update_self _ _ _)
      · exact .inr (update_of_ne hhandle _ _)
    · exact .inr (by rw [update_of_ne hp])

theorem exists_step (hmax : 0 < servers.maxIterationCount) (hseekable : all ≠ [] → q.Seekable)
    (h : Sound q servers all s) (hfinished : s.finished = false) :
    ∃ e t, (e = .turn ∨ e = .serve) ∧ s.step q servers e = some t := by
  cases hcall : s.call with
  | none => exact ⟨.turn, s.turn q, .inl rfl, by simp [Exchange.step, hcall, hfinished]⟩
  | some call =>
    obtain ⟨-, -, p, hp, -⟩ := h.calling call hcall
    obtain ⟨p', served, hp', hserved, -⟩ := h.serve hmax (h.seekable hseekable hp) hcall
    obtain rfl : p = p' := mem_unique hp hp'
    exact ⟨.serve, _, .inr rfl, by
      simp only [Exchange.step, hp, hcall, hserved, bind_eq_bind, bind_some]
      rfl⟩

/-! ### The result -/

def delivered (s : Exchange Key Value Partition) : List (Key × Value) :=
  s.outputs.filterMap Output.record?

def counted (s : Exchange Key Value Partition) : Nat := (s.outputs.map Output.counts).sum

omit [LinearOrder Key] [DecidableEq Partition] in
theorem given_split (s : Exchange Key Value Partition) :
    s.given.reduceOption = s.delivered ∧ s.given.countP Option.isNone = s.counted := by
  unfold given delivered counted
  induction s.outputs with
  | nil => exact ⟨rfl, rfl⟩
  | cons output rest ih =>
    simp only [flatMap_cons, reduceOption_append, countP_append, ih.1, ih.2]
    cases output <;>
      simp [Output.given, Output.record?, Output.counts, List.reduceOption, countP_replicate,
        filterMap_cons]

omit [DecidableEq Partition] in
theorem Sound.given_append (h : Sound q servers all s) :
    ∃ more, s.given ++ more = (all.reverse.flatMap (expected q servers)).map q.shown ∧
      (s.finished = true → more = []) := by
  obtain ⟨finished, horder, hgiven⟩ := h.order
  cases hp : s.hash with
  | none =>
    refine ⟨s.held ++ (s.splits.reverse.flatMap (expected q servers)).map q.shown, ?_, ?_⟩
    · rw [← append_assoc, hgiven, horder, hp, (h.fresh hp).2]
      simp
    · intro hfinished
      obtain ⟨hsplits, -, hheld⟩ := h.finished hfinished
      simp [hsplits, hheld]
  | some p =>
    obtain ⟨rest, hrest, hstanding⟩ := h.current p hp
    refine ⟨s.held ++ (rest ++ s.splits.reverse.flatMap (expected q servers)).map q.shown, ?_, ?_⟩
    · rw [← append_assoc, hgiven, horder, hp]
      simp [← hrest]
    · intro hfinished
      obtain ⟨hsplits, hcontext, hheld⟩ := h.finished hfinished
      simp only [Standing, hcontext] at hstanding
      simp [hsplits, hheld, hstanding]

/-- **A scan delivers every record of its range once.** As long as no context is lost after an
empty answer, the records delivered, or counted, are a beginning of those the partitions have, and
all of them once the scanner has reported completion; there is always a next step until then, and
the number of steps is bounded by the losses. -/
theorem delivered_exactly_once (q : Query Key Value Partition)
    (servers : Servers Key Value Partition) (hmax : 0 < servers.maxIterationCount)
    {s₀ s : Exchange Key Value Partition} (hinit : s₀.Initial)
    (hseekable : s₀.splits ≠ [] → q.Seekable) {es : List (Event Partition)}
    (hrun : run (step q servers) s₀ es = some s)
    (hbenign : StepsMeet (step q servers) Benign s₀ es) {most : Nat}
    (hmost : ∀ p, size servers p ≤ most) :
    (∀ p, Increasing (expected q servers p)) ∧
      (q.onlyReturnCount = false →
        s.delivered <+: s₀.splits.reverse.flatMap (expected q servers) ∧
          (s.finished = true → s.delivered = s₀.splits.reverse.flatMap (expected q servers))) ∧
      (q.onlyReturnCount = true →
        s.counted ≤ (s₀.splits.reverse.flatMap (expected q servers)).length ∧
          (s.finished = true →
            s.counted = (s₀.splits.reverse.flatMap (expected q servers)).length)) ∧
      es.length + workLeft servers s ≤ workLeft servers s₀ + (es.map (lossCost most)).sum ∧
      (s.finished = false → ∃ e t, (e = .turn ∨ e = .serve) ∧ s.step q servers e = some t) := by
  have hstep : ∀ t e t', step q servers t e = some t' → Benign t e →
      Sound q servers s₀.splits t → Sound q servers s₀.splits t' ∧
        workLeft servers t' + 1 ≤ workLeft servers t + lossCost most e :=
    fun _ _ _ hstep hb h => Sound.step hmost hmax hseekable hstep hb h
  have hkeep : ∀ t e t', step q servers t e = some t' → Benign t e →
      Sound q servers s₀.splits t → Sound q servers s₀.splits t' :=
    fun t e t' hone hb h => (hstep t e t' hone hb h).1
  have hsound : Sound q servers s₀.splits s :=
    run_invariant_of_steps hkeep hrun hbenign (sound_initial hinit)
  obtain ⟨hdelivered, hcounted⟩ := given_split s
  obtain ⟨more, hmore, hnil⟩ := hsound.given_append
  refine ⟨increasing_expected, ?_, ?_, ?_, exists_step hmax hseekable hsound⟩
  · intro honly
    rw [map_shown_of_not_onlyReturnCount honly] at hmore
    have hall := congrArg List.reduceOption hmore
    rw [reduceOption_append, hdelivered] at hall
    have hsome : ∀ records : List (Key × Value), (records.map some).reduceOption = records := by
      intro records
      simp [List.reduceOption]
    rw [hsome] at hall
    refine ⟨⟨_, hall⟩, fun hfinished => ?_⟩
    simpa [hnil hfinished, List.reduceOption] using hall
  · intro honly
    rw [map_shown_of_onlyReturnCount honly] at hmore
    have hall := congrArg (List.countP Option.isNone) hmore
    rw [countP_append, hcounted, countP_replicate] at hall
    simp only [isNone_none, if_true] at hall
    refine ⟨by omega, fun hfinished => ?_⟩
    simpa [hnil hfinished] using hall
  · exact run_length_le_of_steps hkeep (fun t e t' hone hb h => (hstep t e t' hone hb h).2) hrun
      hbenign (sound_initial hinit)

end Steps

end Exchange

end Pegasus.Scan
