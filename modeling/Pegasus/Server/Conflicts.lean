/-
Writes of two clusters that duplicate to each other, after `rocksdb_wrapper.cpp` and
`pegasus_write_service.cpp`.

Every record has a timetag: the timestamp of its write, and the id of the cluster that has taken the
write from a client. A duplicated write with `verify_timetag` is dropped if the stored record has a
timetag that is not smaller; a local write is stored whatever the record has.

- `Clusters.Resolved`: every cluster has the latest of the writes it has seen;
- `puts_converge`: the main result;
- `older_local_write_diverges`: a local write with a smaller timetag than the stored one.
-/

import Pegasus.Server.Duplicate
import Pegasus.Lib.LastWriter

namespace Pegasus.Server

open TransitionSystem List Function
open Option hiding or_assoc or_self
open Pegasus.Duplication (DuplicateEntry Request)
open LastWriter (Latest)

open ClientWrite

/-! ### Timetags -/

/-- The low byte of a timetag is the cluster id, with the deleted tag below it. -/
theorem generateTimetag_low {clusterId : UInt8} (h : clusterId < 128) (timestamp : UInt64) :
    (generateTimetag timestamp clusterId false).toNat % 256 = clusterId.toNat * 2 := by
  have hid : clusterId.toNat < 128 := h
  have hshift : (timestamp <<< 8).toNat % 2 ^ 8 = 0 := by
    rw [UInt64.toNat_shiftLeft, show UInt64.toNat 8 % 64 = 8 from rfl, Nat.shiftLeft_eq]
    omega
  have hlow : (clusterId.toUInt64 <<< 1).toNat = clusterId.toNat * 2 := by
    rw [UInt64.toNat_shiftLeft, show UInt64.toNat 1 % 64 = 1 from rfl, Nat.shiftLeft_eq,
      UInt8.toNat_toUInt64]
    omega
  rw [generateTimetag, UInt64.toNat_or, UInt64.toNat_or, hlow]
  change _ % 2 ^ 8 = _
  rw [Nat.or_mod_two_pow, Nat.or_mod_two_pow, hshift]
  simp
  omega

theorem clusterId_of_timetag {a b : UInt8} (ha : a < 128) (hb : b < 128) {s t : UInt64}
    (h : generateTimetag s a false = generateTimetag t b false) : a = b := by
  have hlow := generateTimetag_low ha s
  rw [h, generateTimetag_low hb t] at hlow
  exact UInt8.toNat_inj.mp (by omega)

theorem generateTimetag_pos {clusterId : UInt8} (hpos : 0 < clusterId) (h : clusterId < 128)
    (timestamp : UInt64) : 0 < generateTimetag timestamp clusterId false := by
  have hlow := generateTimetag_low h timestamp
  have hid : 0 < clusterId.toNat := hpos
  rw [UInt64.lt_iff_toNat_lt]
  change 0 < _
  omega

/-! ### Puts, record by record -/

namespace ClientWrite

def isPutWithoutTtl : ClientWrite → Bool
  | .put update => update.expireTsSeconds == 0
  | .multiPut update => update.expireTsSeconds == 0
  | _ => false

def puts : ClientWrite → List (Bytes × Bytes)
  | .put update => [(update.key, update.value)]
  | .multiPut update => update.kvs.map fun kv => (compositeRawKey update.hashKey kv.key, kv.value)
  | _ => []

/-- The value that a put leaves under a key: of several ones, the last. -/
def valueFor (w : ClientWrite) (key : Bytes) : Option Bytes :=
  (w.puts.reverse.find? fun p => p.1 == key).map (·.2)

end ClientWrite

namespace Table

def stale (t : Table) (ctx : WriteContext) (key : Bytes) : Bool :=
  match t.engine.isStale ctx key with
  | .ok stale => stale
  | .error _ => false

def recordOf (t : Table) (ctx : WriteContext) (value : Bytes) : Value :=
  t.engine.generateValue value (t.engine.dbExpireTs 0) (t.engine.newTimetag ctx)

def putOp (t : Table) (ctx : WriteContext) (p : Bytes × Bytes) : WriteOp :=
  if t.stale ctx p.1 then .put [] (t.recordOf ctx []) else .put p.1 (t.recordOf ctx p.2)

variable (t : Table)

variable (ctx : WriteContext)

theorem isStale_eq (key : Bytes) : t.engine.isStale ctx key = .ok (t.stale ctx key) := by
  have hok : ∃ b, t.engine.isStale ctx key = .ok b := by
    unfold Engine.isStale
    split
    · cases hrecord : t.records key with
      | none => exact ⟨false, by simp [Engine.get, engine, hrecord, GetContext.existing]⟩
      | some v =>
        simp only [Engine.get, engine, hrecord, GetContext.existing]
        split <;> exact ⟨_, rfl⟩
    · exact ⟨false, rfl⟩
  obtain ⟨b, hb⟩ := hok
  rw [stale, hb]

theorem writeBatchPutCtx_eq (key value : Bytes) :
    t.engine.writeBatchPutCtx ctx key value 0 = .ok (t.putOp ctx (key, value)) := by
  rw [Engine.writeBatchPutCtx, isStale_eq, putOp]
  cases t.stale ctx key <;> rfl

theorem applyBatch_putOps (puts : List (Bytes × Bytes)) (rs : Records) {key : Bytes}
    (hkey : key ≠ []) :
    applyBatch (puts.map (t.putOp ctx)) rs key =
      match (puts.reverse.find? fun p => p.1 == key).map (·.2) with
      | none => rs key
      | some value => if t.stale ctx key then rs key else some (t.recordOf ctx value) := by
  induction puts using List.reverseRecOn with
  | nil => rfl
  | append_singleton puts p ih =>
    have hstep : applyBatch ((puts ++ [p]).map (t.putOp ctx)) rs =
        (t.putOp ctx p).apply (applyBatch (puts.map (t.putOp ctx)) rs) := by
      simp [applyBatch]
    rw [hstep, reverse_append, reverse_singleton, singleton_append, List.find?_cons]
    by_cases hp : p.1 = key
    · simp only [hp, beq_self_eq_true, map_some, putOp]
      by_cases hstale : t.stale ctx key = true
      · simp only [hstale, if_true, WriteOp.apply, hkey, if_false]
        rw [ih]
        split <;> simp_all
      · simp [hstale, WriteOp.apply]
    · have hne : (p.1 == key) = false := by simpa using hp
      simp only [hne]
      rw [← ih, putOp]
      split
      · simp [WriteOp.apply, hkey]
      · simp [WriteOp.apply, Ne.symm hp]

theorem mapM_puts (hashKey : HashKey) (kvs : List KeyValue) :
    (kvs.mapM fun kv =>
      t.engine.writeBatchPutCtx ctx (compositeRawKey hashKey kv.key) kv.value 0) =
      .ok ((kvs.map fun kv => (compositeRawKey hashKey kv.key, kv.value)).map (t.putOp ctx)) := by
  induction kvs with
  | nil => rfl
  | cons kv kvs ih =>
    rw [mapM_cons, writeBatchPutCtx_eq, ih]
    rfl

variable {w : ClientWrite} {t : Table}

theorem records_apply (t : Table) (ctx : WriteContext) (hw : w.isPutWithoutTtl = true) :
    ∃ rs, t.apply ctx w = some (.ok { t with records := rs }) ∧ ∀ key, key ≠ [] →
      rs key =
        match w.valueFor key with
        | none => t.records key
        | some value =>
          if t.stale ctx key then t.records key else some (t.recordOf ctx value) := by
  cases w with
  | put update =>
    have hexpire : update.expireTsSeconds = 0 := by simpa [isPutWithoutTtl] using hw
    refine ⟨applyBatch [t.putOp ctx (update.key, update.value)] t.records, ?_, fun key hkey => ?_⟩
    · rw [apply, Engine.duplicatedWrite, Engine.batchPut, hexpire]
      rw [show (0 : Int32).toUInt32 = 0 from rfl, writeBatchPutCtx_eq]
      rfl
    · exact applyBatch_putOps t ctx [(update.key, update.value)] t.records hkey
  | remove key => cases hw
  | multiPut update =>
    have hexpire : update.expireTsSeconds = 0 := by simpa [isPutWithoutTtl] using hw
    by_cases hempty : update.kvs = []
    · obtain ⟨v, hv⟩ := t.engine.emptyPut_eq ctx.decree
      refine ⟨applyBatch [.put [] v] t.records, ?_, fun key hkey => ?_⟩
      · rw [apply, Engine.duplicatedWrite, Engine.multiPut, if_pos hempty, hv]
        rfl
      · simp [applyBatch, WriteOp.apply, hkey, valueFor, puts, hempty]
    · refine ⟨applyBatch (puts (.multiPut update) |>.map (t.putOp ctx)) t.records, ?_,
        fun key hkey => applyBatch_putOps t ctx _ t.records hkey⟩
      have hops : ((update.kvs.map fun kv => (compositeRawKey update.hashKey kv.key, kv.value)).map
          (t.putOp ctx)) ≠ [] := by
        simpa using hempty
      rw [apply, Engine.duplicatedWrite, Engine.multiPut, if_neg hempty, hexpire,
        show (0 : Int32).toUInt32 = 0 from rfl, mapM_puts, Engine.writeFilled_ok hops]
      simp [Except.map, commit, applyBatch, WriteOp.apply, puts]
  | multiRemove update => cases hw

def stored (t : Table) (key : Bytes) : Option (Nat × Bytes) :=
  (t.records key).map fun v => ((v.timetag.getD 0).toNat, v.userData)

def timetag (t : Table) (ctx : WriteContext) : Nat := (t.engine.newTimetag ctx).toNat

/-- A table of value schema v1 without TTL, whose records have timetags. -/
structure Timed (t : Table) : Prop where
  dataVersion : t.dataVersion = .v1
  defaultTtl : t.defaultTtl = 0
  record : ∀ key, key ≠ [] → ∀ v, t.records key = some v → v.expireTs = 0

variable (h : t.Timed) (ctx : WriteContext)
include h

theorem Timed.stale_eq {key : Bytes} (hkey : key ≠ []) :
    t.stale ctx key = (ctx.verifyTimetag && (t.stored key).any fun e => t.timetag ctx ≤ e.1) := by
  have hversion : t.engine.dataVersion = .v1 := h.dataVersion
  unfold stale Engine.isStale
  cases hverify : ctx.verifyTimetag with
  | false => simp
  | true =>
    rw [if_pos ⟨rfl, hversion, hkey⟩]
    cases hrecord : t.records key with
    | none => simp [Engine.get, engine, hrecord, GetContext.existing, stored]
    | some v =>
      have hexpire : checkIfTsExpired t.epochNow v.expireTs = false := by
        rw [h.record key hkey v hrecord]
        rfl
      simp only [Engine.get, engine, hrecord, GetContext.existing, stored, hexpire, map_some,
        any_some, Bool.true_and, Bool.false_eq_true, if_false]
      exact decide_eq_decide.mpr UInt64.le_iff_toNat_le

theorem Timed.recordOf_eq (value : Bytes) :
    t.recordOf ctx value = ⟨0, some (t.engine.newTimetag ctx), value⟩ := by
  have hversion : t.engine.dataVersion = .v1 := h.dataVersion
  have httl : t.engine.defaultTtl = 0 := h.defaultTtl
  simp [recordOf, Engine.generateValue, Engine.dbExpireTs, hversion, httl]

theorem Timed.put (hw : w.isPutWithoutTtl = true) :
    ∃ rs, t.apply ctx w = some (.ok { t with records := rs }) ∧
      ({ t with records := rs } : Table).Timed ∧ ∀ key, key ≠ [] →
        ({ t with records := rs } : Table).stored key =
          match w.valueFor key with
          | none => t.stored key
          | some value =>
            if ctx.verifyTimetag && (t.stored key).any fun e => t.timetag ctx ≤ e.1 then
              t.stored key
            else some (t.timetag ctx, value) := by
  obtain ⟨rs, happly, hrs⟩ := t.records_apply ctx hw
  refine ⟨rs, happly, ⟨h.dataVersion, h.defaultTtl, ?_⟩, ?_⟩
  · intro key hkey v hv
    change rs key = some v at hv
    rw [hrs key hkey] at hv
    split at hv
    · exact h.record key hkey v hv
    · split at hv
      · exact h.record key hkey v hv
      · rw [h.recordOf_eq] at hv
        rw [← some.inj hv]
  · intro key hkey
    change (rs key).map _ = _
    rw [hrs key hkey]
    cases hvalue : w.valueFor key with
    | none => rfl
    | some value =>
      simp only [h.stale_eq ctx hkey, h.recordOf_eq]
      split <;> rfl

/-- **A put keeps the latest write**, if it compares timetags or is newer itself. -/
theorem Timed.latest_put (hw : w.isPutWithoutTtl = true) :
    ∃ rs, t.apply ctx w = some (.ok { t with records := rs }) ∧
      ({ t with records := rs } : Table).Timed ∧ ∀ key, key ≠ [] →
        (ctx.verifyTimetag = true ∨ ∀ value, w.valueFor key = some value →
          ∀ e, t.stored key = some e → e.1 ≤ t.timetag ctx) →
        ∀ seen, Latest seen (t.stored key) →
          Latest (fun e => seen e ∨ e.1 = t.timetag ctx ∧ w.valueFor key = some e.2)
            (({ t with records := rs } : Table).stored key) := by
  obtain ⟨rs, happly, htimed, hstored⟩ := h.put ctx hw
  refine ⟨rs, happly, htimed, fun key hkey hnewer seen hlatest => ?_⟩
  rw [hstored key hkey]
  cases hvalue : w.valueFor key with
  | none => exact hlatest.congr fun e => by simp
  | some value =>
    have hsame : ∀ e : Nat × Bytes, seen e ∨ e = (t.timetag ctx, value) ↔
        seen e ∨ e.1 = t.timetag ctx ∧ some value = some e.2 := by
      intro e
      simp [Prod.ext_iff, eq_comm]
    simp only
    split
    · rename_i hstale
      rw [Bool.and_eq_true] at hstale
      cases hold : t.stored key with
      | none => simp [hold] at hstale
      | some e =>
        have hle : t.timetag ctx ≤ e.1 := by simpa [hold] using hstale.2
        rw [hold] at hlatest
        exact (hlatest.ignore ⟨e, rfl, hle⟩).congr hsame
    · rename_i hstale
      refine (hlatest.overwrite fun e he => ?_).congr hsame
      rcases hnewer with hverify | hnewer
      · simp only [hverify, he, any_some, Bool.true_and, decide_eq_true_eq] at hstale
        exact le_of_lt (not_le.mp hstale)
      · exact hnewer value hvalue e he

end Table

/-! ### Two clusters -/

/-- A write that a cluster has taken from a client, with its timestamp. -/
abbrev LocalWrite := UInt64 × ClientWrite

/-- A cluster: its table, the writes it has taken, and how many of the other's it was sent. -/
structure Site where
  table : Table
  log : List LocalWrite := []
  delivered : Nat := 0

def entryOf (clusterId : UInt8) (x : LocalWrite) : DuplicateEntry LoggedWrite where
  rawMessage := ⟨0, x.2⟩
  taskCode := x.2.code
  timestamp := x.1.toNat
  clusterId := clusterId.toNat
  verifyTimetag := true

abbrev Clusters := Bool → Site

inductive ClusterEvent where
  /-- A client writes; `now` is the clock of the cluster. -/
  | write (side : Bool) (decree : Int) (now : UInt32) (x : LocalWrite)
  /-- A request with some writes of the other cluster; the first may have been sent before. -/
  | deliver (side : Bool) (decree : Int) (now : UInt32) (first count : Nat)

namespace Clusters

def start (ids : Bool → UInt8) : Clusters := fun side =>
  { table := {
      records := fun _ => none
      clusterId := ids side
      isDupClusterIdConfigured := fun id => id == (ids true).toNat || id == (ids false).toNat } }

def step (c : Clusters) : ClusterEvent → Option Clusters
  | .write side decree now x =>
    let site := c side
    if x.2.isPutWithoutTtl then
      match { site.table with epochNow := now }.apply (.create decree x.1) x.2 with
      | some (.ok table) =>
        some (Function.update c side { site with table := table, log := site.log ++ [x] })
      | _ => none
    else none
  | .deliver side decree now first count =>
    let site := c side
    let source := c (!side)
    if first ≤ site.delivered ∧ first + count ≤ source.log.length then
      let request := ((source.log.drop first).take count).map (entryOf source.table.clusterId)
      match Table.duplicate decree request { site.table with epochNow := now } with
      | some (.ok, table) =>
        some (Function.update c side
          { site with table := table, delivered := max site.delivered (first + count) })
      | _ => none
    else none

/-- A local write is newer than what is stored under its keys. -/
def Newer (c : Clusters) : ClusterEvent → Prop
  | .write side _ _ x => ∀ key, key ≠ [] → ∀ value, x.2.valueFor key = some value →
      ∀ e, (c side).table.stored key = some e →
        e.1 < (generateTimetag x.1 (c side).table.clusterId false).toNat
  | .deliver .. => True

end Clusters

def Leaves (clusterId : UInt8) (key : Bytes) (x : LocalWrite) (e : Nat × Bytes) : Prop :=
  e.1 = (generateTimetag x.1 clusterId false).toNat ∧ x.2.valueFor key = some e.2

structure Table.Of (t : Table) (ids : Bool → UInt8) (side : Bool) : Prop extends t.Timed where
  clusterId : t.clusterId = ids side
  configured : ∀ other, t.isDupClusterIdConfigured (ids other).toNat = true

structure Configured (ids : Bool → UInt8) : Prop where
  pos : ∀ side, 0 < ids side
  lt : ∀ side, ids side < 128
  ne : ids true ≠ ids false

variable {ids : Bool → UInt8} {side : Bool}

theorem Configured.ne_not (h : Configured ids) (side : Bool) : ids (!side) ≠ ids side := by
  cases side
  · exact h.ne
  · exact h.ne.symm

theorem timetag_create (t : Table) (decree : Int) (timestamp : UInt64) :
    t.timetag (.create decree timestamp) =
      (generateTimetag timestamp t.clusterId false).toNat := rfl

theorem timetag_duplicateContext (h : Configured ids) (t : Table)
    (side : Bool) (decree : Int) {x : LocalWrite} (hx : x.2.isPutWithoutTtl = true) :
    t.timetag (Table.duplicateContext decree (entryOf (ids side) x)) =
      (generateTimetag x.1 (ids side) false).toNat := by
  have hcode : (x.2.code == WriteCode.multiRemove || x.2.code == WriteCode.remove) = false := by
    cases hw : x.2 with
    | put | multiPut => rfl
    | remove | multiRemove => simp [hw, isPutWithoutTtl] at hx
  have htag : (Table.duplicateContext decree (entryOf (ids side) x)).remoteTimetag =
      generateTimetag x.1 (ids side) false := by
    simp [Table.duplicateContext, entryOf, hcode]
  have hpos := generateTimetag_pos (h.pos side) (h.lt side) x.1
  simp [Table.timetag, Engine.newTimetag, WriteContext.isDuplicatedWrite, htag, hpos]

theorem duplicate_latest (h : Configured ids) (decree : Int)
    {xs : List LocalWrite} (hxs : ∀ x ∈ xs, x.2.isPutWithoutTtl = true) {t : Table}
    (ht : t.Of ids side) :
    ∃ rs, Table.duplicate decree (xs.map (entryOf (ids !side))) t =
        some (.ok, { t with records := rs }) ∧
      ({ t with records := rs } : Table).Of ids side ∧ ∀ key, key ≠ [] →
        ∀ seen, Latest seen (t.stored key) →
          Latest (fun e => seen e ∨ ∃ x ∈ xs, Leaves (ids !side) key x e)
            (({ t with records := rs } : Table).stored key) := by
  induction xs generalizing t with
  | nil => exact ⟨t.records, rfl, ht, fun key _ seen hlatest => hlatest.congr (by simp)⟩
  | cons x xs ih =>
    have hx := hxs x mem_cons_self
    obtain ⟨rs, happly, htimed, hput⟩ := ht.latest_put
      (Table.duplicateContext decree (entryOf (ids !side) x)) hx
    have ht' : ({ t with records := rs } : Table).Of ids side :=
      ⟨htimed, ht.clusterId, ht.configured⟩
    obtain ⟨rs', hrest, ht'', hlatest'⟩ := ih (fun y hy => hxs y (mem_cons_of_mem _ hy)) ht'
    refine ⟨rs', ?_, ht'', fun key hkey seen hlatest => ?_⟩
    · have hother : (ids !side).toNat ≠ t.clusterId.toNat := by
        rw [ht.clusterId]
        exact fun heq => h.ne_not side (UInt8.toNat_inj.mp heq)
      rw [map_cons, Table.duplicate]
      rw [if_neg (by simp [entryOf, ht.configured]), if_neg (by simpa [entryOf] using hother),
        if_pos (by rfl)]
      have happly' : t.apply (Table.duplicateContext decree (entryOf (ids !side) x))
          (entryOf (ids !side) x).rawMessage.write = some (.ok { t with records := rs }) := happly
      rw [happly']
      exact hrest
    · have hfirst := hput key hkey (.inl rfl) seen hlatest
      refine (hlatest' key hkey _ hfirst).congr fun e => ?_
      rw [timetag_duplicateContext h t (!side) decree hx]
      simp only [mem_cons, exists_eq_or_imp, or_assoc]
      rfl

namespace Clusters

variable {c c' : Clusters}

/-- The writes to a key that a cluster has seen: its own, and those it was sent. -/
def Seen (ids : Bool → UInt8) (c : Clusters) (side : Bool) (key : Bytes) (e : Nat × Bytes) : Prop :=
  (∃ x ∈ (c side).log, Leaves (ids side) key x e) ∨
    ∃ x ∈ (c !side).log.take (c side).delivered, Leaves (ids !side) key x e

/-- **Every cluster has the latest of the writes it has seen**, and no cluster has taken two writes
to a key with one timetag. -/
structure Resolved (ids : Bool → UInt8) (c : Clusters) : Prop where
  table : ∀ side, (c side).table.Of ids side
  puts : ∀ side, ∀ x ∈ (c side).log, x.2.isPutWithoutTtl = true
  delivered : ∀ side, (c side).delivered ≤ (c !side).log.length
  latest : ∀ side key, key ≠ [] → Latest (Seen ids c side key) ((c side).table.stored key)
  tags : ∀ side key, key ≠ [] → ∀ x ∈ (c side).log, ∀ y ∈ (c side).log, ∀ e e',
    Leaves (ids side) key x e → Leaves (ids side) key y e' → e.1 = e'.1 → e = e'

theorem resolved_start (ids : Bool → UInt8) : Resolved ids (start ids) where
  table side := by
    refine ⟨⟨rfl, rfl, fun key _ v hv => by cases hv⟩, rfl, fun other => ?_⟩
    cases other <;> simp [start]
  puts side x hx := by cases hx
  delivered side := Nat.zero_le _
  latest side key _ := by
    refine LastWriter.latest_none.congr fun e => ?_
    simp [Seen, start]
  tags side key _ x hx := by cases hx

theorem forall_side {p : Bool → Prop} (side : Bool) (hself : p side) (hother : p !side) :
    ∀ s, p s := by
  intro s
  by_cases hs : s = side
  · exact hs ▸ hself
  · exact Bool.eq_not.mpr hs ▸ hother

variable {decree : Int} {now : UInt32}

/-- **Changing one cluster**, whose log only grows, leaves the other one as it was. -/
theorem Resolved.update (h : Resolved ids c) {d : Site} (htable : d.table.Of ids side)
    (hputs : ∀ x ∈ d.log, x.2.isPutWithoutTtl = true) (hlog : (c side).log <+: d.log)
    (hdelivered : d.delivered ≤ (c !side).log.length) (hlatest : ∀ key, key ≠ [] →
      Latest (Seen ids (Function.update c side d) side key) (d.table.stored key))
    (htags : ∀ key, key ≠ [] → ∀ x ∈ d.log, ∀ y ∈ d.log, ∀ e e',
      Leaves (ids side) key x e → Leaves (ids side) key y e' → e.1 = e'.1 → e = e') :
    Resolved ids (Function.update c side d) := by
  have hself : Function.update c side d side = d := update_self ..
  have hother : Function.update c side d (!side) = c !side := update_of_ne (by simp) ..
  constructor
  · refine forall_side side ?_ ?_
    · rwa [hself]
    · rw [hother]
      exact h.table _
  · refine forall_side side ?_ ?_
    · rwa [hself]
    · rw [hother]
      exact h.puts _
  · refine forall_side side ?_ ?_
    · rwa [hself, hother]
    · rw [hother, Bool.not_not, hself]
      exact (h.delivered _).trans (by simpa using hlog.length_le)
  · refine forall_side side ?_ fun key hkey => ?_
    · rwa [hself]
    · obtain ⟨new, hnew⟩ := hlog
      have htake : d.log.take (c !side).delivered = (c side).log.take (c !side).delivered := by
        rw [← hnew]
        exact take_append_of_le_length (by simpa using h.delivered !side)
      rw [hother]
      refine (h.latest _ key hkey).congr fun e => ?_
      simp only [Seen, Bool.not_not, hself, hother, htake]
  · refine forall_side side ?_ ?_
    · rwa [hself]
    · rw [hother]
      exact h.tags _

theorem Resolved.table_at (h : Resolved ids c) (side : Bool) (now : UInt32) :
    ({ (c side).table with epochNow := now } : Table).Of ids side :=
  ⟨⟨(h.table side).dataVersion, (h.table side).defaultTtl, (h.table side).record⟩,
    (h.table side).clusterId, (h.table side).configured⟩

theorem Resolved.write (h : Resolved ids c) {x : LocalWrite}
    (hnewer : c.Newer (.write side decree now x))
    (hstep : c.step (.write side decree now x) = some c') : Resolved ids c' := by
  obtain ⟨hx, hstep⟩ := ite_none_right_eq_some.mp hstep
  have htable := h.table_at side now
  obtain ⟨rs, happly, htimed, hput⟩ := htable.latest_put (.create decree x.1) hx
  rw [happly] at hstep
  obtain rfl := some.inj hstep
  have htag : ({ (c side).table with epochNow := now } : Table).timetag (.create decree x.1) =
      (generateTimetag x.1 (ids side) false).toNat := by
    rw [timetag_create]
    change (generateTimetag x.1 (c side).table.clusterId false).toNat = _
    rw [(h.table side).clusterId]
  -- everything that was seen is older
  have hold : ∀ key, key ≠ [] → ∀ value, x.2.valueFor key = some value → ∀ e,
      Seen ids c side key e → e.1 < (generateTimetag x.1 (ids side) false).toNat := by
    intro key hkey value hvalue e he
    obtain ⟨e', he', hle⟩ := (h.latest side key hkey).le e he
    have hlt := hnewer key hkey value hvalue e' he'
    rw [(h.table side).clusterId] at hlt
    exact hle.trans_lt hlt
  refine h.update ⟨htimed, htable.clusterId, htable.configured⟩ ?_ (prefix_append _ _)
    (h.delivered side) (fun key hkey => ?_) fun key hkey => ?_
  · exact forall_mem_concat (h.puts side) hx
  · have hlatest := hput key hkey (.inr fun value hvalue e he => by
      rw [htag]
      exact le_of_lt (hold key hkey value hvalue e ((h.latest side key hkey).mem e he)))
      _ (h.latest side key hkey)
    rw [htag] at hlatest
    refine hlatest.congr fun e => ?_
    simp only [Seen, update_self, update_of_ne (by simp : (!side) ≠ side),
      mem_append, mem_singleton, or_and_right, exists_or, exists_eq_left]
    exact or_right_comm
  · simp only [mem_append, mem_singleton]
    have hlog : ∀ y ∈ (c side).log, ∀ e e', Leaves (ids side) key y e →
        Leaves (ids side) key x e' → e.1 ≠ e'.1 := by
      intro y hy e e' he he'
      have hlt := hold key hkey e'.2 he'.2 e (.inl ⟨y, hy, he⟩)
      rw [← he'.1] at hlt
      exact ne_of_lt hlt
    rintro y (hy | rfl) z (hz | rfl) e e' he he' heq
    · exact h.tags side key hkey y hy z hz e e' he he' heq
    · exact absurd heq (hlog y hy e e' he he')
    · exact absurd heq.symm (hlog z hz e' e he' he)
    · exact Prod.ext heq (mem_unique he.2 he'.2)

theorem mem_take_max {α : Type} {l : List α} {delivered first count : Nat}
    (h : first ≤ delivered) (x : α) :
    x ∈ l.take (max delivered (first + count)) ↔
      x ∈ l.take delivered ∨ x ∈ (l.drop first).take count := by
  have hmem : ∀ (l : List α) (n : Nat), x ∈ l.take n ↔ ∃ i, i < n ∧ l[i]? = some x := by
    intro l n
    rw [mem_iff_getElem?]
    refine exists_congr fun i => ?_
    rw [List.getElem?_take]
    split <;> simp_all
  simp only [hmem, List.getElem?_drop]
  constructor
  · rintro ⟨i, hi, hx⟩
    by_cases hd : i < delivered
    · exact .inl ⟨i, hd, hx⟩
    · refine .inr ⟨i - first, by omega, ?_⟩
      rw [Nat.add_sub_cancel' (by omega), hx]
  · rintro (⟨i, hi, hx⟩ | ⟨i, hi, hx⟩)
    · exact ⟨i, by omega, hx⟩
    · exact ⟨first + i, by omega, hx⟩

theorem Resolved.deliver (hids : Configured ids) (h : Resolved ids c) {first count : Nat}
    (hstep : c.step (.deliver side decree now first count) = some c') : Resolved ids c' := by
  obtain ⟨hsent, hstep⟩ := ite_none_right_eq_some.mp hstep
  obtain ⟨rs, hduplicate, hof, hlatest⟩ := duplicate_latest hids decree
    (fun x hx => h.puts (!side) x (mem_of_mem_drop (mem_of_mem_take hx))) (h.table_at side now)
  rw [(h.table !side).clusterId, hduplicate] at hstep
  obtain rfl := some.inj hstep
  refine h.update hof (h.puts side) (prefix_refl _) (max_le (h.delivered side) hsent.2)
    (fun key hkey => ?_) (h.tags side)
  refine (hlatest key hkey _ (h.latest side key hkey)).congr fun e => ?_
  simp only [Seen, update_self, update_of_ne (by simp : (!side) ≠ side),
    mem_take_max hsent.1, or_and_right, exists_or, or_assoc]

def Written (ids : Bool → UInt8) (c : Clusters) (key : Bytes) (e : Nat × Bytes) : Prop :=
  ∃ side, ∃ x ∈ (c side).log, Leaves (ids side) key x e

theorem seen_iff_written (hall : ∀ side, (c side).delivered = (c !side).log.length) (side : Bool)
    (key : Bytes) (e : Nat × Bytes) : Seen ids c side key e ↔ Written ids c key e := by
  rw [Seen, Written, hall side, take_length, Bool.exists_bool]
  cases side
  · rfl
  · exact or_comm

theorem Resolved.tags_unique (hids : Configured ids) (h : Resolved ids c) {key : Bytes}
    (hkey : key ≠ []) {e e' : Nat × Bytes} (he : Written ids c key e)
    (he' : Written ids c key e') (heq : e.1 = e'.1) : e = e' := by
  obtain ⟨side, x, hx, hleaves⟩ := he
  obtain ⟨side', y, hy, hleaves'⟩ := he'
  have hside : side = side' := by
    by_contra hne
    obtain rfl := Bool.eq_not.mpr hne
    have htags : generateTimetag x.1 (ids !side') false = generateTimetag y.1 (ids side') false :=
      UInt64.toNat_inj.mp (hleaves.1.symm.trans (heq.trans hleaves'.1))
    exact hids.ne_not side' (clusterId_of_timetag (hids.lt _) (hids.lt _) htags)
  subst hside
  exact h.tags side key hkey x hx y hy e e' hleaves hleaves' heq

end Clusters

/-- **Puts converge.** If every local write is newer than what it replaces, then both clusters have
the same value under every key once everything was delivered: the value of the write with the
largest timetag. -/
theorem puts_converge {ids : Bool → UInt8} (hids : Configured ids) {events : List ClusterEvent}
    {c : Clusters} (hrun : run Clusters.step (.start ids) events = some c)
    (hnewer : StepsMeet Clusters.step Clusters.Newer (.start ids) events)
    (hall : ∀ side, (c side).delivered = (c !side).log.length) {key : Bytes} (hkey : key ≠ []) :
    (c true).table.value key = (c false).table.value key ∧
      ∀ side, Latest (c.Written ids key) ((c side).table.stored key) := by
  have hkeep : ∀ (c : Clusters) e c', c.step e = some c' → c.Newer e → c.Resolved ids →
      c'.Resolved ids := by
    intro c e c' hstep hnewer h
    cases e with
    | write side decree now x => exact h.write hnewer hstep
    | deliver side decree now first count => exact h.deliver hids hstep
  have h := run_invariant_of_steps hkeep hrun hnewer (Clusters.resolved_start ids)
  have hlatest : ∀ side, Latest (c.Written ids key) ((c side).table.stored key) := fun side =>
    (h.latest side key hkey).congr fun e => Clusters.seen_iff_written hall side key e
  refine ⟨?_, hlatest⟩
  have hstored := (hlatest true).unique (hlatest false) fun e e' he he' heq =>
    h.tags_unique hids hkey he he' heq
  have hvalue : ∀ t : Table, t.value key = (t.stored key).map (·.2) := by
    intro t
    simp [Table.value, Table.stored, Function.comp_def]
  rw [hvalue, hvalue, hstored]

def exampleIds : Bool → UInt8
  | true => 1
  | false => 2

theorem configured_exampleIds : Configured exampleIds where
  pos side := by cases side <;> decide
  lt side := by cases side <;> decide
  ne := by decide

def putByte (timestamp : UInt64) (b : UInt8) : LocalWrite :=
  (timestamp, .put { key := [0, 0], value := [b] })

/-- Both clusters write, and each is sent the write of the other. -/
def bothWrite : List ClusterEvent :=
  [.write true 1 0 (putByte 10 5), .write false 1 0 (putByte 20 6), .deliver true 2 0 0 1,
    .deliver false 2 0 0 1]

theorem puts_converge_both :
    ∃ c, run Clusters.step (.start exampleIds) bothWrite = some c ∧
      (c true).table.value [0, 0] = (c false).table.value [0, 0] := by
  have hnewer : StepsMeet Clusters.step Clusters.Newer (.start exampleIds)
      bothWrite := by
    refine stepsMeet_cons ?_ rfl ?_
    · intro key _ value _ e he
      cases he
    refine stepsMeet_cons ?_ rfl ?_
    · intro key _ value _ e he
      cases he
    iterate 2 refine stepsMeet_cons trivial rfl ?_
    trivial
  obtain ⟨hvalue, -⟩ := puts_converge configured_exampleIds rfl hnewer
    (fun side => by cases side <;> rfl) (show ([0, 0] : Bytes) ≠ [] by decide)
  exact ⟨_, rfl, hvalue⟩

/-- A cluster takes a write whose timestamp is smaller than that of a write it was sent before. -/
def olderLocalWrite : List ClusterEvent :=
  [.write false 1 0 (putByte 20 6), .deliver true 1 0 0 1, .write true 2 0 (putByte 10 5),
    .deliver false 2 0 0 1]

/-- The cluster stores its own write over the newer one, which the other cluster keeps. -/
theorem older_local_write_diverges :
    ∃ c, run Clusters.step (.start exampleIds) olderLocalWrite = some c ∧
      (∀ side, (c side).delivered = (c !side).log.length) ∧
      (c true).table.value [0, 0] = some [5] ∧ (c false).table.value [0, 0] = some [6] :=
  ⟨_, rfl, fun side => by cases side <;> rfl, by decide, by decide⟩

end Pegasus.Server
