/-
Words and readers over byte strings (`Pegasus.Lib.Bytes`).

A word of a fixed width is stored with its lowest byte first. A reader takes a value
from the front of a byte string and leaves the rest, or fails; what it reads does not
depend on what follows (`Reads`), so that readers compose as the strings they read are
concatenated.
-/

import Mathlib

namespace Pegasus

abbrev ByteString := List UInt8

namespace ByteString

def ofNat : Nat → Nat → ByteString
  | 0, _ => []
  | width + 1, x => UInt8.ofNat x :: ofNat width (x / 256)

def toNat : ByteString → Nat
  | [] => 0
  | b :: rest => b.toNat + 256 * toNat rest

@[simp] theorem length_ofNat (width x : Nat) : (ofNat width x).length = width := by
  induction width generalizing x with
  | zero => rfl
  | succ width ih => simp [ofNat, ih]

theorem toNat_ofNat (width x : Nat) : toNat (ofNat width x) = x % 256 ^ width := by
  induction width generalizing x with
  | zero => simp [ofNat, toNat, Nat.mod_one]
  | succ width ih =>
    rw [ofNat, toNat, ih, pow_succ', Nat.mod_mul]
    simp

end ByteString

/-- A type whose values are stored as words of a fixed width. -/
class Pod (α : Type) where
  width : Nat
  bits : α → Nat
  ofBits : Nat → α
  bits_lt : ∀ x, bits x < 256 ^ width
  ofBits_bits : ∀ x, ofBits (bits x) = x

namespace Pod

instance : Pod UInt32 where
  width := 4
  bits := UInt32.toNat
  ofBits := UInt32.ofNat
  bits_lt x := x.toNat_lt
  ofBits_bits _ := UInt32.ofNat_toNat

instance : Pod UInt64 where
  width := 8
  bits := UInt64.toNat
  ofBits := UInt64.ofNat
  bits_lt x := x.toNat_lt
  ofBits_bits _ := UInt64.ofNat_toNat

instance : Pod Int32 where
  width := 4
  bits x := x.toBitVec.toNat
  ofBits n := Int32.ofBitVec (BitVec.ofNat 32 n)
  bits_lt x := x.toBitVec.isLt
  ofBits_bits x := by simp

instance : Pod Int64 where
  width := 8
  bits x := x.toBitVec.toNat
  ofBits n := Int64.ofBitVec (BitVec.ofNat 64 n)
  bits_lt x := x.toBitVec.isLt
  ofBits_bits x := by simp

variable {α : Type} [Pod α]

def bytes (x : α) : ByteString := ByteString.ofNat (width α) (bits x)

@[simp] theorem length_bytes (x : α) : (bytes x).length = width α := ByteString.length_ofNat _ _

theorem ofBits_toNat_bytes (x : α) : ofBits (ByteString.toNat (bytes x)) = x := by
  rw [bytes, ByteString.toNat_ofNat, Nat.mod_eq_of_lt (bits_lt x), ofBits_bits]

end Pod

/-- A reader of a byte string: it fails where the string does not hold what it expects. -/
abbrev Reader := StateT ByteString Option

namespace Reader

variable {α β : Type}

def take (n : Nat) : Reader ByteString := fun bytes =>
  if n ≤ bytes.length then some (bytes.take n, bytes.drop n) else none

def pod (α : Type) [Pod α] : Reader α := do
  let bytes ← take (Pod.width α)
  return Pod.ofBits (ByteString.toNat bytes)

def each (read : β → Reader α) : List β → Reader (List α)
  | [] => pure []
  | b :: rest => do
    let x ← read b
    let xs ← each read rest
    return x :: xs

end Reader

/-- The reader takes a value from a byte string and leaves whatever follows it. -/
def Reads {α : Type} (reader : Reader α) (bytes : ByteString) (x : α) : Prop :=
  ∀ rest, reader (bytes ++ rest) = some (x, rest)

namespace Reads

variable {α β : Type} {reader : Reader α} {bytes more : ByteString} {x : α}

theorem pure (x : α) : Reads (Pure.pure x) [] x := fun _ => rfl

variable {next : α → Reader β} {y : β}

theorem bind (first : Reads reader bytes x)
    (second : Reads (next x) more y) : Reads (reader >>= next) (bytes ++ more) y := by
  intro rest
  change (reader (bytes ++ more ++ rest)).bind (fun p => next p.1 p.2) = _
  rw [List.append_assoc, first]
  exact second rest

theorem finish (read : Reads reader bytes x)
    (done : Reads (next x) [] y) : Reads (reader >>= next) bytes y := by
  have both := read.bind done
  rwa [List.append_nil] at both

theorem map (f : α → β) (read : Reads reader bytes x) :
    Reads (reader >>= fun x => Pure.pure (f x)) bytes (f x) :=
  read.finish (Reads.pure (f x))

theorem checked {p : Prop} [Decidable p] (hp : p) : Reads (guard p) [] () := by
  rw [guard, if_pos hp]
  exact Reads.pure ()

theorem take (bytes : ByteString) : Reads (Reader.take bytes.length) bytes bytes := by
  intro rest
  simp [Reader.take]

theorem pod [Pod α] (x : α) : Reads (Reader.pod α) (Pod.bytes x) x := by
  have read := (Reads.take (Pod.bytes x)).map fun bytes => (Pod.ofBits (ByteString.toNat bytes) : α)
  rw [Pod.length_bytes, Pod.ofBits_toNat_bytes] at read
  exact read

theorem each {γ : Type} {read : β → Reader α} {write : γ → ByteString} {key : γ → β} {value : γ → α}
    (items : List γ) (reads : ∀ item ∈ items, Reads (read (key item)) (write item) (value item)) :
    Reads (Reader.each read (items.map key)) (items.flatMap write) (items.map value) := by
  induction items with
  | nil => exact Reads.pure _
  | cons item rest ih =>
    have tail := ih fun other hother => reads other (List.mem_cons_of_mem _ hother)
    exact (reads item List.mem_cons_self).bind (tail.map fun xs => value item :: xs)

end Reads

/-- The reader takes a fixed number of bytes, whatever they are, and fails only where there are
fewer. -/
def Takes {α : Type} (reader : Reader α) (n : Nat) : Prop :=
  ∀ bytes : ByteString, if n ≤ bytes.length then ∃ x, reader bytes = some (x, bytes.drop n)
    else reader bytes = none

namespace Takes

variable {α β : Type} {reader : Reader α} {n m : Nat}

theorem eq_none (takes : Takes reader n) {bytes : ByteString} (hshort : bytes.length < n) :
    reader bytes = none := by
  have := takes bytes
  rwa [if_neg (by omega)] at this

theorem pure (x : α) : Takes (Pure.pure x) 0 := fun bytes => by
  rw [if_pos (Nat.zero_le _)]
  exact ⟨x, rfl⟩

theorem bind {next : α → Reader β} (first : Takes reader n) (second : ∀ x, Takes (next x) m) :
    Takes (reader >>= next) (n + m) := by
  intro bytes
  change if n + m ≤ bytes.length
    then ∃ y, (reader bytes).bind (fun p => next p.1 p.2) = some (y, bytes.drop (n + m))
    else (reader bytes).bind (fun p => next p.1 p.2) = none
  have hfirst := first bytes
  by_cases hn : n ≤ bytes.length
  · rw [if_pos hn] at hfirst
    obtain ⟨x, hx⟩ := hfirst
    have hsecond := second x (bytes.drop n)
    have hiff : n + m ≤ bytes.length ↔ m ≤ (bytes.drop n).length := by
      rw [List.length_drop]
      omega
    simp only [hx, Option.bind_some, hiff]
    rwa [List.drop_drop] at hsecond
  · rw [if_neg hn] at hfirst
    rw [if_neg (by omega), hfirst]
    rfl

theorem pod [Pod α] : Takes (Reader.pod α) (Pod.width α) := by
  have take : Takes (Reader.take (Pod.width α)) (Pod.width α) := by
    intro bytes
    unfold Reader.take
    split
    · exact ⟨_, rfl⟩
    · rfl
  exact take.bind fun bytes => Takes.pure _

end Takes

end Pegasus
