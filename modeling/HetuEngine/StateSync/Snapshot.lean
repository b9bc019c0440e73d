/-
The identity of a snapshot in state sync.

`Key` hashes the height, the format and the number of chunks, in decimal, and
then the hash and the metadata. Colons separate the numbers, and nothing the
last three parts, so bytes can move from one of them to the next.
-/
import HetuEngine.Comet.Types
import Mathlib.Data.Nat.Digits.Defs

namespace HetuEngine.StateSync

open Comet

@[ext]
structure Snapshot where
  height : Nat
  format : Nat
  chunks : Nat
  hash : Bytes
  metadata : Bytes

def decimal (n : Nat) : Bytes := (Nat.toDigits 10 n).map fun d => UInt8.ofNat d.toNat

/-- The bytes that `Key` hashes; 58 is the colon. -/
def Snapshot.keyBytes (s : Snapshot) : Bytes :=
  decimal s.height ++ 58 :: (decimal s.format ++ 58 :: (decimal s.chunks ++ (s.hash ++ s.metadata)))

-- ==== the parts of a key

lemma toNat_digit {n : Nat} {d : Char} (h : d ∈ Nat.toDigits 10 n) :
    (UInt8.ofNat d.toNat).toNat = d.toNat ∧ d.toNat ≤ 57 := by
  have hdigit := Nat.isDigit_of_mem_toDigits (b := 10) (by decide) (by decide) h
  have hle : d.toNat ≤ 57 := by
    simp [Char.isDigit, UInt32.le_iff_toNat_le] at hdigit
    exact hdigit.2
  exact ⟨Nat.mod_eq_of_lt (by omega), hle⟩

lemma colon_notMem (n : Nat) : 58 ∉ decimal n := by
  unfold decimal
  rw [List.mem_map]
  rintro ⟨d, hd, heq⟩
  obtain ⟨hbyte, hle⟩ := toNat_digit hd
  rw [heq] at hbyte
  exact absurd hle (hbyte ▸ by decide)

lemma decimal_eq_iff {m n : Nat} : decimal m = decimal n ↔ m = n := by
  have hread : ∀ n, (decimal n).map (fun b => Char.ofNat b.toNat) = Nat.toDigits 10 n := by
    intro n
    unfold decimal
    rw [List.map_map]
    refine (List.map_congr_left fun d hd => ?_).trans (List.map_id _)
    show Char.ofNat (UInt8.ofNat d.toNat).toNat = d
    rw [(toNat_digit hd).1, Char.ofNat_toNat]
  refine ⟨fun h => ?_, congrArg decimal⟩
  have hdigits := (hread m).symm.trans ((congrArg _ h).trans (hread n))
  simpa using congrArg (fun digits => Nat.ofDigitChars 10 digits 0) hdigits

variable {x u y v : Bytes}

lemma cut_at_colon (hx : 58 ∉ x) (hy : 58 ∉ y) :
    x ++ 58 :: u = y ++ 58 :: v ↔ x = y ∧ u = v := by
  induction x generalizing y with
  | nil => cases y <;> grind
  | cons b x ih => cases y <;> grind

/-- The same bytes, split at different places. -/
def Resplit (x u y v : Bytes) : Prop :=
  ∃ moved, moved ≠ [] ∧ (y = x ++ moved ∧ u = moved ++ v ∨ x = y ++ moved ∧ v = moved ++ u)

lemma append_eq_iff : x ++ u = y ++ v ↔ x = y ∧ u = v ∨ Resplit x u y v := by
  rw [List.append_eq_append_iff]
  constructor
  · rintro (⟨moved, h⟩ | ⟨moved, h⟩)
    · by_cases hnil : moved = []
      · exact .inl (by simp_all)
      exact .inr ⟨moved, hnil, .inl h⟩
    by_cases hnil : moved = []
    · exact .inl (by simp_all)
    exact .inr ⟨moved, hnil, .inr h⟩
  rintro (⟨rfl, rfl⟩ | ⟨moved, -, h | h⟩)
  · exact .inl ⟨[], by simp⟩
  · exact .inl ⟨moved, h⟩
  exact .inr ⟨moved, h⟩

-- ==== keys

/-- Two snapshots of one height and format, where bytes have moved between the
number of chunks and what follows it, or between the hash and the metadata. -/
def Ambiguous (a b : Snapshot) : Prop :=
  a.height = b.height ∧ a.format = b.format
    ∧ (Resplit (decimal a.chunks) (a.hash ++ a.metadata) (decimal b.chunks) (b.hash ++ b.metadata)
      ∨ a.chunks = b.chunks ∧ Resplit a.hash a.metadata b.hash b.metadata)

/-- What is hashed determines the snapshots, unless they are ambiguous. -/
theorem key_identity_iff (a b : Snapshot) :
    (a.keyBytes = b.keyBytes → a = b) ↔ ¬Ambiguous a b := by
  have hsame : a.keyBytes = b.keyBytes ↔ a = b ∨ Ambiguous a b := by
    unfold Snapshot.keyBytes Ambiguous
    rw [cut_at_colon (colon_notMem _) (colon_notMem _), cut_at_colon (colon_notMem _)
      (colon_notMem _), append_eq_iff, append_eq_iff, Snapshot.ext_iff]
    simp only [decimal_eq_iff]
    tauto
  have hne : Ambiguous a b → a ≠ b := by
    rintro ⟨-, -, h⟩ rfl
    rcases h with ⟨moved, hnil, h⟩ | ⟨-, moved, hnil, h⟩
    · simp_all
    simp_all
  rw [hsame]
  exact ⟨fun h hamb => hne hamb (h (.inr hamb)), fun h hor => hor.resolve_right h⟩

/-- The byte 2 as the end of the hash, or as the metadata. -/
theorem key_identity_fails :
    (Snapshot.mk 1 1 1 [1] [2]).keyBytes
      = (Snapshot.mk 1 1 1 [1, 2] []).keyBytes
      ∧ Snapshot.mk 1 1 1 [1] [2] ≠ Snapshot.mk 1 1 1 [1, 2] [] := by
  simp [Snapshot.keyBytes]

end HetuEngine.StateSync
