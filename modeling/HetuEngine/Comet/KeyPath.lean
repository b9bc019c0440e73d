/-
The key paths that chains of Merkle proofs are checked for
(crypto/merkle/proof_key_path.go of hetu-cometbft).

A key path is a string, with each key percent-encoded or in hexadecimal, the
latter marked by `x:`. The percent encoding leaves `x` and `:` as they are,
so a percent-encoded key that starts with `x:` is read back as another key,
or not at all.
-/
import HetuEngine.Comet.Types
import HetuEngine.Lib.Percent

namespace HetuEngine.Comet

open Lib List Option Percent

-- ==== key paths

inductive KeyEncoding where
  | url
  | hex
  deriving DecidableEq

structure PathKey where
  name : Bytes
  enc : KeyEncoding
  deriving DecidableEq

abbrev KeyPath := List PathKey

def slash : UInt8 := 47

/-- The bytes that `url.PathEscape` leaves as they are: letters, digits and
`-_.~$&+:=@`. -/
def pathSegmentKeeps (c : UInt8) : Bool :=
  (97 ≤ c && c ≤ 122) || (65 ≤ c && c ≤ 90) || (48 ≤ c && c ≤ 57)
    || [45, 95, 46, 126, 36, 38, 43, 58, 61, 64].contains c

def pathEscape (s : Bytes) : Bytes := Percent.escape pathSegmentKeeps s

def pathUnescape (s : Bytes) : Option Bytes := Percent.unescape s

/-- A part of the string, after its slash. -/
def PathKey.part (key : PathKey) : Bytes :=
  match key.enc with
  | .url => pathEscape key.name
  | .hex => 120 :: 58 :: Percent.encodeHex key.name

def KeyPath.string (path : KeyPath) : Bytes := path.flatMap fun key => slash :: key.part

/-- The key of a part, in the loop of `KeyPathToKeys`. -/
def partKey (part : Bytes) : Option Bytes :=
  match part with
  | 120 :: 58 :: hexPart => Percent.decodeHex hexPart
  | _ => pathUnescape part

/-- The loop of `KeyPathToKeys`. -/
def partKeys : List Bytes → Option (List Bytes)
  | [] => some []
  | part :: rest =>
    match partKey part, partKeys rest with
    | some key, some keys => some (key :: keys)
    | _, _ => none

/-- `KeyPathToKeys`, without its errors. -/
def keyPathToKeys (path : Bytes) : Option (List Bytes) :=
  match path with
  | [] => none
  | c :: rest => if c = slash then partKeys (rest.splitOn slash) else none

-- ==== reading a path back

variable (key : PathKey) (path : KeyPath)

lemma slash_not_mem_part : slash ∉ key.part := by
  unfold PathKey.part
  split
  on_goal 2 =>
    simp only [mem_cons, not_or]
    refine ⟨by decide, by decide, ?_⟩
  all_goals
    intro hmem
    obtain ⟨b, -, hb⟩ := mem_flatMap.mp hmem
    revert hb
    induction b using byte_induction with
    | h n => revert n; decide +kernel

lemma splitOn_string :
    (key.part ++ KeyPath.string path).splitOn slash
      = key.part :: path.map PathKey.part := by
  induction path generalizing key with
  | nil =>
    rw [KeyPath.string, flatMap_nil, append_nil]
    exact splitOn_eq_singleton (slash_not_mem_part key)
  | cons next path ih =>
    rw [KeyPath.string, flatMap_cons, cons_append,
      splitOn_append_cons_self_of_not_mem (slash_not_mem_part key)]
    exact congrArg _ (ih next)

lemma partKeys_parts :
    partKeys (path.map PathKey.part) = some (path.map PathKey.name)
      ↔ ∀ key ∈ path, partKey key.part = some key.name := by
  induction path with
  | nil => simp [partKeys]
  | cons key path ih =>
    rw [map_cons, partKeys, forall_mem_cons, ← ih]
    cases partKey key.part with
    | none => simp
    | some name =>
      cases partKeys (path.map PathKey.part) with
      | none => simp
      | some names => simp

/-- The key is percent-encoded, and its name starts with `x:`. -/
def PathKey.Marked (key : PathKey) : Prop := key.enc = .url ∧ ∃ rest, key.name = 120 :: 58 :: rest

/-- A key is read back, unless it is percent-encoded and looks like a
hexadecimal one. -/
lemma partKey_part_iff : partKey key.part = some key.name ↔ ¬ key.Marked := by
  obtain ⟨name, enc⟩ := key
  cases enc with
  | hex =>
    refine iff_of_true (decodeHex_encodeHex name) ?_
    rintro ⟨henc, -⟩
    cases henc
  | url =>
    constructor
    · -- the rest would be its own hexadecimal, and longer than itself
      rintro h ⟨-, rest, rfl⟩
      obtain ⟨hlen, hnot⟩ := decodeHex_eq_some (s := pathEscape rest) h
      rw [pathEscape, escape_eq_self hnot, length_cons, length_cons] at hlen
      omega
    intro h
    have hpart : partKey (pathEscape name) = pathUnescape (pathEscape name) := by
      unfold partKey
      split
      · next t ht =>
        obtain ⟨rest, rfl, hrest⟩ := escape_eq_cons (by decide) ht
        obtain ⟨rest, rfl, -⟩ := escape_eq_cons (by decide) hrest
        exact absurd ⟨rfl, rest, rfl⟩ h
      rfl
    exact hpart.trans (unescape_escape rfl name)

lemma keyPathToKeys_string (rest : KeyPath) :
    keyPathToKeys (KeyPath.string (key :: rest))
      = some ((key :: rest).map PathKey.name)
      ↔ ∀ k ∈ key :: rest, ¬ k.Marked := by
  have hsplit : keyPathToKeys (KeyPath.string (key :: rest))
      = partKeys ((key :: rest).map PathKey.part) :=
    congrArg partKeys (splitOn_string key rest)
  rw [hsplit, partKeys_parts]
  simp only [partKey_part_iff]

/-- A path of one key or more is read back exactly when none of its
percent-encoded keys starts with `x:`, and two such paths with the same
string have the same keys. -/
theorem keyPath_read_back_iff (key key' : PathKey) (rest rest' : KeyPath) :
    (keyPathToKeys (KeyPath.string (key :: rest))
      = some ((key :: rest).map PathKey.name)
      ↔ ∀ k ∈ key :: rest, ¬ k.Marked)
      ∧ ((∀ k ∈ key :: rest, ¬ k.Marked) → (∀ k ∈ key' :: rest', ¬ k.Marked) →
        KeyPath.string (key :: rest) = KeyPath.string (key' :: rest') →
        (key :: rest).map PathKey.name
          = (key' :: rest').map PathKey.name) := by
  refine ⟨keyPathToKeys_string key rest, ?_⟩
  intro hpath hother heq
  have hread := (keyPathToKeys_string key rest).mpr hpath
  rw [heq, (keyPathToKeys_string key' rest').mpr hother] at hread
  exact (some.inj hread).symm

/-- The percent-encoded key `x:61` and the hexadecimal key `a` are both
written as `/x:61`, which is read as `a`. -/
theorem keyPath_read_as_hex :
    KeyPath.string [⟨[120, 58, 54, 49], .url⟩] = KeyPath.string [⟨[97], .hex⟩]
      ∧ keyPathToKeys
        (KeyPath.string [⟨[120, 58, 54, 49], .url⟩]) = some [[97]] := by
  decide

end HetuEngine.Comet
