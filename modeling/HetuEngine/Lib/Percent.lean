/-
Hexadecimal and percent encodings of byte strings, and their readers.
-/
import Mathlib.Data.List.Basic

namespace HetuEngine.Lib.Percent

-- ==== hexadecimal digits

def hexDigit (n : UInt8) : UInt8 := if n < 10 then 48 + n else 55 + n

/-- The number a digit of either case stands for. -/
def unhex (c : UInt8) : Option UInt8 :=
  if 48 ≤ c ∧ c ≤ 57 then some (c - 48)
  else if 97 ≤ c ∧ c ≤ 102 then some (c - 87)
  else if 65 ≤ c ∧ c ≤ 70 then some (c - 55)
  else none

def digits (b : UInt8) : UInt8 × UInt8 := (hexDigit (b / 16), hexDigit (b % 16))

def ofDigits (hi lo : UInt8) : Option UInt8 :=
  match unhex hi, unhex lo with
  | some h, some l => some (h * 16 + l)
  | _, _ => none

-- ==== hexadecimal

def encodeHex (bytes : List UInt8) : List UInt8 :=
  bytes.flatMap fun b => [(digits b).1, (digits b).2]

/-- Reads pairs of digits; there must not be one left over. -/
def decodeHex : List UInt8 → Option (List UInt8)
  | [] => some []
  | [_] => none
  | hi :: lo :: rest =>
    match ofDigits hi lo, decodeHex rest with
    | some b, some bytes => some (b :: bytes)
    | _, _ => none

-- ==== percent encoding

def percent : UInt8 := 37

/-- One byte: as it is, or as a percent sign and two digits. -/
def escapeByte (keep : UInt8 → Bool) (b : UInt8) : List UInt8 :=
  if keep b then [b] else [percent, (digits b).1, (digits b).2]

def escape (keep : UInt8 → Bool) (bytes : List UInt8) : List UInt8 :=
  bytes.flatMap (escapeByte keep)

/-- Two digits must follow a percent sign. -/
def unescape : List UInt8 → Option (List UInt8)
  | [] => some []
  | c :: rest =>
    if c = percent then
      match rest with
      | hi :: lo :: rest =>
        match ofDigits hi lo, unescape rest with
        | some b, some bytes => some (b :: bytes)
        | _, _ => none
      | _ => none
    else (unescape rest).map (c :: ·)

-- ==== what is read back

/-- The properties of all bytes that are checked one by one. -/
lemma byte_induction {p : UInt8 → Prop} (h : ∀ n : Fin 256, p (UInt8.ofNat n))
    (b : UInt8) : p b := by
  have hb := h ⟨b.toNat, b.toNat_lt⟩
  rwa [UInt8.ofNat_toNat] at hb

lemma ofDigits_digits (b : UInt8) :
    ofDigits (digits b).1 (digits b).2 = some b := by
  induction b using byte_induction with | h n => revert n; decide +kernel

lemma decodeHex_encodeHex (bytes : List UInt8) :
    decodeHex (encodeHex bytes) = some bytes := by
  induction bytes with
  | nil => rfl
  | cons b rest ih =>
    have hcons : encodeHex (b :: rest) = (digits b).1 :: (digits b).2 :: encodeHex rest := rfl
    rw [hcons, decodeHex, ofDigits_digits, ih]

/-- Two digits are read for each byte, and no percent sign is one. -/
lemma decodeHex_eq_some {s bytes : List UInt8} (h : decodeHex s = some bytes) :
    s.length = 2 * bytes.length ∧ percent ∉ s := by
  fun_induction decodeHex s generalizing bytes with
  | case1 => cases h; simp
  | case2 => cases h
  | case3 hi lo rest b read hrest hb ih =>
    cases h
    obtain ⟨hlen, hnot⟩ := ih hrest
    refine ⟨by simp only [List.length_cons]; omega, ?_⟩
    simp only [List.mem_cons, not_or]
    refine ⟨?_, ?_, hnot⟩
    · rintro rfl
      cases hb
    rintro rfl
    rw [ofDigits] at hb
    split at hb
    · next hlo => cases hlo
    cases hb
  | case4 => cases h

variable {keep : UInt8 → Bool}

lemma escape_cons (keep : UInt8 → Bool) (b : UInt8) (rest : List UInt8) :
    escape keep (b :: rest) = escapeByte keep b ++ escape keep rest := rfl

lemma unescape_escape (hkeep : keep percent = false) (bytes : List UInt8) :
    unescape (escape keep bytes) = some bytes := by
  induction bytes with
  | nil => rfl
  | cons b rest ih =>
    rw [escape_cons, escapeByte]
    split
    · next hb =>
      have hne : b ≠ percent := by
        rintro rfl
        rw [hkeep] at hb
        cases hb
      rw [List.singleton_append, unescape.eq_def]
      simp [hne, ih]
    simp [unescape, ofDigits_digits, ih]

/-- Where no percent sign was written, nothing was escaped. -/
lemma escape_eq_self {bytes : List UInt8} (h : percent ∉ escape keep bytes) :
    escape keep bytes = bytes := by
  induction bytes with
  | nil => rfl
  | cons b rest ih =>
    rw [escape_cons, List.mem_append, not_or] at h
    rw [escape_cons, ih h.2, escapeByte]
    split
    · rfl
    next hb => simp [escapeByte, hb] at h

/-- Another first byte than a percent sign was not escaped. -/
lemma escape_eq_cons {bytes t : List UInt8} {c : UInt8} (hc : c ≠ percent)
    (h : escape keep bytes = c :: t) :
    ∃ rest, bytes = c :: rest ∧ escape keep rest = t := by
  cases bytes with
  | nil => cases h
  | cons b rest =>
    rw [escape_cons, escapeByte] at h
    split at h
    · cases h
      exact ⟨rest, rfl, rfl⟩
    cases h
    exact absurd rfl hc

end HetuEngine.Lib.Percent
