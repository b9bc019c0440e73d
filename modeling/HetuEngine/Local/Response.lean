/-
The length prefix of a response, as the client of the remote application reads
it.

`binary_varint_decode` shifts seven bits of each byte into a `u64`. Of a tenth
byte one bit is left and the others vanish, so a number beyond 64 bits is
taken for another one; and a varint that goes on after ten bytes is refused,
though the bytes beyond may all be zero.
-/
import HetuEngine.Comet.Proofs.Votes

namespace HetuEngine.Local

open Comet List Nat Option

/-- The loop of `binary_varint_decode`. -/
def decodeFrom (value shift : Nat) : Bytes → Except String Nat
  | [] => .error "Unexpected EOF"
  | byte :: buf =>
    if 64 ≤ shift then .error "Varint is too long" else
    let value := value ||| (byte.toNat % 0x80) <<< shift % 2 ^ 64
    if byte.toNat < 0x80 then .ok value else decodeFrom value (shift + 7) buf

def binaryVarintDecode (buf : Bytes) : Except String Nat := decodeFrom 0 0 buf

/-- The loop of `read_response`; `lengthBuf` is what it has read. -/
def readLength (lengthBuf : Bytes) : Bytes → Except String (Nat × Bytes)
  | [] => .error "Failed to read length byte"
  | byte :: stream =>
    match binaryVarintDecode (lengthBuf ++ [byte]) with
    | .ok l => .ok (l, stream)
    | .error _ =>
      if 10 ≤ (lengthBuf ++ [byte]).length then .error "Invalid varint length"
      else readLength (lengthBuf ++ [byte]) stream

/-- The bytes of a response, and the stream after them. -/
def readResponse (stream : Bytes) : Except String (Bytes × Bytes) :=
  match readLength [] stream with
  | .error e => .error e
  | .ok (l, stream) =>
    if 1024 * 1024 < l then .error "Response too large"
    else if stream.length < l then .error "Failed to read message"
    else .ok (stream.splitAt l)

/-- The decoder reads ten bytes at most, and the number modulo 2⁶⁴. -/
lemma decodeFrom_eq {value shift k : Nat} {buf : Bytes}
    (hk : shift + 7 * k = 63) (hvalue : value < 2 ^ shift) :
    (decodeFrom value shift buf).toOption
      = (uvarint (buf.take (k + 1))).map fun x => (2 ^ shift * x.1 + value) % 2
        ^ 64 := by
  induction buf generalizing value shift k with
  | nil => rfl
  | cons b buf ih =>
    have hfits : value % 2 ^ 64 = value :=
      Nat.mod_eq_of_lt (hvalue.trans (Nat.pow_lt_pow_right (by decide) (by omega)))
    have hor : value ||| (b.toNat % 128) <<< shift % 2 ^ 64
        = (2 ^ shift * (b.toNat % 128) + value) % 2 ^ 64 := by
      rw [← hfits, ← Nat.or_mod_two_pow, hfits, Nat.or_comm,
        ← shiftLeft_add_eq_or_of_lt hvalue, shiftLeft_eq, mul_comm]
    rw [decodeFrom, if_neg (by omega), hor, take_succ_cons, uvarint]
    dsimp only
    by_cases hlt : b.toNat < 128
    · rw [if_pos hlt, if_pos hlt, mod_eq_of_lt hlt]
      rfl
    rw [if_neg hlt, if_neg hlt]
    cases k with
    | zero =>
      obtain rfl : shift = 63 := by omega
      cases buf <;> rfl
    | succ k =>
      have hnext : 2 ^ (shift + 7) = 2 ^ shift * 128 := pow_add ..
      have hle : 2 ^ (shift + 7) ≤ 2 ^ 63 := Nat.pow_le_pow_right (by decide) (by omega)
      have hdigit := mul_le_mul_left (2 ^ shift) (mod_lt b.toNat (show 128 > 0 by decide))
      rw [mul_succ] at hdigit
      rw [mod_eq_of_lt (by omega), ih (k := k) (by omega) (by omega), Option.map_map, hnext]
      congr 1
      funext x
      rw [Function.comp, mul_add, mul_assoc]
      congr 1
      omega

variable {v : Nat} {buf rest : Bytes}

lemma decode_iff : binaryVarintDecode buf = .ok v
    ↔ ∃ x, uvarint (buf.take 10) = some x ∧ x.1 % 2 ^ 64 = v := by
  have h := @decodeFrom_eq 0 0 9 buf rfl one_pos
  simp only [pow_zero, one_mul, add_zero] at h
  rw [← map_eq_some_iff, ← h, binaryVarintDecode]
  cases decodeFrom 0 0 buf <;> simp [Except.toOption]

lemma uvarint_append (h : uvarint buf = some (v, rest)) (ys : Bytes) :
    uvarint (buf ++ ys) = some (v, rest ++ ys) := by
  induction buf generalizing v with
  | nil => cases h
  | cons b buf ih =>
    rw [cons_append]
    unfold uvarint at h ⊢
    split at h
    next hlt =>
      cases h
      rw [if_pos hlt]
    next hge =>
      obtain ⟨x, hx, hv⟩ := map_eq_some_iff.mp h
      cases hv
      rw [if_neg hge, ih hx]
      rfl

/-- The bytes of a varint are read, and nothing after them. -/
lemma readLength_eq {p : Bytes} (hv : v < 2 ^ 64)
    (hlen : (buf ++ p).length < 10) (hbuf : uvarint buf = none)
    (hread : uvarint (buf ++ p) = some (v, [])) :
    readLength buf (p ++ rest) = .ok (v, rest) := by
  induction p generalizing buf with
  | nil =>
    rw [append_nil, hbuf] at hread
    cases hread
  | cons b p ih =>
    rw [append_cons] at hlen hread
    have hshort : (buf ++ [b]).length < 10 := lt_of_le_of_lt (by simp) hlen
    have hdecode : ∀ l, binaryVarintDecode (buf ++ [b]) = .ok l
        ↔ ∃ x, uvarint (buf ++ [b]) = some x ∧ x.1 % 2 ^ 64 = l := by
      intro l
      rw [decode_iff, take_of_length_le hshort.le]
    rw [cons_append, readLength]
    cases hx : uvarint (buf ++ [b]) with
    | none =>
      split
      next l hl => simp [hdecode, hx] at hl
      next => rw [if_neg (by omega), ih hlen hx hread]
    | some x =>
      have hend := uvarint_append hx p
      simp only [hread, some.injEq, Prod.mk.injEq, nil_eq, append_eq_nil_iff] at hend
      obtain ⟨rfl, -, rfl⟩ := hend
      rw [(hdecode x.1).mpr ⟨x, hx, mod_eq_of_lt hv⟩]
      rfl

lemma length_varint {fuel n k : Nat} (h : n < 128 ^ (k + 1)) :
    (varint fuel n).length ≤ k + 1 := by
  induction fuel generalizing n k with
  | zero => simp [varint]
  | succ fuel ih =>
    unfold varint
    split
    · simp
    cases k with
    | zero => omega
    | succ k => exact succ_le_succ (ih (by omega))

/-- A byte string is decoded to the number of the varint it begins with, if
that fits in 64 bits, and to nothing else, exactly if the varints that fit are
those that end within ten bytes. A response of at most 1 MiB is read, and
nothing after it. -/
theorem length_prefix_iff (buf : Bytes) :
    ((∀ v, binaryVarintDecode buf = .ok v
      ↔ (∃ rest, uvarint buf = some (v, rest)) ∧ v < 2 ^ 64)
      ↔ ∀ x, uvarint buf = some x →
        (x.1 < 2 ^ 64 ↔ (uvarint (buf.take 10)).isSome))
      ∧ ∀ msg rest : Bytes, msg.length ≤ 1024 * 1024 →
        readResponse
          (encodeVarint msg.length ++ msg ++ rest) = .ok (msg, rest) := by
  constructor
  · simp only [decode_iff]
    cases hten : uvarint (buf.take 10) with
    | none => simp
    | some x =>
      have hwhole := uvarint_append hten (buf.drop 10)
      rw [take_append_drop] at hwhole
      simp only [hwhole, some.injEq, exists_eq_left', Prod.mk.injEq, exists_and_left,
        exists_eq', and_true, forall_eq', isSome_some, iff_true]
      refine ⟨fun h => ?_, fun h v => by omega⟩
      have := h (x.1 % 2 ^ 64)
      omega
  intro msg rest hmsg
  have hread : uvarint (encodeVarint msg.length ++ []) = some (msg.length, []) :=
    uvarint_varint (lt_fuel msg.length)
  have hlen : (encodeVarint msg.length).length ≤ 3 := length_varint (by omega)
  have hlength : readLength [] (encodeVarint msg.length ++ (msg ++ rest))
      = .ok (msg.length, msg ++ rest) := by
    refine readLength_eq (by omega) ?_ rfl ?_
    · rw [nil_append]
      omega
    rwa [append_nil] at hread
  rw [append_assoc, readResponse, hlength]
  dsimp only
  rw [if_neg (by omega), if_neg (by simp)]
  simp

/-- 2⁶⁴, decoded as 0. -/
theorem length_prefix_fails :
    binaryVarintDecode (replicate 9 0x80 ++ [2]) = .ok 0
      ∧ uvarint (replicate 9 0x80 ++ [2]) = some (2 ^ 64, []) := by
  decide +kernel

end HetuEngine.Local
