/-
The write-ahead log of the consensus (consensus/wal.go, with the reader of
libs/autofile/group.go).

A record is a checksum, a length and an encoded message. The log is a group
of files, and a reader that is opened at one of them goes on to the last, so
what it reads is one sequence of bytes. A crash may leave the last record cut
off at any byte. What is cut off is then all that is lost
(`cut_log_read_back`).

`Format` stands for the protobuf encoding and CRC-32C; the files of the group
can be opened and read.
-/
import HetuEngine.Comet.Types
import HetuEngine.Mempool.Client

namespace HetuEngine.Comet

open Narwhal Mempool

variable {M : Type}

/-- How messages are written: nothing if `WALToProto`, `proto.Unmarshal` or
`WALFromProto` fail. -/
structure Wal.Format (M : Type) where
  marshal : M → Option Bytes
  unmarshal : Bytes → Option M
  checksum : Bytes → UInt32

namespace Wal

/-- `maxMsgSize + 24`. -/
def maxMsgSizeBytes : Nat := 1048576 + 24

inductive EncodeError where
  | convert
  /-- "msg is too big: %d bytes, max: %d bytes" -/
  | tooBig (length : Nat)

/-- The causes of a `DataCorruptionError`. -/
inductive Corruption where
  /-- "failed to read length: %v" -/
  | readLength
  /-- "length %d exceeded maximum possible value of %d bytes" -/
  | tooLong (length : Nat)
  /-- "failed to read data: %v (read: %d, wanted: %d)" -/
  | readData (wanted : Nat)
  /-- "checksums do not match: read: %v, actual: %v" -/
  | checksum
  /-- "failed to decode data: %v", or "failed to convert from proto: %w" -/
  | decode

inductive DecodeError where
  | eof
  | corrupted (cause : Corruption)

def beBytes (n : Nat) : Bytes := (leBytes 4 n).reverse

/-- `GroupReader.Read` into `n` bytes: what is read, unless it fails, and
what is left. -/
def read (n : Nat) (rd : Bytes) : Option Bytes × Bytes :=
  -- "given empty slice", or the end of the last file
  (if n = 0 ∨ rd.length < n then none else some (rd.take n), rd.drop n)

namespace Format

variable (f : Format M)

def encode (m : M) : Except EncodeError Bytes :=
  match f.marshal m with
  | none => .error .convert
  | some data =>
    let length := data.length % 2 ^ 32
    if maxMsgSizeBytes < length then .error (.tooBig length)
    else .ok (beBytes (f.checksum data).toNat ++ (beBytes length ++ data.take length))

/-- `Decode` from the length on. -/
def decodeData (crc length : Nat) (rd : Bytes) : Except DecodeError M × Bytes :=
  if maxMsgSizeBytes < length then (.error (.corrupted (.tooLong length)), rd)
  else
    match read length rd with
    | (none, rd) => (.error (.corrupted (.readData length)), rd)
    | (some data, rd) =>
      if (f.checksum data).toNat ≠ crc then (.error (.corrupted .checksum), rd)
      else
        match f.unmarshal data with
        | none => (.error (.corrupted .decode), rd)
        | some m => (.ok m, rd)

/-- `Decode`: the message or the error, and what is left to read. -/
def decode (rd : Bytes) : Except DecodeError M × Bytes :=
  match read 4 rd with
  | (none, rd) => (.error .eof, rd)
  | (some crc, rd) =>
    match read 4 rd with
    | (none, rd) => (.error (.corrupted .readLength), rd)
    | (some length, rd) => f.decodeData (leValue crc.reverse) (leValue length.reverse) rd

/-- The loop of `catchupReplay`: the messages up to the first error. -/
def decodeAll : Nat → Bytes → List M × Option DecodeError
  | 0, _ => ([], none)
  | fuel + 1, rd =>
    match f.decode rd with
    | (.error e, _) => ([], some e)
    | (.ok m, rd) => (m :: (decodeAll fuel rd).1, (decodeAll fuel rd).2)

end Format

-- ==== records

/-- The bytes of messages that were written without an error. -/
inductive Written (f : Format M) : List M → Bytes → Prop
  | nil : Written f [] []
  | cons {m : M} {ms : List M} {r log : Bytes} (hr : f.encode m = .ok r) (h : Written f ms log) :
      Written f (m :: ms) (r ++ log)

/-- What the encoding must do: a message is read back, is not empty, as the
time is always there, and has less than 4 GiB. -/
structure Format.Lawful (f : Format M) : Prop where
  unmarshal : ∀ {m data}, f.marshal m = some data → f.unmarshal data = some m
  ne_nil : ∀ {m data}, f.marshal m = some data → data ≠ []
  length_lt : ∀ {m data}, f.marshal m = some data → data.length < 2 ^ 32

/-- The error at the end of a log that ends with `n` bytes of a record. -/
def ending (n wanted : Nat) : DecodeError :=
  if n < 4 then .eof
  else .corrupted (if n < 8 then .readLength else .readData wanted)

variable {f : Format M} {m : M} {ms ms' : List M} {r log log' torn : Bytes} {n fuel : Nat}

lemma length_beBytes (n : Nat) : (beBytes n).length = 4 := by
  rw [beBytes, List.length_reverse, length_leBytes]

lemma beValue_beBytes (h : n < 2 ^ 32) : leValue (beBytes n).reverse = n := by
  rw [beBytes, List.reverse_reverse, leValue_leBytes, Nat.mod_eq_of_lt (show n < 256 ^ 4 from h)]

lemma read_append {b : Bytes} (rest : Bytes) (hb : b ≠ []) :
    read b.length (b ++ rest) = (some b, rest) := by
  have hpos := List.length_pos_iff.mpr hb
  unfold read
  rw [if_neg (by rw [List.length_append]; omega), List.take_left, List.drop_left]

lemma read_four (n : Nat) (rest : Bytes) :
    read 4 (beBytes n ++ rest) = (some (beBytes n), rest) := by
  have hne : beBytes n ≠ [] := List.length_pos_iff.mp (by rw [length_beBytes]; decide)
  have h := read_append rest hne
  rwa [length_beBytes] at h

lemma read_short {rd : Bytes} (h : rd.length < n) :
    read n rd = (none, []) := by
  unfold read
  rw [if_pos (.inr h), List.drop_eq_nil_of_le h.le]

lemma encode_eq_ok (hf : f.Lawful) (h : f.encode m = .ok r) :
    ∃ data, f.marshal m = some data ∧ data.length ≤ maxMsgSizeBytes
      ∧ r = beBytes (f.checksum data).toNat
        ++ (beBytes data.length ++ data) := by
  unfold Format.encode at h
  split at h
  · cases h
  next data hdata =>
  simp only [Nat.mod_eq_of_lt (hf.length_lt hdata), List.take_length] at h
  split_ifs at h with hle
  cases h
  exact ⟨data, hdata, not_lt.mp hle, rfl⟩

lemma decode_header (crc : UInt32) (hn : n < 2 ^ 32) (rest : Bytes) :
    f.decode (beBytes crc.toNat ++ (beBytes n ++ rest))
      = f.decodeData crc.toNat n rest := by
  unfold Format.decode
  simp only [read_four, beValue_beBytes hn, beValue_beBytes crc.toNat_lt]

lemma decode_record (hf : f.Lawful) (h : f.encode m = .ok r) (rest : Bytes) :
    f.decode (r ++ rest) = (.ok m, rest) := by
  obtain ⟨data, hdata, hle, rfl⟩ := encode_eq_ok hf h
  rw [List.append_assoc, List.append_assoc, decode_header _ (hf.length_lt hdata), Format.decodeData,
    if_neg (not_lt.mpr hle), read_append rest (hf.ne_nil hdata)]
  simp only [ne_eq, not_true_eq_false, if_false, hf.unmarshal hdata]

/-- A record that is cut off is not read, and leaves nothing. -/
lemma decode_torn (hf : f.Lawful) (h : f.encode m = .ok r)
    (hn : n < r.length) :
    ∃ wanted, f.decode (r.take n) = (.error (ending n wanted), []) := by
  obtain ⟨data, hdata, hle, rfl⟩ := encode_eq_ok hf h
  refine ⟨data.length, ?_⟩
  have hcrc := length_beBytes (f.checksum data).toNat
  have hlen := length_beBytes data.length
  simp only [List.length_append, hcrc, hlen] at hn
  unfold ending
  by_cases h4 : n < 4
  · rw [if_pos h4]
    unfold Format.decode
    rw [read_short (by rw [List.length_take]; omega)]
  rw [if_neg h4, List.take_append, List.take_of_length_le (by omega), hcrc]
  by_cases h8 : n < 8
  · rw [if_pos h8, List.take_append_of_le_length (by omega)]
    unfold Format.decode
    simp only [read_four]
    rw [read_short (by rw [List.length_take]; omega)]
  rw [if_neg h8, List.take_append, List.take_of_length_le (by omega), hlen,
    decode_header _ (hf.length_lt hdata), Format.decodeData, if_neg (not_lt.mpr hle),
    read_short (by rw [List.length_take]; omega)]

-- ==== a log that is cut off

lemma Written.append (h : Written f ms log) (h' : Written f ms' log') :
    Written f (ms ++ ms') (log ++ log') := by
  induction h with
  | nil => exact h'
  | cons hr _ ih =>
    rw [List.cons_append, List.append_assoc]
    exact .cons hr ih

lemma Written.length_le (hf : f.Lawful) (h : Written f ms log) :
    ms.length ≤ log.length := by
  induction h with
  | nil => exact le_rfl
  | cons hr _ ih =>
    obtain ⟨data, -, -, rfl⟩ := encode_eq_ok hf hr
    have := length_beBytes data.length
    simp only [List.length_cons, List.length_append]
    omega

lemma decodeAll_written (hf : f.Lawful) (h : Written f ms log)
    {e : DecodeError} (htorn : f.decode torn = (.error e, []))
    (hfuel : ms.length < fuel) :
    f.decodeAll fuel (log ++ torn) = (ms, some e) := by
  induction h generalizing fuel with
  | nil =>
    obtain ⟨fuel, rfl⟩ := Nat.exists_eq_add_of_lt hfuel
    simp only [List.nil_append, Format.decodeAll, htorn]
  | cons hr _ ih =>
    obtain ⟨fuel, rfl⟩ := Nat.exists_eq_add_one_of_ne_zero (Nat.ne_zero_of_lt hfuel)
    rw [List.append_assoc, Format.decodeAll, decode_record hf hr]
    simp only [ih (Nat.lt_of_succ_lt_succ hfuel)]

lemma decode_nil : f.decode [] = (.error .eof, []) := rfl

/-- A log that is cut at any byte is read as the messages whose records are
complete, and then ends with an error. -/
theorem cut_log_read_back (hf : f.Lawful) (h : Written f ms log) (n : Nat) :
    ∃ k whole torn wanted, Written f (ms.take k) whole
      ∧ log.take n = whole ++ torn
      ∧ (∀ m ∈ ms[k]?, ∃ r, f.encode m = .ok r ∧ torn.length < r.length)
      ∧ f.decodeAll ((log.take n).length + 1) (log.take n)
        = (ms.take k, some (ending torn.length wanted)) := by
  suffices key : ∃ k whole torn wanted, Written f (ms.take k) whole ∧ log.take n = whole ++ torn
      ∧ (∀ m ∈ ms[k]?, ∃ r, f.encode m = .ok r ∧ torn.length < r.length)
      ∧ f.decode torn = (.error (ending torn.length wanted), []) by
    obtain ⟨k, whole, torn, wanted, hwhole, hcut, hnext, htorn⟩ := key
    refine ⟨k, whole, torn, wanted, hwhole, hcut, hnext, ?_⟩
    have hle := hwhole.length_le hf
    rw [hcut]
    exact decodeAll_written hf hwhole htorn (by rw [List.length_append]; omega)
  induction h generalizing n with
  | nil => exact ⟨0, [], [], 0, .nil, List.take_nil, fun m hm => (by cases hm), decode_nil⟩
  | @cons m ms r log hr _ ih =>
    by_cases hn : n < r.length
    · -- the cut is in this record
      obtain ⟨wanted, htorn⟩ := decode_torn hf hr hn
      have hlength : (r.take n).length = n := by rw [List.length_take]; omega
      refine ⟨0, [], r.take n, wanted, .nil, List.take_append_of_le_length hn.le, ?_, ?_⟩
      · rintro _ ⟨⟩
        exact ⟨r, hr, by rw [hlength]; exact hn⟩
      rw [hlength]
      exact htorn
    obtain ⟨k, whole, torn, wanted, hwhole, hcut, hnext, htorn⟩ := ih (n - r.length)
    refine ⟨k + 1, r ++ whole, torn, wanted, .cons hr hwhole, ?_, hnext, htorn⟩
    rw [List.take_append, List.take_of_length_le (by omega), hcut, List.append_assoc]

def sampleFormat : Format UInt8 where
  marshal b := some [b]
  unmarshal := List.head?
  checksum _ := 0

lemma sampleFormat_lawful : sampleFormat.Lawful where
  unmarshal h := by
    cases h
    rfl
  ne_nil h := by
    cases h
    exact List.cons_ne_nil _ _
  length_lt h := by
    cases h
    exact (by decide : 1 < 2 ^ 32)

def sampleRecord (b : UInt8) : Bytes := [0, 0, 0, 0, 0, 0, 0, 1, b]

lemma written_sample (b : UInt8) :
    Written sampleFormat [b] (sampleRecord b) := by
  rw [← List.append_nil (sampleRecord b)]
  refine .cons ?_ .nil
  simp [Format.encode, sampleFormat, sampleRecord, maxMsgSizeBytes, beBytes, leBytes]

theorem cut_log_sample :
    ∃ k whole torn wanted, Written sampleFormat ([5, 6].take k) whole
      ∧ (sampleRecord 5 ++ sampleRecord 6).take 14 = whole ++ torn
      ∧ (∀ m ∈ [5, 6][k]?, ∃ r, sampleFormat.encode m = .ok r
        ∧ torn.length < r.length)
      ∧ sampleFormat.decodeAll 15 ((sampleRecord 5 ++ sampleRecord 6).take 14)
        = ([5, 6].take k, some (ending torn.length wanted)) :=
  cut_log_read_back sampleFormat_lawful ((written_sample 5).append (written_sample 6)) 14

end Wal

end HetuEngine.Comet
