/-
Sending to Narwhal (mempool/narwhal_client.go): frames, and the retry of
`SubmitTransaction`.

`SubmitTransaction` holds `submitConnLock` when it calls `reconnectSubmit`,
which takes it too, and a mutex of Go is not reentrant: after a failed write
the call never returns, and nor does any later one. `none` is a call that
waits for a lock for ever.

A connection is what was written on it. Its buffered writer is empty between
two frames, and after an error it fails for good.
-/
import HetuEngine.Mempool.Narwhal
import HetuEngine.Narwhal.Proofs.Identity

namespace HetuEngine.Mempool

open Narwhal

def maxFrameLength : Nat := 16777215

inductive FrameError where
  | tooLarge
  | failed

-- ==== frames

/-- A payload behind its length, in four bytes, big-endian. -/
def frame (data : Bytes) : Bytes := (leBytes 4 data.length).reverse ++ data

/-- The number that bytes spell, little-endian. -/
def leValue : Bytes → Nat
  | [] => 0
  | b :: bytes => b.toNat + 256 * leValue bytes

/-- `readFrame`: the payload, and what is still to be read. -/
def readFrame (input : Bytes) : Except FrameError (Bytes × Bytes) :=
  if input.length < 4 then .error .failed
  else
    let length := leValue (input.take 4).reverse
    if maxFrameLength < length then .error .tooLarge
    else if (input.drop 4).length < length then .error .failed
    else .ok ((input.drop 4).take length, (input.drop 4).drop length)

def readFrames : Nat → Bytes → Except FrameError (List Bytes × Bytes)
  | 0, input => .ok ([], input)
  | n + 1, input => do
      let (data, input) ← readFrame input
      let (rest, input) ← readFrames n input
      return (data :: rest, input)

structure Conn where
  written : Bytes
  broken : Bool

/-- `writeFrame` on a connection that takes `limit` more bytes, or all. -/
def Conn.writeFrame (limit : Option Nat) (data : Bytes) (conn : Conn) : Option FrameError × Conn :=
  if maxFrameLength < data.length then (some .tooLarge, conn)
  else if conn.broken then (some .failed, conn)
  else
    match limit with
    | none => (none, ⟨conn.written ++ frame data, false⟩)
    | some n => (some .failed, ⟨conn.written ++ (frame data).take n, true⟩)

-- ==== submitting

/-- The client: its connection, and whether `submitConnLock` is held. -/
structure Client where
  conn : Conn
  locked : Bool

namespace Client

def lock (c : Client) : Option Client := if c.locked then none else some { c with locked := true }

def unlock (c : Client) : Client := { c with locked := false }

/-- `reconnectSubmit`, where `dial` says whether there is a new
connection. -/
def reconnectSubmit (dial : Bool) (c : Client) : Option (Option FrameError × Client) := do
  let c ← c.lock
  if dial then return (none, unlock { c with conn := ⟨[], false⟩ })
  else return (some .failed, c.unlock)

/-- `SubmitTransaction`, with what the two writes and the reconnect meet. -/
def submitTransaction (first second : Option Nat) (dial : Bool) (tx : Bytes)
    (c : Client) : Option (Option FrameError × Client) := do
  let c ← c.lock
  match c.conn.writeFrame first tx with
  | (none, conn) => return (none, unlock { c with conn })
  | (some _, conn) =>
    match ← reconnectSubmit dial { c with conn } with
    | (some e, c) => return (some e, c.unlock)
    | (none, c) =>
      let (err, conn) := c.conn.writeFrame second tx
      return (err, unlock { c with conn })

end Client

-- ==== what is to hold

/-- Submitting a transaction ends, and if it returns no error, then the frame
is on the connection as a whole. -/
structure Submits (tx : Bytes) (r : Option (Option FrameError × Client)) :
    Prop where
  returns : r.isSome
  complete : ∀ c, r = some (none, c) → ∃ before, c.conn.written = before ++ frame tx

/-- Frames are read as they were written, and none is too large. -/
structure Framed (payloads : List Bytes) : Prop where
  read : (∀ data ∈ payloads, data.length ≤ maxFrameLength) →
    readFrames payloads.length (payloads.flatMap frame) = .ok (payloads, [])
  written : ∀ data ∈ payloads, maxFrameLength < data.length →
    ∀ limit conn, Conn.writeFrame limit data conn = (some .tooLarge, conn)
  rejected : ∀ n input, maxFrameLength < n → n < 2 ^ 32 →
    readFrame ((leBytes 4 n).reverse ++ input) = .error .tooLarge

-- ==== reading

lemma leValue_leBytes (w n : Nat) : leValue (leBytes w n) = n % 256 ^ w := by
  induction w generalizing n with
  | zero => exact (Nat.mod_one n).symm
  | succ w ih => rw [leBytes, leValue, ih, Nat.pow_succ', Nat.mod_mul, UInt8.toNat_ofNat']

lemma readFrame_length {n : Nat} (h : n < 2 ^ 32) (input : Bytes) :
    readFrame ((leBytes 4 n).reverse ++ input) = if maxFrameLength < n then .error .tooLarge
      else if input.length < n then .error .failed
      else .ok (input.take n, input.drop n) := by
  have hlength : (leBytes 4 n).reverse.length = 4 := by rw [List.length_reverse, length_leBytes]
  unfold readFrame
  rw [if_neg (by rw [List.length_append, hlength]; omega),
    List.take_left' hlength, List.drop_left' hlength, List.reverse_reverse,
    leValue_leBytes, Nat.mod_eq_of_lt (show n < 256 ^ 4 from h)]

lemma readFrame_written {data : Bytes} (h : data.length ≤ maxFrameLength)
    (rest : Bytes) : readFrame (frame data ++ rest) = .ok (data, rest) := by
  have hlt : data.length < 2 ^ 32 := lt_of_le_of_lt h (by decide)
  rw [frame, List.append_assoc, readFrame_length hlt, if_neg (by omega),
    if_neg (by rw [List.length_append]; omega), List.take_left,
    List.drop_left]

lemma framed (payloads : List Bytes) : Framed payloads := by
  refine ⟨fun h => ?_, fun data _ h limit conn => if_pos h, ?_⟩
  · induction payloads with
    | nil => rfl
    | cons data payloads ih =>
      obtain ⟨hdata, h⟩ := List.forall_mem_cons.mp h
      rw [List.flatMap_cons, List.length_cons, readFrames, readFrame_written hdata]
      dsimp only [bind, Except.bind]
      rw [ih h]
      rfl
  intro n input hmax hlt
  rw [readFrame_length hlt, if_pos hmax]

/-- A call that finds the lock free returns exactly if its first write does
not fail; frames are read as they were written in any case. -/
theorem submit_completes_iff (first second : Option Nat) (dial : Bool)
    (tx : Bytes) (c : Client) (payloads : List Bytes)
    (hlock : c.locked = false) (htx : tx.length ≤ maxFrameLength) :
    Submits tx (c.submitTransaction first second dial tx) ∧ Framed payloads
      ↔ c.conn.broken = false ∧ first = none := by
  have hlarge : ¬maxFrameLength < tx.length := not_lt.mpr htx
  cases hbroken : c.conn.broken with
  | true =>
    have hblocked : c.submitTransaction first second dial tx = none := by
      simp [Client.submitTransaction, Client.lock, Client.reconnectSubmit,
        hlock, Conn.writeFrame, hlarge, hbroken]
    rw [hblocked]
    exact ⟨fun h => (by cases h.1.returns), fun h => (by cases h.1)⟩
  | false =>
    cases first with
    | some n =>
      have hblocked : c.submitTransaction (some n) second dial tx = none := by
        simp [Client.submitTransaction, Client.lock, Client.reconnectSubmit,
          hlock, Conn.writeFrame, hlarge, hbroken]
      rw [hblocked]
      exact ⟨fun h => (by cases h.1.returns), fun h => (by cases h.2)⟩
    | none =>
      have hsent : c.submitTransaction none second dial tx
          = some (none, ⟨⟨c.conn.written ++ frame tx, false⟩, false⟩) := by
        simp [Client.submitTransaction, Client.lock, Client.unlock, hlock,
          Conn.writeFrame, hlarge, hbroken]
      rw [hsent]
      refine ⟨fun _ => ⟨rfl, rfl⟩, fun _ => ⟨⟨rfl, ?_⟩, framed payloads⟩⟩
      rintro _ ⟨⟩
      exact ⟨_, rfl⟩

theorem submit_completes_byte : let c : Client := ⟨⟨[], false⟩, false⟩
    c.locked = false ∧ Submits [7] (c.submitTransaction none none true [7]) ∧ Framed [[7], []] :=
  ⟨rfl, (submit_completes_iff none none true [7] _ _ rfl (by decide)).mpr ⟨rfl, rfl⟩⟩

/-- The first write fails after two bytes: the call waits for the lock that
it holds, although a new connection could be made. -/
theorem submit_blocks :
    Client.submitTransaction (some 2) none true [7]
      ⟨⟨[], false⟩, false⟩ = none := rfl

end HetuEngine.Mempool
