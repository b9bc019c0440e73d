/-
The encrypted stream of a secret connection, in one direction.

`Write` cuts its data into frames and seals each under the next nonce. `Read`
opens a frame under a nonce of its own, which goes on only if the frame was
opened, and keeps what the caller has no room for. What is delivered is up to
an attacker, who cannot forge: the cipher is ideal.

What was written and what was returned are read off the calls: the data that a
`Write` was given, and what a `Read` put in its buffer.
-/
import HetuEngine.Mempool.Client

namespace HetuEngine.P2P

open Narwhal Mempool

def dataLenSize : Nat := 4

def dataMaxSize : Nat := 1024

structure Stream where
  sendFrame : Bytes := List.replicate (dataLenSize + dataMaxSize) 0
  sendNonce : Nat := 0
  sendPanicked : Bool := false
  recvNonce : Nat := 0
  recvBuffer : Bytes := []
  recvPanicked : Bool := false
  /-- The frames that were sealed, each with its nonce. -/
  sealed : List (Nat × Bytes) := []

inductive Failure where
  | connection
  | decrypt
  | tooLong
  | panic

def incrNonce (counter : Nat) : Option Nat :=
  if counter = 2 ^ 64 - 1 then none else some (counter + 1)

def chunkLength (frame : Bytes) : Nat := leValue (frame.take dataLenSize)

def chunk (frame : Bytes) : Bytes := (frame.drop dataLenSize).take (chunkLength frame)

inductive Event where
  | write (accepts : Nat) (data : Bytes)
  | read (size : Nat) (sealedFrame : Option (Nat × Bytes))

namespace Stream

/-- What an earlier chunk left in the frame stays behind a shorter one. -/
def sealFrame (s : Stream) (data : Bytes) : Stream :=
  let frame :=
    leBytes dataLenSize data.length ++ (data ++ s.sendFrame.drop (dataLenSize + data.length))
  { s with sendFrame := frame, sealed := s.sealed ++ [(s.sendNonce, frame)] }

/-- `Write` on a connection that takes `accepts` frames before it fails. -/
def write (accepts : Nat) (data : Bytes) (s : Stream) : Stream × Nat × Option Failure :=
  if data = [] then (s, 0, none) else
  let chunk := data.take dataMaxSize
  let s := s.sealFrame chunk
  match incrNonce s.sendNonce, accepts with
  | none, _ => ({ s with sendPanicked := true }, 0, some .panic)
  | some sendNonce, 0 => ({ s with sendNonce }, 0, some .connection)
  | some sendNonce, accepts + 1 =>
    let (s, n, err) := write accepts (data.drop dataMaxSize) { s with sendNonce }
    (s, chunk.length + n, err)

/-- What does not fit is kept. -/
def copyOut (size : Nat) (data : Bytes) (s : Stream) : Stream × Except Failure Bytes :=
  ({ s with recvBuffer := data.drop size }, .ok (data.take size))

/-- Whatever is delivered, it opens under a nonce only if it was sealed under
that nonce. -/
def aeadOpen (s : Stream) (sealedFrame : Nat × Bytes) : Option Bytes :=
  if sealedFrame ∈ s.sealed ∧ sealedFrame.1 = s.recvNonce then some sealedFrame.2 else none

/-- `Read` into a buffer of `size` bytes, where `sealedFrame` is delivered. -/
def read (size : Nat) (sealedFrame : Option (Nat × Bytes)) (s : Stream) :
    Stream × Except Failure Bytes :=
  if s.recvBuffer ≠ [] then s.copyOut size s.recvBuffer else
  match sealedFrame with
  | none => (s, .error .connection)
  | some sealedFrame =>
    match s.aeadOpen sealedFrame with
    | none => (s, .error .decrypt)
    | some frame =>
      match incrNonce s.recvNonce with
      | none => ({ s with recvPanicked := true }, .error .panic)
      | some recvNonce =>
        if dataMaxSize < chunkLength frame then ({ s with recvNonce }, .error .tooLong)
        else copyOut size (chunk frame) { s with recvNonce }

def step (s : Stream) : Event → Stream
  | .write accepts data => if s.sendPanicked then s else (s.write accepts data).1
  | .read size sealedFrame => if s.recvPanicked then s else (s.read size sealedFrame).1

def run (es : List Event) : Stream := es.foldl step {}

/-- What a `Write` has written of its data, by what it returned: all of it, or
the `n` bytes before the frame that failed and that frame, which may have
reached the other side. -/
def sent (data : Bytes) : Nat × Option Failure → Bytes
  | (_, none) => data
  | (n, some _) => data.take (n + dataMaxSize)

def wrote (s : Stream) : Event → Bytes
  | .write accepts data =>
    if s.sendPanicked then [] else sent data (s.write accepts data).2
  | .read .. => []

def returned (s : Stream) : Event → Bytes
  | .write .. => []
  | .read size sealedFrame =>
    if s.recvPanicked then []
    else (s.read size sealedFrame).2.toOption.getD []

/-- What the events of a run add up to. -/
def collect (f : Stream → Event → Bytes) (s : Stream) : List Event → Bytes
  | [] => []
  | e :: es => f s e ++ collect f (s.step e) es

/-- The frames have the nonces in order, and the bytes `out` that were
written. The bytes `back` that were returned and what is kept are the contents
of the frames that were opened. -/
structure Sound (s : Stream) (out back : Bytes) : Prop where
  nonces : s.sealed.map Prod.fst = List.range s.sealed.length
  length_le : s.sealed.length ≤ 2 ^ 64
  next : s.sendPanicked = false → s.sendNonce = s.sealed.length ∧ s.sendNonce < 2 ^ 64
  content : out = s.sealed.flatMap fun e => chunk e.2
  short : ∀ e ∈ s.sealed, chunkLength e.2 ≤ dataMaxSize
  opened : s.recvNonce ≤ s.sealed.length
  stream : back ++ s.recvBuffer
    = (s.sealed.take s.recvNonce).flatMap fun e => chunk e.2

lemma incrNonce_eq_some {n m : Nat} :
    incrNonce n = some m ↔ n ≠ 2 ^ 64 - 1 ∧ m = n + 1 := by
  simp [incrNonce, eq_comm]

lemma mem_of_aeadOpen {s : Stream} {c : Nat × Bytes} {frame : Bytes}
    (h : s.aeadOpen c = some frame) : (s.recvNonce, frame) ∈ s.sealed := by
  simp only [aeadOpen, Option.ite_none_right_eq_some] at h
  obtain ⟨⟨hmem, hnonce⟩, h⟩ := h
  cases h
  rwa [← hnonce]

lemma chunk_eq {data rest : Bytes} (h : data.length ≤ dataMaxSize) :
    let frame := leBytes dataLenSize data.length ++ (data ++ rest)
    chunkLength frame = data.length ∧ chunk frame = data := by
  intro frame
  have hlength : chunkLength frame = data.length := by
    rw [chunkLength, List.take_left' (length_leBytes ..), leValue_leBytes]
    exact Nat.mod_eq_of_lt (h.trans_lt (by decide))
  refine ⟨hlength, ?_⟩
  rw [chunk, hlength, List.drop_left' (length_leBytes ..), List.take_left' rfl]

/-- The first chunk, and what is sent of the rest. -/
lemma sent_cons (data : Bytes) (n : Nat) (err : Option Failure) :
    sent data ((data.take dataMaxSize).length + n, err)
      = data.take dataMaxSize ++ sent (data.drop dataMaxSize) (n, err) := by
  cases err with
  | none => exact (List.take_append_drop ..).symm
  | some e =>
    show data.take _ = _ ++ (data.drop dataMaxSize).take _
    rw [add_assoc, List.take_add]
    by_cases hle : dataMaxSize ≤ data.length
    · rw [List.length_take_of_le hle]
    have hlt := not_le.mp hle
    rw [List.take_of_length_le hlt.le, List.take_length, List.drop_length,
      List.drop_eq_nil_of_le hlt.le, List.take_nil]

namespace Sound

variable {s : Stream} {out back : Bytes} (hs : s.Sound out back)

include hs

/-- Another frame is sealed, and the counter goes on or panics. -/
lemma sealFrame (hup : s.sendPanicked = false) {data : Bytes}
    (hdata : data.length ≤ dataMaxSize) {nonce : Nat} {panicked : Bool}
    (hnonce : panicked = false → incrNonce s.sendNonce = some nonce) :
    Sound { s.sealFrame data with
      sendNonce := nonce, sendPanicked := panicked } (out ++ data) back := by
  obtain ⟨hnext, hlt⟩ := hs.next hup
  refine ⟨?_, ?_, fun hp => ?_, ?_, ?_, ?_, ?_⟩
  · simp [Stream.sealFrame, hs.nonces, List.range_succ, hnext]
  · simp [Stream.sealFrame]
    omega
  · have hsome := incrNonce_eq_some.mp (hnonce hp)
    simp [Stream.sealFrame]
    omega
  · simp [Stream.sealFrame, hs.content, (chunk_eq hdata).2]
  · refine List.forall_mem_append.mpr
      ⟨hs.short, List.forall_mem_singleton.mpr ?_⟩
    rwa [(chunk_eq hdata).1]
  · exact hs.opened.trans (List.prefix_append ..).length_le
  simp only [Stream.sealFrame]
  rw [List.take_append_of_le_length hs.opened, hs.stream]

/-- `Write` seals its data, or the beginning of it. -/
lemma write (hup : s.sendPanicked = false) (accepts : Nat) (data : Bytes) :
    (s.write accepts data).1.Sound
      (out ++ sent data (s.write accepts data).2) back := by
  fun_induction Stream.write accepts data s generalizing out with
  | case1 =>
    rw [sent, List.append_nil]
    exact hs
  | case2 =>
    rw [sent, Nat.zero_add]
    exact hs.sealFrame hup (List.length_take_le ..) (by simp)
  | case3 data s hdata chunk s' nonce =>
    rename_i hn
    rw [sent, Nat.zero_add]
    exact hs.sealFrame hup (List.length_take_le ..) fun _ => hn
  | case4 data s hdata chunk s' nonce accepts hn s₁ n err hrest =>
    rename_i ih
    have hrest' := ih
      (hs.sealFrame hup (List.length_take_le ..) fun _ => hn) hup
    rw [hrest, List.append_assoc, ← sent_cons] at hrest'
    exact hrest'

lemma read (size : Nat) (sealedFrame : Option (Nat × Bytes)) :
    (s.read size sealedFrame).1.Sound out
      (back ++ (s.read size sealedFrame).2.toOption.getD []) := by
  fun_cases Stream.read size sealedFrame s with
  | case1 =>
    exact { hs with
      stream := by simp [copyOut, Except.toOption, ← hs.stream] }
  | case2 | case3 => simpa [Except.toOption] using hs
  | case4 =>
    rw [show Except.toOption _ = none from rfl, Option.getD_none,
      List.append_nil]
    exact { hs with }
  | case5 hbuffer c frame hopen nonce hn hlong =>
    exact absurd hlong (hs.short _ (mem_of_aeadOpen hopen)).not_gt
  | case6 hbuffer c frame hopen nonce hn hlong =>
    obtain ⟨-, rfl⟩ := incrNonce_eq_some.mp hn
    -- the frame that was opened is the next one
    obtain ⟨i, hi⟩ := List.mem_iff_getElem?.mp (mem_of_aeadOpen hopen)
    have hfst := congrArg (·[i]?) hs.nonces
    simp only [List.getElem?_map, hi, Option.map_some] at hfst
    obtain ⟨hlt, heq⟩ := List.getElem?_eq_some_iff.mp hfst.symm
    rw [List.getElem_range] at heq
    subst heq
    have hstream := hs.stream
    rw [not_not.mp hbuffer, List.append_nil] at hstream
    refine { hs with
      opened := (List.getElem?_eq_some_iff.mp hi).1, stream := ?_ }
    simp [copyOut, Except.toOption, List.take_add_one, hi, hstream]

lemma step (e : Event) :
    (s.step e).Sound (out ++ s.wrote e) (back ++ s.returned e) := by
  cases e with
  | write accepts data =>
    simp only [Stream.step, wrote, returned, List.append_nil]
    split
    · rwa [List.append_nil]
    next hup => exact hs.write (eq_false_of_ne_true hup) ..
  | read size sealedFrame =>
    simp only [Stream.step, wrote, returned, List.append_nil]
    split
    · rwa [List.append_nil]
    exact hs.read ..

lemma run (es : List Event) : (es.foldl Stream.step s).Sound
    (out ++ collect wrote s es) (back ++ collect returned s es) := by
  induction es generalizing s out back with
  | nil => simpa [collect] using hs
  | cons e es ih =>
    have h := ih (hs.step e)
    rwa [List.append_assoc, List.append_assoc] at h

end Sound

lemma sound_new : Sound {} [] [] :=
  ⟨rfl, Nat.zero_le _, fun _ => ⟨rfl, Nat.two_pow_pos 64⟩, rfl, nofun,
    Nat.le_refl _, rfl⟩

/-- Whatever is delivered, what the reads return is a prefix of what the
writes were given, and no two frames are sealed under one nonce. -/
theorem stream_authentic (es : List Event) :
    collect returned {} es <+: collect wrote {} es
    ∧ ((run es).sealed.map Prod.fst).Nodup
    ∧ ∀ e ∈ (run es).sealed, e.1 < 2 ^ 64 := by
  have hs : (run es).Sound (collect wrote {} es) (collect returned {} es) :=
    sound_new.run es
  refine ⟨?_, ?_, fun e he => ?_⟩
  · rw [hs.content, ← List.take_append_drop (run es).recvNonce (run es).sealed,
      List.flatMap_append, ← hs.stream, List.append_assoc]
    exact List.prefix_append ..
  · rw [hs.nonces]
    exact List.nodup_range
  have hmem : e.1 ∈ (run es).sealed.map Prod.fst := List.mem_map_of_mem he
  rw [hs.nonces, List.mem_range] at hmem
  exact hmem.trans_le hs.length_le

end Stream

end HetuEngine.P2P
