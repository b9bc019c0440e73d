/-
Cutting data into parts and reading it back (types/part_set.go of
hetu-cometbft).

`NewPartSetFromData` counts and cuts in `uint32`, so the positions are
reduced mod 2^32; `none` is a panic of the run time (a slice out of range,
a division by zero, a nil part).
-/
import HetuEngine.Lib.Weight
import HetuEngine.Comet.Merkle

namespace HetuEngine.Comet

open Lib.Weight

-- ==== NewPartSetFromData

def slice (data : Bytes) (start stop : Nat) : Option Bytes :=
  if start ≤ stop ∧ stop ≤ data.length then some ((data.take stop).drop start)
  else none

def PartSet.fromData (sum : Bytes → Bytes) (data : Bytes) (partSize : Nat) : Option PartSet :=
  if partSize = 0 then none
  else
    let total := wordSub 32 (word 32 (word 32 data.length + partSize)) 1 / partSize
    let cut := (List.range total).mapM fun i =>
      slice data (word 32 (i * partSize)) (min data.length (word 32 ((i + 1) * partSize)))
    cut.map fun partsBytes =>
      let (root, proofs) := proofsFromByteSlices sum partsBytes
      { total
        hash := root
        parts := (partsBytes.zip proofs).zipIdx.map
          fun ((bytes, proof), i) => some { index := i, bytes, proof }
        count := total
        byteSize := data.length }

-- ==== PartSetReader

/-- `PartSetReader`: what is left of the part being read, and the parts
after it. -/
structure PartSetReader where
  reader : Bytes
  later : List (Option Part)

def PartSet.getReader (ps : PartSet) : Option PartSetReader :=
  if !ps.isComplete then none
  else
    match ps.parts with
    | some part :: later => some ⟨part.bytes, later⟩
    | none :: _ => none
    | [] => none

/-- `bytes.Reader.Read` of the part being read, into a buffer of `n` bytes:
what is read, whether it ends with `io.EOF`, and the reader after it. -/
def PartSetReader.readPart (psr : PartSetReader) (n : Nat) : Bytes × Bool × PartSetReader :=
  if psr.reader = [] then ([], true, psr)
  else (psr.reader.take n, false, { psr with reader := psr.reader.drop n })

/-- `PartSetReader.Read`. A part that is used up before the buffer is full is
read to its end first, and the rest of the buffer is read from the next
one. -/
def readParts (n : Nat) (reader : Bytes) :
    List (Option Part) → Option (Bytes × Bool × PartSetReader)
  | [] =>
    if n ≤ reader.length then some (PartSetReader.readPart ⟨reader, []⟩ n)
    else some (reader, true, ⟨[], []⟩)
  | none :: later =>
    if n ≤ reader.length then some (PartSetReader.readPart ⟨reader, none :: later⟩ n)
    else none
  | some part :: later =>
    if n ≤ reader.length then some (PartSetReader.readPart ⟨reader, some part :: later⟩ n)
    else
      (readParts (n - reader.length) part.bytes later).map
        fun (rest, eof, psr) => (reader ++ rest, eof, psr)

def PartSetReader.read (psr : PartSetReader) (n : Nat) : Option (Bytes × Bool × PartSetReader) :=
  readParts n psr.reader psr.later

/-- Reading into buffers of these sizes until `io.EOF`: all that was read,
and whether the end was met. -/
def PartSetReader.drain : (psr : PartSetReader) → (sizes : List Nat) → Option (Bytes × Bool)
  | _, [] => some ([], false)
  | psr, n :: sizes =>
    match psr.read n with
    | none => none
    | some (bytes, true, _) => some (bytes, true)
    | some (bytes, false, psr) => (psr.drain sizes).map fun (rest, eof) => (bytes ++ rest, eof)

end HetuEngine.Comet
