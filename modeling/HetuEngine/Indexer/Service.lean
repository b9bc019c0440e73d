/-
The transaction index, as the indexer service fills it block by block.

`AddBatch` writes the results of a block in one batch, each under the hash of
its transaction, whatever is there. `Index`, which spares a success, is not
what the service calls: a transaction that fails later loses its success.
-/
import HetuEngine.Comet.Types
import HetuEngine.Lib.Along
import HetuEngine.Lib.Database

namespace HetuEngine.Indexer

open Comet Lib

structure Event where
  type : String
  /-- The keys of the attributes. -/
  keys : List String
  deriving DecidableEq

structure TxResult where
  tx : Bytes
  code : Nat
  events : List Event
  deriving DecidableEq

def TxResult.isOK (r : TxResult) : Bool := r.code = 0

/-- The error of `indexEvents`, for the first tag that is reserved. -/
def TxResult.indexEvents (r : TxResult) : Option String :=
  r.events.findSome? fun event => if event.type = "" then none else
    event.keys.findSome? fun key => if key = "" then none else
      let compositeTag := event.type ++ "." ++ key
      if compositeTag = "tx.hash" ∨ compositeTag = "tx.height" then
        some ("event type and attribute key \"" ++ compositeTag
          ++ "\" is reserved; please use a different key")
      else none

abbrev Store := Database Bytes TxResult

def get (store : Store) (hash : Bytes) : Except String (Option TxResult) :=
  if hash = [] then .error "transaction hash cannot be empty" else .ok (store hash)

def Succeeds (store : Store) (hash : Bytes) : Prop :=
  ∃ r, get store hash = .ok (some r) ∧ r.isOK = true

instance (store : Store) (hash : Bytes) : Decidable (Succeeds store hash) :=
  match h : get store hash with
  | .ok (some r) =>
    decidable_of_iff (r.isOK = true) (by simp [Succeeds, h])
  | .ok none | .error _ => isFalse (by simp [Succeeds, h])

structure Hasher where
  hash : Bytes → Bytes
  ne_nil : ∀ tx, hash tx ≠ []

namespace Hasher

variable (p : Hasher)

/-- An error leaves the batch unwritten. -/
def addBatch (store : Store) (ops : List TxResult) : Store × Option String :=
  match ops.findSome? TxResult.indexEvents with
  | some e => (store, some e)
  | none => (store.write (ops.map fun r => ⟨p.hash r.tx, some r⟩), none)

def run (blocks : List (List TxResult)) : Store :=
  blocks.foldl (fun store ops => (p.addBatch store ops).1) .empty

def lastFor (hash : Bytes) (ops : List TxResult) : Option TxResult :=
  ops.reverse.find? fun r => p.hash r.tx = hash

/-- If the block is written, the last result for a transaction is a failure
only if it has no success, in the block or in the index before it. -/
abbrev Undisturbed (before : List (List TxResult)) (ops : List TxResult) : Prop :=
  (p.addBatch (p.run before) ops).2 = none → ∀ r ∈ ops,
    p.lastFor (p.hash r.tx) ops = some r → r.isOK = false →
    ¬Succeeds (p.run before) (p.hash r.tx)
    ∧ ∀ r' ∈ ops, p.hash r'.tx = p.hash r.tx → r'.isOK = false

end Hasher

variable {p : Hasher} {ops : List TxResult} {h : Bytes}

lemma write_results (store : Store) :
    store.write (ops.map fun r => ⟨p.hash r.tx, some r⟩) h
      = (p.lastFor h ops).or (store h) := by
  induction ops using List.reverseRecOn with
  | nil => rfl
  | append_singleton ops r ih =>
    unfold Hasher.lastFor at ih ⊢
    rw [List.map_append, Database.write_append, List.reverse_concat, List.find?_cons]
    show (if p.hash r.tx = h then some r else _) = _
    by_cases hr : p.hash r.tx = h
    · simp [hr]
    simp [hr, ih]

/-- A success that is in the index, or in the block that is written, is in the
index after the block. -/
lemma succeeds_concat {before : List (List TxResult)} (hne : h ≠ [])
    (hkeep : p.Undisturbed before ops)
    (hsucc : Succeeds (p.run before) h
      ∨ (p.addBatch (p.run before) ops).2 = none
        ∧ ∃ r ∈ ops, p.hash r.tx = h ∧ r.isOK = true) :
    Succeeds (p.run (before ++ [ops])) h := by
  rw [Hasher.run, List.foldl_concat]
  show Succeeds (p.addBatch (p.run before) ops).1 h
  unfold Hasher.Undisturbed at hkeep
  unfold Hasher.addBatch at hsucc hkeep ⊢
  split
  next he => exact hsucc.resolve_right fun hadded => by simp [he] at hadded
  next he =>
  dsimp only
  unfold Succeeds get
  rw [if_neg hne, write_results]
  cases hlast : p.lastFor h ops with
  | none =>
    -- the block has no result for the hash
    rcases hsucc with ⟨r, hget, hok⟩ | ⟨-, r, hr, hh, -⟩
    · rw [get, if_neg hne] at hget
      exact ⟨r, hget, hok⟩
    have hother := List.find?_eq_none.mp hlast r (List.mem_reverse.mpr hr)
    exact absurd (decide_eq_true hh) hother
  | some r =>
    cases hok : r.isOK with
    | true => exact ⟨r, rfl, hok⟩
    | false =>
      have hmem := List.mem_reverse.mp (List.mem_of_find?_eq_some hlast)
      have hhash := List.find?_some (p := fun r : TxResult => p.hash r.tx = h) hlast
      obtain rfl := of_decide_eq_true hhash
      obtain ⟨hnone, hblock⟩ := hkeep (by rw [he]) r hmem hlast hok
      rcases hsucc with hs | ⟨-, r', hr', hh, hok'⟩
      · exact absurd hs hnone
      rw [hblock r' hr' hh] at hok'
      cases hok'

/-- In a run of such blocks, a transaction that was indexed with a success is
found with one ever after. -/
theorem success_kept (p : Hasher) (before : List (List TxResult))
    (ops : List TxResult) (after : List (List TxResult)) (r : TxResult)
    (hrun : Along p.Undisturbed [] (before ++ ops :: after))
    (hindexed : (p.addBatch (p.run before) ops).2 = none)
    (hr : r ∈ ops) (hok : r.isOK = true) :
    Succeeds (p.run (before ++ ops :: after)) (p.hash r.tx) := by
  have hne := p.ne_nil r.tx
  induction after using List.reverseRecOn with
  | nil => exact succeeds_concat hne (along_concat.mp hrun).2 (.inr ⟨hindexed, r, hr, rfl, hok⟩)
  | append_singleton after last ih =>
    rw [← List.cons_append, ← List.append_assoc] at hrun ⊢
    obtain ⟨hrun, hlast⟩ := along_concat.mp hrun
    exact succeeds_concat hne hlast (.inl (ih hrun))

def sampleHasher : Hasher := ⟨List.cons 0, List.cons_ne_nil 0⟩

def sampleBlock (code : Nat) : List TxResult := [⟨[1], code, []⟩]

/-- A transaction fails, succeeds, fails and succeeds in one block, and another
one fails. -/
theorem success_kept_sample :
    Succeeds (sampleHasher.run [sampleBlock 1, sampleBlock 0,
      sampleBlock 1 ++ sampleBlock 0, [⟨[2], 1, []⟩]]) [0, 1] :=
  success_kept sampleHasher [sampleBlock 1] (sampleBlock 0)
    [sampleBlock 1 ++ sampleBlock 0, [⟨[2], 1, []⟩]] ⟨[1], 0, []⟩
    (by decide) rfl
    (List.mem_singleton_self _) rfl

/-- A transaction that succeeds in a block and fails in the next. -/
theorem success_hidden :
    (sampleHasher.addBatch (sampleHasher.run []) (sampleBlock 0)).2 = none
      ∧ ¬Succeeds (sampleHasher.run [sampleBlock 0, sampleBlock 1])
        [0, 1] := by
  refine ⟨rfl, ?_⟩
  rintro ⟨r, hget, hok⟩
  cases hget
  cases hok

end HetuEngine.Indexer
