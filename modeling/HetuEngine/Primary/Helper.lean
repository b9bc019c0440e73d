/-
The task that answers requests for certificates (primary/src/helper.rs).

The store has headers and certificates under keys of one kind. A certificate
is written as its header and its votes, so a header that is read as a
certificate ends where the number of votes is expected. Another primary may
request any digests: the id of a header that is stored ends the task.
-/
import HetuEngine.Primary.Proofs.Votes
import Mathlib.Logic.Equiv.List

namespace HetuEngine.Primary

open Lib Narwhal Value

/-- What the source takes from bincode. -/
structure Bincode where
  header : Header → List UInt8
  votes : List (PublicKey × Signature) → List UInt8
  readHeader : List UInt8 → Option (Header × List UInt8)
  readVotes : List UInt8 → Option (List (PublicKey × Signature))
  readHeader_append : ∀ h rest, readHeader (header h ++ rest) = some (h, rest)
  readVotes_votes : ∀ v, readVotes (votes v) = some v
  /-- The number of votes takes eight bytes. -/
  readVotes_nil : readVotes [] = none

instance : Countable Header := by
  refine Function.Injective.countable (f := fun h : Header =>
    (h.author, h.round, h.payload.entries, h.parents.toList, h.id, h.signature)) ?_
  rintro ⟨_, _, ⟨_, _⟩, ⟨_, _⟩, _, _, _⟩ ⟨_, _, ⟨_, _⟩, ⟨_, _⟩, _, _, _⟩ h
  cases h
  rfl

/-- Numbers in unary are enough. -/
lemma Bincode.nonempty : Nonempty Bincode := by
  obtain ⟨f, hf⟩ := exists_injective_nat Header
  obtain ⟨g, hg⟩ := exists_injective_nat (List (PublicKey × Signature))
  let length (data : List UInt8) := (data.takeWhile (· = 1)).length
  exact ⟨{
    header := fun h => List.replicate (f h) 1 ++ [0]
    votes := fun v => List.replicate (g v) 1 ++ [0]
    readHeader := fun data => (f.partialInv (length data)).map
      fun h => (h, (data.dropWhile (· = 1)).tail)
    readVotes := fun data => if data = [] then none else g.partialInv (length data)
    readHeader_append := by simp [length, Function.partialInv_left hf]
    readVotes_votes := by simp [length, Function.partialInv_left hg]
    readVotes_nil := if_pos rfl }⟩

def Bincode.serialize (b : Bincode) : Value → List UInt8
  | .header h => b.header h
  | .certificate c => b.header c.header ++ b.votes c.votes
  | .marker => []

def Bincode.deserialize (b : Bincode) (data : List UInt8) : Option Certificate := do
  let (header, rest) ← b.readHeader data
  let votes ← b.readVotes rest
  return { header, votes }

/-- The loop over the digests of a request: the replies, or none if the task
fails with "Failed to deserialize our own certificate". -/
def replies (b : Bincode) (store : HashMap Key Value) (origin : PublicKey) :
    List Digest → Option (List Output)
  | [] => some []
  | digest :: digests =>
    match store.lookup (.digest digest) with
    | none => replies b store origin digests
    | some data => do
        let certificate ← b.deserialize (b.serialize data)
        let rest ← replies b store origin digests
        return .send origin (.certificate certificate) :: rest

def Setup.help (p : Setup) (b : Bincode) (store : HashMap Key Value)
    (digests : List Digest) (origin : PublicKey) : Option (List Output) :=
  if p.committee.primary origin then replies b store origin digests
  else some []

variable {p : Setup} {b : Bincode} {store : HashMap Key Value}
  {origin : PublicKey} {digests : List Digest}

lemma deserialize_header (b : Bincode) (h : Header) :
    b.deserialize (b.serialize (.header h)) = none := by
  have hread := b.readHeader_append h []
  rw [List.append_nil] at hread
  simp [Bincode.deserialize, Bincode.serialize, hread, b.readVotes_nil]

lemma deserialize_certificate (b : Bincode) (c : Certificate) :
    b.deserialize (b.serialize (.certificate c)) = some c := by
  simp [Bincode.deserialize, Bincode.serialize, b.readHeader_append, b.readVotes_votes]

/-- Only the `PayloadReceiver` writes markers, and not under a digest. -/
def Unmarked (store : HashMap Key Value) : Prop := ∀ d, store.lookup (.digest d) ≠ some .marker

lemma Unmarked.insert (h : Unmarked store) {k : Key} {v : Value}
    (hv : ∀ d, k = .digest d → v ≠ .marker) : Unmarked (store.insert k v) := by
  intro d hd
  by_cases hk : .digest d = k
  · subst hk
    rw [AList.lookup_insert] at hd
    exact hv d rfl (Option.some.inj hd)
  rw [AList.lookup_insert_ne hk] at hd
  exact h d hd

lemma run_unmarked (p : Setup) (es : List Event) :
    Unmarked (Node.run p es).core.store := by
  induction es using List.reverseRecOn with
  | nil =>
    intro d hd
    cases hd
  | append_singleton es e ih =>
    rw [Node.run_concat]
    refine (step_core p _ e).invariant (I := fun s => Unmarked s.store) ih
      ?_ ?_ ?_ (fun _ _ h => h) fun _ _ h => h
    · intro s₀ H C hg
      refine ⟨by cases hg <;> exact ih, fun s s' he h => ?_⟩
      cases he with
      | write | deliver => exact h.insert fun _ _ hv => by cases hv
      | mark | sync | vote | send | tally | suspend => exact h
    · intro r s h
      rw [cleanup_store]
      exact h
    intro d w s h
    exact h.insert fun _ hk => by cases hk

def Value.isHeader : Value → Bool
  | .header _ => true
  | _ => false

/-- The replies are made unless a header is read. -/
lemma replies_isSome (h : Unmarked store) :
    (replies b store origin digests).isSome
      ↔ ∀ d ∈ digests, (store.lookup (.digest d)).any isHeader = false := by
  induction digests with
  | nil => simp [replies]
  | cons d digests ih =>
    rw [List.forall_mem_cons, ← ih, replies]
    cases hd : store.lookup (.digest d) with
    | none => simp
    | some v =>
      cases v with
      | marker => exact absurd hd (h d)
      | header x => simp [deserialize_header, isHeader]
      | certificate c =>
        dsimp only
        rw [deserialize_certificate]
        cases replies b store origin digests with
        | none => simp
        | some rest => simp [isHeader]

/-- In every reachable state the helper answers a request exactly if it comes
in the name of a stranger or no header is stored under a digest in it. -/
theorem helper_answers_iff (p : Setup) (b : Bincode) (es : List Event)
    (digests : List Digest) (origin : PublicKey) :
    (p.help b (Node.run p es).core.store digests origin).isSome
      ↔ (p.committee.primary origin = true →
        ∀ d ∈ digests, ((Node.run p es).core.store.lookup (.digest d)).any
          Value.isHeader = false) := by
  unfold Setup.help
  split
  · next hknown => simp only [replies_isSome (run_unmarked p es), hknown, forall_const]
  next hstranger => simp [hstranger]

/-- Authority 0 requests the id of a header that was voted for. -/
theorem helper_aborts :
    Nonempty Bincode
      ∧ ∀ b : Bincode, Quad.setup.help b
        (Node.run Quad.setup [.message (.header Quad.first)]).core.store
        [Quad.first.id] 0 = none := by
  refine ⟨Bincode.nonempty, fun b => ?_⟩
  have hread : ((Node.run Quad.setup [.message (.header Quad.first)]
      ).core.store.lookup (.digest Quad.first.id)).any isHeader = true := by
    decide +kernel
  have hknown : Quad.setup.committee.primary 0 = true := by decide +kernel
  unfold Setup.help
  rw [if_pos hknown, ← Option.not_isSome_iff_eq_none, replies_isSome (run_unmarked _ _)]
  intro h
  have := h _ (List.mem_singleton.mpr rfl)
  rw [hread] at this
  cases this

end HetuEngine.Primary
