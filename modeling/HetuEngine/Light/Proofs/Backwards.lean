/-
What backwards verification says about the new header.

`Reaches` is the relation the client's headers should satisfy: following the
hashes in `LastBlockID` from a header down to a height leads to a hash. A
hash commits to the `LastBlockID` of its header, so there is at most one such
hash (`Reaches.unique`).

The loop walks down such a chain and ends with a header of the new header's
height (`backwards_reaches`), but that is the last answer of the primary, and
nothing compares it with the new header. So the new header is the one reached
exactly if the last answer has its hash.
-/
import HetuEngine.Comet.ValidatorUpdates
import HetuEngine.Light.Client

namespace HetuEngine.Light

open Comet List

variable {hash : Header → Bytes}

-- ==== following LastBlockID hashes

/-- From a header of height `top` with `parent` as hash of its `LastBlockID`
down to a height: the hash that is reached. -/
inductive Reaches (hash : Header → Bytes) : Int → Bytes → Int → Bytes → Prop
  | parent (height : Int) (parent : Bytes) : Reaches hash (height + 1) parent height parent
  | down {height : Int} {reached : Bytes} (header : Header)
      (hbelow : Reaches hash header.height header.lastBlockID.hash height reached) :
      Reaches hash (header.height + 1) (hash header) height reached

variable {parent reached : Bytes} {top height : Int}

lemma Reaches.lt (h : Reaches hash top parent height reached) :
    height < top := by
  induction h with
  | parent height parent => omega
  | down header hbelow ih => omega

/-- A hash that commits to the `LastBlockID` makes the chain unique. -/
lemma Reaches.unique
    (hbind : ∀ a b : Header, hash a = hash b →
      a.lastBlockID.hash = b.lastBlockID.hash)
    (h : Reaches hash top parent height reached) :
    ∀ {reached' : Bytes}, Reaches hash top parent height reached' →
      reached = reached' := by
  induction h with
  | parent height parent =>
    intro reached' h'
    generalize htop : height + 1 = top at h'
    cases h' with
    | parent height parent => rfl
    | down header hbelow =>
      have := hbelow.lt
      omega
  | @down height reached header hbelow ih =>
    intro reached' h'
    generalize htop : header.height + 1 = top at h'
    generalize hparent : hash header = parent at h'
    cases h' with
    | parent height parent =>
      have := hbelow.lt
      omega
    | down header' hbelow' =>
      rw [← hbind header header' hparent, show header'.height = header.height by omega] at hbelow'
      exact ih hbelow'

-- ==== the loop

lemma verifyBackwards_hash {untrusted trusted : Header}
    (h : verifyBackwards hash untrusted trusted = .ok ()) :
    hash untrusted = trusted.lastBlockID.hash := by
  unfold verifyBackwards at h
  split at h
  · cases h
  split at h
  · cases h
  split at h
  · cases h
  split at h
  · cases h
  next heq => exact not_not.mp heq

/-- The last of some answers, asked for a height, is a block whose header
has a hash. -/
def EndsWith (hash : Header → Bytes) (answers : List Answer) (height : Int)
    (reached : Bytes) : Prop :=
  ∃ answer ∈ answers.getLast?, ∃ block,
    answer.lightBlock height = .ok block ∧ hash block.header = reached

lemma EndsWith.cons {answers : List Answer}
    (h : EndsWith hash answers height reached) (answer : Answer) :
    EndsWith hash (answer :: answers) height reached := by
  obtain ⟨last, hlast, hblock⟩ := h
  refine ⟨last, ?_, hblock⟩
  cases answers with
  | nil => cases hlast
  | cons a rest => exact hlast

/-- If `backwards` returns `nil` after the last of the answers, that answer
is the header reached from the verified one. -/
lemma backwards_reaches (answers : List Answer)
    (verifiedHeader newHeader : Header) (hpos : 0 < newHeader.height)
    (hlower : newHeader.height < verifiedHeader.height)
    (h : backwards hash answers verifiedHeader newHeader
      = .returned (.ok ()) []) :
    ∃ reached, EndsWith hash answers newHeader.height reached
      ∧ Reaches hash verifiedHeader.height verifiedHeader.lastBlockID.hash
        newHeader.height reached := by
  fun_induction backwards hash answers verifiedHeader newHeader with
  | case1 answers verified new hnot => exact absurd hlower hnot
  | case2 => cases h
  | case3 => cases h
  | case4 verified new hlow answer rest interim hanswer hverify ih =>
    have hheight := answer.lightBlock_height _ _ (by omega) hanswer
    have hlink := verifyBackwards_hash hverify
    have htop : verified.height = interim.header.height + 1 := by
      rw [show interim.header.height = interim.height from rfl, hheight]
      omega
    rw [htop, ← hlink]
    by_cases hmore : new.height < interim.header.height
    · obtain ⟨reached, hends, hreaches⟩ := ih hpos hmore h
      exact ⟨reached, hends.cons answer, .down _ hreaches⟩
    -- this was the last request
    have hlast : new.height = interim.header.height := by omega
    unfold backwards at h
    rw [if_pos hmore] at h
    injection h with _ hrest
    subst hrest
    refine ⟨hash interim.header, ⟨answer, rfl, interim, ?_, rfl⟩, ?_⟩
    · rw [hlast, show interim.header.height = verified.height - 1 by omega]
      exact hanswer
    rw [hlast]
    exact .parent _ _
  | case5 => cases h
  | case6 => cases h
  | case7 => cases h
  | case8 verified new hlow answer interim hanswer err hverify replacement
      rest block hblock hsame ih =>
      have hheight : block.header.height = new.height :=
        replacement.lightBlock_height _ _ (by omega) hblock
      rw [hheight] at ih
      obtain ⟨reached, hends, hreaches⟩ := ih hpos hlower h
      exact ⟨reached, (hends.cons replacement).cons answer, hreaches⟩

/-- A hash that commits to the `LastBlockID` and to whether there is an
application hash. -/
def sampleHash (header : Header) : Bytes :=
  (if header.appHash = [] then 0 else 1) :: header.lastBlockID.hash

def sampleHeader (height time : Int) (appHash parent : Bytes) : Header where
  version := ⟨11, 0⟩
  chainID := "chain"
  height := height
  time := time
  lastBlockID := ⟨parent, ⟨0, []⟩⟩
  lastCommitHash := []
  dataHash := []
  validatorsHash := []
  nextValidatorsHash := []
  consensusHash := []
  appHash := appHash
  lastResultsHash := []
  evidenceHash := []
  proposerAddress := List.replicate 20 0

def sampleAnswer : Answer where
  lightBlock height :=
    .ok ⟨⟨sampleHeader height (height * 10) [] [], ⟨height, 0, BlockID.zero, []⟩⟩,
      ValidatorSet.empty⟩
  lightBlock_height := by
    intro height block _ h
    cases h
    rfl

/-- If `backwards` returns `nil`, the new header is the one reached by
following the `LastBlockID` hashes from the trusted one exactly if the last
answer of the primary, for the new header's height, has its hash. Blocks
below the first trusted one are checked this way and no other. -/
theorem backwards_binds_iff (hash : Header → Bytes)
    (hbind : ∀ a b : Header,
      hash a = hash b → a.lastBlockID.hash = b.lastBlockID.hash) :
    (∀ (answers : List Answer) (trustedHeader newHeader : Header),
      0 < newHeader.height → newHeader.height < trustedHeader.height →
      backwards hash answers trustedHeader newHeader
        = .returned (.ok ()) [] →
      (Reaches hash trustedHeader.height trustedHeader.lastBlockID.hash
          newHeader.height (hash newHeader)
        ↔ EndsWith hash answers newHeader.height (hash newHeader)))
      ∧ ∀ (store : TrustedStore) (newLightBlock : LightBlock),
        newLightBlock.height < store.first.height →
        verifyLightBlock store newLightBlock = .backwards store.first := by
  constructor
  · intro answers trustedHeader newHeader hpos hlower h
    obtain ⟨reached, hends, hreaches⟩ :=
      backwards_reaches answers trustedHeader newHeader hpos hlower h
    constructor
    · intro hnew
      rwa [hnew.unique hbind hreaches]
    rintro ⟨answer, hanswer, block, hblock, hhash⟩
    obtain ⟨answer', hanswer', block', hblock', rfl⟩ := hends
    obtain rfl : answer = answer' := Option.some.inj (hanswer.symm.trans hanswer')
    rw [hblock] at hblock'
    cases hblock'
    rwa [← hhash]
  intro store newLightBlock hbelow
  have hfirst : store.first.height ≤ store.last.height := by
    unfold TrustedStore.first TrustedStore.last
    obtain ⟨block, rest, hblocks⟩ := exists_cons_of_ne_nil store.nonempty
    have hascending := store.ascending
    simp only [hblocks, head_cons] at hascending ⊢
    cases rest with
    | nil => exact Int.le_refl _
    | cons second rest => exact ((pairwise_cons.mp hascending).1 _ (getLast_mem _)).le
  unfold verifyLightBlock
  rw [if_neg (by omega), if_pos hbelow]

/-- The header that the trusted one names, offered twice. -/
theorem backwards_binds_named :
    Reaches sampleHash 3 [0] 2 (sampleHash (sampleHeader 2 20 [] [])) :=
  (((backwards_binds_iff sampleHash (fun a b h => (cons.inj h).2)).1 [sampleAnswer]
      (sampleHeader 3 30 [] [0]) (sampleHeader 2 20 [] []) (by decide)
      (by decide) rfl).mpr ⟨sampleAnswer, rfl, _, rfl, rfl⟩)

/-- A primary offers a header of height 2 of its own making and, when asked
for that height again, the one that the trusted header names: `backwards`
returns `nil`. -/
theorem backwards_accepts_other :
    backwards sampleHash [sampleAnswer] (sampleHeader 3 30 [] [0])
      (sampleHeader 2 20 [7] [])
      = .returned (.ok ()) []
      ∧ ¬ Reaches sampleHash 3 [0] 2
        (sampleHash (sampleHeader 2 20 [7] [])) := by
  refine ⟨rfl, fun h => ?_⟩
  have hnamed : Reaches sampleHash 3 [0] 2 [0] := .parent 2 [0]
  have heq := h.unique (fun a b h => (cons.inj h).2) hnamed
  revert heq
  decide

end HetuEngine.Light
