/-
What the light verification of a commit establishes.

The light verifications check only signatures for the block, may stop when
the needed power is exceeded, and one of them finds the validator of a slot by
the address in the slot, because its validators need not be those that made
the commit.

# Two loops, one walk

Verification in one batch and one by one walk over the slots in the same way.
`gather` is that walk: which slots are checked, with which validator and which
bytes. Both loops follow it (`singleLoop_gather`, `batchLoop_gather`), and
what it collects is said once (`gather_picks`, `gather_nodup`, `gather_all`):
slots that are not ignored, with different validators of the set, and all of
them if the loop does not stop early.
-/
import HetuEngine.Comet.Commit
import HetuEngine.Comet.Proofs.Votes

namespace HetuEngine.Comet

open Lib ReceivedSet VerifyRule Commit

/-- Batch verification agrees with single verification: what verifies can be
added to a batch of its type, and a batch that is not empty verifies if each
of its entries does. -/
structure Verifier.Lawful (c : Verifier) : Prop where
  add : ∀ pubKey msg sig, c.verifySignature pubKey msg sig = true →
    (c.keyType pubKey).supportsBatchVerifier = true →
    c.batchAdd (c.keyType pubKey) pubKey msg sig = true
  verify : ∀ type batch, batch ≠ [] → (∀ e ∈ batch, c.batchAdd type e.1 e.2.1 e.2.2 = true) →
    ((c.batchVerify type batch).1 = true ↔ ∀ e ∈ batch, c.verifySignature e.1 e.2.1 e.2.2 = true)

-- ==== the walk

/-- A slot that is checked: its index and content, the validator whose key
is used and its position in the set, and the bytes it signed. -/
structure Checked where
  idx : Nat
  sig : CommitSig
  valIdx : Nat
  val : Validator
  msg : Bytes

def Checked.entry (e : Checked) : Nat × Bytes × Bytes × Bytes :=
  (e.idx, e.val.pubKey, e.msg, e.sig.signature)

def checkedPower (entries : List Checked) : Int := (entries.map fun e => e.val.votingPower).sum

def VerifyRule.tallied (rule : VerifyRule) (sig : CommitSig) (val : Validator) (power : Int) :
    Int :=
  if rule.countSig sig then power + val.votingPower else power

def VerifyRule.counted (rule : VerifyRule) (entries : List Checked) : List Checked :=
  entries.filter fun e => rule.countSig e.sig

/-- The position of the validator that is responsible for a slot. -/
def VerifyRule.position (rule : VerifyRule) (vals : ReceivedSet) (idx : Nat)
    (sig : CommitSig) : Nat :=
  if rule.lookUpByIndex then idx
  else vals.validators.findIdx fun val => val.address = sig.validatorAddress

/-- The walk over the slots that both loops make. -/
def gather (c : Verifier) (chainID : String) (vals : ReceivedSet) (commit : Commit)
    (rule : VerifyRule) : List (CommitSig × Nat) → HashMap Nat Nat → Int → Option (List Checked)
  | [], _, _ => some []
  | (sig, idx) :: rest, seen, power =>
    if rule.ignoreSig sig then gather c chainID vals commit rule rest seen power
    else
      match rule.signer vals seen idx sig with
      | .error _ => none
      | .ok none => gather c chainID vals commit rule rest seen power
      | .ok (some (val, seen')) =>
        match commit.voteSignBytes c.toCrypto chainID idx with
        | .error _ => none
        | .ok msg =>
          let e : Checked := ⟨idx, sig, rule.position vals idx sig, val, msg⟩
          let power' := rule.tallied sig val power
          if !rule.countAllSignatures && rule.votingPowerNeeded < power' then some [e]
          else (gather c chainID vals commit rule rest seen' power').map fun entries => e :: entries

variable {c : Verifier} {chainID : String} {vals : ReceivedSet}
  {commit : Commit} {rule : VerifyRule} {type : KeyType}
  {slots : List (CommitSig × Nat)} {seen seen' : HashMap Nat Nat} {power : Int}
  {entries : List Checked} {sig : CommitSig} {idx : Nat} {val : Validator}
  {msg : Bytes}

lemma checkedPower_nil : checkedPower [] = 0 := rfl

lemma checkedPower_cons (e : Checked) (entries : List Checked) :
    checkedPower (e :: entries)
      = e.val.votingPower + checkedPower entries := by
  unfold checkedPower
  rw [List.map_cons, List.sum_cons]

lemma tallied_add (e : Checked) (entries : List Checked) :
    rule.tallied e.sig e.val power + checkedPower (rule.counted entries)
      = power + checkedPower (rule.counted (e :: entries)) := by
  unfold tallied counted
  by_cases hcount : rule.countSig e.sig = true
  · simp only [hcount, if_true, List.filter_cons_of_pos, checkedPower_cons]
    omega
  simp [hcount]

lemma gather_ignored (h : rule.ignoreSig sig = true) :
    gather c chainID vals commit rule ((sig, idx) :: slots) seen power
      = gather c chainID vals commit rule slots seen power := by
  rw [gather, if_pos h]

lemma gather_stranger (h : ¬rule.ignoreSig sig = true)
    (hsigner : rule.signer vals seen idx sig = .ok none) :
    gather c chainID vals commit rule ((sig, idx) :: slots) seen power
      = gather c chainID vals commit rule slots seen power := by
  rw [gather, if_neg h, hsigner]

lemma gather_signed (h : ¬rule.ignoreSig sig = true)
    (hsigner : rule.signer vals seen idx sig = .ok (some (val, seen')))
    (hmsg : commit.voteSignBytes c.toCrypto chainID idx = .ok msg) :
    gather c chainID vals commit rule ((sig, idx) :: slots) seen power
    = if !rule.countAllSignatures && rule.votingPowerNeeded < rule.tallied sig val power then
        some [⟨idx, sig, rule.position vals idx sig, val, msg⟩]
      else
        (gather c chainID vals commit rule slots seen'
          (rule.tallied sig val power)).map fun entries =>
            ⟨idx, sig, rule.position vals idx sig, val, msg⟩ :: entries := by
  rw [gather, if_neg h, hsigner]
  simp only [hmsg]

/-- The loop over single signatures follows the walk, checks all it finds
and ends with enough power. -/
lemma singleLoop_gather
    (h : singleLoop c chainID vals commit rule slots seen power = .ok ()) :
    ∃ entries, gather c chainID vals commit rule slots seen
      power = some entries
      ∧ (∀ e ∈ entries, c.verifySignature e.val.pubKey e.msg
        e.sig.signature = true)
      ∧ rule.votingPowerNeeded
        < power + checkedPower (rule.counted entries) := by
  induction slots generalizing seen power with
  | nil =>
    unfold singleLoop at h
    split at h
    · cases h
    next hlt =>
    refine ⟨[], rfl, List.forall_mem_nil _, ?_⟩
    rw [counted, List.filter_nil, checkedPower_nil, add_zero]
    exact not_le.mp hlt
  | cons slot slots ih =>
    obtain ⟨sig, idx⟩ := slot
    unfold singleLoop at h
    split at h
    next hignore =>
      rw [gather_ignored hignore]
      exact ih h
    next hignore =>
    split at h
    · cases h
    split at h
    · cases h
    next hsigner =>
      rw [gather_stranger hignore hsigner]
      exact ih h
    next val seen' hsigner =>
    split at h
    · cases h
    next msg hmsg =>
    rw [gather_signed hignore hsigner hmsg]
    split at h
    · cases h
    next hverify =>
    have hverify : c.verifySignature val.pubKey msg sig.signature = true := by simpa using hverify
    change (if !rule.countAllSignatures && rule.votingPowerNeeded < rule.tallied sig val power then
      _ else singleLoop c chainID vals commit rule slots seen'
        (rule.tallied sig val power)) = _ at h
    split at h
    next hstop =>
      refine ⟨_, if_pos hstop, List.forall_mem_singleton.mpr hverify, ?_⟩
      rw [← tallied_add]
      exact lt_of_lt_of_eq (of_decide_eq_true (Bool.and_eq_true_iff.mp hstop).2) (add_zero _).symm
    next hstop =>
    obtain ⟨entries, hgather, hall, hpower⟩ := ih h
    refine ⟨_, (if_neg hstop).trans (congrArg _ hgather),
      List.forall_mem_cons.mpr ⟨hverify, hall⟩, ?_⟩
    rwa [← tallied_add]

/-- The loop that fills a batch follows the walk, and the batch is what it
finds. -/
lemma batchLoop_gather {st st' : BatchState}
    (h : batchLoop c chainID vals commit rule type slots st = .ok st') :
    ∃ entries, gather c chainID vals commit rule slots st.seenVals
      st.talliedVotingPower = some entries
      ∧ st'.batch = st.batch ++ entries.map Checked.entry
      ∧ (∀ e ∈ entries, c.batchAdd type e.val.pubKey e.msg
        e.sig.signature = true)
      ∧ st'.talliedVotingPower
        = st.talliedVotingPower + checkedPower (rule.counted entries) := by
  induction slots generalizing st with
  | nil =>
    cases h
    exact ⟨[], rfl, (List.append_nil _).symm, List.forall_mem_nil _, (add_zero _).symm⟩
  | cons slot slots ih =>
    obtain ⟨sig, idx⟩ := slot
    unfold batchLoop at h
    split at h
    next hignore =>
      rw [gather_ignored hignore]
      exact ih h
    next hignore =>
    split at h
    · cases h
    next hsigner =>
      rw [gather_stranger hignore hsigner]
      exact ih h
    next val seen' hsigner =>
    split at h
    · cases h
    next msg hmsg =>
    rw [gather_signed hignore hsigner hmsg]
    split at h
    · cases h
    next hadd =>
    have hadd : c.batchAdd type val.pubKey msg sig.signature = true := by simpa using hadd
    change (if !rule.countAllSignatures
        && rule.votingPowerNeeded < rule.tallied sig val st.talliedVotingPower then _
      else batchLoop c chainID vals commit rule type slots ⟨seen', _, rule.tallied sig val _⟩) = _
      at h
    split at h
    next hstop =>
      cases h
      refine ⟨_, if_pos hstop, rfl, List.forall_mem_singleton.mpr hadd, ?_⟩
      rw [← tallied_add]
      exact (add_zero _).symm
    next hstop =>
    obtain ⟨entries, hgather, hbatch, hall, hpower⟩ := ih h
    refine ⟨_, (if_neg hstop).trans (congrArg _ hgather), ?_,
      List.forall_mem_cons.mpr ⟨hadd, hall⟩, ?_⟩
    · rw [hbatch, List.append_assoc]
      rfl
    rw [hpower, ← tallied_add]

-- ==== what is collected

lemma ReceivedSet.getByAddress_some {address : Bytes} {i : Nat}
    (h : vals.getByAddress address = some (i, val)) :
    vals.validators.findIdx (fun val => val.address = address) = i
    ∧ vals.validators[i]? = some val ∧ val.address = address := by
  unfold getByAddress at h
  split at h
  · cases h
  next j hj =>
  rw [List.findIdx?_eq_some_iff_findIdx_eq] at hj
  obtain ⟨hlt, hfind⟩ := hj
  rw [List.getElem?_eq_getElem hlt] at h
  cases h
  refine ⟨hfind, List.getElem?_eq_getElem hlt, ?_⟩
  have hfound := @List.findIdx_getElem Validator
    (fun val => decide (val.address = address)) vals.validators (by rw [hfind]; exact hlt)
  simp only [hfind] at hfound
  exact of_decide_eq_true hfound

/-- A slot of the commit that is not ignored, with the validator that is
responsible for it. -/
structure Picked (c : Verifier) (chainID : String) (vals : ReceivedSet)
    (commit : Commit) (rule : VerifyRule) (slots : List (CommitSig × Nat))
    (e : Checked) : Prop where
  slot : (e.sig, e.idx) ∈ slots
  kept : rule.ignoreSig e.sig = false
  position : e.valIdx = rule.position vals e.idx e.sig
  val : vals.validators[e.valIdx]? = some e.val
  named : rule.lookUpByIndex = false → e.val.address = e.sig.validatorAddress
  msg : commit.voteSignBytes c.toCrypto chainID e.idx = .ok e.msg

lemma Picked.mono {slots' : List (CommitSig × Nat)} {e : Checked}
    (h : Picked c chainID vals commit rule slots e) (hsub : slots ⊆ slots') :
    Picked c chainID vals commit rule slots' e :=
  ⟨hsub h.slot, h.kept, h.position, h.val, h.named, h.msg⟩

lemma Picked.vote {e : Checked}
    (h : Picked c chainID vals commit rule slots e)
    (hslots : slots ⊆ commit.signatures.zipIdx)
    (hflag : e.sig.blockIDFlag = .commit) :
    ∃ w, commit.getVote e.idx = .ok w ∧ w.type = .precommit
      ∧ w.height = commit.height ∧ w.blockID = commit.blockID
      ∧ w.signature = e.sig.signature ∧ e.msg = c.voteSignBytes chainID w := by
  have hsig : commit.signatures[e.idx]? = some e.sig :=
    List.mem_zipIdx_iff_getElem?.mp (hslots h.slot)
  have hmsg := h.msg
  unfold voteSignBytes at hmsg
  split at hmsg
  · cases hmsg
  next w hvote =>
  refine ⟨w, hvote, ?_⟩
  injection hmsg with hmsg
  unfold getVote at hvote
  simp only [hsig, CommitSig.blockID, hflag] at hvote
  cases hvote
  exact ⟨rfl, rfl, rfl, rfl, hmsg.symm⟩

/-- How `signer` finds a validator, and what it has seen afterwards. -/
lemma signer_some
    (h : rule.signer vals seen idx sig = .ok (some (val, seen'))) :
    vals.validators[rule.position vals idx sig]? = some val
      ∧ (rule.lookUpByIndex = false →
        val.address = sig.validatorAddress
          ∧ seen.lookup (rule.position vals idx sig) = none
          ∧ seen' = seen.insert (rule.position vals idx sig) idx) := by
  unfold signer at h
  unfold position
  split at h
  next hindex =>
    rw [if_pos hindex]
    split at h
    · cases h
    next val' hval =>
    cases h
    exact ⟨hval, fun hf => absurd (hindex.symm.trans hf) (by decide)⟩
  next hindex =>
  rw [if_neg hindex]
  split at h
  · cases h
  next j val' hval =>
  obtain ⟨hfind, hget, haddress⟩ := getByAddress_some hval
  split at h
  · cases h
  next hseen =>
  cases h
  rw [hfind]
  exact ⟨hget, fun _ => ⟨haddress, hseen, rfl⟩⟩

/-- Whoever `signer` does not find is not in the set. -/
lemma signer_none (h : rule.signer vals seen idx sig = .ok none) :
    rule.lookUpByIndex = false
      ∧ vals.getByAddress sig.validatorAddress = none := by
  unfold signer at h
  split at h
  · split at h
    · cases h
    cases h
  next hindex =>
  refine ⟨by simpa using hindex, ?_⟩
  split at h
  next hnone => exact hnone
  next => split at h <;> cases h

/-- The cases of the walk at a slot. -/
lemma gather_cons {rest : List (CommitSig × Nat)}
    (h : gather c chainID vals commit rule ((sig, idx) :: rest) seen
      power = some entries) :
    ((rule.ignoreSig sig = true ∨ rule.signer vals seen idx sig = .ok none)
      ∧ gather c chainID vals commit rule rest seen power = some entries)
      ∨ ∃ val seen' msg tail, rule.ignoreSig sig = false
        ∧ rule.signer vals seen idx sig = .ok (some (val, seen'))
        ∧ commit.voteSignBytes c.toCrypto chainID idx = .ok msg
        ∧ entries = ⟨idx, sig, rule.position vals idx sig, val, msg⟩ :: tail
        ∧ ((rule.countAllSignatures = false ∧ tail = [])
          ∨ gather c chainID vals commit rule rest seen'
            (rule.tallied sig val power) = some tail) := by
  unfold gather at h
  split at h
  next hskip => exact .inl ⟨.inl hskip, h⟩
  next hkept =>
  rw [Bool.not_eq_true] at hkept
  split at h
  · cases h
  next hsigner => exact .inl ⟨.inr hsigner, h⟩
  next val seen' hsigner =>
  right
  split at h
  · cases h
  next msg hmsg =>
  dsimp only at h
  split at h
  next hstop =>
    cases h
    refine ⟨val, seen', msg, [], hkept, hsigner, hmsg, rfl, .inl ⟨?_, rfl⟩⟩
    simpa using (Bool.and_eq_true_iff.mp hstop).1
  next hstop =>
  obtain ⟨tail, htail, rfl⟩ := Option.map_eq_some_iff.mp h
  exact ⟨val, seen', msg, tail, hkept, hsigner, hmsg, rfl, .inr htail⟩

section

variable (h : gather c chainID vals commit rule slots seen power = some entries)

include h

/-- Everything the walk collects is a slot of the commit with its
validator. -/
lemma gather_picks :
    ∀ e ∈ entries, Picked c chainID vals commit rule slots e := by
  induction slots generalizing seen power entries with
  | nil =>
    cases h
    exact List.forall_mem_nil _
  | cons slot slots ih =>
    obtain ⟨sig, idx⟩ := slot
    have hsub := List.subset_cons_self (sig, idx) slots
    rcases gather_cons h with
      ⟨-, h⟩ | ⟨val, seen', msg, tail, hkept, hsigner, hmsg, rfl, htail⟩
    · exact fun e he => (ih h e he).mono hsub
    obtain ⟨hval, hnamed⟩ := signer_some hsigner
    refine List.forall_mem_cons.mpr ⟨?_, fun e he => ?_⟩
    · exact ⟨List.mem_cons_self .., hkept, rfl, hval, fun hf => (hnamed hf).1, hmsg⟩
    rcases htail with ⟨-, rfl⟩ | htail
    · cases he
    exact (ih htail e he).mono hsub

lemma gather_nodup (hnodup : (slots.map Prod.snd).Nodup) :
    (entries.map Checked.valIdx).Nodup
      ∧ (rule.lookUpByIndex = false →
        ∀ e ∈ entries, seen.lookup e.valIdx = none) := by
  induction slots generalizing seen power entries with
  | nil =>
    cases h
    exact ⟨List.nodup_nil, fun _ => List.forall_mem_nil _⟩
  | cons slot slots ih =>
    obtain ⟨sig, idx⟩ := slot
    obtain ⟨hidx, hnodup⟩ := List.nodup_cons.mp hnodup
    rcases gather_cons h with ⟨-, h⟩ | ⟨val, seen', msg, tail, -, hsigner, hmsg, rfl, htail⟩
    · exact ih h hnodup
    obtain ⟨hval, hnamed⟩ := signer_some hsigner
    rcases htail with ⟨-, rfl⟩ | htail
    · exact ⟨List.nodup_singleton _, fun hf => List.forall_mem_singleton.mpr (hnamed hf).2.1⟩
    obtain ⟨htailnodup, hfresh⟩ := ih htail hnodup
    have hpicks := gather_picks htail
    cases hindex : rule.lookUpByIndex with
    | true =>
      -- by index: the slots have different indexes
      refine ⟨List.nodup_cons.mpr ⟨fun hmem => hidx ?_, htailnodup⟩, fun hf => nomatch hf⟩
      obtain ⟨e, he, heq⟩ := List.mem_map.mp hmem
      have hpos := (hpicks e he).position
      unfold position at heq hpos
      rw [if_pos hindex] at heq hpos
      refine List.mem_map.mpr ⟨_, (hpicks e he).slot, ?_⟩
      exact hpos.symm.trans heq
    | false =>
      -- by address: the validator is remembered
      obtain ⟨-, hseen, rfl⟩ := hnamed hindex
      have hothers : ∀ e ∈ tail, e.valIdx ≠ rule.position vals idx sig
            ∧ seen.lookup e.valIdx = none := by
        intro e he
        have hnone := hfresh hindex e he
        have hne : e.valIdx ≠ rule.position vals idx sig := by
          intro heq
          rw [heq, AList.lookup_insert] at hnone
          cases hnone
        rw [AList.lookup_insert_ne hne] at hnone
        exact ⟨hne, hnone⟩
      refine ⟨List.nodup_cons.mpr ⟨fun hmem => ?_, htailnodup⟩,
        fun _ => List.forall_mem_cons.mpr
          ⟨hseen, fun e he => (hothers e he).2⟩⟩
      obtain ⟨e, he, heq⟩ := List.mem_map.mp hmem
      exact (hothers e he).1 heq

/-- A walk that does not stop early collects every slot that is not ignored,
but for those of strangers. -/
lemma gather_all (hall : rule.countAllSignatures = true) :
    ∀ slot ∈ slots, rule.ignoreSig slot.1 = false →
      (∃ e ∈ entries, e.sig = slot.1 ∧ e.idx = slot.2)
        ∨ (rule.lookUpByIndex = false
          ∧ vals.getByAddress slot.1.validatorAddress = none) := by
  induction slots generalizing seen power entries with
  | nil => exact List.forall_mem_nil _
  | cons slot slots ih =>
    obtain ⟨sig, idx⟩ := slot
    rcases gather_cons h with ⟨hskip, h⟩ | ⟨val, seen', msg, tail, -, hsigner, hmsg, rfl, htail⟩
    · refine List.forall_mem_cons.mpr ⟨fun hf => .inr (signer_none (hskip.resolve_left ?_)), ih h⟩
      exact Bool.eq_false_iff.mp hf
    rcases htail with ⟨hstop, -⟩ | htail
    · rw [hall] at hstop
      cases hstop
    refine List.forall_mem_cons.mpr ⟨fun _ => .inl ⟨_, List.mem_cons_self .., rfl, rfl⟩,
        fun slot hslot hslotkept => ?_⟩
    rcases ih htail slot hslot hslotkept with ⟨e, he, heq⟩ | hstranger
    · exact .inl ⟨e, List.mem_cons_of_mem _ he, heq⟩
    exact .inr hstranger

end

-- ==== the two loops

def Verified (c : Verifier) (batch : List (Nat × Bytes × Bytes × Bytes)) : Prop :=
  ∀ e ∈ batch, c.verifySignature e.2.1 e.2.2.1 e.2.2.2 = true

/-- On slots that are valid, the loops end alike if the batch is accepted
when its signatures verify. -/
lemma singleLoop_iff_batchLoop
    (hbasic : ∀ slot ∈ slots, slot.1.validateBasic = true)
    (hadd : ∀ val ∈ vals.validators, ∀ msg sig, c.verifySignature val.pubKey
      msg sig = true →
      c.batchAdd type val.pubKey msg sig = true)
    {st : BatchState} (hst : Verified c st.batch) :
    singleLoop c chainID vals commit rule slots st.seenVals
      st.talliedVotingPower = .ok ()
      ↔ ∃ st', batchLoop c chainID vals commit rule type slots st = .ok st'
        ∧ Verified c st'.batch
        ∧ rule.votingPowerNeeded < st'.talliedVotingPower := by
  induction slots generalizing st with
  | nil =>
    simp only [singleLoop, batchLoop, Except.ok.injEq, exists_eq_left', hst, true_and]
    simp
  | cons slot slots ih =>
    obtain ⟨sig, idx⟩ := slot
    obtain ⟨hsig, hbasic⟩ := List.forall_mem_cons.mp hbasic
    have ih {st : BatchState} := @ih hbasic st
    rw [singleLoop, batchLoop, hsig]
    by_cases hignore : rule.ignoreSig sig = true
    · rw [if_pos hignore, if_pos hignore]
      exact ih hst
    rw [if_neg hignore, if_neg hignore]
    cases hsigner : rule.signer vals st.seenVals idx sig with
    | error e => simp
    | ok found =>
      cases found with
      | none => exact ih hst
      | some signer =>
        obtain ⟨val, seen⟩ := signer
        cases hmsg : commit.voteSignBytes c.toCrypto chainID idx with
        | error p => simp
        | ok msg =>
          have hval : val ∈ vals.validators := List.mem_of_getElem? (signer_some hsigner).1
          let next : BatchState := ⟨seen, st.batch ++ [(idx, val.pubKey, msg, sig.signature)],
            rule.tallied sig val st.talliedVotingPower⟩
          change (if !c.verifySignature val.pubKey msg sig.signature then _
              else if !rule.countAllSignatures
                && rule.votingPowerNeeded < next.talliedVotingPower then _
              else singleLoop c chainID vals commit rule slots seen next.talliedVotingPower) = _
            ↔ ∃ st', (if !c.batchAdd type val.pubKey msg sig.signature then _
              else if !rule.countAllSignatures
                && rule.votingPowerNeeded < next.talliedVotingPower then .ok next
              else batchLoop c chainID vals commit rule type slots next) = .ok st' ∧ _
          by_cases hverify : c.verifySignature val.pubKey msg sig.signature = true
          · have hnext : Verified c next.batch :=
              List.forall_mem_append.mpr ⟨hst, List.forall_mem_singleton.mpr hverify⟩
            simp only [hverify, hadd val hval msg _ hverify, Bool.not_true, Bool.false_eq_true,
              if_false]
            split
            next hstop =>
              exact iff_of_true rfl ⟨next, rfl, hnext,
                of_decide_eq_true (Bool.and_eq_true_iff.mp hstop).2⟩
            · exact ih hnext
          refine iff_of_false (by simp [hverify]) ?_
          rintro ⟨st', hloop, hall, -⟩
          refine hverify (hall (idx, val.pubKey, msg, sig.signature) ?_)
          split at hloop
          · cases hloop
          split at hloop
          · cases hloop
            simp [next]
          obtain ⟨_, -, hbatch, -⟩ := batchLoop_gather hloop
          simp [hbatch, next]

-- ==== what is verified

/-- What a verification establishes: slots of the commit with valid
signatures of different validators of the set, whose power exceeds what is
needed; all slots that are not ignored, if it does not stop early. -/
structure Certified (c : Verifier) (chainID : String) (vals : ReceivedSet)
    (commit : Commit) (rule : VerifyRule) (entries : List Checked) :
    Prop where
  picked : ∀ e ∈ entries, Picked c chainID vals commit rule commit.signatures.zipIdx e
  verified : ∀ e ∈ entries, c.verifySignature e.val.pubKey e.msg e.sig.signature = true
  distinct : (entries.map Checked.valIdx).Nodup
  enough : rule.votingPowerNeeded < checkedPower entries
  all : rule.countAllSignatures = true → ∀ slot ∈ commit.signatures.zipIdx,
    rule.ignoreSig slot.1 = false → (∃ e ∈ entries, e.sig = slot.1 ∧ e.idx = slot.2)
    ∨ (rule.lookUpByIndex = false ∧ vals.getByAddress slot.1.validatorAddress = none)

lemma zipIdx_snd_nodup {α : Type} (l : List α) :
    (l.zipIdx.map Prod.snd).Nodup := by
  rw [List.zipIdx_map_snd]
  exact List.nodup_range'

lemma certified_of_gather
    (hgather : gather c chainID vals commit rule commit.signatures.zipIdx ∅
      0 = some entries)
    (hverified : ∀ e ∈ entries, c.verifySignature e.val.pubKey e.msg
      e.sig.signature = true)
    (henough : rule.votingPowerNeeded < checkedPower entries) :
    Certified c chainID vals commit rule entries where
  picked := gather_picks hgather
  verified := hverified
  distinct := (gather_nodup hgather (zipIdx_snd_nodup _)).1
  enough := henough
  all := fun hall => gather_all hgather hall

/-- Either way of verification follows the walk. -/
lemma verifyWith_gather (hc : c.Lawful)
    (h : verifyWith c chainID vals commit rule = .ok ()) :
    ∃ entries, gather c chainID vals commit rule commit.signatures.zipIdx ∅
      0 = some entries
      ∧ (∀ e ∈ entries, c.verifySignature e.val.pubKey e.msg
        e.sig.signature = true)
      ∧ rule.votingPowerNeeded < checkedPower (rule.counted entries) := by
  unfold verifyWith at h
  split at h
  · cases h
  next =>
    -- in one batch
    unfold verifyCommitBatch at h
    split at h
    · cases h
    dsimp only at h
    split at h
    · cases h
    split at h
    · cases h
    next st hloop =>
    obtain ⟨entries, hgather, hbatch, hadd, hpower⟩ := batchLoop_gather hloop
    rw [zero_add] at hpower
    rw [hpower] at h
    split at h
    · cases h
    next henough =>
    split at h
    next hok =>
      refine ⟨entries, hgather, ?_, not_le.mp henough⟩
      by_cases hnil : entries = []
      · rw [hnil]
        exact List.forall_mem_nil _
      rw [List.nil_append] at hbatch
      have hall := (hc.verify _ (st.batch.map Prod.snd)
        (by rw [hbatch]; simpa using hnil) ?_).mp hok
      · rw [hbatch, List.map_map, List.forall_mem_map] at hall
        exact hall
      rw [hbatch, List.map_map, List.forall_mem_map]
      exact hadd
    next => split at h <;> cases h
  next =>
  obtain ⟨entries, hgather, hverified, hpower⟩ := singleLoop_gather h
  rw [zero_add] at hpower
  exact ⟨entries, hgather, hverified, hpower⟩

lemma verifyWith_certified (hc : c.Lawful)
    (hcount : ∀ sig, rule.countSig sig = true)
    (h : verifyWith c chainID vals commit rule = .ok ()) :
    ∃ entries, Certified c chainID vals commit rule entries := by
  obtain ⟨entries, hgather, hverified, hpower⟩ := verifyWith_gather hc h
  have hcounted : rule.counted entries = entries := List.filter_eq_self.mpr fun e _ => hcount e.sig
  rw [hcounted] at hpower
  exact ⟨entries, certified_of_gather hgather hverified hpower⟩

/-- The two ways of verification agree on valid slots, where a batch can be
used. An empty batch has to be accepted only if no power is needed. -/
lemma verifyCommitBatch_iff (hc : c.Lawful) {proposer : Validator}
    (hproposer : vals.getProposer = some proposer)
    (htype : (c.keyType proposer.pubKey).supportsBatchVerifier = true)
    (hlen : ¬commit.signatures.length < batchVerifyThreshold)
    (hkeys : ∀ val ∈ vals.validators, c.keyType val.pubKey
      = c.keyType proposer.pubKey)
    (hempty : 0 ≤ rule.votingPowerNeeded
      ∨ (c.batchVerify (c.keyType proposer.pubKey) []).1 = true)
    (hbasic : ∀ sig ∈ commit.signatures, sig.validateBasic = true) :
    verifyCommitBatch c chainID vals commit rule = .ok ()
      ↔ verifyCommitSingle c chainID vals commit rule = .ok () := by
  have hadd : ∀ val ∈ vals.validators, ∀ msg sig, c.verifySignature val.pubKey msg sig = true →
      c.batchAdd (c.keyType proposer.pubKey) val.pubKey msg sig = true := by
    intro val hval msg sig hverify
    rw [← hkeys val hval] at htype ⊢
    exact hc.add _ _ _ hverify htype
  have hslots : ∀ slot ∈ commit.signatures.zipIdx, slot.1.validateBasic = true :=
    fun slot hslot => hbasic _ (List.fst_mem_of_mem_zipIdx hslot)
  have hloops := @singleLoop_iff_batchLoop c chainID vals commit rule _ _ hslots hadd
    ⟨∅, [], 0⟩ (List.forall_mem_nil _)
  rw [verifyCommitSingle, hloops, verifyCommitBatch, hproposer]
  dsimp only
  rw [if_neg (by simp [htype, hlen])]
  cases hloop : batchLoop c chainID vals commit rule (c.keyType proposer.pubKey)
      commit.signatures.zipIdx ⟨∅, [], 0⟩ with
  | error e => simp
  | ok st =>
    obtain ⟨entries, -, hbatch, hadds, hpower⟩ := batchLoop_gather hloop
    simp only [Except.ok.injEq, exists_eq_left']
    split
    next henough => exact iff_of_false (by simp) fun hboth => absurd hboth.2 (not_lt.mpr henough)
    next henough =>
    have hverify : (c.batchVerify (c.keyType proposer.pubKey) (st.batch.map Prod.snd)).1 = true
        ↔ Verified c st.batch := by
      by_cases hnil : st.batch = []
      · -- without a signature no power is tallied
        have hnone : entries = [] := by simpa [hnil] using hbatch
        have hzero : st.talliedVotingPower = 0 := by simp [hpower, hnone, counted,
          checkedPower_nil]
        rw [hnil]
        exact iff_of_true (hempty.resolve_left (by omega)) (List.forall_mem_nil _)
      rw [hc.verify _ _ (by simpa using hnil), Verified, List.forall_mem_map]
      simp only [hbatch, List.nil_append, List.map_map, List.forall_mem_map]
      exact hadds
    rw [← hverify, and_iff_left (not_le.mp henough)]
    split
    next hok => exact iff_of_true rfl hok
    next hok =>
    refine iff_of_false ?_ hok
    split <;> simp

variable {countAllSignatures : Bool} {blockID : BlockID} {height : Int}

lemma verifyBasicValsAndCommit_eq_ok :
    verifyBasicValsAndCommit vals commit height blockID = .ok ()
      ↔ vals.size = commit.signatures.length ∧ height = commit.height
        ∧ blockID = commit.blockID := by
  unfold verifyBasicValsAndCommit
  split_ifs <;> simp_all

lemma verifyCommitLightInternal_certified (hc : c.Lawful)
    (h : verifyCommitLightInternal c chainID vals blockID height commit
      countAllSignatures = .ok ()) :
    vals.size = commit.signatures.length ∧ commit.height = height
      ∧ commit.blockID = blockID
      ∧ ∃ entries, Certified c chainID vals commit
        (lightRule vals countAllSignatures) entries := by
  unfold verifyCommitLightInternal at h
  split at h
  · cases h
  next hbasic =>
  obtain ⟨hsize, rfl, rfl⟩ := verifyBasicValsAndCommit_eq_ok.mp hbasic
  exact ⟨hsize, rfl, rfl, verifyWith_certified hc (fun _ => rfl) h⟩

lemma verifyCommitLightTrustingInternal_certified (hc : c.Lawful)
    {trustLevel : Fraction}
    (h : verifyCommitLightTrustingInternal c chainID vals commit trustLevel
      countAllSignatures = .ok ()) :
    ∃ product entries, safeMul vals.totalVotingPower
      (wrap64 trustLevel.numerator) = some product
      ∧ Certified c chainID vals commit (trustingRule
        (product.tdiv (wrap64 trustLevel.denominator)) countAllSignatures)
        entries := by
  unfold verifyCommitLightTrustingInternal at h
  split at h
  · cases h
  split at h
  · cases h
  next product hproduct =>
  split at h
  · cases h
  next hwith =>
  obtain ⟨entries, hentries⟩ := verifyWith_certified hc (fun _ => rfl) hwith
  exact ⟨product, entries, hproduct, hentries⟩

-- ==== no panics

/-- A slot that the loops can look at: it is in the commit, it does not have
a flag of its own making, and there is a validator of its index. -/
def Usable (vals : ReceivedSet) (commit : Commit) (rule : VerifyRule)
    (slot : CommitSig × Nat) : Prop :=
  commit.signatures[slot.2]? = some slot.1
    ∧ (rule.ignoreSig slot.1 = false → ∀ f, slot.1.blockIDFlag ≠ .unknown f)
    ∧ (rule.lookUpByIndex = true → slot.2 < vals.validators.length)

variable {slot : CommitSig × Nat}

lemma Usable.signBytes (h : Usable vals commit rule slot)
    (hkept : rule.ignoreSig slot.1 = false) :
    ∃ msg, commit.voteSignBytes c.toCrypto chainID slot.2 = .ok msg := by
  obtain ⟨hslot, hflag, -⟩ := h
  unfold voteSignBytes getVote CommitSig.blockID
  rw [hslot]
  dsimp only
  cases hf : slot.1.blockIDFlag with
  | absent | commit | nil => exact ⟨_, rfl⟩
  | unknown f => exact absurd hf (hflag hkept f)

variable {e : VerifyError}

lemma Usable.signer (h : Usable vals commit rule slot)
    (he : rule.signer vals seen slot.2 slot.1 = .error e) :
    e.isPanic = false := by
  obtain ⟨-, -, hindex⟩ := h
  unfold VerifyRule.signer at he
  split at he
  next hlook =>
    rw [List.getElem?_eq_getElem (hindex hlook)] at he
    cases he
  · split at he
    · cases he
    split at he
    · cases he
      rfl
    cases he

lemma singleLoop_noPanic
    (husable : ∀ slot ∈ slots, Usable vals commit rule slot)
    (h : singleLoop c chainID vals commit rule slots seen power = .error e) :
    e.isPanic = false := by
  induction slots generalizing seen power with
  | nil =>
    unfold singleLoop at h
    split at h
    · cases h
      rfl
    cases h
  | cons slot slots ih =>
    obtain ⟨hslot, hslots⟩ := List.forall_mem_cons.mp husable
    obtain ⟨sig, idx⟩ := slot
    unfold singleLoop at h
    split at h
    · exact ih hslots h
    next hkept =>
    split at h
    · cases h
      rfl
    split at h
    next herr =>
      cases h
      exact hslot.signer herr
    · exact ih hslots h
    next val seen' _ =>
    obtain ⟨msg, hmsg⟩ := @Usable.signBytes c chainID _ _ _ _ hslot (Bool.eq_false_iff.mpr hkept)
    rw [hmsg] at h
    dsimp only at h
    generalize (if rule.countSig sig = true then power + val.votingPower else power) = power' at h
    split at h
    · cases h
      rfl
    split at h
    · cases h
    exact ih hslots h

lemma batchLoop_noPanic {st : BatchState}
    (husable : ∀ slot ∈ slots, Usable vals commit rule slot)
    (h : batchLoop c chainID vals commit rule type slots st = .error e) :
    e.isPanic = false := by
  induction slots generalizing st with
  | nil => cases h
  | cons slot slots ih =>
    obtain ⟨hslot, hslots⟩ := List.forall_mem_cons.mp husable
    obtain ⟨sig, idx⟩ := slot
    unfold batchLoop at h
    split at h
    · exact ih hslots h
    next hkept =>
    split at h
    next herr =>
      cases h
      exact hslot.signer herr
    · exact ih hslots h
    next val seen' _ =>
    obtain ⟨msg, hmsg⟩ := @Usable.signBytes c chainID _ _ _ _ hslot (Bool.eq_false_iff.mpr hkept)
    rw [hmsg] at h
    dsimp only at h
    generalize (if rule.countSig sig = true then st.talliedVotingPower + val.votingPower
      else st.talliedVotingPower) = power' at h
    split at h
    · cases h
      rfl
    split at h
    · cases h
    exact ih hslots h

lemma getProposer_ne_none (h : vals.validators ≠ []) :
    vals.getProposer ≠ none := by
  unfold getProposer
  rw [if_neg h]
  split
  · simp
  unfold findProposer
  -- whatever came before, the last validator leaves somebody
  rw [← List.dropLast_concat_getLast h, List.foldl_concat]
  repeat' split
  all_goals simp

/-- A commit whose slots can be looked at is verified without a panic. -/
lemma verifyWith_noPanic (hne : vals.validators ≠ [])
    (husable : ∀ slot ∈ commit.signatures.zipIdx, Usable vals commit rule slot)
    (h : verifyWith c chainID vals commit rule = .error e) :
    e.isPanic = false := by
  unfold verifyWith shouldBatchVerify at h
  cases hproposer : vals.getProposer with
  | none => exact absurd hproposer (getProposer_ne_none hne)
  | some proposer =>
    rw [hproposer] at h
    split at h
    next herr =>
      split at herr
      · cases herr
      cases herr
    · -- in one batch
      unfold verifyCommitBatch at h
      rw [hproposer] at h
      dsimp only at h
      split at h
      · cases h
        rfl
      split at h
      next herr =>
        cases h
        exact batchLoop_noPanic husable herr
      · repeat' split at h
        all_goals cases h
        all_goals rfl
    exact singleLoop_noPanic husable h

end HetuEngine.Comet
