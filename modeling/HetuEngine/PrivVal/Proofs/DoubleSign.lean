/-
The key does not sign twice.

A request ends in one of three ways (`Served`): it is refused, with the
signature in the message left alone; it is answered with the last signature,
for bytes that agree with the last ones up to the timestamp; or it is signed
for a later height, round and step, which are saved before the signature
goes out. So what was released is at or before the last state, in memory and
on disk (`Safe`), whatever crashes lie in between.
-/
import HetuEngine.Lib.Fallible
import HetuEngine.PrivVal.File
import Mathlib.Data.List.Induction

namespace HetuEngine.PrivVal

open Lib Comet Fallible LastSignState Codec FilePV

variable {p : Codec} {lss : LastSignState} {pv : FilePV}

-- ==== order

def HRS.step (hrs : HRS) : Int := (ofLex (ofLex hrs).2).2

/-- Height, round and step are compared in this order. -/
lemma HRS.mk_lt_mk {h r s h' r' s' : Int} : HRS.mk h r s < HRS.mk h' r' s'
      ↔ h < h' ∨ h = h' ∧ (r < r' ∨ r = r' ∧ s < s') := by
  unfold HRS.mk
  rw [Prod.Lex.toLex_lt_toLex, Prod.Lex.toLex_lt_toLex]

/-- The request repeats the last height, round and step, and there is a last
signature to answer it with. -/
lemma checkHRS_same {height round step : Int}
    (h : lss.checkHRS height round step = .ok (.ok true)) :
    lss.hrs = .mk height round step ∧ (∃ last, lss.signBytes = some last)
      ∧ ∃ sig, lss.signature = some sig := by
  unfold checkHRS at h
  split_ifs at h with h₁ hh h₂ hr h₃ hs
  · cases h
  · cases h
  · cases h
  · split at h
    · cases h
    · next last sig hlast hsig =>
      refine ⟨?_, ⟨last, hlast⟩, ⟨sig, hsig⟩⟩
      unfold hrs
      rw [hh, hr, hs]
    cases h
  · cases h
  · cases h
  cases h

/-- The request is for a later height, round or step than the last. -/
lemma checkHRS_new {height round step : Int}
    (h : lss.checkHRS height round step = .ok (.ok false)) :
    lss.hrs < .mk height round step := by
  unfold checkHRS at h
  unfold hrs
  rw [HRS.mk_lt_mk]
  split_ifs at h with h₁ hh h₂ hr h₃ hs
  · cases h
  · cases h
  · cases h
  · split at h
    · cases h
    · cases h
    cases h
  all_goals omega

-- ==== agreement

/-- The message in the bytes, without its timestamp. -/
def Codec.content (p : Codec) (step : Int) (bz : Bytes) :
    Option (CanonicalVote ⊕ CanonicalProposal) :=
  if step = stepPropose then (p.unmarshalProposal bz).map fun m => .inr { m with timestamp := 0 }
  else (p.unmarshalVote bz).map fun v => .inl { v with timestamp := 0 }

/-- Bytes that are equal up to the timestamp of the message in them. -/
def Codec.Agree (p : Codec) (step : Int) (a b : Bytes) : Prop :=
  a = b ∨ p.content step a ≠ none ∧ p.content step a = p.content step b

lemma Codec.Agree.refl (p : Codec) (step : Int) (a : Bytes) :
    p.Agree step a a := .inl rfl

variable {a b : Bytes} {check : Bytes → Bytes → Except Panic (Time × Bool)}
  {vote : Vote} {chainID : String} {sign : Sign} {proposal : Proposal}
  {r : Reply Bytes} {req : Request} {hrs : HRS} {signBytes : Bytes}

lemma Codec.Agree.symm {step : Int} (h : p.Agree step a b) :
    p.Agree step b a := by
  rcases h with rfl | ⟨hne, heq⟩
  · exact .inl rfl
  rw [heq] at hne
  exact .inr ⟨hne, heq.symm⟩

lemma Codec.Agree.trans {step : Int} {c : Bytes} (h : p.Agree step a b)
    (h' : p.Agree step b c) : p.Agree step a c := by
  rcases h with rfl | ⟨hne, heq⟩
  · exact h'
  rcases h' with rfl | ⟨-, heq'⟩
  · exact .inr ⟨hne, heq⟩
  exact .inr ⟨hne, heq.trans heq'⟩

/-- A check that fails only on bytes that cannot be decoded, and succeeds only
on bytes that agree. -/
structure Compares (p : Codec) (step : Int) (check : Bytes → Bytes → Except Panic (Time × Bool)) :
    Prop where
  agree : ∀ a b t, check a b = .ok (t, true) → p.Agree step a b
  total : ∀ a b, p.content step a ≠ none → p.content step b ≠ none → ∃ r, check a b = .ok r

/-- The comparison of votes, at the steps of a prevote and of a precommit. -/
lemma compares_votes {step : Int} (hstep : step ≠ stepPropose) :
    Compares p step p.checkVotesOnlyDifferByTimestamp := by
  constructor
  all_goals
    intro a b
    unfold checkVotesOnlyDifferByTimestamp
    cases ha : p.unmarshalVote a <;> cases hb : p.unmarshalVote b
    all_goals simp_all [content, Agree, pure, Except.pure, throw, throwThe]

/-- The comparison of proposals. -/
lemma compares_proposals :
    Compares p stepPropose p.checkProposalsOnlyDifferByTimestamp := by
  constructor
  all_goals
    intro a b
    unfold checkProposalsOnlyDifferByTimestamp
    cases ha : p.unmarshalProposal a <;> cases hb : p.unmarshalProposal b
    all_goals simp_all [content, Agree, pure, Except.pure, throw, throwThe]

/-- Where a signature is reused, it is the last one, for bytes that are the
last ones or pass the comparison. -/
lemma reuse_some {last sig : Bytes} {r : Option Time × Bytes}
    (hlast : lss.signBytes = some last) (hsig : lss.signature = some sig)
    (h : lss.reuse signBytes check = .ok (some r)) :
    r.2 = sig
      ∧ (last = signBytes ∨ ∃ t, check last signBytes = .ok (t, true)) := by
  unfold reuse at h
  simp only [hlast, hsig, Option.getD_some] at h
  split_ifs at h with heq
  · cases h
    exact ⟨rfl, .inl heq.symm⟩
  obtain ⟨⟨t, ok⟩, hcheck, h⟩ := bind_eq_ok.mp h
  cases ok with
  | true =>
    cases h
    exact ⟨rfl, .inr ⟨t, hcheck⟩⟩
  | false => cases h

-- ==== requests

inductive Served (p : Codec) (lss : LastSignState) (req : Request) :
    Reply Bytes → Prop
  | refused {r : Reply Bytes} (herr : r.err ≠ none)
      (hsig : r.msg = req.signature) (hsaved : r.saved = none) : Served p lss req r
  | reused {hrs : HRS} {signBytes last sig : Bytes}
      (hhrs : req.hrs = some hrs) (hbytes : req.signBytes p = some signBytes)
      (hsame : lss.hrs = hrs) (hlast : lss.signBytes = some last) (hsig : lss.signature = some sig)
      (hagree : p.Agree hrs.step last signBytes) : Served p lss req ⟨sig, none, none⟩
  | signed {hrs : HRS} {signBytes sig : Bytes} {lss' : LastSignState}
      (hhrs : req.hrs = some hrs) (hbytes : req.signBytes p = some signBytes)
      (hlt : lss.hrs < hrs) (hnew : lss'.hrs = hrs)
      (hsig : lss'.signature = some sig) (hne : sig ≠ [])
      (hsaved : lss'.signBytes = some signBytes) :
      Served p lss req ⟨sig, none, some lss'⟩

/-- No vote is cast in the step of a proposal. -/
lemma voteToStep_ne {step : Int} (h : voteToStep vote = .ok step) :
    step ≠ stepPropose := by
  unfold voteToStep at h
  split_ifs at h
  · cases h
    decide
  cases h
  decide

lemma vote_hrs {step : Int} (chainID : String)
    (hstep : voteToStep vote = .ok step) :
    (Request.vote chainID vote).hrs
      = some (.mk vote.height vote.round step) := by
  simp only [Request.hrs, hstep]

lemma proposal_hrs (chainID : String) (proposal : Proposal) :
    (Request.proposal chainID proposal).hrs
    = some (.mk proposal.height proposal.round stepPropose) := rfl

/-- A signature that is reused is for bytes that agree with the last ones. -/
lemma served_reused {height round step : Int} {reused : Option Time × Bytes}
    (hhrs : req.hrs = some (.mk height round step))
    (hbytes : req.signBytes p = some signBytes)
    (hchecked : lss.checkHRS height round step = .ok (.ok true))
    (hreused : lss.reuse signBytes check = .ok (some reused))
    (hcheck : Compares p step check) :
    Served p lss req ⟨reused.2, none, none⟩ := by
  obtain ⟨hsame, ⟨last, hlast⟩, ⟨sig, hsig⟩⟩ := checkHRS_same hchecked
  obtain ⟨hr, hor⟩ := reuse_some hlast hsig hreused
  rw [← hr] at hsig
  refine .reused hhrs hbytes hsame hlast hsig ?_
  rcases hor with rfl | ⟨t, ht⟩
  · exact .inl rfl
  exact hcheck.agree last _ t ht

/-- `SignVote` ends in one of the three ways. -/
lemma served_vote {r : Reply Vote}
    (h : p.signVote sign lss chainID vote = .ok r) :
    Served p lss (.vote chainID vote) ⟨r.msg.signature, r.err, r.saved⟩ := by
  obtain ⟨step, hstep, h⟩ := bind_eq_ok.mp h
  obtain ⟨checked, hchecked, h⟩ := bind_eq_ok.mp h
  have hhrs := vote_hrs chainID hstep
  cases checked with
  | error e =>
    cases h
    exact .refused (Option.some_ne_none _) rfl rfl
  | ok same =>
    obtain ⟨signBytes, hbytes, h⟩ := bind_eq_ok.mp h
    obtain ⟨extSig, -, h⟩ := bind_eq_ok.mp h
    have hbytes' : (Request.vote chainID vote).signBytes p = some signBytes := by
      simp only [Request.signBytes, hbytes, Except.toOption]
    cases extSig with
    | error e =>
      cases h
      exact .refused (Option.some_ne_none _) rfl rfl
    | ok extSig =>
      cases same with
      | true =>
        obtain ⟨reused, hreused, h⟩ := bind_eq_ok.mp h
        cases reused with
        | none =>
          cases h
          exact .refused (Option.some_ne_none _) rfl rfl
        | some reused =>
          cases h
          exact served_reused hhrs hbytes' hchecked hreused
            (compares_votes (voteToStep_ne hstep))
      | false =>
        simp only [Bool.false_eq_true, if_false] at h
        split at h
        · cases h
          exact .refused (Option.some_ne_none _) rfl rfl
        next sig hsig =>
        cases h
        exact .signed hhrs hbytes' (checkHRS_new hchecked) rfl rfl sig.property rfl

/-- `SignProposal` ends in one of the three ways. -/
lemma served_proposal {r : Reply Proposal}
    (h : p.signProposal sign lss chainID proposal = .ok r) :
    Served p lss (.proposal chainID proposal)
      ⟨r.msg.signature, r.err, r.saved⟩ := by
  obtain ⟨checked, hchecked, h⟩ := bind_eq_ok.mp h
  have hhrs := proposal_hrs chainID proposal
  cases checked with
  | error e =>
    cases h
    exact .refused (Option.some_ne_none _) rfl rfl
  | ok same =>
    obtain ⟨signBytes, hbytes, h⟩ := bind_eq_ok.mp h
    have hbytes' : (Request.proposal chainID proposal).signBytes p = some signBytes := by
      simp only [Request.signBytes, hbytes, Except.toOption]
    cases same with
    | true =>
      obtain ⟨reused, hreused, h⟩ := bind_eq_ok.mp h
      cases reused with
      | none =>
        cases h
        exact .refused (Option.some_ne_none _) rfl rfl
      | some reused =>
        cases h
        exact served_reused hhrs hbytes' hchecked hreused compares_proposals
    | false =>
      simp only [Bool.false_eq_true, if_false] at h
      split at h
      · cases h
        exact .refused (Option.some_ne_none _) rfl rfl
      next sig hsig =>
      cases h
      exact .signed hhrs hbytes' (checkHRS_new hchecked) rfl rfl sig.property rfl

/-- Every request ends in one of the three ways. -/
lemma served (h : p.serve sign lss req = .ok r) : Served p lss req r := by
  cases req with
  | vote chainID vote =>
    obtain ⟨r', hr', h⟩ := bind_eq_ok.mp h
    cases h
    exact served_vote hr'
  | proposal chainID proposal =>
    obtain ⟨r', hr', h⟩ := bind_eq_ok.mp h
    cases h
    exact served_proposal hr'

-- ==== invariant

/-- One release after another: height, round and step do not go back, a new
signature is for later ones, and what has the same has the same signature,
over bytes that agree up to the timestamp. -/
structure After (p : Codec) (a b : Release) : Prop where
  le : a.hrs ≤ b.hrs
  fresh : b.fresh = true → a.hrs < b.hrs
  same : a.hrs = b.hrs → a.signature = b.signature ∧ p.Agree a.hrs.step a.signBytes b.signBytes

/-- What was released is at or before the last state, and what is at it is
what the last state says. -/
structure Covers (p : Codec) (lss : LastSignState) (a : Release) : Prop where
  le : a.hrs ≤ lss.hrs
  signature : a.hrs = lss.hrs → ∀ sig, lss.signature = some sig → a.signature = sig
  signBytes : a.hrs = lss.hrs → ∀ last, lss.signBytes = some last →
    p.Agree a.hrs.step last a.signBytes

/-- The encoding can be decoded, and that of an extension does not fail. -/
structure Codec.Lawful (p : Codec) : Prop where
  vote : ∀ v bz, p.marshalVote v = some bz → p.unmarshalVote bz ≠ none
  proposal : ∀ m bz, p.marshalProposal m = some bz → p.unmarshalProposal bz ≠ none
  extension : ∀ m, p.marshalExtension m ≠ none

structure Safe (p : Codec) (pv : FilePV) : Prop where
  persisted : pv.persisted = pv.lastSignState.stored
  signature : pv.lastSignState.signBytes ≠ none →
    ∃ sig, pv.lastSignState.signature = some sig ∧ sig ≠ []
  decodes : p.Lawful → ∀ last, pv.lastSignState.signBytes = some last →
    p.content pv.lastSignState.hrs.step last ≠ none
  covers : ∀ a ∈ pv.released, Covers p pv.lastSignState a
  order : pv.released.Pairwise (After p)

/-- A new key has released nothing. -/
lemma safe_new (p : Codec) : Safe p .new := by
  refine ⟨rfl, fun h => absurd rfl h, fun _ last h => ?_, ?_, List.Pairwise.nil⟩
  · cases h
  intro a ha
  cases ha

/-- What is read back from the disk reads back as itself. -/
lemma stored_stored (lss : LastSignState) :
    lss.stored.stored = lss.stored := by
  unfold stored
  simp [Option.filter_filter]

/-- The disk has no sign bytes that memory does not have. -/
lemma stored_signBytes {last : Bytes}
    (h : lss.stored.signBytes = some last) : lss.signBytes = some last :=
  (Option.filter_eq_some_iff.mp h).1

/-- A release is covered by what is on disk too. -/
lemma Covers.stored {a : Release} (h : Covers p lss a) :
    Covers p lss.stored a :=
  ⟨h.le, fun heq sig hsig => h.signature heq sig (Option.filter_eq_some_iff.mp hsig).1,
    fun heq last hlast => h.signBytes heq last (stored_signBytes hlast)⟩

/-- A crash loses nothing that covers a release. -/
lemma Safe.restart (h : Safe p pv) : Safe p pv.restart := by
  have hlss : pv.restart.lastSignState = pv.lastSignState.stored := h.persisted
  constructor
  · rw [hlss, stored_stored]
    exact h.persisted
  · intro hne
    rw [hlss] at hne ⊢
    obtain ⟨last, hlast⟩ := Option.ne_none_iff_exists'.mp hne
    have hold : pv.lastSignState.signBytes ≠ none := by
      rw [stored_signBytes hlast]
      exact Option.some_ne_none _
    obtain ⟨sig, hsig, hnil⟩ := h.signature hold
    refine ⟨sig, ?_, hnil⟩
    unfold stored
    simp [hsig, hnil]
  · intro hp last hlast
    rw [hlss] at hlast ⊢
    exact h.decodes hp last (stored_signBytes hlast)
  · intro a ha
    rw [hlss]
    exact (h.covers a ha).stored
  exact h.order

lemma marshalled_eq_ok {bz : Option Bytes} :
    marshalled bz = .ok a ↔ bz = some a := by
  cases bz <;> simp [marshalled, pure, Except.pure]

lemma toOption_eq_some {x : Except Panic Bytes} :
    x.toOption = some a ↔ x = .ok a := by
  cases x <;> simp [Except.toOption]

/-- The bytes of a request can be decoded as what the step says. -/
lemma content_signBytes (req : Request) (hp : p.Lawful)
    (hhrs : req.hrs = some hrs) (hbytes : req.signBytes p = some signBytes) :
    p.content hrs.step signBytes ≠ none := by
  cases req with
  | vote chainID vote =>
    simp only [Request.hrs] at hhrs
    split at hhrs
    · next step hstep =>
      cases hhrs
      obtain ⟨id, -, hm⟩ := bind_eq_ok.mp (toOption_eq_some.mp hbytes)
      have hne := hp.vote _ _ (marshalled_eq_ok.mp hm)
      show p.content step signBytes ≠ none
      unfold content
      rw [if_neg (voteToStep_ne hstep)]
      simpa using hne
    cases hhrs
  | proposal chainID proposal =>
    cases hhrs
    obtain ⟨id, -, hm⟩ := bind_eq_ok.mp (toOption_eq_some.mp hbytes)
    have hne := hp.proposal _ _ (marshalled_eq_ok.mp hm)
    show p.content stepPropose signBytes ≠ none
    unfold content
    simpa using hne

/-- A new signature is saved; it may not have gone out. -/
lemma Safe.save (h : Safe p pv) {sig : Bytes} (hhrs : req.hrs = some hrs)
    (hbytes : req.signBytes p = some signBytes)
    (hlt : pv.lastSignState.hrs < hrs) (hnew : lss.hrs = hrs)
    (hsig : lss.signature = some sig) (hne : sig ≠ [])
    (hsaved : lss.signBytes = some signBytes) :
    Safe p (pv.save (some lss)) := by
  refine ⟨rfl, fun _ => ⟨sig, hsig, hne⟩, ?_, ?_, h.order⟩
  · intro hp last hlast
    rw [show (pv.save (some lss)).lastSignState = lss from rfl] at hlast ⊢
    rw [hsaved] at hlast
    cases hlast
    rw [hnew]
    exact content_signBytes req hp hhrs hbytes
  intro a ha
  have hbefore : a.hrs < lss.hrs := by
    rw [hnew]
    exact lt_of_le_of_lt (h.covers a ha).le hlt
  exact ⟨hbefore.le, fun heq => absurd heq hbefore.ne, fun heq => absurd heq hbefore.ne⟩

/-- A signature goes out that the last state covers and that is after those
before it. -/
lemma Safe.released (h : Safe p pv) {a : Release} (hcovers : Covers p pv.lastSignState a)
    (hafter : ∀ b ∈ pv.released, After p b a) :
    Safe p { pv with released := pv.released ++ [a] } := by
  refine ⟨h.persisted, h.signature, h.decodes, ?_, ?_⟩
  · intro b hb
    rcases List.mem_append.mp hb with hb | hb
    · exact h.covers b hb
    rw [List.mem_singleton.mp hb]
    exact hcovers
  rw [List.pairwise_append]
  refine ⟨h.order, List.pairwise_singleton _ _, ?_⟩
  intro b hb c hc
  rw [List.mem_singleton.mp hc]
  exact hafter b hb

/-- A request keeps the invariant, also if the process dies between the save
and the release. -/
lemma Safe.request (h : Safe p pv) (hr : Served p pv.lastSignState req r) :
    Safe p (pv.save r.saved) ∧ Safe p { pv.save r.saved with
        released := pv.released ++ release p req r } := by
  cases hr with
  | refused herr hsig hsaved =>
    have hnone : release p req r = [] := by
      unfold release
      split
      · next hok _ _ => exact absurd hok herr
      rfl
    rw [hsaved, hnone, List.append_nil]
    exact ⟨h, h⟩
  | @reused hrs signBytes last sig hhrs hbytes hsame hlast hsig hagree =>
    refine ⟨h, ?_⟩
    simp only [release, hhrs, hbytes]
    refine h.released (a := ⟨hrs, signBytes, sig, false⟩) ?_ ?_
    · refine ⟨hsame.ge, fun _ sig' hsig' => ?_, fun _ last' hlast' => ?_⟩
      · rw [hsig] at hsig'
        exact Option.some.inj hsig'
      rw [hlast] at hlast'
      cases hlast'
      exact hagree
    intro b hb
    have hc := h.covers b hb
    refine ⟨hc.le.trans hsame.le, fun hfresh => (by cases hfresh), ?_⟩
    intro heq
    have hb' : b.hrs = pv.lastSignState.hrs := heq.trans hsame.symm
    refine ⟨hc.signature hb' sig hsig, ?_⟩
    have hstep : b.hrs.step = hrs.step := congrArg HRS.step heq
    rw [hstep]
    have hcb := hc.signBytes hb' last hlast
    rw [hstep] at hcb
    exact hcb.symm.trans hagree
  | @signed hrs signBytes sig lss' hhrs hbytes hlt hnew hsig hne hsaved =>
    have hsave := h.save hhrs hbytes hlt hnew hsig hne hsaved
    refine ⟨hsave, ?_⟩
    simp only [release, hhrs, hbytes, Option.isSome_some]
    refine hsave.released (a := ⟨hrs, signBytes, sig, true⟩) ?_ ?_
    · refine ⟨hnew.ge, fun _ sig' hsig' => ?_, fun _ last' hlast' => ?_⟩
      · rw [show (pv.save (some lss')).lastSignState = lss' from rfl, hsig] at hsig'
        exact Option.some.inj hsig'
      rw [show (pv.save (some lss')).lastSignState = lss' from rfl, hsaved] at hlast'
      cases hlast'
      exact Codec.Agree.refl p _ _
    intro b hb
    have hbefore : b.hrs < hrs := lt_of_le_of_lt (h.covers b hb).le hlt
    exact ⟨hbefore.le, fun _ => hbefore, fun heq => absurd heq hbefore.ne⟩

/-- Every event keeps the invariant. -/
lemma Safe.step (h : Safe p pv) (e : Event) : Safe p (step p pv e) := by
  cases e with
  | restart => exact h.restart
  | request req sign crash =>
    simp only [FilePV.step]
    cases hr : p.serve sign pv.lastSignState req with
    | error q => exact h.restart
    | ok r =>
      obtain ⟨hsave, hall⟩ := h.request (served hr)
      cases crash with
      | none => exact hall
      | some crash =>
        cases crash with
        | beforeSave => exact h.restart
        | afterSave => exact hsave.restart

/-- The invariant holds in every run from a new key. -/
lemma safe_run (p : Codec) (es : List Event) : Safe p (run p es) := by
  induction es using List.reverseRecOn with
  | nil => exact safe_new p
  | append_singleton es e ih =>
    rw [run_concat]
    exact ih.step e

-- ==== conflicts

/-- A request that conflicts with what was released: it goes back, or it has
the same height, round and step and other bytes. -/
def Conflicts (p : Codec) (req : Request) (a : Release) : Prop :=
  ∃ hrs signBytes, req.hrs = some hrs ∧ req.signBytes p = some signBytes
    ∧ (hrs < a.hrs ∨ hrs = a.hrs ∧ ¬ p.Agree hrs.step a.signBytes signBytes)

/-- A request that conflicts with a release is refused. -/
lemma Safe.refused (h : Safe p pv) {a : Release} (ha : a ∈ pv.released)
    (hconf : Conflicts p req a) (hr : Served p pv.lastSignState req r) :
    r.err ≠ none ∧ r.msg = req.signature ∧ r.saved = none := by
  obtain ⟨hrs, signBytes, hhrs, hbytes, hconf⟩ := hconf
  have hc := h.covers a ha
  cases hr with
  | refused herr hsig hsaved => exact ⟨herr, hsig, hsaved⟩
  | reused hhrs' hbytes' hsame hlast hsig hagree =>
    rw [hhrs] at hhrs'
    rw [hbytes] at hbytes'
    cases hhrs'
    cases hbytes'
    rcases hconf with hlt | ⟨heq, hno⟩
    · exact absurd (hc.le.trans hsame.le) hlt.not_ge
    have hlast' := hc.signBytes (heq.symm.trans hsame.symm) _ hlast
    rw [← heq] at hlast'
    exact absurd (hlast'.symm.trans hagree) hno
  | signed hhrs' hbytes' hlt hnew hsig hne hsaved =>
    rw [hhrs] at hhrs'
    cases hhrs'
    have hbefore := lt_of_le_of_lt hc.le hlt
    rcases hconf with hlt' | ⟨heq, -⟩
    · exact absurd hlt' hbefore.not_gt
    exact absurd heq hbefore.ne'

/-- `CheckHRS` does not panic: sign bytes are never without a signature. -/
lemma checkHRS_total (h : Safe p pv) (height round step : Int) :
    ∃ r, pv.lastSignState.checkHRS height round step = .ok r := by
  unfold checkHRS
  split_ifs
  rotate_left 3
  · split
    · next last hlast hnone =>
      have hne : pv.lastSignState.signBytes ≠ none := by
        rw [hlast]
        exact Option.some_ne_none _
      obtain ⟨sig, hsig, -⟩ := h.signature hne
      rw [hnone] at hsig
      cases hsig
    all_goals exact ⟨_, rfl⟩
  all_goals exact ⟨_, rfl⟩

/-- The comparison does not panic: the last bytes can be decoded. -/
lemma reuse_total {height round step : Int} (hp : p.Lawful) (h : Safe p pv)
    (hhrs : req.hrs = some (.mk height round step))
    (hbytes : req.signBytes p = some signBytes)
    (hchecked : pv.lastSignState.checkHRS height round step = .ok (.ok true))
    (hcheck : Compares p step check) :
    ∃ r, pv.lastSignState.reuse signBytes check = .ok r := by
  obtain ⟨hsame, ⟨last, hlast⟩, -⟩ := checkHRS_same hchecked
  have hold := h.decodes hp last hlast
  rw [hsame] at hold
  obtain ⟨⟨t, ok⟩, hr⟩ := hcheck.total _ _ hold (content_signBytes req hp hhrs hbytes)
  unfold reuse
  simp only [hlast, Option.getD_some]
  split_ifs
  · exact ⟨_, rfl⟩
  rw [hr]
  exact ⟨_, rfl⟩

/-- Signing an extension does not panic. -/
lemma signExtension_total (hp : p.Lawful) (sign : Sign) (chainID : String)
    (vote : Vote) : ∃ r, p.signExtension sign chainID vote = .ok r := by
  unfold signExtension
  split_ifs
  · obtain ⟨bz, hbz⟩ := Option.ne_none_iff_exists'.mp (hp.extension
      ⟨vote.extension, vote.height, vote.round, chainID⟩)
    refine exists_bind ⟨bz, marshalled_eq_ok.mpr hbz⟩ fun bz _ => ?_
    cases sign bz with
    | error e | ok extSig => exact ⟨_, rfl⟩
  all_goals exact ⟨_, rfl⟩

/-- `SignVote` returns, for a vote with a step and sign bytes. -/
lemma signVote_total (hp : p.Lawful) (h : Safe p pv) (sign : Sign)
    {step : Int} (hstep : voteToStep vote = .ok step)
    (hbytes : p.voteSignBytes chainID vote = .ok signBytes) :
    ∃ r, p.signVote sign pv.lastSignState chainID vote = .ok r := by
  refine exists_bind ⟨step, hstep⟩ fun step' hstep' => ?_
  rw [hstep] at hstep'
  cases hstep'
  refine exists_bind (checkHRS_total h _ _ _) fun checked hc => ?_
  cases checked with
  | error e => exact ⟨_, rfl⟩
  | ok same =>
    refine exists_bind ⟨signBytes, hbytes⟩ fun _ hb => ?_
    rw [hbytes] at hb
    cases hb
    refine exists_bind (signExtension_total hp sign chainID vote) fun extSig _ => ?_
    cases extSig with
    | error e => exact ⟨_, rfl⟩
    | ok extSig =>
      cases same with
      | false =>
        cases sign signBytes with
        | error e | ok sig => exact ⟨_, rfl⟩
      | true =>
        refine exists_bind (reuse_total hp h (vote_hrs chainID hstep) (toOption_eq_some.mpr hbytes)
          hc (compares_votes (voteToStep_ne hstep))) fun reused _ => ?_
        cases reused with
        | none | some reused => exact ⟨_, rfl⟩

/-- `SignProposal` returns, for a proposal with sign bytes. -/
lemma signProposal_total (hp : p.Lawful) (h : Safe p pv) (sign : Sign)
    (hbytes : p.proposalSignBytes chainID proposal = .ok signBytes) :
    ∃ r, p.signProposal sign pv.lastSignState chainID proposal = .ok r := by
  refine exists_bind (checkHRS_total h _ _ _) fun checked hc => ?_
  cases checked with
  | error e => exact ⟨_, rfl⟩
  | ok same =>
    refine exists_bind ⟨signBytes, hbytes⟩ fun _ hb => ?_
    rw [hbytes] at hb
    cases hb
    cases same with
    | false =>
      cases sign signBytes with
      | error e | ok sig => exact ⟨_, rfl⟩
    | true =>
      refine exists_bind (reuse_total hp h (proposal_hrs chainID proposal)
        (toOption_eq_some.mpr hbytes) hc compares_proposals) fun reused _ => ?_
      cases reused with
      | none | some reused => exact ⟨_, rfl⟩

/-- A request whose bytes can be encoded does not panic. -/
lemma serve_total (hp : p.Lawful) (h : Safe p pv) (sign : Sign)
    (hhrs : req.hrs = some hrs) (hbytes : req.signBytes p = some signBytes) :
    ∃ r, p.serve sign pv.lastSignState req = .ok r := by
  cases req with
  | vote chainID vote =>
    cases hstep : voteToStep vote with
    | error e =>
      simp only [Request.hrs, hstep] at hhrs
      cases hhrs
    | ok step =>
      exact exists_bind (signVote_total hp h sign hstep
        (toOption_eq_some.mp hbytes)) fun r _ => ⟨_, rfl⟩
  | proposal chainID proposal =>
    exact exists_bind (signProposal_total hp h sign
      (toOption_eq_some.mp hbytes)) fun r _ => ⟨_, rfl⟩

/-- Whatever is requested, and wherever it crashes: the height, round and
step of the signatures returned do not go back, new signatures are for later
ones, and signatures for the same are the same, over bytes that agree up to
the timestamp. A request that conflicts with a signature returned gets an
error, the signature in its message is not set and nothing is saved. -/
theorem no_double_signing (p : Codec) (es : List Event) :
    (FilePV.run p es).released.Pairwise (After p)
      ∧ ∀ req, ∀ a ∈ (FilePV.run p es).released, Conflicts p req a →
        ∀ sign, (∀ r, p.serve sign (FilePV.run p es).lastSignState
          req = .ok r →
          r.err ≠ none ∧ r.msg = req.signature ∧ r.saved = none)
          ∧ (p.Lawful →
            ∃ r, p.serve sign (FilePV.run p es).lastSignState
              req = .ok r) := by
  have h := safe_run p es
  refine ⟨h.order, fun req a ha hconf sign => ⟨fun r hr => ?_, fun hp => ?_⟩⟩
  · exact h.refused ha hconf (served hr)
  obtain ⟨hrs, signBytes, hhrs, hbytes, -⟩ := hconf
  exact serve_total hp h sign hhrs hbytes

end HetuEngine.PrivVal
