/-
Agreement by locking: voters cast ballots round by round, first a prevote
and then a precommit, and a voter that precommitted a value prevotes it
until a majority of prevotes of a later round releases it.

`Quorums` says which voters are faulty and which sets of voters are quorums;
two quorums have to share a voter that is not faulty. A faulty voter backs
everything, so a quorum of backers is all that a value can need.

# Histories

The ballots of the correct voters are one list, the newest first.
`Disciplined` asks of each ballot what it owes to the ballots before it: a
voter goes forward in rounds and phases, a precommit for a value follows a
majority of prevotes for it, and a prevote against one's own precommit
follows a majority of prevotes against it. The induction of `no_rival` is on
this list: a majority against the committed value would need a ballot that
such a majority, cast before it, released.
-/
import Mathlib.Data.Set.Basic
import Mathlib.Tactic.WLOG

namespace HetuEngine.Lib.Locking

variable {K X : Type}

inductive Phase where
  | prevote
  | precommit

structure Ballot (K X : Type) where
  voter : K
  round : Int
  phase : Phase
  value : X

/-- Who is faulty and who is many. -/
structure Quorums (K : Type) where
  faulty : K → Prop
  quorum : Set K → Prop
  mono : ∀ {A B : Set K}, A ⊆ B → quorum A → quorum B
  common : ∀ {A B : Set K}, quorum A → quorum B → ∃ k, k ∈ A ∧ k ∈ B ∧ ¬ faulty k

/-- The first ballot is of an earlier round, or of the earlier phase of the
same round. -/
def Ballot.before (a b : Ballot K X) : Prop :=
  a.round < b.round ∨ (a.round = b.round ∧ a.phase = .prevote ∧ b.phase = .precommit)

variable {a b : Ballot K X}

lemma Ballot.before_irrefl (hround : a.round = b.round)
    (hphase : a.phase = b.phase) : ¬ a.before b := by
  intro h
  rcases h with h | ⟨-, ha, hb⟩
  · omega
  rw [hphase, hb] at ha
  cases ha

variable (q : Quorums K) (nil : X)

/-- The voters that back a value: those with such a ballot, and the faulty
ones. -/
def backers (H : List (Ballot K X)) (phase : Phase) (round : Int) (x : X) : Set K :=
  fun k => q.faulty k ∨ ⟨k, round, phase, x⟩ ∈ H

def Majority (H : List (Ballot K X)) (phase : Phase) (round : Int) (x : X) :
    Prop :=
  q.quorum (backers q H phase round x)

/-- What a ballot owes to the ballots cast before it. -/
structure Owes (old : List (Ballot K X)) (b : Ballot K X) : Prop where
  later : ∀ a ∈ old, a.voter = b.voter → a.before b
  justified : b.phase = .precommit → b.value ≠ nil → Majority q old .prevote b.round b.value
  released : b.phase = .prevote → ∀ a ∈ old, a.voter = b.voter →
    a.phase = .precommit → a.value ≠ nil → a.value ≠ b.value →
    ∃ r y, a.round < r ∧ r ≤ b.round ∧ y ≠ a.value ∧ Majority q old .prevote r y

/-- Every ballot of a correct voter keeps the rules. -/
def Disciplined : List (Ballot K X) → Prop
  | [] => True
  | b :: old => (¬ q.faulty b.voter → Owes q nil old b) ∧ Disciplined old

variable {q nil} {H T old : List (Ballot K X)}

lemma Majority.mono {phase : Phase} {r : Int} {x : X} (hsub : ∀ b ∈ T, b ∈ H)
    (h : Majority q T phase r x) : Majority q H phase r x :=
  q.mono (fun _ hk => hk.imp_right fun hmem => hsub _ hmem) h

/-- Two majorities share a correct voter, who cast both ballots. -/
lemma Majority.common {phase phase' : Phase} {r r' : Int} {x x' : X}
    (h : Majority q H phase r x) (h' : Majority q T phase' r' x') :
    ∃ k, ¬ q.faulty k ∧ ⟨k, r, phase, x⟩ ∈ H ∧ ⟨k, r', phase', x'⟩ ∈ T := by
  obtain ⟨k, hk, hk', hcorrect⟩ := q.common h h'
  exact ⟨k, hcorrect, hk.resolve_left hcorrect, hk'.resolve_left hcorrect⟩

section

variable (h : Disciplined q nil H)

include h

lemma Disciplined.suffix (hT : T <:+ H) : Disciplined q nil T := by
  obtain ⟨pre, rfl⟩ := hT
  induction pre with
  | nil => exact h
  | cons b pre ih => exact ih h.2

lemma Disciplined.owes (hb : b ∈ H) (hcorrect : ¬ q.faulty b.voter) :
    ∃ old, b :: old <:+ H ∧ Owes q nil old b := by
  obtain ⟨pre, old, rfl⟩ := List.append_of_mem hb
  have hsuffix : b :: old <:+ pre ++ b :: old := List.suffix_append _ _
  exact ⟨old, hsuffix, (h.suffix hsuffix).1 hcorrect⟩

/-- Two ballots of one correct voter: one is before the other, and cast
earlier, or they are the same. -/
lemma Disciplined.trichotomy (ha : a ∈ H) (hb : b :: old <:+ H)
    (hvoter : a.voter = b.voter) (hcorrect : ¬ q.faulty b.voter) :
    a ∈ old ∧ a.before b ∨ a = b ∨ b.before a := by
  obtain ⟨pre, rfl⟩ := hb
  rcases List.mem_append.mp ha with hpre | hrest
  · -- `a` was cast after `b`
    obtain ⟨newer, mid, rfl⟩ := List.append_of_mem hpre
    rw [List.append_assoc, List.cons_append] at h
    have howes := (h.suffix (List.suffix_append newer _)).1 (by rw [hvoter]; exact hcorrect)
    exact .inr (.inr (howes.later b (List.mem_append_right _ (List.mem_cons_self ..)) hvoter.symm))
  rcases List.mem_cons.mp hrest with rfl | hold
  · exact .inr (.inl rfl)
  have howes := (h.suffix (List.suffix_append pre _)).1 hcorrect
  exact .inl ⟨hold, howes.later a hold hvoter⟩

/-- After a majority of precommits no value but its own gets a majority of
prevotes. -/
lemma no_rival {r₀ : Int} {x : X} (hcommit : Majority q H .precommit r₀ x)
    (hx : x ≠ nil) :
    ∀ T, T <:+ H → ∀ r y, r₀ < r → Majority q T .prevote r y → y = x := by
  -- by the length of the history: the release of a ballot for `y` is a
  -- majority in a strictly shorter one
  suffices key : ∀ n, ∀ T, T.length = n → T <:+ H → ∀ r y, r₀ < r →
      Majority q T .prevote r y → y = x from fun T => key T.length T rfl
  intro n
  induction n using Nat.strong_induction_on with
  | _ n ih =>
    intro T hlen hT r y hr hmaj
    by_contra hne
    obtain ⟨k, hcorrect, hprevote, hprecommit⟩ := hmaj.common hcommit
    obtain ⟨old, hold, howes⟩ := (h.suffix hT).owes hprevote hcorrect
    have hin : (⟨k, r₀, .precommit, x⟩ : Ballot K X) ∈ old := by
      rcases h.trichotomy hprecommit (hold.trans hT) rfl hcorrect with hearlier | heq | hlater
      · exact hearlier.1
      · cases heq
      rcases hlater with hlt | ⟨heq, -⟩
      · exact absurd (show r < r₀ from hlt) (by omega)
      exact absurd (show r = r₀ from heq) (by omega)
    obtain ⟨r', y', hr', -, hy', hmaj'⟩ :=
      howes.released rfl _ hin rfl rfl hx fun heq => hne heq.symm
    have hshort : old.length < n := by
      have := hold.length_le
      rw [List.length_cons, hlen] at this
      omega
    have hsuffix : old <:+ H := (List.suffix_cons _ _).trans (hold.trans hT)
    exact hy' (ih old.length hshort old rfl hsuffix r' y' hr' hmaj')

/-- Nor does it in the round of the precommits: one of them follows a
majority of prevotes for their value. -/
lemma polka_unique {r : Int} {x y : X}
    (hcommit : Majority q H .precommit r x) (hx : x ≠ nil)
    (hpolka : Majority q H .prevote r y) : y = x := by
  obtain ⟨k, hcorrect, hmem, -⟩ := hcommit.common hcommit
  obtain ⟨old, hold, howes⟩ := h.owes hmem hcorrect
  have hpolka' := (howes.justified rfl hx).mono fun b hb => hold.subset (List.mem_cons_of_mem _ hb)
  obtain ⟨k, hcorrect, hmem, hmem'⟩ := hpolka.common hpolka'
  obtain ⟨old, hold, -⟩ := h.owes hmem' hcorrect
  rcases h.trichotomy hmem hold rfl hcorrect with hearlier | heq | hlater
  · exact absurd hearlier.2 (Ballot.before_irrefl rfl rfl)
  · exact congrArg Ballot.value heq
  exact absurd hlater (Ballot.before_irrefl rfl rfl)

lemma agreement {r r' : Int} {x x' : X}
    (hcommit : Majority q H .precommit r x) (hx : x ≠ nil)
    (hcommit' : Majority q H .precommit r' x') (hx' : x' ≠ nil) : x = x' := by
  wlog hle : r ≤ r' generalizing r r' x x'
  · exact (this hcommit' hx' hcommit hx (by omega)).symm
  rcases hle.lt_or_eq with hlt | rfl
  · obtain ⟨k, hcorrect, hmem, -⟩ := hcommit'.common hcommit'
    obtain ⟨old, hold, howes⟩ := h.owes hmem hcorrect
    have hsuffix : old <:+ H := (List.suffix_cons _ _).trans hold
    exact (no_rival h hcommit hx old hsuffix r' x' hlt (howes.justified rfl hx')).symm
  -- one round: the common voter cast both ballots, so they are the same
  obtain ⟨k, hcorrect, hmem, hmem'⟩ := hcommit.common hcommit'
  obtain ⟨old, hold, -⟩ := h.owes hmem' hcorrect
  rcases h.trichotomy hmem hold rfl hcorrect with hearlier | heq | hlater
  · exact absurd hearlier.2 (Ballot.before_irrefl rfl rfl)
  · exact congrArg Ballot.value heq
  exact absurd hlater (Ballot.before_irrefl rfl rfl)

end

end HetuEngine.Lib.Locking
