/-
The proposer (primary/src/proposer.rs): it makes the headers of a primary.

`run` waits for parents from the core, for digests from the workers and for
its timer, and makes a header whenever there are parents and the timer has
expired or there are enough digests. An `Input` is what one turn of the loop
takes, so a list of inputs is any interleaving.

Rounds only grow, so no two headers are of one round. What goes into a header
is less certain. Parents for a round that was left are dropped, also a second
list for the round of the parents at hand; and of two workers with one digest
the later one is kept.
-/
import HetuEngine.Lib.Along
import HetuEngine.Primary.System

namespace HetuEngine.Primary

open Lib Narwhal Prod BTreeSet

inductive Input where
  | parents (parents : List Digest) (round : Fin (2 ^ 64))
  | digest (digest : Digest) (worker : Nat)
  | timer

/-- `Proposer`; `headers` are those it has made. -/
structure Proposer where
  round : Fin (2 ^ 64)
  lastParents : List Digest
  digests : List (Digest × Nat)
  payloadSize : Nat
  expired : Bool
  headers : List Header

/-- Collect digests in a map: a later entry replaces an earlier one. -/
def payloadOf (digests : List (Digest × Nat)) : BTreeMap Digest Nat where
  entries := (BTreeSet.ofList (digests.map Prod.fst)).toList.map fun d =>
    (d, ((HashMap.collect digests).lookup d).getD 0)
  sorted := by
    rw [List.map_map]
    exact (List.map_id _).symm ▸ BTreeSet.sorted _

namespace Proposer

variable (p : Setup) (headerSize : Nat)

def start : Proposer := ⟨1, p.genesis.map Prod.fst, [], 0, false, []⟩

/-- `make_header`, and what `run` resets after it. -/
def makeHeader (s : Proposer) : Proposer where
  round := s.round
  lastParents := []
  digests := []
  payloadSize := 0
  expired := false
  headers := s.headers ++ [Header.new p.crypto p.name s.round
    (payloadOf s.digests) (BTreeSet.ofList s.lastParents)]

def check (s : Proposer) : Proposer :=
  if (s.expired || headerSize ≤ s.payloadSize) && s.lastParents ≠ [] then s.makeHeader p
  else s

/-- What `select!` does with an input; a digest has 32 bytes. -/
def take (s : Proposer) : Input → Proposer
  | .parents parents round =>
    if round < s.round then s
    else { s with round := round + 1, lastParents := parents }
  | .digest digest worker =>
    { s with payloadSize := s.payloadSize + 32, digests := s.digests ++ [(digest, worker)] }
  | .timer => { s with expired := true }

def run (inputs : List Input) : Proposer :=
  inputs.foldl (fun s i => (s.take i).check p headerSize) ((start p).check p headerSize)

end Proposer

-- ==== what is to hold

def Input.parentsOf (round : Nat) : Input → Option (List Digest)
  | .parents ps r => if r.val = round then some ps else none
  | _ => none

def Input.asDigest : Input → Option (Digest × Nat)
  | .digest d worker => some (d, worker)
  | _ => none

/-- The parents last received for a round. -/
def lastReceived (inputs : List Input) (round : Nat) : Option (List Digest) :=
  (inputs.filterMap (Input.parentsOf round)).getLast?

/-- The proposer does not equivocate and loses no digest. -/
structure Proposes (inputs : List Input) (s : Proposer) : Prop where
  rounds : (s.headers.map Header.round).Pairwise (· < ·)
  parents : ∀ h ∈ s.headers, 1 < h.round → ∃ ps,
    lastReceived inputs (h.round - 1) = some ps ∧ h.parents = BTreeSet.ofList ps
  digests : ∀ x ∈ inputs.filterMap Input.asDigest,
    (s.headers.flatMap (·.payload.entries) ++ s.digests).count x = 1

/-- No digest comes twice, no round has its parents twice, and the last round
has none. -/
def Unrepeated (before : List Input) : Input → Prop
  | .parents _ round => round.val + 1 < 2 ^ 64 ∧ before.filterMap (Input.parentsOf round) = []
  | .digest digest _ => digest ∉ (before.filterMap Input.asDigest).map Prod.fst
  | .timer => True

instance unrepeated_decidable (before : List Input) : ∀ i, Decidable (Unrepeated before i)
  | .parents _ _ => inferInstanceAs (Decidable (_ ∧ _))
  | .digest _ _ => inferInstanceAs (Decidable (_ ∉ _))
  | .timer => inferInstanceAs (Decidable True)

-- ==== the proof

lemma payloadOf_perm {l : List (Digest × Nat)}
    (h : (l.map fst).Nodup) : (payloadOf l).entries.Perm l := by
  refine (List.perm_ext_iff_of_nodup (payloadOf l).keys_nodup.of_map h.of_map).mpr ?_
  rintro ⟨d, w⟩
  have hlookup : ∀ w, (d, w) ∈ l → (HashMap.collect l).lookup d = some w := by
    intro w hw
    obtain ⟨w', hw'⟩ := HashMap.exists_lookup_collect hw
    cases List.inj_on_of_nodup_map h hw (HashMap.lookup_collect_mem hw') rfl
    exact hw'
  unfold payloadOf
  rw [List.mem_map]
  constructor
  · rintro ⟨d', hd', heq⟩
    cases heq
    rw [← mem_def, mem_ofList] at hd'
    obtain ⟨⟨_, w⟩, hw, rfl⟩ := List.mem_map.mp hd'
    rw [hlookup w hw]
    exact hw
  intro hw
  refine ⟨d, mem_ofList.mpr (List.mem_map_of_mem hw), ?_⟩
  rw [hlookup w hw]
  rfl

lemma digests_concat (inputs : List Input) (i : Input) :
    (inputs ++ [i]).filterMap Input.asDigest
      = inputs.filterMap Input.asDigest ++ i.asDigest.toList := by
  cases h : i.asDigest with
  | none => simp [h]
  | some x => simp [h]

structure Proposer.Sound (inputs : List Input) (s : Proposer) : Prop where
  rounds : (s.headers.map Header.round).Pairwise (· < ·)
  below : ∀ h ∈ s.headers, h.round < s.round ∨ s.lastParents = [] ∧ h.round = s.round
  made : ∀ h ∈ s.headers, 1 < h.round → ∃ ps,
    lastReceived inputs (h.round - 1) = some ps ∧ h.parents = BTreeSet.ofList ps
  pending : s.lastParents ≠ [] → 1 < s.round.val →
    lastReceived inputs (s.round - 1) = some s.lastParents
  digests : (s.headers.flatMap (·.payload.entries) ++ s.digests).Perm
    (inputs.filterMap Input.asDigest)

namespace Proposer.Sound

variable {p : Setup} {headerSize : Nat} {inputs : List Input} {s : Proposer} {i : Input}

lemma check (hs : Sound inputs s)
    (hnodup : ((inputs.filterMap Input.asDigest).map fst).Nodup) :
    Sound inputs (s.check p headerSize) := by
  unfold Proposer.check
  split
  · next hmake =>
    have hne : s.lastParents ≠ [] := by simpa using (Bool.and_eq_true_iff.mp hmake).2
    have hlt : ∀ h ∈ s.headers, h.round < s.round.val := by
      intro h hh
      rcases hs.below h hh with hlt | ⟨hnil, -⟩
      · exact hlt
      exact absurd hnil hne
    refine ⟨?_, ?_, ?_, fun h => absurd rfl h, ?_⟩
    · unfold makeHeader
      rw [List.map_append, List.pairwise_append]
      refine ⟨hs.rounds, List.pairwise_singleton _ _, fun r hr r' hr' => ?_⟩
      obtain ⟨h, hh, rfl⟩ := List.mem_map.mp hr
      rw [List.map_singleton, List.mem_singleton] at hr'
      exact hr' ▸ hlt h hh
    · intro h hh
      rcases List.mem_append.mp hh with hh | hh
      · exact .inl (hlt h hh)
      exact .inr ⟨rfl, List.mem_singleton.mp hh ▸ rfl⟩
    · intro h hh hone
      rcases List.mem_append.mp hh with hh | hh
      · exact hs.made h hh hone
      rw [List.mem_singleton.mp hh] at hone ⊢
      exact ⟨_, hs.pending hne hone, rfl⟩
    have hdigests : (s.digests.map fst).Nodup := by
      have hall := (hs.digests.map fst).nodup_iff.mpr hnodup
      rw [List.map_append] at hall
      exact hall.of_append_right
    unfold makeHeader
    rw [List.flatMap_append, List.append_nil, List.flatMap_singleton]
    exact ((payloadOf_perm hdigests).append_left _).trans hs.digests
  exact hs

lemma take (hs : Sound inputs s) (hi : Unrepeated inputs i) :
    Sound (inputs ++ [i]) (s.take i) := by
  -- what was received for a round stays
  have hold : ∀ n qs, lastReceived inputs n = some qs →
      lastReceived (inputs ++ [i]) n = some qs := by
    intro n qs hqs
    cases hn : i.parentsOf n with
    | none => simpa [lastReceived, hn] using hqs
    | some ps =>
      cases i with
      | timer => cases hn
      | digest => cases hn
      | parents ps r =>
        simp only [Input.parentsOf] at hn
        split at hn
        · next hr =>
          rw [lastReceived, ← hr, hi.2] at hqs
          cases hqs
        cases hn
  have hmade : ∀ h ∈ s.headers, 1 < h.round → ∃ qs,
      lastReceived (inputs ++ [i]) (h.round - 1) = some qs ∧ h.parents = ofList qs := by
    intro h hh hone
    obtain ⟨qs, hqs, heq⟩ := hs.made h hh hone
    exact ⟨qs, hold _ _ hqs, heq⟩
  have hpending := fun hne hone => hold _ _ (hs.pending hne hone)
  have hdigests := hs.digests.append_right (i.asDigest.toList)
  rw [List.append_assoc, ← digests_concat] at hdigests
  cases i with
  | timer => exact ⟨hs.rounds, hs.below, hmade, hpending, List.append_nil s.digests ▸ hdigests⟩
  | digest d w => exact ⟨hs.rounds, hs.below, hmade, hpending, hdigests⟩
  | parents ps r =>
    have hdigests : (s.headers.flatMap (·.payload.entries) ++ s.digests).Perm
        ((inputs ++ [Input.parents ps r]).filterMap Input.asDigest) :=
      List.append_nil s.digests ▸ hdigests
    unfold Proposer.take
    dsimp only
    split
    · exact ⟨hs.rounds, hs.below, hmade, hpending, hdigests⟩
    next hle =>
    have hval : (r + 1 : Fin (2 ^ 64)).val = r.val + 1 := by
      rw [Fin.val_add, Nat.mod_eq_of_lt]
      · rfl
      exact hi.1
    refine ⟨hs.rounds, fun h hh => .inl ?_, hmade, fun _ _ => ?_, hdigests⟩
    · have hbelow := hs.below h hh
      have : s.round.val ≤ r.val := not_lt.mp hle
      dsimp only
      omega
    rw [hval]
    simp [lastReceived, Input.parentsOf]

end Proposer.Sound

lemma run_sound (p : Setup) (headerSize : Nat) {inputs : List Input}
    (h : Along Unrepeated [] inputs) :
    (Proposer.run p headerSize inputs).Sound inputs
      ∧ ((inputs.filterMap Input.asDigest).map fst).Nodup := by
  induction inputs using List.reverseRecOn with
  | nil =>
    refine ⟨Proposer.Sound.check ?_ List.nodup_nil, List.nodup_nil⟩
    refine ⟨List.Pairwise.nil, fun h hh => (by cases hh),
      fun h hh => (by cases hh), fun _ hone => ?_, List.Perm.refl _⟩
    exact absurd hone (lt_irrefl 1)
  | append_singleton inputs i ih =>
    rw [along_concat] at h
    obtain ⟨hs, hnodup⟩ := ih h.1
    have hnext : (((inputs ++ [i]).filterMap Input.asDigest).map fst).Nodup := by
      rw [digests_concat, List.map_append]
      cases i with
      | timer | parents => exact (List.append_nil _).symm ▸ hnodup
      | digest d w =>
        have hd : d ∉ (inputs.filterMap Input.asDigest).map fst := h.2
        refine hnodup.append (List.nodup_singleton d) ?_
        exact List.disjoint_singleton.mpr hd
    refine ⟨?_, hnext⟩
    unfold Proposer.run at hs ⊢
    rw [List.foldl_append]
    exact (hs.take h.2).check hnext

/-- In every run in which no digest comes twice and no round has its parents
twice, the proposer makes one header for a round, with the parents received
for the round before, and loses no digest. -/
theorem proposer_sound (p : Setup) (headerSize : Nat) (inputs : List Input)
    (h : Along Unrepeated [] inputs) :
    Proposes inputs (Proposer.run p headerSize inputs) := by
  obtain ⟨hs, hnodup⟩ := run_sound p headerSize h
  refine ⟨hs.rounds, hs.made, fun x hx => ?_⟩
  rw [hs.digests.count_eq]
  exact List.count_eq_one_of_mem hnodup.of_map hx

namespace Quad

def calm : List Input := [.digest 7 0, .parents [3] 1, .timer]

/-- Two workers report one digest. -/
def twice : List Input := [.parents [3] 1, .digest 7 0, .digest 7 1, .timer]

end Quad

theorem proposer_sound_calm : Along Unrepeated [] Quad.calm
    ∧ (Proposer.run Quad.setup 32 Quad.calm).headers.map Header.round = [1, 2]
    ∧ Proposes Quad.calm (Proposer.run Quad.setup 32 Quad.calm) :=
  ⟨by decide, by decide +kernel, proposer_sound _ _ _ (by decide)⟩

/-- The header has the digest with one of the workers, and the other one's is
gone. -/
theorem proposer_drops_worker :
    (Proposer.run Quad.setup 100 Quad.twice).headers.map
      (fun h => (h.round, h.parents.toList, h.payload.entries))
      = [(2, [3], [(7, 1)])]
    ∧ (Proposer.run Quad.setup 100 Quad.twice).digests = []
    ∧ (7, 0) ∈ Quad.twice.filterMap Input.asDigest := by
  decide +kernel

end HetuEngine.Primary
