/-
What the operations do to the DAG, read entry by entry, and the invariant
every run keeps.

# Entries

All later files read the DAG through `State.entry s r n`, the certificate of
author `n` at round `r`. Adding a certificate sets one entry
(`entry_insert`); recording a committed one drops exactly the entries below
the author's last committed round or beyond the garbage collection depth
(`entry_update`). The loop over the authorities and the two nested `retain`
do not show above this file.

# The invariant

`Inv received s` holds after any number of insertions and recordings
(`inv_new`, `inv_insert`, `inv_update`). Its clause `present` is the useful
half: a certificate that was received is still there, unless its author's
last committed round or the garbage collection has passed it, or another one
of the same author and round took its place.
-/
import HetuEngine.Lib.Along
import HetuEngine.Tusk.Basic

namespace HetuEngine.Tusk

open Lib Lib.Weight Narwhal List Option HashMap AList State Certificate

-- ==== entries

namespace State

/-- The certificate of an author at a round, with its digest. -/
def entry (s : State) (r : Nat) (n : PublicKey) : Option (Digest × Certificate) :=
  (s.dag.lookup r).bind fun x => x.lookup n

/-- The author's last committed round is at most `r`, if there is one. -/
def Ahead (s : State) (n : PublicKey) (r : Nat) : Prop :=
  ∀ m, s.lastCommitted.lookup n = some m → m ≤ r

def Recent (gcDepth : Nat) (s : State) (r : Nat) : Prop := s.lastCommittedRound ≤ u64 (r + gcDepth)

instance (s : State) (n : PublicKey) (r : Nat) : Decidable (s.Ahead n r) :=
  decidable_of_iff (∀ m ∈ s.lastCommitted.lookup n, m ≤ r) Iff.rfl

instance (gcDepth : Nat) (s : State) (r : Nat) : Decidable (Recent gcDepth s r) :=
  inferInstanceAs (Decidable (_ ≤ _))

end State

/-- One `retain` of the cleanup, entry by entry. -/
lemma lookup_retain_pruneRound (gc lcr : Nat) (name : PublicKey)
    (round : Nat) (dag : Dag) (r : Nat) (n : PublicKey)
    (x : Digest × Certificate) :
    (((HashMap.retain (pruneRound gc lcr name round) dag).lookup r).bind fun m
      => m.lookup n) = some x
      ↔ ((dag.lookup r).bind fun m => m.lookup n) = some x
        ∧ (n ≠ name ∨ round ≤ r) ∧ lcr ≤ u64 (r + gc) := by
  rw [lookup_retain]
  cases dag.lookup r with
  | none => simp
  | some m =>
    simp only [bind_some]
    have hread : (retain (fun n x =>
        if n ≠ name ∨ round ≤ r then some x else none) m).lookup n
          = some x ↔ m.lookup n = some x ∧ (n ≠ name ∨ round ≤ r) := by
      rw [lookup_retain, bind_eq_some_iff]
      constructor
      · rintro ⟨y, hy, hif⟩
        split at hif
        next hc => cases hif; exact ⟨hy, hc⟩
        next => cases hif
      rintro ⟨hx, hc⟩
      exact ⟨x, hx, if_pos hc⟩
    simp only [pruneRound]
    split
    next hc =>
      rw [bind_some, hread]
      exact ⟨fun h => ⟨h.1, h.2, hc.2⟩, fun h => ⟨h.1, h.2.1⟩⟩
    next hc =>
    constructor
    · intro h
      cases h
    rintro ⟨hx, hn, hlcr⟩
    refine absurd ⟨?_, hlcr⟩ hc
    exact ne_nil_of_mem (mem_lookup_iff.mp (hread.mpr ⟨hx, hn⟩))

/-- The whole cleanup, entry by entry. -/
lemma lookup_foldl_pruneRound (gc lcr : Nat) (r : Nat) (n : PublicKey)
    (x : Digest × Certificate) (l : List (Sigma fun _ : PublicKey => Nat))
    (dag : Dag) :
    ((l.foldl (fun dag e => HashMap.retain (pruneRound gc lcr e.1 e.2) dag)
      dag).lookup r).bind (fun m => m.lookup n) = some x
      ↔ ((dag.lookup r).bind fun m => m.lookup n) = some x
        ∧ ∀ e ∈ l, (n ≠ e.1 ∨ e.2 ≤ r) ∧ lcr ≤ u64 (r + gc) := by
  induction l generalizing dag with
  | nil => simp
  | cons e l ih => rw [foldl_cons, ih, lookup_retain_pruneRound, forall_mem_cons, and_assoc]

variable {n : PublicKey} {cn : Consensus} {received : List Certificate}

namespace State

/-- The last committed round of the certificate's author, once it is
recorded. -/
lemma lookup_update (s : State) (c : Certificate) (gc : Nat) (n : PublicKey) :
    (s.update c gc).lastCommitted.lookup n = if n = c.origin then
        some (max ((s.lastCommitted.lookup n).getD 0) c.round)
      else s.lastCommitted.lookup n := by
  show (s.lastCommitted.insert _ _).lookup n = _
  by_cases h : n = c.origin
  · subst h
    rw [if_pos rfl, lookup_insert]
    cases s.lastCommitted.lookup c.origin with
    | none => simp
    | some m => rfl
  rw [if_neg h, lookup_insert_ne h]

/-- Recording a certificate drops the entries below their author's last
committed round or beyond the garbage collection depth, and no other. -/
lemma entry_update (s : State) (c : Certificate) (gc : Nat) (r : Nat)
    (n : PublicKey) (x : Digest × Certificate) :
    (s.update c gc).entry r n = some x
      ↔ s.entry r n = some x ∧ (s.update c gc).Ahead n r
        ∧ Recent gc (s.update c gc) r := by
  have hdag := lookup_foldl_pruneRound gc (s.update c gc).lastCommittedRound r n x
    (s.update c gc).lastCommitted.entries s.dag
  have hne : ∃ e, e ∈ (s.update c gc).lastCommitted.entries := by
    have h := lookup_update s c gc c.origin
    rw [if_pos rfl] at h
    exact ⟨_, mem_lookup_iff.mp h⟩
  refine hdag.trans (and_congr_right fun _ => ?_)
  constructor
  · intro h
    obtain ⟨e, he⟩ := hne
    refine ⟨fun m hm => ?_, (h e he).2⟩
    rcases (h _ (mem_lookup_iff.mp hm)).1 with h | h
    · exact absurd rfl h
    exact h
  rintro ⟨hahead, hrecent⟩ ⟨k, m⟩ he
  refine ⟨?_, hrecent⟩
  by_cases hk : n = k
  · subst hk
    exact .inr (hahead m (mem_lookup_iff.mpr he))
  exact .inl hk

end State

lemma entry_insert (cn : Consensus) (s : State) (c : Certificate) (r : Nat) (n : PublicKey) :
    (cn.insert s c).entry r n = if r = c.round ∧ n = c.origin then some (c.digest cn.crypto, c)
      else s.entry r n := by
  unfold entry Consensus.insert
  by_cases hr : r = c.round
  · subst hr
    rw [lookup_insert, bind_some]
    by_cases hn : n = c.origin
    · subst hn
      rw [lookup_insert, if_pos ⟨rfl, rfl⟩]
    rw [lookup_insert_ne hn, if_neg (fun h => hn h.2)]
    cases s.dag.lookup c.round with
    | none => rfl
    | some m => rfl
  rw [lookup_insert_ne hr, if_neg (fun h => hr h.1)]

lemma entry_new {r : Nat} {x : Digest × Certificate}
    (h : (new cn.crypto cn.genesis).entry r n = some x) :
    r = 0 ∧ x.1 = x.2.digest cn.crypto ∧ x.2.origin = n
      ∧ x.2 ∈ cn.genesis := by
  obtain ⟨m, hm, hx⟩ := bind_eq_some_iff.mp h
  have hmem := lookup_collect_mem hm
  rw [mem_singleton] at hmem
  cases hmem
  have hmem := lookup_collect_mem hx
  obtain ⟨g, hg, heq⟩ := mem_map.mp hmem
  cases heq
  exact ⟨rfl, rfl, rfl, hg⟩

lemma lookup_new {m : Nat}
    (h : (new cn.crypto cn.genesis).lastCommitted.lookup n = some m) :
    m = 0 := by
  have hmem := lookup_collect_mem h
  obtain ⟨⟨k, d, g⟩, hg, heq⟩ := mem_map.mp hmem
  cases heq
  have hlook := mem_lookup_iff.mpr hg
  have hmem := lookup_collect_mem hlook
  obtain ⟨g', hg', heq⟩ := mem_map.mp hmem
  cases heq
  exact genesis_round hg'

lemma entry_new_isSome {g : Certificate} (hg : g ∈ cn.genesis) :
    ((new cn.crypto cn.genesis).entry 0 g.origin).isSome := by
  obtain ⟨x, hx⟩ := exists_lookup_collect (mem_map_of_mem (f := fun y : Certificate =>
      (y.origin, (y.digest cn.crypto, y))) hg)
  refine isSome_iff_exists.mpr ⟨x, ?_⟩
  refine bind_eq_some_iff.mpr ⟨_, ?_, hx⟩
  exact lookup_insert _

-- ==== the last committed round

/-- The last committed round is the greatest of the authors' last committed
rounds. -/
structure Tops (s : State) : Prop where
  le : ∀ {n m}, s.lastCommitted.lookup n = some m → m ≤ s.lastCommittedRound
  attained : s.lastCommittedRound = 0 ∨ ∃ n, s.lastCommitted.lookup n = some s.lastCommittedRound

lemma tops_update (s : State) (c : Certificate) (gc : Nat) :
    Tops (s.update c gc) := by
  obtain ⟨hmem, hall⟩ := foldl_best le_refl le_trans
    (fun a b => ⟨max_choice a b, le_max_left a b, le_max_right a b⟩)
    (values (s.update c gc).lastCommitted) 0
  refine ⟨fun h => ?_, ?_⟩
  · exact hall _ (mem_cons_of_mem _ (mem_values.mpr ⟨_, h⟩))
  exact (mem_cons.mp hmem).imp_right mem_values.mp

variable {s : State}

/-- Recording a certificate raises the last committed round to the
certificate's, if that is higher. -/
lemma lastCommittedRound_update (hs : Tops s) (c : Certificate) (gc : Nat) :
    (s.update c gc).lastCommittedRound = max s.lastCommittedRound c.round := by
  have ht := tops_update s c gc
  have hc := s.lookup_update c gc c.origin
  rw [if_pos rfl] at hc
  have hcle := ht.le hc
  apply Nat.le_antisymm
  · rcases ht.attained with h | ⟨n, h⟩
    · omega
    rw [s.lookup_update c gc n] at h
    split at h
    next hn =>
      cases hl : s.lastCommitted.lookup n with
      | none =>
        rw [hl] at h
        simp only [getD_none, some.injEq] at h
        omega
      | some m =>
        have := hs.le hl
        rw [hl] at h
        simp only [getD_some, some.injEq] at h
        omega
    next hn =>
    have := hs.le h
    omega
  refine max_le ?_ (le_trans (le_max_right _ _) hcle)
  rcases hs.attained with h | ⟨n, h⟩
  · omega
  by_cases hn : n = c.origin
  · subst hn
    rw [h] at hcle
    exact le_trans (le_max_left _ _) hcle
  have h' := s.lookup_update c gc n
  rw [if_neg hn, h] at h'
  exact ht.le h'

namespace State

variable {c : Certificate}

lemma Ahead.of_update {gc : Nat} {r : Nat} (h : (s.update c gc).Ahead n r) :
    s.Ahead n r := by
  intro m hm
  have hu := s.lookup_update c gc n
  split at hu
  next hn =>
    have := h _ hu
    rw [hm] at this
    exact le_trans (le_max_left _ _) this
  next => exact h m (hu.trans hm)

lemma Recent.of_update (hs : Tops s) {gc r : Nat}
    (h : Recent gc (s.update c gc) r) : Recent gc s r := by
  unfold Recent at h ⊢
  rw [lastCommittedRound_update hs] at h
  exact le_trans (le_max_left _ _) h

lemma recent_of_fits {gc r : Nat} (hfits : r + gc < 2 ^ 64) :
    s.Recent gc r ↔ s.lastCommittedRound ≤ r + gc := by
  unfold Recent
  rw [show u64 (r + gc) = r + gc from word_of_lt hfits]

end State

-- ==== the invariant

/-- What holds of the state once `received` was received. -/
structure Inv (cn : Consensus) (received : List Certificate) (s : State) :
    Prop where
  tops : Tops s
  spec : ∀ {r n x}, s.entry r n = some x →
    x.1 = x.2.digest cn.crypto ∧ x.2.round = r ∧ x.2.origin = n ∧ x.2 ∈ cn.genesis ++ received
  present : ∀ c ∈ cn.genesis ++ received, s.Ahead c.origin c.round →
    s.Recent cn.gcDepth c.round → (s.entry c.round c.origin).isSome

/-- A certificate above the last committed round has its place filled. -/
lemma Inv.entry_above {cn : Consensus} {received : List Certificate}
    (h : Inv cn received s) (hc : c ∈ cn.genesis ++ received)
    (habove : s.lastCommittedRound < c.round)
    (hfits : c.round + cn.gcDepth < 2 ^ 64) :
    ∃ x, s.entry c.round c.origin = some x := by
  have hahead : s.Ahead c.origin c.round := fun m hm => by
    have := h.tops.le hm
    omega
  have hrecent : s.Recent cn.gcDepth c.round := (recent_of_fits hfits).mpr (by omega)
  exact Option.isSome_iff_exists.mp (h.present c hc hahead hrecent)

lemma inv_new (cn : Consensus) : Inv cn [] (new cn.crypto cn.genesis) where
  tops := { le := fun h => le_of_eq (lookup_new h), attained := .inl rfl }
  spec := by
    intro r n x h
    obtain ⟨rfl, hd, ho, hg⟩ := entry_new h
    exact ⟨hd, genesis_round hg, ho, mem_append_left _ hg⟩
  present := by
    intro c hc _ _
    rw [append_nil] at hc
    rw [genesis_round hc]
    exact entry_new_isSome hc

lemma inv_insert (h : Inv cn received s) (c : Certificate) :
    Inv cn (received ++ [c]) (cn.insert s c) where
  tops := ⟨h.tops.le, h.tops.attained⟩
  spec := by
    intro r n x hx
    rw [entry_insert] at hx
    split at hx
    next hrn =>
      cases hx
      refine ⟨rfl, hrn.1.symm, hrn.2.symm, ?_⟩
      rw [← append_assoc]
      exact mem_append_right _ (mem_singleton.mpr rfl)
    next =>
    obtain ⟨hd, hr, ho, hmem⟩ := h.spec hx
    rw [← append_assoc]
    exact ⟨hd, hr, ho, mem_append_left _ hmem⟩
  present := by
    intro d hd hahead hrecent
    rw [entry_insert]
    split
    · rfl
    next hne =>
    rw [← append_assoc] at hd
    rcases mem_append.mp hd with hd | hd
    · exact h.present d hd hahead hrecent
    rw [mem_singleton.mp hd] at hne
    exact absurd ⟨rfl, rfl⟩ hne

lemma inv_update (h : Inv cn received s) (c : Certificate) :
    Inv cn received (s.update c cn.gcDepth) where
  tops := tops_update s c cn.gcDepth
  spec := fun hx => h.spec ((s.entry_update c _ _ _ _).mp hx).1
  present := by
    intro d hd hahead hrecent
    obtain ⟨x, hx⟩ := isSome_iff_exists.mp
      (h.present d hd hahead.of_update (hrecent.of_update h.tops))
    exact isSome_iff_exists.mpr ⟨x, (s.entry_update c _ _ _ _).mpr ⟨hx, hahead, hrecent⟩⟩

end HetuEngine.Tusk
