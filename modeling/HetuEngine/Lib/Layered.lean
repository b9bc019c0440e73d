/-
Layered graphs with weighted owners, and the chain of leaders through one.

Every node has a layer and an owner; an edge leads to the layer below; no
owner has two nodes in one layer. When every node above layer 0 has edges to
a quorum of owners, a node that a validity set of the next layer points to
is reached from everything two layers up or more (`Supported.reaches`): the
first such node shares an owner with the validity set, and from there on
reaching is inherited.

# The chain

`descend` walks down a list of layers with one candidate each and keeps a
candidate exactly when the last one kept reaches it. If every node the walk
holds reaches the candidate of some layer, the walk passes through it and
continues as if it had started there (`descend_through`); two walks that pass
through one candidate agree below it.
-/
import HetuEngine.Lib.Weight

namespace HetuEngine.Lib

open Lib.Weight Relation.ReflTransGen

/-- A layered graph on the nodes that satisfy `mem`. -/
structure Layered (α K : Type) where
  mem : α → Prop
  layer : α → Nat
  owner : α → K
  parent : α → α → Prop
  parent_mem : ∀ {c q}, mem c → parent c q → mem q
  parent_layer : ∀ {c q}, mem c → parent c q → layer q + 1 = layer c
  unique : ∀ {c d}, mem c → mem d → owner c = owner d → layer c = layer d → c = d

namespace Layered

variable {α K : Type} (G : Layered α K)

/-- There is a path from one node down to another. -/
def Reaches : α → α → Prop := Relation.ReflTransGen G.parent

variable {G}

variable {c q : α}

lemma Reaches.mem (hc : G.mem c) (h : G.Reaches c q) : G.mem q := by
  unfold Reaches at h
  induction h with
  | refl => exact hc
  | tail _ hpar ih => exact G.parent_mem ih hpar

lemma Reaches.layer (hc : G.mem c) (h : G.Reaches c q) :
    c = q ∨ G.layer q < G.layer c := by
  unfold Reaches at h
  induction h with
  | refl => exact Or.inl rfl
  | @tail x y hx hpar ih =>
    right
    have hy := G.parent_layer (Reaches.mem hc hx) hpar
    rcases ih with rfl | hlt <;> omega

lemma Reaches.eq_of_layer (hc : G.mem c) (h : G.Reaches c q)
    (hlayer : G.layer c ≤ G.layer q) : c = q := by
  rcases h.layer hc with heq | hlt
  · exact heq
  omega

-- ==== support

/-- Every node above layer 0 has edges to distinct owners of weight at
least `Q`. -/
def Quorate (G : Layered α K) (w : K → Nat) (Q : Nat) : Prop :=
  ∀ c, G.mem c → 1 ≤ G.layer c → ∃ qs : List α, (∀ q ∈ qs, G.parent c q) ∧ (qs.map G.owner).Nodup
      ∧ Q ≤ weigh w (qs.map G.owner)

/-- Nodes of distinct owners of weight at least `V` have an edge to `l`. -/
def Supported (G : Layered α K) (w : K → Nat) (V : Nat) (l : α) : Prop :=
  ∃ qs : List α, (∀ q ∈ qs, G.mem q ∧ G.parent q l)
    ∧ (qs.map G.owner).Nodup ∧ V ≤ weigh w (qs.map G.owner)

/-- A supported node is reached from everything two layers up or more. -/
lemma Supported.reaches {w : K → Nat} {Q V : Nat}
    (hcommon : ∀ as bs : List K, as.Nodup → bs.Nodup → Q ≤ weigh w as →
      V ≤ weigh w bs → ∃ k ∈ as, k ∈ bs)
    (hQ : 0 < Q) (hquorate : G.Quorate w Q) {l : α} (hl : G.Supported w V l)
    {n : Nat} (hc : G.mem c) (hlayer : G.layer c = G.layer l + 2 + n) :
    G.Reaches c l := by
  induction n generalizing c with
  | zero =>
    obtain ⟨ps, hps, hpsnd, hpsw⟩ := hquorate c hc (by omega)
    obtain ⟨qs, hqs, hqsnd, hqsw⟩ := hl
    -- an owner common to the quorum and the supporters has one node there
    obtain ⟨k, hkp, hkq⟩ := hcommon _ _ hpsnd hqsnd hpsw hqsw
    obtain ⟨p, hp, rfl⟩ := List.mem_map.mp hkp
    obtain ⟨q, hq, howner⟩ := List.mem_map.mp hkq
    have hpl := G.parent_layer hc (hps p hp)
    have hql := G.parent_layer (hqs q hq).1 (hqs q hq).2
    have heq : q = p := G.unique (hqs q hq).1 (G.parent_mem hc (hps p hp)) howner (by omega)
    subst heq
    exact head (hps q hp) (single (hqs q hq).2)
  | succ n ih =>
    obtain ⟨ps, hps, -, hpsw⟩ := hquorate c hc (by omega)
    cases ps with
    | nil =>
      rw [List.map_nil, weigh_nil] at hpsw
      omega
    | cons p ps =>
      have hp := hps p (List.mem_cons_self ..)
      have hpl := G.parent_layer hc hp
      exact head hp (ih (G.parent_mem hc hp) (by omega))

end Layered

-- ==== the chain

section Descend

variable {α : Type} (reach : α → α → Prop) (candidate : Nat → Option α)

open Classical in
/-- Walk down the layers, keeping each candidate the last one kept
reaches. -/
noncomputable def descend : List Nat → α → List α
  | [], _ => []
  | r :: rs, x =>
    match candidate r with
    | none => descend rs x
    | some y => if reach x y then y :: descend rs y else descend rs x

variable {reach candidate} {r : Nat} {rs : List Nat} {x y : α}

lemma descend_none (h : candidate r = none) :
    descend reach candidate (r :: rs) x = descend reach candidate rs x := by
  rw [descend, h]

lemma descend_keep (h : candidate r = some y) (hy : reach x y) :
    descend reach candidate (r :: rs) x
      = y :: descend reach candidate rs y := by
  rw [descend, h]
  exact if_pos hy

lemma descend_skip (h : candidate r = some y) (hy : ¬ reach x y) :
    descend reach candidate (r :: rs) x = descend reach candidate rs x := by
  rw [descend, h]
  exact if_neg hy

lemma mem_descend (h : y ∈ descend reach candidate rs x) :
    ∃ r ∈ rs, candidate r = some y := by
  induction rs generalizing x with
  | nil => cases h
  | cons r rs ih =>
    have hskip : ∀ {x}, y ∈ descend reach candidate rs x →
        ∃ r' ∈ r :: rs, candidate r' = some y := by
      intro x h
      obtain ⟨r', hr', hc⟩ := ih h
      exact ⟨r', List.mem_cons_of_mem _ hr', hc⟩
    cases hc : candidate r with
    | none =>
      rw [descend_none hc] at h
      exact hskip h
    | some z =>
      by_cases hz : reach x z
      · rw [descend_keep hc hz] at h
        rcases List.mem_cons.mp h with rfl | h
        · exact ⟨r, List.mem_cons_self .., hc⟩
        exact hskip h
      rw [descend_skip hc hz] at h
      exact hskip h

/-- A candidate that everything the walk holds reaches is kept, and the walk
below it is the walk from it. -/
lemma descend_through {l : α} (hl : candidate r = some l) {rs' : List Nat}
    (h : ∀ y ∈ x :: descend reach candidate rs x, reach y l) :
    descend reach candidate (rs ++ r :: rs') x
      = descend reach candidate rs x ++ l
        :: descend reach candidate rs' l := by
  induction rs generalizing x with
  | nil => exact descend_keep hl (h x (List.mem_cons_self ..))
  | cons a rs ih =>
    rw [List.cons_append]
    cases hc : candidate a with
    | none =>
      rw [descend_none hc] at h ⊢
      rw [descend_none hc]
      exact ih h
    | some z =>
      by_cases hz : reach x z
      · rw [descend_keep hc hz] at h ⊢
        rw [descend_keep hc hz, List.cons_append, ih fun y hy => h y (List.mem_cons_of_mem _ hy)]
      rw [descend_skip hc hz] at h ⊢
      rw [descend_skip hc hz]
      exact ih h

end Descend

end HetuEngine.Lib
