/-
The biggest height among the peers.

`maxPeerHeight` decides whether the node has caught up, and is meant to be the
biggest height that a peer claims now (`Biggest`). A new claim can raise it,
and when the peer that claims it leaves, it is computed again. But if a peer
claims less than before, the old value stays, even after that peer has left.
This is harmless exactly if the peer was not the only one with the biggest
height (`Step.Harmless`).
-/
import HetuEngine.BlockSync.Pool
import HetuEngine.Lib.Along

namespace HetuEngine.BlockSync

open Lib Comet AList

variable {P B E : Type} [DecidableEq P]

namespace BlockPool

variable {pool : BlockPool P B E}

-- ==== the biggest height

/-- The height is the biggest one that a peer claims, or zero. -/
structure Biggest (pool : BlockPool P B E) (height : Int) : Prop where
  nonneg : 0 ≤ height
  bound : ∀ id peer, pool.peers.lookup id = some peer → peer.height ≤ height
  claimed : 0 < height → ∃ id peer, pool.peers.lookup id = some peer ∧ peer.height = height

lemma biggest_update (pool : BlockPool P B E) :
    pool.Biggest (biggestHeight pool.peers.values) := by
  obtain ⟨hmem, hall⟩ := foldl_best (f := fun a b : Int => if a < b then b else a) le_refl le_trans
    (fun a b => by split <;> omega) (pool.peers.values.map Peer.height) 0
  rw [List.foldl_map, List.mem_cons] at hmem
  rw [List.foldl_map, List.forall_mem_cons] at hall
  refine ⟨hall.1, fun id peer hpeer => ?_, fun hpos => ?_⟩
  · exact hall.2 _ (List.mem_map_of_mem (HashMap.mem_values.mpr ⟨id, hpeer⟩))
  obtain ⟨peer, hpeer, heq⟩ := List.mem_map.mp (hmem.resolve_left hpos.ne')
  obtain ⟨id, hid⟩ := HashMap.mem_values.mp hpeer
  exact ⟨id, peer, hid, heq⟩

-- ==== operations

lemma removePeer_biggest (h : pool.Biggest pool.maxPeerHeight) (peerID : P) :
    (pool.removePeer peerID).Biggest
      (pool.removePeer peerID).maxPeerHeight := by
  unfold removePeer
  split
  next => exact h
  next peer hpeer =>
  split
  next => exact biggest_update _
  next hother =>
  refine ⟨h.nonneg, ?_, ?_⟩
  · intro id peer' hpeer'
    by_cases hid : id = peerID
    · rw [hid, lookup_erase] at hpeer'
      cases hpeer'
    rw [lookup_erase_ne hid] at hpeer'
    exact h.bound id peer' hpeer'
  intro hpos
  obtain ⟨id, peer', hpeer', heq⟩ := h.claimed hpos
  have hid : id ≠ peerID := by
    rintro rfl
    rw [hpeer] at hpeer'
    cases hpeer'
    exact hother heq
  exact ⟨id, peer', by rw [lookup_erase_ne hid]; exact hpeer', heq⟩

/-- The peer is the only one with the biggest height and now claims less. -/
def Lowers (pool : BlockPool P B E) (peerID : P) (height : Int) : Prop :=
  height < pool.maxPeerHeight ∧ 0 < pool.maxPeerHeight
    ∧ ∀ id peer, pool.peers.lookup id = some peer → peer.height = pool.maxPeerHeight → id = peerID

/-- A recorded claim keeps the height the biggest exactly if it does not
lower it. -/
lemma recordRange_biggest_iff (h : pool.Biggest pool.maxPeerHeight)
    (peerID : P) (base height : Int) :
    (pool.recordRange peerID base height).Biggest
      (pool.recordRange peerID base height).maxPeerHeight
      ↔ ¬ pool.Lowers peerID height := by
  have hself : (pool.recordRange peerID base height).peers.lookup peerID
      = some ⟨base, height⟩ := lookup_insert _
  have hothers : ∀ id, id ≠ peerID → (pool.recordRange peerID base height).peers.lookup id
        = pool.peers.lookup id := fun id hid => lookup_insert_ne hid
  have hmax : (pool.recordRange peerID base height).maxPeerHeight
      = if pool.maxPeerHeight < height then height else pool.maxPeerHeight :=
    rfl
  have hnonneg := h.nonneg
  rw [hmax]
  constructor
  · rintro hbig ⟨hless, hpos, honly⟩
    rw [if_neg (by omega)] at hbig
    obtain ⟨id, peer, hpeer, heq⟩ := hbig.claimed hpos
    by_cases hid : id = peerID
    · rw [hid, hself] at hpeer
      cases hpeer
      exact absurd heq (by show height ≠ _; omega)
    rw [hothers id hid] at hpeer
    exact hid (honly id peer hpeer heq)
  intro hkeep
  refine ⟨by split <;> omega, ?_, ?_⟩
  · intro id peer hpeer
    by_cases hid : id = peerID
    · rw [hid, hself] at hpeer
      cases hpeer
      show height ≤ _
      split <;> omega
    rw [hothers id hid] at hpeer
    have := h.bound id peer hpeer
    split <;> omega
  intro hpos
  split at hpos
  next hlt =>
    rw [if_pos hlt]
    exact ⟨peerID, _, hself, rfl⟩
  next hle =>
  rw [if_neg hle]
  by_cases heq : height = pool.maxPeerHeight
  · exact ⟨peerID, _, hself, heq⟩
  -- some other peer claims the biggest height
  by_contra hnone
  refine hkeep ⟨by omega, hpos, fun id peer hpeer hmaxi => ?_⟩
  by_contra hid
  refine hnone ⟨id, peer, ?_, hmaxi⟩
  rw [hothers id hid]
  exact hpeer

end BlockPool

-- ==== runs

/-- What peers do: announce a range, or leave. -/
inductive Step (P : Type) where
  | setPeerRange (peerID : P) (base height : Int) (now : Time)
  | removePeer (peerID : P)

namespace Step

def apply (pool : BlockPool P B E) : Step P → BlockPool P B E
  | setPeerRange peerID base height now => pool.setPeerRange peerID base height now
  | removePeer peerID => pool.removePeer peerID

/-- A peer that was the only one with the biggest height does not announce
less. -/
def Harmless (pool : BlockPool P B E) : Step P → Prop
  | setPeerRange peerID _ height _ =>
    (pool.peers.lookup peerID).isSome = true → ¬ pool.Lowers peerID height
  | removePeer _ => True

lemma biggest_iff {pool : BlockPool P B E}
    (h : pool.Biggest pool.maxPeerHeight) (step : Step P) :
    (step.apply pool).Biggest (step.apply pool).maxPeerHeight
      ↔ step.Harmless pool := by
  cases step with
  | removePeer peerID => exact ⟨fun _ => trivial, fun _ => pool.removePeer_biggest h peerID⟩
  | setPeerRange peerID base height now =>
    simp only [apply, Harmless, BlockPool.setPeerRange]
    cases hpeer : pool.peers.lookup peerID with
    | some peer =>
      simp only [Option.isSome_some, true_implies]
      exact pool.recordRange_biggest_iff h peerID base height
    | none =>
      simp only [Option.isSome_none, Bool.false_eq_true, false_implies, iff_true]
      split
      · exact h
      rw [pool.recordRange_biggest_iff h]
      rintro ⟨-, hpos, honly⟩
      -- the biggest height is claimed by a peer, and this is none
      obtain ⟨id, peer, hid, heq⟩ := h.claimed hpos
      rw [honly id peer hid heq, hpeer] at hid
      cases hid

end Step

def BlockPool.run (pool : BlockPool P B E) (steps : List (Step P)) : BlockPool P B E :=
  steps.foldl Step.apply pool

/-- What the pool's target height is for: it is the biggest height that is
claimed now, and a node that has all blocks claimed now, whatever its height,
is caught up. -/
def BlockPool.OnTarget (pool : BlockPool P B E) : Prop :=
  pool.Biggest pool.maxPeerHeight
    ∧ ∀ (height : Int) (now : Time), pool.peers.entries.length ≠ 0 →
      (0 < height ∨ 5 * 10 ^ 9 < now - pool.startTime) →
      (∀ id peer, pool.peers.lookup id = some peer → peer.height < height) →
      BlockPool.isCaughtUp { pool with height := height } now = true

lemma BlockPool.onTarget_iff {pool : BlockPool P B E} :
    pool.OnTarget ↔ pool.Biggest pool.maxPeerHeight := by
  constructor
  · exact And.left
  intro h
  refine ⟨h, fun height now hpeers hready hblocks => ?_⟩
  unfold BlockPool.isCaughtUp
  rw [if_neg hpeers]
  have hlongest : pool.maxPeerHeight = 0 ∨ pool.maxPeerHeight - 1 ≤ height := by
    by_cases hpos : 0 < pool.maxPeerHeight
    · obtain ⟨id, peer, hpeer, heq⟩ := h.claimed hpos
      have := hblocks id peer hpeer
      omega
    have := h.nonneg
    omega
  simp only [Bool.and_eq_true, Bool.or_eq_true, decide_eq_true_eq]
  exact ⟨hready, hlongest⟩

/-- The target height is right throughout exactly if no peer that alone
claims the biggest height announces less. -/
theorem max_peer_height_iff (start : Int) (startTime : Time)
    (steps : List (Step P)) :
    (∀ before, before.IsPrefix steps →
      ((BlockPool.new start startTime : BlockPool P B E).run before).OnTarget)
      ↔ Along (fun before step =>
        step.Harmless
          ((BlockPool.new start startTime : BlockPool P B E).run before)) []
        steps := by
  refine forall_prefix_iff_along ?_ ?_ steps
  · rw [BlockPool.onTarget_iff]
    exact ⟨Int.le_refl 0, fun id peer h => (nomatch h), fun h => absurd h (Int.lt_irrefl 0)⟩
  intro before step h
  rw [BlockPool.onTarget_iff] at h ⊢
  unfold BlockPool.run at h ⊢
  rw [List.foldl_append, List.foldl_cons, List.foldl_nil]
  exact step.biggest_iff h

/-- A peer announces height 100 and then 50. The node has all blocks up to
59 and is not caught up, and it never will be by that peer's leaving. -/
theorem max_peer_height_stale : ((BlockPool.new 1 0 : BlockPool Nat Unit Unit).run
      [.setPeerRange 0 1 100 0, .setPeerRange 0 1 50 0]).maxPeerHeight
    = 100
    ∧ BlockPool.isCaughtUp
      { (BlockPool.new 1 0 : BlockPool Nat Unit Unit).run
          [.setPeerRange 0 1 100 0, .setPeerRange 0 1 50 0] with
        height := 60 } (10 ^ 10) = false
    ∧ BlockPool.isCaughtUp
        { (BlockPool.new 1 0 : BlockPool Nat Unit Unit).run
            [.setPeerRange 0 1 100 0, .setPeerRange 0 1 50 0, .removePeer 0,
              .setPeerRange 1 1 50 0] with
          height := 60 } (10 ^ 10) = false := by
  decide +kernel

end HetuEngine.BlockSync
