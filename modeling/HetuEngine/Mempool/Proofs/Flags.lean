/-
What the operations of the mempool do to its flags.

`notifiedTxsAvailable` is set by `notifyTxsAvailable` and cleared by
`Update`, and by nothing else: the calls of `notifyTxsAvailable` in
`resCbFirstTime` and `Update` are commented out in the source. Only `Update`
begins to wait for a recheck, and only `notifyTxsAvailable` panics because
the mempool is empty (`apply_flags`).
-/
import HetuEngine.Mempool.Proofs.Rep

namespace HetuEngine.Mempool

open Lib Does Setup SameFlags

variable {κ : Type} {p : Setup} {s s' : Pool κ} {op : Op κ}

lemma SameFlags.refl (s : Pool κ) : SameFlags s s := ⟨rfl, rfl, rfl, rfl⟩

lemma SameFlags.trans {t : Pool κ} (h : SameFlags s s') (h' : SameFlags s' t) :
    SameFlags s t :=
  ⟨h'.notified.trans h.notified, h'.available.trans h.available,
    h'.updating.trans h.updating, h'.crashed.trans h.crashed⟩

/-- An operation that neither notifies nor updates the mempool. -/
def Op.quiet : Op κ → Bool
  | .update .. => false
  | .notifyTxsAvailable => false
  | _ => true

structure FlagStep (s : Pool κ) (op : Op κ) (s' : Pool κ) : Prop where
  notified : op.quiet = true → s'.notifiedTxsAvailable = s.notifiedTxsAvailable
  enabled : s.txsAvailable.isSome = true → s'.txsAvailable.isSome = true
  updating : op.quiet = true ∨ op = .notifyTxsAvailable → s'.updating = true → s.updating = true
  crashed : op ≠ .notifyTxsAvailable →
    s'.crashed = some .notifiedEmpty → s.crashed = some .notifiedEmpty

/-- What keeps every flag is a step of any operation. -/
lemma SameFlags.step (h : SameFlags s s') : FlagStep s op s' := by
  refine ⟨fun _ => h.notified, fun hs => h.available ▸ hs, fun _ hup => ?_,
    fun _ hc => ?_⟩
  · rw [← h.updating]
    exact hup
  rw [← h.crashed]
  exact hc

-- ==== the actions

/-- The action keeps the flags and does not panic on an empty mempool. -/
abbrev KeepsFlags {α : Type} (m : Action κ α) (s : Pool κ) : Prop :=
  Does SameFlags (fun e => e ≠ .panic .notifiedEmpty) m s fun _ _ => True

/-- Removing a transaction can fail, but leaves the flags alone. -/
lemma removeTxByKey_does (k : TxKey) (s : Pool κ) :
    KeepsFlags (Setup.removeTxByKey k) s := by
  refine get_bind ?_
  split
  · exact of_throw (fun h => by cases h)
  split
  · exact of_modify ⟨rfl, rfl, rfl, rfl⟩ trivial
  exact of_throw (fun h => by cases h)

/-- A transaction that is not there is skipped. -/
lemma tryRemove_does (k : TxKey) (s : Pool κ) :
    KeepsFlags (Setup.tryRemove k) s := by
  refine get_bind ?_
  split
  · exact removeTxByKey_does k s
  exact of_pure trivial

/-- Dropping an invalid transaction from the cache keeps the flags. -/
lemma forgetInvalid_flags (p : Setup) (tx : Tx) (s : Pool κ) :
    SameFlags s (p.forgetInvalid tx s) := by
  have h := (forgetInvalid_same p tx s).2
  exact { h with }

/-- The first response adds the transaction or drops it, without a
notification. -/
lemma resCbFirstTime_flags (p : Setup) (tx : Tx) (res : Response)
    (s : Pool κ) : SameFlags s (p.resCbFirstTime tx res s) := by
  unfold resCbFirstTime
  split
  · split
    · exact ⟨rfl, rfl, rfl, rfl⟩
    split
    · exact refl s
    exact ⟨rfl, rfl, rfl, rfl⟩
  exact forgetInvalid_flags p tx s

/-- The callback of `CheckTx` panics only while a recheck is on. -/
lemma reqResCb_does (p : Setup) (tx : Tx) (res : Response) (s : Pool κ) :
    KeepsFlags (p.reqResCb tx res) s := by
  refine get_bind ?_
  split
  · exact of_modify (resCbFirstTime_flags p tx res s) trivial
  exact of_throw (fun h => by cases h)

/-- The callback of a recheck moves its cursor and removes what fails. -/
lemma globalCb_does (p : Setup) (tx : Tx) (res : Response) (s : Pool κ) :
    KeepsFlags (p.globalCb tx res) s := by
  refine get_bind ?_
  split
  · exact of_pure trivial
  refine get_bind ?_
  split
  · exact of_throw (fun h => by cases h)
  refine modify_bind ⟨rfl, rfl, rfl, rfl⟩ ?_
  split
  · refine bind (tryRemove_does _ _) fun _ s' _ _ => ?_
    exact of_modify (forgetInvalid_flags p tx s') trivial
  exact of_pure trivial

/-- A response goes to one of the two callbacks, if a request is pending. -/
lemma respond_does (p : Setup) (i : Nat) (res : Response) (s : Pool κ) :
    KeepsFlags (p.respond i res) s := by
  refine get_bind ?_
  split
  · exact of_pure trivial
  refine modify_bind ⟨rfl, rfl, rfl, rfl⟩ ?_
  split
  · exact bind (reqResCb_does p _ res _) fun _ _ _ _ => of_pure trivial
  exact bind (globalCb_does p _ res _) fun _ _ _ _ => of_pure trivial

/-- An action that keeps the flags, performed to its end or its failure. -/
lemma does_flags {α : Type} {m : Action κ α} (h : KeepsFlags m s) :
    FlagStep s op (perform m s) := by
  obtain ⟨s₁, hs₁, hend⟩ := does_perform h
  have hsame : SameFlags s s₁ := invariant_of_effects
    (I := SameFlags s) (fun _ _ h hI => hI.trans h) hs₁ (refl s)
  rcases hend with hend | ⟨q, hq, hend⟩
  · rw [hend]
    exact hsame.step
  rw [hend]
  have hflags : FlagStep s op s₁ := hsame.step
  refine ⟨hflags.notified, hflags.enabled, hflags.updating, fun _ hc => ?_⟩
  exact absurd (congrArg Failure.panic (Option.some.inj hc)) hq

/-- The loop of `Update` over the transactions of the block. -/
lemma removeCommitted_does (p : Setup) (committed : List (Tx × Nat))
    (s : Pool κ) : KeepsFlags (p.removeCommitted committed) s := by
  induction committed generalizing s with
  | nil => exact of_pure trivial
  | cons x rest ih =>
    obtain ⟨tx, code⟩ := x
    have hnote := (noteCommitted_same p tx code s).2
    refine modify_bind { hnote with } ?_
    exact bind (tryRemove_does _ _) fun _ s' _ _ => ih s'

/-- `Update` clears the notification. -/
lemma update_flags (p : Setup) (conn : AppConn) (height : Int)
    (committed : List (Tx × Nat)) (preCheck : Option PreCheckFunc)
    (postCheck : Option PostCheckFunc) (hc : s.crashed ≠ some .notifiedEmpty)
    (hs' : perform (p.update conn height committed preCheck postCheck) s
      = s') :
    s'.notifiedTxsAvailable = false ∧ s'.txsAvailable = s.txsAvailable
    ∧ s'.crashed ≠ some .notifiedEmpty := by
  let Cleared (s' : Pool κ) := s'.notifiedTxsAvailable = false
    ∧ s'.txsAvailable = s.txsAvailable ∧ s'.crashed ≠ some .notifiedEmpty
  let start := startUpdate height preCheck postCheck s
  have hdoes : Does (fun s s' => Cleared s → Cleared s')
      (fun e => e ≠ .panic .notifiedEmpty) (do
        p.removeCommitted committed
        if p.config.recheck then recheckTxs conn else return ())
      start (fun _ _ => True) := by
    refine bind ((removeCommitted_does p committed _).mono ?_) fun _ s₁ _ _ => ?_
    · intro a b hab ha
      exact ⟨hab.notified.trans ha.1, hab.available.trans ha.2.1,
        fun h => ha.2.2 (hab.crashed ▸ h)⟩
    split
    · unfold recheckTxs
      refine get_bind ?_
      split
      · exact of_pure trivial
      split
      · split
        · exact of_modify id trivial
        exact of_throw (fun h => by cases h)
      exact of_throw (fun h => by cases h)
    exact of_pure trivial
  obtain ⟨s₁, hs₁, hend⟩ := does_perform hdoes
  have hrun : perform (p.update conn height committed preCheck postCheck) s = perform (do
        p.removeCommitted committed
        if p.config.recheck then recheckTxs conn else return ())
      start := rfl
  have hcleared : Cleared s₁ := invariant_of_effects (I := Cleared)
    (fun _ _ h hI => h hI) hs₁ ⟨rfl, rfl, hc⟩
  rw [hrun] at hs'
  rcases hend with hend | ⟨q, hq, hend⟩
  · rw [← hs', hend]
    exact hcleared
  rw [← hs', hend]
  refine ⟨hcleared.1, hcleared.2.1, fun h => hq ?_⟩
  exact congrArg Failure.panic (Option.some.inj h)

/-- One operation of the mempool, whichever it is. -/
lemma apply_flags (p : Setup) (s : Pool κ) (op : Op κ) :
    FlagStep s op (p.apply s op) := by
  unfold apply
  split
  · exact (refl s).step
  next hup =>
  cases op with
  | lock | flush => exact step ⟨rfl, rfl, rfl, rfl⟩
  | enableTxsAvailable =>
    exact ⟨fun _ => rfl, fun _ => rfl, fun _ h => h, fun _ h => h⟩
  | checkTx conn tx callback =>
    exact does_flags ((checkTx_does p conn tx callback s).mono fun _ _ h => h.2)
  | respond i res => exact does_flags (respond_does p i res s)
  | removeTxByKey k => exact does_flags (removeTxByKey_does k s)
  | update conn height committed preCheck postCheck =>
    have hne : s.crashed ≠ some .notifiedEmpty := fun h => by simp [h] at hup
    dsimp only
    split
    · exact (refl s).step
    obtain ⟨-, havail, hsafe⟩ :=
      update_flags p conn height committed preCheck postCheck hne rfl
    exact ⟨nofun, fun h => havail ▸ h, fun h => h.elim nofun nofun,
      fun _ hc => absurd hc hsafe⟩
  | recheckDone | recheckTimeout =>
    simp only [recheckDone, recheckTimeout]
    split_ifs
    · exact ⟨fun _ => rfl, id, fun _ h => (by cases h), fun _ h => h⟩
    exact (refl s).step
  | notifyTxsAvailable =>
    refine ⟨fun h => (by cases h), ?_, fun _ => ?_, fun h => absurd rfl h⟩
    all_goals simp only [perform, notify_eq]
    · split_ifs
      · exact id
      · exact fun _ => rfl
      exact id
    split_ifs
    all_goals exact id

end HetuEngine.Mempool
