/-
Whether transactions are announced.

Consensus waits for `TxsAvailable` before it proposes a block, so a mempool
that is not empty should have notified at its height. The calls that did so
when a transaction was added, and at the end of `Update`, are commented out.
What is left is the poller: it notifies after a batch if one of its calls of
`CheckTx` returned nil, which only says that a request went to the
application.

So a mempool that is used alone is announced only as long as it is empty. Over
Narwhal, a transaction that comes in a batch after it was added is not
announced, since the cache refuses it then; and a batch whose transaction has
left the mempool makes the notification panic (`announced_fails`).
`announced_iff` says which runs keep the mempool announced.
-/
import HetuEngine.Lib.Along
import HetuEngine.Mempool.Proofs.Flags
import HetuEngine.Mempool.Proofs.Steps

namespace HetuEngine.Mempool

open Lib Solo Setup

-- ==== the mempool alone

section

variable {κ : Type} {p : Setup} {s s' : Pool κ} {op : Op κ}

/-- A mempool that is not empty has notified, and the notification did not
panic. -/
structure Announced (s : Pool κ) : Prop where
  heard : s.content ≠ [] → s.notifiedTxsAvailable = true
  safe : s.crashed ≠ some .notifiedEmpty

/-- The operation adds a transaction, or notifies (which only the poller
does). -/
def Stirs (p : Setup) (s : Pool κ) (op : Op κ) : Prop :=
  s.crashed = none ∧ match op with
    | .respond i res => ∃ r, s.requests[i]? = some r ∧ r.callback ≠ none
        ∧ p.admits r.tx res s = true
    | .notifyTxsAvailable => True
    | _ => False

/-- Nothing was added yet. -/
structure Silent (s : Pool κ) : Prop where
  content : s.content = []
  notified : s.notifiedTxsAvailable = false
  safe : s.crashed ≠ some .notifiedEmpty

lemma Silent.announced (h : Silent s) : Announced s :=
  ⟨fun hne => absurd h.content hne, h.safe⟩

lemma size_eq_zero : s.size = 0 ↔ s.content = [] := by
  rw [content_eq, List.map_eq_nil_iff]
  show ((s.txs.elems.length : Nat) : Int) = 0 ↔ _
  rw [Int.natCast_eq_zero, List.length_eq_zero_iff]

/-- The notification panics exactly if the mempool is empty. -/
lemma announced_notify (hc : s.crashed = none)
    (henabled : s.txsAvailable.isSome = true) :
    Announced (p.apply s .notifyTxsAvailable) ↔ s.content ≠ [] := by
  have happly : p.apply s .notifyTxsAvailable = perform notifyTxsAvailable s := by
    simp [apply, hc]
  rw [happly]
  unfold perform
  rw [notify_eq]
  by_cases hnil : s.content = []
  · rw [if_pos (size_eq_zero.mpr hnil)]
    exact ⟨fun h => absurd rfl h.safe, fun hne => absurd hnil hne⟩
  rw [if_neg (fun h0 => hnil (size_eq_zero.mp h0)), henabled]
  refine ⟨fun _ => hnil, fun _ => ?_⟩
  cases hnotified : s.notifiedTxsAvailable with
  | true => exact ⟨fun _ => hnotified, fun h => by cases hc.symm.trans h⟩
  | false => exact ⟨fun _ => rfl, fun h => by cases hc.symm.trans h⟩

section

variable (hr : Rep p s) (h : Silent s)

include hr h

/-- What does not add a transaction leaves nothing to announce. -/
lemma Silent.apply (hno : ¬Stirs p s op) : Silent (p.apply s op) := by
  by_cases hc : s.crashed = none
  · have hflags := apply_flags p s op
    have hne : op ≠ .notifyTxsAvailable := by
      rintro rfl
      exact hno ⟨hc, trivial⟩
    refine ⟨?_, ?_, fun hcrash => h.safe (hflags.crashed hne hcrash)⟩
    · have hsub : (p.apply s op).content.Sublist s.content := by
        cases op with
        | respond i res =>
          cases hreq : s.requests[i]? with
          | none => rw [apply_respond_none hreq]
          | some r =>
            by_cases hcb : r.callback = none
            · exact (apply_stock hr _).content_recheck hr fun r' hr' => by
                rw [hreq] at hr'
                cases hr'
                exact hcb
            rw [content_respond_new hc hreq hcb res,
              if_neg fun hadm => hno ⟨hc, r, hreq, hcb, hadm⟩]
        | _ => exact (apply_stock hr _).content_sublist hr nofun
      rw [h.content] at hsub
      exact List.sublist_nil.mp hsub
    cases op with
    | update conn height committed preCheck postCheck =>
      cases hup : s.updating with
      | true => simpa [Setup.apply, hc, hup] using h.notified
      | false =>
        have happly : p.apply s (.update conn height committed preCheck postCheck)
            = perform (p.update conn height committed preCheck postCheck) s := by
          simp [Setup.apply, hc, hup]
        rw [happly]
        exact (update_flags p conn height committed preCheck postCheck h.safe
          rfl).1
    | notifyTxsAvailable => exact absurd rfl hne
    | _ => exact (hflags.notified rfl).trans h.notified
  rwa [apply_crashed (Option.isSome_iff_ne_none.mpr hc)]

omit hr in
/-- What adds a transaction is not announced. -/
lemma Silent.not_announced (hstirs : Stirs p s op) :
    ¬Announced (p.apply s op) := by
  intro h'
  obtain ⟨hc, hop⟩ := hstirs
  cases op with
  | respond i res =>
    obtain ⟨r, hreq, hcb, hadm⟩ := hop
    have hcontent := content_respond_new (p := p) hc hreq hcb res
    rw [if_pos hadm] at hcontent
    have hflag := (apply_flags p s (.respond i res)).notified rfl
    rw [h.notified, h'.heard (by simp [hcontent])] at hflag
    cases hflag
  | notifyTxsAvailable =>
    refine h'.safe ?_
    have happly : p.apply s .notifyTxsAvailable
        = perform notifyTxsAvailable s := by simp [Setup.apply, hc]
    rw [happly]
    unfold perform
    rw [notify_eq, if_pos (size_eq_zero.mpr h.content)]
    rfl
  | _ => exact hop

end

lemma silent_new (p : Setup) (height : Int)
    (preCheck : Option PreCheckFunc) (postCheck : Option PostCheckFunc) :
    Silent (p.new height preCheck postCheck : Pool κ).enableTxsAvailable :=
  ⟨rfl, rfl, nofun⟩

lemma rep_enabled (p : Setup) (height : Int)
    (preCheck : Option PreCheckFunc) (postCheck : Option PostCheckFunc) :
    Rep p (p.new height preCheck postCheck : Pool κ).enableTxsAvailable := by
  have hsame : SameStock (p.new height preCheck postCheck : Pool κ)
      (p.new height preCheck postCheck).enableTxsAvailable := ⟨rfl, rfl, rfl⟩
  exact hsame.rep (rep_new p height preCheck postCheck)

end

-- ==== over Narwhal

namespace System

variable (p : System)

def enabled (height : Int) (preCheck : Option PreCheckFunc)
    (postCheck : Option PostCheckFunc) : Node :=
  p.step (p.init height preCheck postCheck) .enableTxsAvailable

/-- The poller has forwarded a batch. -/
def Forwarded (n : Node) : Prop :=
  n.pool.crashed = none ∧ ∃ addedTxs, n.poller = .notifying addedTxs

/-- If one of the calls of `CheckTx` for the batch returned nil, the mempool is
not empty when the poller notifies. If none did, it is empty or has notified
since the last `Update`. -/
def Rings (n : Node) : Prop :=
  n.pool.crashed = none → ∀ addedTxs, n.poller = .notifying addedTxs →
    if addedTxs then n.pool.content ≠ []
    else n.pool.content ≠ [] → n.pool.notifiedTxsAvailable = true

/-- If a run ends with a batch that was forwarded, the mempool has notified or
is empty; and the notification did not panic. -/
structure Heard (start : Node) (es : List Event) : Prop where
  heard : ∀ before, es = before ++ [.notify] →
    Forwarded (p.runEvents start before) →
    (p.runEvents start es).pool.content ≠ [] →
    (p.runEvents start es).pool.notifiedTxsAvailable = true
  safe : (p.runEvents start es).pool.crashed ≠ some .notifiedEmpty

variable {p} {n : Node} {e : Event}

lemma eq_notify (h : poolOp n e = some .notifyTxsAvailable) : e = .notify := by
  cases e with
  | notify => rfl
  | forward conn =>
    simp only [poolOp] at h
    split at h
    · obtain ⟨m, -, hm⟩ := Option.map_eq_some_iff.mp h
      cases hm
    cases h
  | updatePool conn | flushPool =>
    simp only [poolOp] at h
    split at h <;> cases h
  | _ => cases h

/-- Only the poller makes the mempool panic because it is empty. -/
lemma safe_step (he : e ≠ .notify) (h : n.pool.crashed ≠ some .notifiedEmpty) :
    (p.step n e).pool.crashed ≠ some .notifiedEmpty := by
  rw [step_pool_eq]
  cases hop : poolOp n e with
  | none => exact h
  | some op =>
    have hne : op ≠ .notifyTxsAvailable := by
      rintro rfl
      exact he (eq_notify hop)
    exact fun hc => h ((apply_flags p.toSetup n.pool op).crashed hne hc)

lemma announced_step (hc : n.pool.crashed = none)
    (henabled : n.pool.txsAvailable.isSome = true) {addedTxs : Bool}
    (hpoller : n.poller = .notifying addedTxs) :
    Announced (p.step n .notify).pool ↔ Rings n := by
  have hrings : Rings n ↔ if addedTxs then n.pool.content ≠ []
      else n.pool.content ≠ [] → n.pool.notifiedTxsAvailable = true := by
    unfold Rings
    rw [hpoller]
    simp [hc]
  rw [step_pool_eq, hrings]
  unfold poolOp
  rw [hpoller]
  cases addedTxs with
  | true => exact announced_notify (p := p.toSetup) hc henabled
  | false =>
    exact ⟨fun h => h.heard, fun h => ⟨h, fun hc' => nomatch hc.symm.trans hc'⟩⟩

lemma Heard.concat_iff {start : Node} {before : List Event}
    (h : p.Heard start before)
    (henabled : (p.runEvents start before).pool.txsAvailable.isSome = true) :
    p.Heard start (before ++ [e])
      ↔ (e = .notify → Rings (p.runEvents start before)) := by
  have hsafe := h.safe
  by_cases he : e = .notify
  · subst he
    simp only [true_imp_iff]
    by_cases hc : (p.runEvents start before).pool.crashed = none
    · by_cases hpoller : ∃ addedTxs,
          (p.runEvents start before).poller = .notifying addedTxs
      · obtain ⟨addedTxs, hpoller⟩ := hpoller
        rw [← announced_step hc henabled hpoller, ← p.runEvents_concat]
        constructor
        · exact fun h' => ⟨h'.heard before rfl ⟨hc, addedTxs, hpoller⟩, h'.safe⟩
        exact fun h' => ⟨fun _ _ _ => h'.heard, h'.safe⟩
      -- no batch was forwarded
      refine ⟨fun _ _ addedTxs ha => absurd ⟨addedTxs, ha⟩ hpoller, fun _ => ?_⟩
      have hsame : (p.step (p.runEvents start before) .notify).pool
          = (p.runEvents start before).pool := by
        rw [step_pool_eq]
        simp only [poolOp]
        split
        · next hp => exact absurd ⟨_, hp⟩ hpoller
        rfl
      refine ⟨fun before' heq hf => ?_, ?_⟩
      · obtain rfl := List.append_cancel_right heq
        exact absurd hf.2 hpoller
      rwa [p.runEvents_concat, hsame]
    refine ⟨fun _ hc' => absurd hc' hc, fun _ => ⟨fun before' heq hf => ?_, ?_⟩⟩
    · obtain rfl := List.append_cancel_right heq
      exact absurd hf.1 hc
    rwa [p.runEvents_concat, step_crashed (Option.isSome_iff_ne_none.mpr hc)]
  refine ⟨fun _ h' => absurd h' he, fun _ => ⟨fun before' heq => ?_, ?_⟩⟩
  · exact absurd (List.singleton_inj.mp (List.append_inj' heq rfl).2) he
  rw [p.runEvents_concat]
  exact safe_step he hsafe

lemma run_enabled (height : Int) (preCheck : Option PreCheckFunc)
    (postCheck : Option PostCheckFunc) (es : List Event) :
    (p.runEvents (p.enabled height preCheck postCheck)
      es).pool.txsAvailable.isSome = true := by
  induction es using List.reverseRecOn with
  | nil => rfl
  | append_singleton es e ih =>
    rw [p.runEvents_concat]
    rcases step_pool p _ e with h | ⟨op, -, h⟩
    · rwa [h]
    rw [h]
    exact (apply_flags _ _ op).enabled ih

end System

/-- With `EnableTxsAvailable` called: the mempool alone is announced after
every operation exactly when no transaction is ever added. Over Narwhal it is
announced after every batch exactly when, each time the poller comes to
notify, the mempool is not empty if the batch added something, and announced
already if it did not. -/
theorem announced_iff {κ : Type} (p : System) (height : Int)
    (preCheck : Option PreCheckFunc) (postCheck : Option PostCheckFunc)
    (ops : List (Op κ)) (es : List Event) :
    ((∀ before, before.IsPrefix ops → Announced (p.runFrom
        (p.new height preCheck postCheck).enableTxsAvailable before))
      ↔ Along (fun before op => ¬Stirs p.toSetup (p.runFrom
        (p.new height preCheck postCheck).enableTxsAvailable before) op)
        [] ops)
    ∧ ((∀ before, before.IsPrefix es →
        p.Heard (p.enabled height preCheck postCheck) before)
      ↔ Along (fun before e => e = .notify → System.Rings
        (p.runEvents (p.enabled height preCheck postCheck) before))
        [] es) := by
  constructor
  · refine forall_prefix_iff_along_of
      (J := fun before => Silent (p.runFrom
        (p.new height preCheck postCheck).enableTxsAvailable before))
      (silent_new _ _ _ _) (fun _ h => h.announced) ?_
    intro before op _ h
    have hr := run_rep (rep_enabled p.toSetup height preCheck postCheck) before
    rw [p.runFrom_concat]
    exact ⟨fun h' hs => h.not_announced hs h', h.apply hr⟩
  refine forall_prefix_iff_along (I := p.Heard _) ?_
    (fun before e h => h.concat_iff (System.run_enabled ..)) es
  exact ⟨fun before heq => absurd heq (by simp), nofun⟩

/-- Two transactions are accepted, a recheck removes one of them, and it comes
back in a batch: the poller announces the other one. -/
example : let es := [.checkTx conn [7], .respond 0 accepted, .callback 0,
      .checkTx conn [8], .respond 0 accepted, .callback 0,
      .lock, .update 2 [] none none, .updatePool conn,
      .respond 0 rejected, .respond 0 accepted, .recheckDone, .unlock,
      .frame (system.hash [7]), .getNextBatch, .precheck, .enqueue,
      .lockMap, .forward conn, .unlockMap, .notify]
    let n := system.runEvents (system.enabled 1 none none) es
    n.pool.content = [[8]] ∧ n.pool.notifiedTxsAvailable = true := by
  decide +kernel

/-- An accepted transaction is not announced; it is not announced after it
came in a batch; and after a recheck removed it, its batch makes the
notification panic. -/
theorem announced_fails :
    (¬∀ (p : Setup) (ops : List (Op Unit)), Announced (p.runFrom
      (p.new 1 none none).enableTxsAvailable ops))
    ∧ (¬∀ (p : System) (es : List Event),
      System.Forwarded (p.runEvents (p.enabled 1 none none) es) →
      Announced (p.runEvents (p.enabled 1 none none) (es ++ [.notify])).pool)
    ∧ ¬∀ (p : System) (es : List Event),
      (p.runEvents (p.enabled 1 none none) es).pool.crashed
        ≠ some .notifiedEmpty := by
  refine ⟨fun hall => ?_, fun hall => ?_, fun hall => ?_⟩
  · have h := (hall system.toSetup
      [.checkTx conn [7] (), .respond 0 accepted]).heard
    revert h
    decide +kernel
  · have h := (hall system [.checkTx conn [7], .respond 0 accepted,
        .callback 0, .frame (system.hash [7]), .getNextBatch, .precheck,
        .enqueue, .lockMap, .forward conn, .unlockMap]
      ⟨by decide +kernel, false, rfl⟩).heard
    revert h
    decide +kernel
  have h := hall system [.checkTx conn [7], .respond 0 accepted, .callback 0,
      .lock, .update 2 [] none none, .updatePool conn,
      .respond 0 rejected, .recheckDone, .unlock,
      .frame (system.hash [7]), .getNextBatch, .precheck, .enqueue,
      .lockMap, .forward conn, .unlockMap, .notify]
  revert h
  decide +kernel

end HetuEngine.Mempool
