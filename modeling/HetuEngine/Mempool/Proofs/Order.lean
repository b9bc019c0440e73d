/-
The order of the transactions proposed, against the order of Narwhal.

A transaction is proposed from the wrapped mempool, and it gets there when
the application answers its first check. That is the check `CheckTx` asked
for, before the hash was sent to Narwhal; when the poller comes with the
transaction, it is in the cache already. So nothing relates the order of the
wrapped mempool to the batches, and a transaction is proposed although no
batch has it (`narwhal_order_fails`).

`narwhal_order_iff`: the order is that of Narwhal all the way through a run
exactly if each answer that adds a transaction comes after a batch had it,
and after all transactions in the pool in the order of Narwhal.
-/
import HetuEngine.Lib.Along
import HetuEngine.Mempool.Proofs.Steps

namespace HetuEngine.Mempool

open Lib Mempool.System

variable {p : System} {n n' : Node} {e : Event}

/-- The hashes of the batches returned by `GetNextBatch`, in order. -/
def Node.stream (n : Node) : List Bytes := n.received.flatMap BatchTransactions.transactions

/-- The place of the first occurrence of a transaction. -/
def System.place (p : System) (n : Node) (tx : Tx) : Nat := n.stream.idxOf (p.hash tx)

/-- All transactions have occurred in a batch, and they stand in the order
of their first occurrences. -/
structure InOrder (p : System) (n : Node) (txs : List Tx) : Prop where
  occurred : ∀ tx ∈ txs, p.hash tx ∈ n.stream
  ordered : txs.Pairwise fun t u => p.place n t < p.place n u

/-- An answer that adds a transaction finds it in a batch, after all
transactions in the pool. -/
def Timely (p : System) (n : Node) : Event → Prop
  | .respond i res => n.pool.crashed = none
      → ∀ r, n.pool.requests[i]? = some r → r.callback ≠ none → p.admits r.tx res n.pool = true
      → p.hash r.tx ∈ n.stream ∧ ∀ u ∈ n.pool.content, p.place n u < p.place n r.tx
  | _ => True

-- ==== reaping

lemma isPrefix_reapLoop (maxBytes maxGas : Int) (memTxs : List MempoolTx)
    (size gas : Int) :
    (reapLoop maxBytes maxGas size gas memTxs).IsPrefix
      (memTxs.map MempoolTx.tx) := by
  induction memTxs generalizing size gas with
  | nil => exact List.prefix_rfl
  | cons m memTxs ih =>
    unfold reapLoop
    simp only
    split_ifs
    · exact List.nil_prefix
    · exact List.nil_prefix
    exact List.cons_prefix_cons.mpr ⟨rfl, ih _ _⟩

lemma reapLoop_unlimited (memTxs : List MempoolTx) (size gas : Int) :
    reapLoop (-1) (-1) size gas memTxs = memTxs.map MempoolTx.tx := by
  induction memTxs generalizing size gas with
  | nil => rfl
  | cons m memTxs ih =>
    unfold reapLoop
    simp only [lt_self_iff_false, false_and, if_false]
    rw [ih]
    rfl

lemma InOrder.sublist {txs txs' : List Tx} (h : InOrder p n txs)
    (hsub : txs'.Sublist txs) : InOrder p n txs' :=
  ⟨fun tx htx => h.occurred tx (hsub.subset htx), h.ordered.sublist hsub⟩

/-- What is reaped is in order, with any limits, exactly when the pool
is. -/
lemma forall_reap_inOrder (p : System) (n : Node) :
    (∀ maxBytes maxGas, InOrder p n (n.reapMaxBytesMaxGas maxBytes maxGas))
    ↔ InOrder p n n.pool.content := by
  constructor
  · intro h
    have hall := h (-1) (-1)
    unfold Node.reapMaxBytesMaxGas Pool.reapMaxBytesMaxGas at hall
    rwa [reapLoop_unlimited] at hall
  intro h maxBytes maxGas
  exact h.sublist (isPrefix_reapLoop maxBytes maxGas _ 0 0).sublist

-- ==== one step

variable {txs : List Tx}

lemma InOrder.concat_iff {tx : Tx} :
    InOrder p n (txs ++ [tx])
      ↔ InOrder p n txs ∧ p.hash tx ∈ n.stream
        ∧ ∀ u ∈ txs, p.place n u < p.place n tx := by
  constructor
  · intro h
    have hord := h.ordered
    rw [List.pairwise_append] at hord
    refine ⟨h.sublist (List.sublist_append_left _ _), ?_, ?_⟩
    · exact h.occurred tx (List.mem_append_right _ (List.mem_singleton_self tx))
    exact fun u hu => hord.2.2 u hu tx (List.mem_singleton_self tx)
  rintro ⟨h, hocc, hlast⟩
  refine ⟨fun t ht => ?_, ?_⟩
  · rcases List.mem_append.mp ht with ht | ht
    · exact h.occurred t ht
    rw [List.mem_singleton.mp ht]
    exact hocc
  rw [List.pairwise_append]
  refine ⟨h.ordered, List.pairwise_singleton _ _, ?_⟩
  intro u hu t ht
  rw [List.mem_singleton.mp ht]
  exact hlast u hu

/-- Later batches do not change first occurrences. -/
lemma InOrder.grow {more : List Bytes} (h : InOrder p n txs)
    (hstream : n'.stream = n.stream ++ more) : InOrder p n' txs := by
  have hplace : ∀ tx ∈ txs, p.place n' tx = p.place n tx := by
    intro tx htx
    unfold place
    rw [hstream, List.idxOf_append_of_mem (h.occurred tx htx)]
  refine ⟨fun tx htx => ?_, ?_⟩
  · rw [hstream]
    exact List.mem_append_left _ (h.occurred tx htx)
  refine h.ordered.imp_of_mem fun ht hu hlt => ?_
  rw [hplace _ ht, hplace _ hu]
  exact hlt

lemma NodeStep.stream (h : NodeStep p n e n') : n'.stream = n.stream
    ∨ e = .getNextBatch ∧ ∃ more, n'.stream = n.stream ++ more := by
  cases h with
  | @getNextBatch batch batches hidle hchan =>
    refine .inr ⟨rfl, batch.transactions, ?_⟩
    unfold Node.stream
    simp
  | _ => exact .inl rfl

lemma InOrder.of_stream (hstream : n'.stream = n.stream) :
    InOrder p n' txs ↔ InOrder p n txs := by
  have hplace : ∀ tx, p.place n' tx = p.place n tx := by
    intro tx
    unfold place
    rw [hstream]
  constructor
  · intro h
    exact ⟨fun tx htx => hstream ▸ h.occurred tx htx,
      h.ordered.imp fun hlt => by rwa [hplace, hplace] at hlt⟩
  intro h
  exact ⟨fun tx htx => hstream ▸ h.occurred tx htx,
    h.ordered.imp fun hlt => by rwa [hplace, hplace]⟩

lemma InOrder.step_sublist (h : InOrder p n n.pool.content)
    (hsub : ((p.step n e).pool.content).Sublist n.pool.content) :
    InOrder p (p.step n e) (p.step n e).pool.content := by
  have h' := h.sublist hsub
  rcases (step_node p n e).stream with hstream | ⟨-, more, hstream⟩
  · exact (InOrder.of_stream hstream).mpr h'
  exact h'.grow hstream

section

variable (hr : Rep p.toSetup n.pool)

include hr

lemma step_content_sublist (he : ∀ i res, e ≠ .respond i res) :
    ((p.step n e).pool.content).Sublist n.pool.content := by
  rcases step_pool p n e with hpool | ⟨op, hop, hpool⟩
  · rw [hpool]
  rw [hpool]
  refine (apply_stock hr op).content_sublist hr fun i res heq => ?_
  subst heq
  exact he i res (poolOp_eq_respond hop)

/-- An answer keeps the order exactly when it is timely. -/
lemma InOrder.step_respond (h : InOrder p n n.pool.content) (i : Nat)
    (res : Response) :
    InOrder p (p.step n (.respond i res))
      (p.step n (.respond i res)).pool.content
      ↔ Timely p n (.respond i res) := by
  cases hc : n.pool.crashed with
  | some q =>
    have hsome : n.pool.crashed.isSome = true := by rw [hc]; rfl
    rw [step_crashed hsome]
    refine ⟨fun _ hnone => ?_, fun _ => h⟩
    rw [hc] at hnone
    cases hnone
  | none =>
    have hpool : (p.step n (.respond i res)).pool = perform (p.respond i res) n.pool := by
      simp [step, hc, answer, Setup.apply]
    have hstream : (p.step n (.respond i res)).stream = n.stream := by
      rcases (step_node p n (.respond i res)).stream with h | ⟨h, -⟩
      · exact h
      cases h
    rw [InOrder.of_stream hstream, hpool]
    by_cases hnew : ∃ r, n.pool.requests[i]? = some r ∧ r.callback ≠ none
    · obtain ⟨r, hreq, hcb⟩ := hnew
      have hstock := respond_new (p := p.toSetup) hreq hcb res
      rw [hstock.content]
      by_cases hadm : p.admits r.tx res n.pool = true
      · rw [if_pos hadm, content_addTx, InOrder.concat_iff]
        constructor
        · intro hall _ r' hreq' _ _
          cases hreq.symm.trans hreq'
          exact hall.2
        intro ht
        exact ⟨h, ht hc r hreq hcb hadm⟩
      rw [if_neg hadm]
      refine ⟨fun _ _ r' hreq' _ hadm' => ?_, fun _ => h⟩
      cases hreq.symm.trans hreq'
      exact absurd hadm' hadm
    -- no request of this number, or the answer to a recheck
    push Not at hnew
    have hsub : (perform (p.respond i res) n.pool).content.Sublist
        n.pool.content := by
      have hstock := apply_stock hr (.respond i res)
      rw [show p.apply n.pool (.respond i res) = perform (p.respond i res) n.pool by
        simp only [Setup.apply, hc, Option.isSome_none, Bool.false_eq_true, if_false]] at hstock
      exact hstock.content_recheck hr hnew
    refine ⟨fun _ _ r hreq hcb _ => ?_, fun _ => h.sublist hsub⟩
    exact absurd (hnew r hreq) hcb

lemma InOrder.step_iff (h : InOrder p n n.pool.content) (e : Event) :
    InOrder p (p.step n e) (p.step n e).pool.content ↔ Timely p n e := by
  cases e with
  | respond i res => exact h.step_respond hr i res
  | _ =>
    refine ⟨fun _ => trivial, fun _ => h.step_sublist ?_⟩
    exact step_content_sublist hr (fun i res heq => by cases heq)

end

/-- What is reaped after each event of a run, with any limits, has occurred
in the batches and is in their order, exactly when every answer that adds a
transaction is timely. -/
theorem narwhal_order_iff (p : System) (height : Int)
    (preCheck : Option PreCheckFunc) (postCheck : Option PostCheckFunc)
    (es : List Event) :
    (∀ before, before.IsPrefix es →
      ∀ maxBytes maxGas, InOrder p
        (p.runEvents (p.init height preCheck postCheck) before) ((p.runEvents
        (p.init height preCheck postCheck) before).reapMaxBytesMaxGas maxBytes
        maxGas))
      ↔ Along (fun before e =>
        Timely p (p.runEvents (p.init height preCheck postCheck) before) e) []
        es := by
  simp only [forall_reap_inOrder]
  refine forall_prefix_iff_along (I := fun before => InOrder p
      (p.runEvents (p.init height preCheck postCheck) before)
      (p.runEvents (p.init height preCheck postCheck) before).pool.content)
    ⟨fun tx htx => (by cases htx), List.Pairwise.nil⟩ ?_ es
  intro before e h
  rw [p.runEvents_concat]
  exact h.step_iff (run_nodeRep p height preCheck postCheck before) e

/-- A transaction is proposed as soon as the application accepts it, before
any batch. -/
theorem narwhal_order_fails :
    ¬ ∀ (p : System) (height : Int) (preCheck : Option PreCheckFunc)
      (postCheck : Option PostCheckFunc) (es : List Event)
      (maxBytes maxGas : Int), InOrder p
      (p.runEvents (p.init height preCheck postCheck) es) ((p.runEvents
      (p.init height preCheck postCheck) es).reapMaxBytesMaxGas maxBytes
      maxGas) := by
  intro h
  have hocc := (h Solo.system 0 none none [.checkTx Solo.conn [7],
    .respond 0 Solo.accepted] (-1) (-1)).occurred [7] (by decide +kernel)
  revert hocc
  decide +kernel

end HetuEngine.Mempool
