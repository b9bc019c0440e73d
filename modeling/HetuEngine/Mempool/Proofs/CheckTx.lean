/-
One call of `CheckTx` of the mempool over Narwhal.

The wrapped mempool asks the application; when the answer comes, its callback
adds the transaction to the pool and the wrapper's keeps it in `txsByHash`.
Only then, or in the meantime, is the hash sent to Narwhal, and if that fails
`CheckTx` returns the error and takes nothing back.
-/
import HetuEngine.Mempool.Proofs.Rep
import HetuEngine.Mempool.Narwhal

namespace HetuEngine.Mempool

open Lib Setup

/-- `CheckTx`, with the answer of the application and whether
`SubmitTransaction` succeeds: whether it returns without an error, nothing on
a panic, and what it leaves once its callbacks have run. They run before
`SubmitTransaction` or, with an application behind a socket, after the
return; neither reads what the other changes. -/
def System.checkTxAndSubmit (p : System) (conn : AppConn) (tx : Tx)
    (res : Response) (sent : Bool) (n : Node) : Option Bool × Node :=
  let called := p.apply n.pool (.checkTx conn tx .client)
  if succeeds (p.checkTx conn tx .client) n.pool then
    let pool := p.apply called (.respond n.pool.requests.length res)
    if pool.crashed.isSome then (none, { n with pool })
    else
      (some sent, { n with
        pool
        txsByHash :=
          if res.code = codeTypeOK then n.txsByHash.insert (p.hash tx)
            ⟨pool.height, res.gasWanted, tx⟩
          else n.txsByHash
        submitted := if sent then n.submitted ++ [p.hash tx] else n.submitted })
  else (if called.crashed.isSome then none else some false,
    { n with pool := called })

/-- An error means that the call added nothing, and no error that the hash
was handed to the client of Narwhal. -/
structure AllOrNothing (p : System) (tx : Tx) (n : Node) (result : Option Bool × Node) : Prop where
  error : result.1 = some false → result.2.pool.content = n.pool.content
      ∧ ((result.2.txsByHash.lookup (p.hash tx)).isSome → (n.txsByHash.lookup (p.hash tx)).isSome)
  nil : result.1 = some true → result.2.submitted = n.submitted ++ [p.hash tx]

variable {s : Pool Caller}

/-- A call that succeeds has put the transaction into the cache and asked the
application. -/
lemma checkTx_succeeds {p : Setup} {conn : AppConn} {tx : Tx} {κ : Caller}
    (h : succeeds (p.checkTx conn tx κ) s = true) :
    p.isFull tx.length s = none
      ∧ perform (p.checkTx conn tx κ) s
        = Pool.ask ⟨tx, some κ⟩ (s.setCache (s.cache.push (p.key tx)).2) := by
  revert h
  unfold succeeds perform
  dsimp only [checkTx, bind, EStateM.bind, get, getThe, MonadStateOf.get, EStateM.get]
  cases p.isFull tx.length s with
  | some e => exact nofun
  | none =>
    by_cases hsize : p.config.maxTxBytes < tx.length
    · rw [if_pos hsize]
      exact nofun
    rw [if_neg hsize]
    cases s.preCheck.bind fun f => f tx with
    | some e => exact nofun
    | none =>
      cases conn.error with
      | some e => exact nofun
      | none =>
        by_cases hpush : (s.cache.push (p.key tx)).1 = true
        · by_cases haccepts : conn.accepts = true
          · rw [if_pos hpush, if_pos haccepts]
            exact fun _ => ⟨rfl, rfl⟩
          rw [if_pos hpush, if_neg haccepts]
          exact nofun
        rw [if_neg hpush]
        exact nofun

variable {p : System} {conn : AppConn} {tx : Tx} {n : Node} (res : Response) (sent : Bool)

/-- The answer to a first check panics if a recheck is unfinished. -/
lemma crashed_respond {i : Nat} (hrun : s.crashed = none)
    (hreq : s.requests[i]? = some ⟨tx, some .client⟩) :
    (p.apply s (.respond i res)).crashed
    = if s.recheck.done then none else some .recheckUnfinished := by
  have happly : p.apply s (.respond i res) = perform (p.reqResCb tx res) (s.answered i) := by
    simp only [apply, hrun, Option.isSome_none]
    exact perform_respond hreq res
  have hcb : p.reqResCb tx res (s.answered i)
      = (if s.recheck.done then modify (p.resCbFirstTime tx res)
        else throw (.panic .recheckUnfinished) : Action Caller Unit)
        (s.answered i) := rfl
  rw [happly]
  unfold perform
  rw [hcb]
  cases s.recheck.done with
  | false => rfl
  | true =>
    show (p.resCbFirstTime tx res (s.answered i)).crashed = none
    unfold resCbFirstTime forgetInvalid
    repeat' split
    all_goals exact hrun

lemma checkTxAndSubmit_fails (hrun : n.pool.crashed = none)
    (h : succeeds (p.checkTx conn tx .client) n.pool = false) :
    (p.checkTxAndSubmit conn tx res sent n).1 ≠ some true
    ∧ (p.checkTxAndSubmit conn tx res sent n).2
      = { n with pool := perform (p.checkTx conn tx .client) n.pool } := by
  have happly : p.apply n.pool (.checkTx conn tx .client)
      = perform (p.checkTx conn tx .client) n.pool := by
    simp only [apply, hrun, Option.isSome_none]
    rfl
  unfold System.checkTxAndSubmit
  rw [happly]
  simp only [h, Bool.false_eq_true, if_false, and_true]
  split
  · exact fun hnone => by cases hnone
  exact fun hfalse => by cases hfalse

section Succeeds

variable (hrun : n.pool.crashed = none) (h : succeeds (p.checkTx conn tx .client) n.pool = true)

/-- The wrapped mempool when it has asked the application. -/
def System.asked (p : System) (tx : Tx) (n : Node) : Pool Caller :=
  Pool.ask ⟨tx, some .client⟩ (n.pool.setCache (n.pool.cache.push (p.key tx)).2)

lemma asked_request : (p.asked tx n).requests[n.pool.requests.length]?
    = some ⟨tx, some .client⟩ := List.getElem?_concat_length

include hrun h

lemma apply_checkTx :
    p.apply n.pool (.checkTx conn tx .client) = p.asked tx n := by
  simp only [apply, hrun, Option.isSome_none]
  exact (checkTx_succeeds h).2

lemma checkTxAndSubmit_panic (hdone : n.pool.recheck.done = false) :
    (p.checkTxAndSubmit conn tx res sent n).1 = none := by
  unfold System.checkTxAndSubmit
  simp only [h, if_true, apply_checkTx hrun h]
  rw [crashed_respond res (s := p.asked tx n) hrun asked_request,
    show (p.asked tx n).recheck.done = false from hdone]
  rfl

/-- The call otherwise: the pool has the transaction if the callback admits
it, and the map if the application accepts it. -/
lemma checkTxAndSubmit_eq (hdone : n.pool.recheck.done = true) :
    ∃ pool : Pool Caller, pool.content = (if p.admits tx res n.pool
        then n.pool.content ++ [tx] else n.pool.content)
      ∧ p.checkTxAndSubmit conn tx res sent n = (some sent, { n with
          pool
          txsByHash :=
            if res.code = codeTypeOK then n.txsByHash.insert (p.hash tx)
              ⟨pool.height, res.gasWanted, tx⟩
            else n.txsByHash
          submitted := if sent then n.submitted ++ [p.hash tx] else n.submitted }) := by
  have hnew := content_respond_new (p := p.toSetup) (s := p.asked tx n)
    (r := ⟨tx, some .client⟩) hrun asked_request (Option.some_ne_none _) res
  refine ⟨_, hnew, ?_⟩
  unfold System.checkTxAndSubmit
  simp only [h, if_true, apply_checkTx hrun h]
  refine if_neg ?_
  rw [crashed_respond res (s := p.asked tx n) hrun asked_request,
    show (p.asked tx n).recheck.done = true from hdone]
  simp

end Succeeds

/-- `CheckTx` is all or nothing exactly if the hash reaches Narwhal, or the
wrapped call fails or panics, or the answer adds the transaction to neither
the map nor the pool. -/
theorem check_tx_all_or_nothing_iff (p : System) (n : Node)
    (hrun : n.pool.crashed = none) (conn : AppConn) (tx : Tx)
    (res : Response) (sent : Bool) :
    AllOrNothing p tx n (p.checkTxAndSubmit conn tx res sent n)
      ↔ sent = true ∨ succeeds (p.checkTx conn tx .client) n.pool = false
        ∨ n.pool.recheck.done = false
        ∨ (res.code ≠ codeTypeOK ∨ (n.txsByHash.lookup (p.hash tx)).isSome)
          ∧ p.admits tx res n.pool = false := by
  cases h : succeeds (p.checkTx conn tx .client) n.pool with
  | false =>
    obtain ⟨hnot, hleft⟩ := checkTxAndSubmit_fails res sent hrun h
    refine iff_of_true ⟨fun _ => ?_, fun hnil => absurd hnil hnot⟩ (.inr (.inl rfl))
    rw [hleft]
    have hstock := checkTx_stock p.toSetup conn tx Caller.client n.pool
    refine ⟨?_, fun hsome => hsome⟩
    show (perform (p.checkTx conn tx .client) n.pool).content = _
    rw [hstock.content]
  | true =>
    cases hdone : n.pool.recheck.done with
    | false =>
      have hpanic := checkTxAndSubmit_panic res sent hrun h hdone
      refine iff_of_true ⟨fun herr => ?_, fun hnil => ?_⟩ (.inr (.inr (.inl rfl)))
      · rw [hpanic] at herr
        cases herr
      rw [hpanic] at hnil
      cases hnil
    | true =>
      obtain ⟨pool, hcontent, heq⟩ := checkTxAndSubmit_eq res sent hrun h hdone
      rw [heq]
      cases sent with
      | true => exact iff_of_true ⟨fun herr => (by cases herr), fun _ => rfl⟩ (.inl rfl)
      | false =>
        constructor
        · intro hall
          obtain ⟨hpool, hmap⟩ := hall.error rfl
          refine .inr (.inr (.inr ⟨?_, ?_⟩))
          · by_cases hcode : res.code = codeTypeOK
            · refine .inr (hmap ?_)
              show (AList.lookup _ (if res.code = codeTypeOK then _ else _)).isSome = true
              rw [if_pos hcode, AList.lookup_insert]
              rfl
            exact .inl hcode
          cases hadm : p.admits tx res n.pool with
          | false => rfl
          | true =>
            rw [hadm, if_pos rfl] at hcontent
            have hsame := hcontent.symm.trans hpool
            simp at hsame
        rintro (hsent | hsucc | hundone | ⟨hmap, hadm⟩)
        · cases hsent
        · cases hsucc
        · cases hundone
        rw [hadm] at hcontent
        refine ⟨fun _ => ⟨hcontent, fun hsome => ?_⟩, fun hnil => ?_⟩
        · rcases hmap with hcode | hknown
          · change (AList.lookup _ (if res.code = codeTypeOK then _ else _)).isSome = true at hsome
            rw [if_neg hcode] at hsome
            exact hsome
          exact hknown
        cases hnil

def Solo.firstCall (sent : Bool) : Option Bool × Node :=
  system.checkTxAndSubmit Solo.conn [7] accepted sent (system.init 1 none none)

theorem check_tx_all_or_nothing_sent :
    (Solo.system.init 1 none none).pool.crashed = none
      ∧ AllOrNothing Solo.system [7] (Solo.system.init 1 none none)
        (Solo.firstCall true) :=
  ⟨rfl, (check_tx_all_or_nothing_iff _ _ rfl _ _ _ _).mpr (.inl rfl)⟩

/-- `SubmitTransaction` fails: `CheckTx` returns the error, but the
transaction is in the map and in the pool, and can be proposed. -/
theorem check_tx_error_adds : (Solo.firstCall false).1 = some false
    ∧ ((Solo.firstCall false).2.txsByHash.lookup (Solo.system.hash [7])).isSome
    ∧ (Solo.firstCall false).2.reapMaxBytesMaxGas (-1) (-1) = [[7]]
    ∧ (Solo.firstCall false).2.submitted = [] := by
  decide +kernel

end HetuEngine.Mempool
