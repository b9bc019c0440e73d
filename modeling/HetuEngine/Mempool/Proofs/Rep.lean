/-
The representation invariant of the mempool, and what each operation does
to its transactions.

The list, the map and the byte counter are one thing in three shapes
(`Rep`): the map leads from the key of each listed transaction to its
element, and the counter is the sum of the lengths. All operations but
`Flush` change the three through `addTx` and `RemoveTxByKey` (`without`, on a
pool that satisfies the invariant) only: `apply_stock` says which of them an
operation performs, and all that is proved about the transactions goes
through it.

Under the invariant `RemoveTxByKey` finds a live element, so the list does
not panic.
-/
import HetuEngine.Mempool.Pool

namespace HetuEngine.Mempool

open Lib AList Setup CList Pool Does

variable {κ : Type} {p : Setup} {s s' : Pool κ} {op : Op κ} {α β : Type}

-- ==== the invariant

/-- The list, the map and the counter agree, within the limits. -/
structure Rep (p : Setup) (s : Pool κ) : Prop where
  keys : (s.content.map p.key).Nodup
  map : ∀ k e, s.txsMap.lookup k = some e ↔ ∃ m, (e, m) ∈ s.txs.elems ∧ p.key m.tx = k
  bytes : s.txsBytes = (s.content.map fun tx => (tx.length : Int)).sum
  size_le : s.size ≤ p.config.size
  bytes_le : s.txsBytes ≤ p.config.maxTxsBytes

structure SameStock (s s' : Pool κ) : Prop where
  txs : s'.txs = s.txs
  txsMap : s'.txsMap = s.txsMap
  txsBytes : s'.txsBytes = s.txsBytes

lemma SameStock.refl (s : Pool κ) : SameStock s s := ⟨rfl, rfl, rfl⟩

lemma SameStock.trans {t : Pool κ} (h : SameStock s s') (h' : SameStock s' t) :
    SameStock s t :=
  ⟨h'.txs.trans h.txs, h'.txsMap.trans h.txsMap, h'.txsBytes.trans h.txsBytes⟩

lemma SameStock.content (h : SameStock s s') : s'.content = s.content := by
  unfold Pool.content
  rw [h.txs]

lemma SameStock.rep (h : SameStock s s') (hr : Rep p s) : Rep p s' := by
  constructor
  · rw [h.content]
    exact hr.keys
  · rw [h.txs, h.txsMap]
    exact hr.map
  · rw [h.content, h.txsBytes]
    exact hr.bytes
  · unfold size
    rw [h.txs]
    exact hr.size_le
  rw [h.txsBytes]
  exact hr.bytes_le

lemma content_eq (s : Pool κ) :
    s.content = s.txs.elems.map fun x => x.2.tx := by
  unfold content values
  rw [List.map_map]
  rfl

lemma mem_content {tx : Tx} :
    tx ∈ s.content ↔ ∃ x ∈ s.txs.elems, x.2.tx = tx := by
  rw [content_eq, List.mem_map]

lemma rep_new (p : Setup) (height : Int) (preCheck : Option PreCheckFunc)
    (postCheck : Option PostCheckFunc) :
    Rep p (p.new height preCheck postCheck : Pool κ) := by
  refine ⟨List.nodup_nil, fun k e => ?_, rfl, p.config.size_nonneg, p.config.maxTxsBytes_nonneg⟩
  constructor
  · intro h
    cases h
  rintro ⟨m, hm, -⟩
  cases hm

/-- The map knows exactly the keys of the transactions. -/
lemma Rep.lookup_eq_none (hr : Rep p s) {k : TxKey} :
    s.txsMap.lookup k = none ↔ k ∉ s.content.map p.key := by
  rw [Option.eq_none_iff_forall_not_mem, List.mem_map]
  constructor
  · intro h hk
    obtain ⟨tx, htx, rfl⟩ := hk
    obtain ⟨⟨e, m⟩, hm, rfl⟩ := mem_content.mp htx
    exact h e ((hr.map _ e).mpr ⟨m, hm, rfl⟩)
  intro h e he
  obtain ⟨m, hm, rfl⟩ := (hr.map k e).mp he
  exact h ⟨m.tx, mem_content.mpr ⟨(e, m), hm, rfl⟩, rfl⟩

-- ==== adding

lemma content_addTx (p : Setup) (m : MempoolTx) (s : Pool κ) :
    (p.addTx m s).content = s.content ++ [m.tx] := by
  show ((s.txs.pushBack m).1.values).map MempoolTx.tx = _
  rw [values_pushBack, List.map_append]
  rfl

lemma Rep.addTx (hr : Rep p s) {m : MempoolTx}
    (hnew : s.txsMap.lookup (p.key m.tx) = none)
    (hroom : p.isFull m.tx.length s = none) : Rep p (p.addTx m s) := by
  have hcontent := content_addTx p m s
  have hfull : ¬ (p.config.size ≤ s.size ∨ p.config.maxTxsBytes < m.tx.length + s.txsBytes) := by
    intro h
    unfold isFull at hroom
    rw [if_pos h] at hroom
    cases hroom
  push Not at hfull
  refine ⟨?_, fun k e => ?_, ?_, ?_, ?_⟩
  · rw [hcontent, List.map_append, List.map_singleton, List.nodup_append]
    refine ⟨hr.keys, List.nodup_singleton _, ?_⟩
    intro a ha b hb
    rw [List.mem_singleton] at hb
    subst hb
    exact fun h => hr.lookup_eq_none.mp hnew (h ▸ ha)
  · show (s.txsMap.insert (p.key m.tx) s.txs.fresh).lookup k = some e
      ↔ ∃ m', (e, m') ∈ s.txs.elems ++ [(s.txs.fresh, m)] ∧ p.key m'.tx = k
    by_cases hk : k = p.key m.tx
    · subst hk
      rw [lookup_insert]
      constructor
      · intro h
        cases h
        exact ⟨m, List.mem_append_right _ (List.mem_singleton.mpr rfl), rfl⟩
      rintro ⟨m', hm', hkey⟩
      rcases List.mem_append.mp hm' with hm' | hm'
      · have := (hr.map _ e).mpr ⟨m', hm', hkey⟩
        rw [hnew] at this
        cases this
      cases List.mem_singleton.mp hm'
      rfl
    rw [lookup_insert_ne hk, hr.map]
    constructor
    · rintro ⟨m', hm', hkey⟩
      exact ⟨m', List.mem_append_left _ hm', hkey⟩
    rintro ⟨m', hm', hkey⟩
    rcases List.mem_append.mp hm' with hm' | hm'
    · exact ⟨m', hm', hkey⟩
    cases List.mem_singleton.mp hm'
    exact absurd hkey.symm hk
  · rw [hcontent, List.map_append, List.sum_append, ← hr.bytes]
    simp [Setup.addTx]
  · have hsize : (p.addTx m s).size = s.size + 1 := by
      show ((s.txs.elems ++ [(s.txs.fresh, m)]).length : Int) = _
      simp [size, len]
    omega
  show s.txsBytes + (m.tx.length : Int) ≤ _
  omega

-- ==== removing

def Pool.without (s : Pool κ) (k : TxKey) : Pool κ :=
  match s.txsMap.lookup k with
  | none => s
  | some e =>
    { s with
      txs := s.txs.remove e
      txsMap := s.txsMap.erase k
      txsBytes := s.txsBytes - ((s.txs.value e).elim 0 fun m => (m.tx.length : Int)) }

lemma Rep.without (hr : Rep p s) (k : TxKey) : Rep p (s.without k) := by
  unfold Pool.without
  cases hk : s.txsMap.lookup k with
  | none => exact hr
  | some e =>
    obtain ⟨m, hm, rfl⟩ := (hr.map k e).mp hk
    obtain ⟨before, after, hsplit⟩ := List.append_of_mem hm
    have hperm : s.content.Perm (m.tx :: ((s.txs.remove e).elems.map fun x => x.2.tx)) := by
      rw [content_eq, hsplit, elems_remove hsplit]
      exact List.perm_middle.map _
    have hlen : (s.txs.value e).elim 0 (fun m => (m.tx.length : Int)) = m.tx.length := by
      rw [value_of_mem hm]
      rfl
    dsimp only
    refine ⟨?_, fun k' e' => ?_, ?_, ?_, ?_⟩
    · rw [content_eq]
      exact (List.nodup_cons.mp ((hperm.map _).nodup_iff.mp hr.keys)).2
    · show (s.txsMap.erase (p.key m.tx)).lookup k' = some e' ↔ _
      simp only [mem_elems_remove]
      by_cases hkk : k' = p.key m.tx
      · subst hkk
        rw [lookup_erase]
        constructor
        · intro h
          cases h
        rintro ⟨m', ⟨hm', hne⟩, hkey⟩
        have := (hr.map _ e').mpr ⟨m', hm', hkey⟩
        rw [hk] at this
        cases this
        exact absurd rfl hne
      rw [lookup_erase_ne hkk, hr.map]
      constructor
      · rintro ⟨m', hm', hkey⟩
        refine ⟨m', ⟨hm', fun he => ?_⟩, hkey⟩
        subst he
        rw [elems_unique hm' hm] at hkey
        exact hkk hkey.symm
      rintro ⟨m', ⟨hm', -⟩, hkey⟩
      exact ⟨m', hm', hkey⟩
    · have hbytes := hr.bytes
      rw [(hperm.map _).sum_eq, List.map_cons, List.sum_cons] at hbytes
      rw [content_eq]
      dsimp only
      omega
    · have hsize := hperm.length_eq
      have hle := hr.size_le
      simp only [content_eq, List.length_map, List.length_cons] at hsize
      unfold size len at *
      dsimp only
      omega
    show s.txsBytes - _ ≤ _
    have := hr.bytes_le
    omega

/-- Removing by key leaves the other keys. -/
lemma Rep.content_without (hr : Rep p s) (k : TxKey) :
    (s.without k).content = s.content.filter fun tx => p.key tx ≠ k := by
  unfold Pool.without
  cases hk : s.txsMap.lookup k with
  | none =>
    refine (List.filter_eq_self.mpr fun tx htx => ?_).symm
    have hne : p.key tx ≠ k := fun h => hr.lookup_eq_none.mp hk (h ▸ List.mem_map_of_mem htx)
    simpa using hne
  | some e =>
    rw [content_eq, content_eq, List.filter_map]
    show ((s.txs.elems.filter fun x => x.1 ≠ e).map fun x => x.2.tx) = _
    congr 1
    refine List.filter_congr fun x hx => ?_
    -- the element of the key is the only one with it
    have hiff : x.1 = e ↔ p.key x.2.tx = k := by
      constructor
      · intro he
        subst he
        obtain ⟨m, hm, hkey⟩ := (hr.map k x.1).mp hk
        rw [elems_unique hx hm]
        exact hkey
      intro hkey
      have := (hr.map k x.1).mpr ⟨x.2, hx, hkey⟩
      rw [hk] at this
      cases this
      rfl
    simp [hiff]

def Pool.withoutAll (s : Pool κ) (ks : List TxKey) : Pool κ := ks.foldl Pool.without s

lemma Rep.withoutAll (hr : Rep p s) (ks : List TxKey) :
    Rep p (s.withoutAll ks) := by
  induction ks generalizing s with
  | nil => exact hr
  | cons k ks ih => exact ih (hr.without k)

lemma Rep.content_withoutAll (hr : Rep p s) (ks : List TxKey) :
    (s.withoutAll ks).content = s.content.filter fun tx => p.key tx ∉ ks := by
  unfold Pool.withoutAll
  induction ks generalizing s with
  | nil => simp
  | cons k ks ih =>
    rw [List.foldl_cons, ih (hr.without k), hr.content_without, List.filter_filter]
    refine List.filter_congr fun tx _ => ?_
    simp [Bool.and_comm]

lemma SameStock.without (h : SameStock s s') (k : TxKey) :
    SameStock (s.without k) (s'.without k) := by
  unfold Pool.without
  rw [h.txsMap]
  cases s.txsMap.lookup k with
  | none => exact h
  | some e =>
    simp only [h.txs, h.txsBytes]
    exact ⟨rfl, rfl, rfl⟩

lemma SameStock.withoutAll (h : SameStock s s') (ks : List TxKey) :
    SameStock (s.withoutAll ks) (s'.withoutAll ks) := by
  induction ks generalizing s s' with
  | nil => exact h
  | cons k ks ih => exact ih (h.without k)

-- ==== the actions

/-- Everything but the transactions and the cache is the same. -/
structure SameRest (s s' : Pool κ) : Prop where
  height : s'.height = s.height
  notified : s'.notifiedTxsAvailable = s.notifiedTxsAvailable
  available : s'.txsAvailable = s.txsAvailable
  postCheck : s'.postCheck = s.postCheck
  recheck : s'.recheck = s.recheck
  requests : s'.requests = s.requests
  updating : s'.updating = s.updating
  crashed : s'.crashed = s.crashed

lemma SameRest.refl (s : Pool κ) : SameRest s s :=
  ⟨rfl, rfl, rfl, rfl, rfl, rfl, rfl, rfl⟩

lemma SameRest.trans {t : Pool κ} (h : SameRest s s') (h' : SameRest s' t) :
    SameRest s t :=
  ⟨h'.height.trans h.height, h'.notified.trans h.notified,
    h'.available.trans h.available, h'.postCheck.trans h.postCheck, h'.recheck.trans h.recheck,
    h'.requests.trans h.requests, h'.updating.trans h.updating, h'.crashed.trans h.crashed⟩

lemma sameRest_without (s : Pool κ) (k : TxKey) :
    SameRest s (s.without k) := by
  unfold without
  cases s.txsMap.lookup k with
  | none => exact SameRest.refl s
  | some e => exact ⟨rfl, rfl, rfl, rfl, rfl, rfl, rfl, rfl⟩

lemma setCache_stock (s : Pool κ) (cache : TxCache TxKey) :
    SameStock s (s.setCache cache) := ⟨rfl, rfl, rfl⟩

lemma setCache_rest (s : Pool κ) (cache : TxCache TxKey) :
    SameRest s (s.setCache cache) :=
  ⟨rfl, rfl, rfl, rfl, rfl, rfl, rfl, rfl⟩

lemma forgetInvalid_same (p : Setup) (tx : Tx) (s : Pool κ) :
    SameStock s (p.forgetInvalid tx s)
      ∧ SameRest s (p.forgetInvalid tx s) := by
  unfold forgetInvalid
  split
  · exact ⟨SameStock.refl s, SameRest.refl s⟩
  exact ⟨setCache_stock s _, setCache_rest s _⟩

lemma noteCommitted_same (p : Setup) (tx : Tx) (code : Nat) (s : Pool κ) :
    SameStock s (p.noteCommitted tx code s)
      ∧ SameRest s (p.noteCommitted tx code s) := by
  unfold noteCommitted
  split
  · exact ⟨setCache_stock s _, setCache_rest s _⟩
  exact forgetInvalid_same p tx s

lemma Rep.removeTxByKey (hr : Rep p s) (k : TxKey) : removeTxByKey k s
    = if (s.txsMap.lookup k).isSome then .ok () (s.without k)
      else .error (.error .txNotFound) s := by
  show (match s.txsMap.lookup k with
    | none => throw (.error .txNotFound)
    | some e =>
      if s.txs.live e then
        set { s with
          txs := s.txs.remove e
          txsMap := s.txsMap.erase k
          txsBytes := s.txsBytes - ((s.txs.value e).elim 0 fun m => (m.tx.length : Int)) }
      else throw (.panic .falseHead) : Action κ Unit) s = _
  unfold Pool.without
  cases hk : s.txsMap.lookup k with
  | none => rfl
  | some e =>
    obtain ⟨m, hm, -⟩ := (hr.map k e).mp hk
    simp only [live_of_mem hm, if_true]
    rfl

lemma Rep.tryRemove (hr : Rep p s) (k : TxKey) :
    tryRemove k s = .ok () (s.without k) := by
  show (if (s.txsMap.lookup k).isSome then Setup.removeTxByKey k
    else return () : Action κ Unit) s = _
  cases hk : s.txsMap.lookup k with
  | none =>
    unfold Pool.without
    rw [hk]
    rfl
  | some e =>
    simp only [Option.isSome_some, if_true]
    rw [hr.removeTxByKey, hk]
    rfl

lemma Rep.removeCommitted (hr : Rep p s) (committed : List (Tx × Nat)) :
    ∃ s', p.removeCommitted committed s = .ok () s'
      ∧ SameStock (s.withoutAll (committed.map fun x => p.key x.1)) s'
      ∧ SameRest s s' := by
  induction committed generalizing s with
  | nil => exact ⟨s, rfl, SameStock.refl s, SameRest.refl s⟩
  | cons x rest ih =>
    obtain ⟨tx, code⟩ := x
    obtain ⟨hstock, hrest⟩ := noteCommitted_same p tx code s
    have hr₁ := hstock.rep hr
    obtain ⟨s₂, hs₂, hstock₂, hrest₂⟩ := ih (hr₁.without (p.key tx))
    refine ⟨s₂, ?_, ?_, ?_⟩
    · unfold removeCommitted
      show EStateM.bind _ _ (p.noteCommitted tx code s) = _
      unfold EStateM.bind
      rw [hr₁.tryRemove]
      exact hs₂
    · exact ((hstock.without (p.key tx)).withoutAll _).trans hstock₂
    exact (hrest.trans (sameRest_without _ _)).trans hrest₂

lemma recheckTxs_stock (conn : AppConn) :
    SameStock s (perform (recheckTxs conn) s) := by
  have hrun : recheckTxs conn s = (if s.size ≤ 0 then return ()
        else if s.recheck.done then
          if conn.accepts then modify askAgain
          else throw (.panic .checkTxRequest)
        else throw (.panic .recheckTwice) : Action κ Unit) s := rfl
  unfold perform
  rw [hrun]
  split_ifs
  · exact SameStock.refl s
  all_goals exact ⟨rfl, rfl, rfl⟩

lemma Rep.update (hr : Rep p s) (conn : AppConn) (height : Int)
    (committed : List (Tx × Nat)) (preCheck : Option PreCheckFunc)
    (postCheck : Option PostCheckFunc) :
    SameStock (s.withoutAll (committed.map fun x => p.key x.1))
      (perform (p.update conn height committed preCheck postCheck) s) := by
  have hstart : SameStock s (startUpdate height preCheck postCheck s) := ⟨rfl, rfl, rfl⟩
  obtain ⟨s₁, hs₁, hstock, -⟩ := (hstart.rep hr).removeCommitted committed
  have hrun : p.update conn height committed preCheck postCheck s
      = (if p.config.recheck then recheckTxs conn else return () : Action κ Unit) s₁ := by
    show EStateM.bind (p.removeCommitted committed) _ (startUpdate height preCheck postCheck s) = _
    unfold EStateM.bind
    rw [hs₁]
  refine ((hstart.withoutAll _).trans hstock).trans ?_
  unfold perform
  rw [hrun]
  split_ifs
  · exact recheckTxs_stock conn
  exact SameStock.refl s₁

def Setup.admits (p : Setup) (tx : Tx) (res : Response) (s : Pool κ) : Bool :=
  s.recheck.done && s.valid tx res && (p.isFull tx.length s).isNone
    && (s.txsMap.lookup (p.key tx)).isNone

lemma resCbFirstTime_stock (p : Setup) (tx : Tx) (res : Response)
    (hdone : s.recheck.done = true) :
    SameStock (if p.admits tx res s then p.addTx ⟨s.height, res.gasWanted, tx⟩ s else s)
    (p.resCbFirstTime tx res s) := by
  unfold resCbFirstTime admits
  rw [hdone]
  cases s.valid tx res with
  | false => exact (forgetInvalid_same p tx s).1
  | true =>
    cases p.isFull tx.length s with
    | some e => exact setCache_stock s _
    | none =>
      cases s.txsMap.lookup (p.key tx) with
      | some e => exact SameStock.refl s
      | none => exact SameStock.refl _

/-- The pool once a request is answered, before its callbacks run. -/
def Pool.answered (s : Pool κ) (i : Nat) : Pool κ := { s with requests := s.requests.eraseIdx i }

lemma bind_pure_eq (m : Action κ α) (f : α → β) (s : Pool κ) :
    (do return f (← m) : Action κ β) s = match m s with
    | .ok a s' => .ok (f a) s'
    | .error e s' => .error e s' := by
  show EStateM.bind m (fun a => pure (f a)) s = _
  unfold EStateM.bind
  cases m s with
  | ok a s' => rfl
  | error e s' => rfl

lemma perform_bind_pure (m : Action κ α) (f : α → β)
    (s : Pool κ) : perform (do return f (← m)) s = perform m s := by
  unfold perform
  rw [bind_pure_eq]
  cases m s with
  | ok a s' => rfl
  | error e s' =>
    cases e with
    | error e => rfl
    | panic q => rfl

/-- What the answer to a request runs, on the state without the request. -/
def Setup.callbacks (p : Setup) (r : Request κ) (res : Response) : Action κ (Option (Tx × κ)) :=
  match r.callback with
  | some callback => do
      return (fun _ => some (r.tx, callback)) (← p.reqResCb r.tx res)
  | none => do
      return (fun _ => none) (← p.globalCb r.tx res)

lemma respond_eq (p : Setup) (i : Nat) (res : Response) (s : Pool κ) :
    p.respond i res s = match s.requests[i]? with
    | none => .ok none s
    | some r => p.callbacks r res (s.answered i) := by
  show (match s.requests[i]? with
    | none => return none
    | some r => do
        modify fun s => { s with requests := s.requests.eraseIdx i }
        match r.callback with
        | some callback => do
            p.reqResCb r.tx res
            return some (r.tx, callback)
        | none => do
            p.globalCb r.tx res
            return none : Action κ (Option (Tx × κ))) s = _
  cases s.requests[i]? with
  | none => rfl
  | some r => rfl

variable {i : Nat} {r : Request κ}

lemma perform_respond (hreq : s.requests[i]? = some r) (res : Response) :
    perform (p.respond i res) s = match r.callback with
    | some _ => perform (p.reqResCb r.tx res) (s.answered i)
    | none => perform (p.globalCb r.tx res) (s.answered i) := by
  have hperf : perform (p.respond i res) s = perform (p.callbacks r res) (s.answered i) := by
    unfold perform
    rw [respond_eq, hreq]
  rw [hperf]
  unfold callbacks
  cases r.callback with
  | some callback => exact perform_bind_pure (p.reqResCb r.tx res) _ _
  | none => exact perform_bind_pure (p.globalCb r.tx res) _ _

lemma perform_respond_none (hreq : s.requests[i]? = none)
    (res : Response) : perform (p.respond i res) s = s := by
  unfold perform
  rw [respond_eq, hreq]

lemma reqResCb_stock (p : Setup) (tx : Tx) (res : Response) :
    SameStock (if p.admits tx res s then p.addTx ⟨s.height, res.gasWanted, tx⟩ s else s)
    (perform (p.reqResCb tx res) s) := by
  have hrun : p.reqResCb tx res s = (if s.recheck.done then modify (p.resCbFirstTime tx res)
        else throw (.panic .recheckUnfinished) : Action κ Unit) s := rfl
  unfold perform
  rw [hrun]
  cases hdone : s.recheck.done with
  | true => exact resCbFirstTime_stock p tx res hdone
  | false =>
    have hadm : p.admits tx res s = false := by
      unfold admits
      rw [hdone]
      rfl
    rw [hadm]
    exact ⟨rfl, rfl, rfl⟩

/-- The answer to a first check adds the transaction or leaves the pool
alone. -/
lemma respond_new (hreq : s.requests[i]? = some r) (hcb : r.callback ≠ none) (res : Response) :
    SameStock (if p.admits r.tx res s then p.addTx ⟨s.height, res.gasWanted, r.tx⟩ s else s)
    (perform (p.respond i res) s) := by
  have hans : SameStock (if p.admits r.tx res s
        then p.addTx ⟨s.height, res.gasWanted, r.tx⟩ s else s)
      (if p.admits r.tx res (s.answered i)
        then p.addTx ⟨s.height, res.gasWanted, r.tx⟩ (s.answered i)
        else s.answered i) := by
    show SameStock _ (if p.admits r.tx res s then _ else _)
    split_ifs
    all_goals exact ⟨rfl, rfl, rfl⟩
  rw [perform_respond hreq]
  cases hc : r.callback with
  | none => exact absurd hc hcb
  | some callback => exact hans.trans (reqResCb_stock p r.tx res)

/-- The answer to a recheck removes the transaction, if it is invalid, or
leaves the pool alone. -/
lemma Rep.globalCb (hr : Rep p s) (tx : Tx) (res : Response) :
    SameStock s (perform (p.globalCb tx res) s) ∨ s.valid tx res = false
      ∧ SameStock (s.without (p.key tx)) (perform (p.globalCb tx res) s) := by
  have hrun : p.globalCb tx res s = (if s.recheck.done then return ()
        else p.resCbRecheck tx res : Action κ Unit) s := rfl
  unfold perform
  rw [hrun]
  by_cases hdone : s.recheck.done = true
  · rw [if_pos hdone]
    exact .inl (SameStock.refl s)
  rw [if_neg hdone]
  dsimp only [resCbRecheck, Bind.bind, EStateM.bind, MonadState.get, getThe, MonadStateOf.get,
    EStateM.get]
  cases hfind : s.recheck.findNextEntryMatching s.txs tx with
  | none => exact .inl ⟨rfl, rfl, rfl⟩
  | some x =>
    obtain ⟨found, recheck⟩ := x
    have hset : SameStock s (s.setRecheck recheck) := ⟨rfl, rfl, rfl⟩
    by_cases hinv : (found && !s.valid tx res) = true
    · right
      rw [Bool.and_eq_true, Bool.not_eq_true'] at hinv
      refine ⟨hinv.2, ?_⟩
      simp only [hinv.1, hinv.2, Bool.not_false, Bool.and_self, if_true]
      refine (hset.without _).trans ?_
      show SameStock _ (perform (EStateM.bind (Setup.tryRemove (p.key tx))
        fun _ => modify (p.forgetInvalid tx)) (s.setRecheck recheck))
      unfold perform EStateM.bind
      rw [(hset.rep hr).tryRemove]
      exact (forgetInvalid_same p tx _).1
    left
    simp only [hinv]
    exact hset

variable {X : Failure → Prop} {res : Response}

/-- A function leads to its final state by effects; a panic is noted
there. -/
lemma does_perform {r : Pool κ → Pool κ → Prop}
    {m : Action κ α} {Q : α → Pool κ → Prop} (h : Does r X m s Q) :
    ∃ s₁, Relation.ReflTransGen r s s₁ ∧ (perform m s = s₁ ∨ ∃ q, X (.panic q)
      ∧ perform m s = { s₁ with crashed := some q }) := by
  unfold Does at h
  unfold perform
  revert h
  cases m s with
  | ok a s' => exact fun h => ⟨s', h.1, .inl rfl⟩
  | error e s' =>
    intro h
    cases e with
    | error e => exact ⟨s', h.1, .inl rfl⟩
    | panic q => exact ⟨s', h.1, .inr ⟨q, h.2, rfl⟩⟩

lemma does_check {r : Pool κ → Pool κ → Prop} {g : Unit → Action κ β}
    {R : β → Pool κ → Prop} (err : Option MempoolError)
    (hX : ∀ e, X (.error e)) (hg : Does r X (g ()) s R) :
    Does r X (check err >>= g) s R := by
  cases err with
  | some e => exact ⟨.refl, hX e⟩
  | none => exact hg

structure SameFlags (s s' : Pool κ) : Prop where
  notified : s'.notifiedTxsAvailable = s.notifiedTxsAvailable
  available : s'.txsAvailable = s.txsAvailable
  updating : s'.updating = s.updating
  crashed : s'.crashed = s.crashed

lemma checkTx_does (p : Setup) (conn : AppConn) (tx : Tx) (callback : κ)
    (s : Pool κ) :
    Does (fun s s' => SameStock s s' ∧ SameFlags s s')
      (fun e => e ≠ .panic .notifiedEmpty) (p.checkTx conn tx callback) s
      (fun _ _ => True) := by
  refine get_bind (does_check _ (fun e h => by cases h) ?_)
  split
  · exact of_throw (fun h => by cases h)
  refine does_check _ (fun e h => by cases h) (does_check _ (fun e h => by cases h) ?_)
  refine modify_bind ⟨setCache_stock s _, ⟨rfl, rfl, rfl, rfl⟩⟩ ?_
  split
  · split
    · exact of_modify ⟨⟨rfl, rfl, rfl⟩, ⟨rfl, rfl, rfl, rfl⟩⟩ trivial
    exact of_throw (fun h => by cases h)
  exact of_throw (fun h => by cases h)

lemma checkTx_stock (p : Setup) (conn : AppConn) (tx : Tx) (callback : κ)
    (s : Pool κ) : SameStock s (perform (p.checkTx conn tx callback) s) := by
  obtain ⟨s₁, hs₁, hend⟩ := does_perform (checkTx_does p conn tx callback s)
  have hsame : SameStock s s₁ := invariant_of_effects
    (I := SameStock s) (fun _ _ h hI => hI.trans h.1) hs₁ (SameStock.refl s)
  rcases hend with hend | ⟨q, -, hend⟩
  · rw [hend]
    exact hsame
  rw [hend]
  exact { hsame with }

lemma notify_eq (s : Pool κ) : notifyTxsAvailable s
    = (if s.size = 0 then throw (.panic .notifiedEmpty)
      else if s.txsAvailable.isSome && !s.notifiedTxsAvailable then
        set { s with notifiedTxsAvailable := true, txsAvailable := some true }
      else return () : Action κ Unit) s := rfl

lemma notify_stock (s : Pool κ) :
    SameStock s (perform notifyTxsAvailable s) := by
  unfold perform
  rw [notify_eq]
  split_ifs
  · exact ⟨rfl, rfl, rfl⟩
  · exact ⟨rfl, rfl, rfl⟩
  exact SameStock.refl s

-- ==== one operation

inductive StockStep (p : Setup) (s : Pool κ) : Op κ → Pool κ → Prop
  | keep {op : Op κ} {s' : Pool κ} (h : SameStock s s') : StockStep p s op s'
  | add {i : Nat} {res : Response} {r : Request κ} {s' : Pool κ}
      (hreq : s.requests[i]? = some r) (hcb : r.callback ≠ none) (hadm : p.admits r.tx res s = true)
      (h : SameStock (p.addTx ⟨s.height, res.gasWanted, r.tx⟩ s) s') :
      StockStep p s (.respond i res) s'
  | invalidate {i : Nat} {res : Response} {r : Request κ} {s' : Pool κ}
      (hreq : s.requests[i]? = some r) (hcb : r.callback = none) (hinv : s.valid r.tx res = false)
      (h : SameStock (s.without (p.key r.tx)) s') : StockStep p s (.respond i res) s'
  | remove {k : TxKey} {s' : Pool κ} (h : SameStock (s.without k) s') :
      StockStep p s (.removeTxByKey k) s'
  | update {conn : AppConn} {height : Int} {committed : List (Tx × Nat)}
      {preCheck : Option PreCheckFunc} {postCheck : Option PostCheckFunc} {s' : Pool κ}
      (h : SameStock (s.withoutAll (committed.map fun x => p.key x.1)) s') :
      StockStep p s (.update conn height committed preCheck postCheck) s'
  | flush {s' : Pool κ} (h : SameStock (Setup.flush s) s') : StockStep p s .flush s'

lemma apply_stock (hr : Rep p s) (op : Op κ) :
    StockStep p s op (p.apply s op) := by
  unfold apply
  split
  · exact .keep (SameStock.refl s)
  cases op with
  | enableTxsAvailable => exact .keep ⟨rfl, rfl, rfl⟩
  | checkTx conn tx callback => exact .keep (checkTx_stock p conn tx callback s)
  | respond i res =>
    simp only
    cases hreq : s.requests[i]? with
    | none =>
      rw [perform_respond_none hreq]
      exact .keep (SameStock.refl s)
    | some r =>
      cases hcb : r.callback with
      | some callback =>
        have hne : r.callback ≠ none := by
          rw [hcb]
          exact Option.some_ne_none _
        have h := respond_new (p := p) hreq hne res
        by_cases hadm : p.admits r.tx res s = true
        · rw [if_pos hadm] at h
          exact .add hreq hne hadm h
        rw [if_neg hadm] at h
        exact .keep h
      | none =>
        have hans : SameStock s (s.answered i) := ⟨rfl, rfl, rfl⟩
        rw [perform_respond hreq, hcb]
        rcases (hans.rep hr).globalCb r.tx res with h | ⟨hinv, h⟩
        · exact .keep (hans.trans h)
        exact .invalidate hreq hcb hinv ((hans.without _).trans h)
  | removeTxByKey k =>
    simp only [perform]
    rw [hr.removeTxByKey]
    split_ifs
    · exact .remove (SameStock.refl _)
    exact .keep (SameStock.refl s)
  | lock => exact .keep ⟨rfl, rfl, rfl⟩
  | update conn height committed preCheck postCheck =>
    simp only
    split_ifs
    · exact .keep (SameStock.refl s)
    exact .update (hr.update conn height committed preCheck postCheck)
  | recheckDone | recheckTimeout =>
    simp only [recheckDone, recheckTimeout]
    split_ifs
    · exact .keep ⟨rfl, rfl, rfl⟩
    exact .keep (SameStock.refl s)
  | flush => exact .flush (SameStock.refl _)
  | notifyTxsAvailable => exact .keep (notify_stock s)

lemma apply_respond_none (hreq : s.requests[i]? = none)
    (res : Response) : p.apply s (.respond i res) = s := by
  unfold apply
  split
  · rfl
  exact perform_respond_none hreq res

def Op.keeps (s : Pool κ) : Op κ → Prop
  | .respond _ _ => False
  | .update .. => False
  | .flush => False
  | .removeTxByKey k => s.txsMap.lookup k = none
  | _ => True

lemma content_keeps (hr : Rep p s) (hop : op.keeps s) :
    (p.apply s op).content = s.content := by
  have hstock := apply_stock hr op
  revert hstock
  generalize p.apply s op = s'
  intro hstock
  cases hstock with
  | keep h => exact h.content
  | add | invalidate => exact hop.elim
  | @remove k _ h =>
    rw [h.content]
    unfold without
    rw [show s.txsMap.lookup k = none from hop]
  | update | flush => exact hop.elim

/-- The answer to a first check, if the mempool did not panic before. -/
lemma content_respond_new (hc : s.crashed = none) (hreq : s.requests[i]? = some r)
    (hcb : r.callback ≠ none) (res : Response) :
    (p.apply s (.respond i res)).content
    = if p.admits r.tx res s then s.content ++ [r.tx] else s.content := by
  have hnew := (respond_new (p := p) hreq hcb res).content
  have happly : p.apply s (.respond i res) = perform (p.respond i res) s := by
    simp only [apply, hc, Option.isSome_none]
    rfl
  rw [happly, hnew]
  split_ifs
  · exact content_addTx p _ s
  rfl

/-- The answer to a recheck that removes nothing. -/
lemma content_respond_recheck (hr : Rep p s)
    (hreq : s.requests[i]? = some r) (hcb : r.callback = none)
    (hkeep : s.valid r.tx res = true ∨ s.txsMap.lookup (p.key r.tx) = none) :
    (p.apply s (.respond i res)).content = s.content := by
  have hstock := apply_stock hr (.respond i res)
  revert hstock
  generalize p.apply s (.respond i res) = s'
  intro hstock
  cases hstock with
  | keep h => exact h.content
  | add hreq' hcb' hadm h =>
    rw [hreq] at hreq'
    cases hreq'
    exact absurd hcb hcb'
  | invalidate hreq' hcb' hinv h =>
    rw [hreq] at hreq'
    cases hreq'
    rcases hkeep with hkeep | hkeep
    · rw [hkeep] at hinv
      cases hinv
    rw [h.content]
    unfold without
    rw [hkeep]

lemma content_flush (s : Pool κ) : (flush s).content = [] := by
  rw [content_eq]
  show s.txs.removeAll.elems.map _ = []
  rw [elems_removeAll]
  rfl

/-- Only an answer of the application adds a transaction. -/
lemma StockStep.content_sublist (h : StockStep p s op s') (hr : Rep p s)
    (hop : ∀ i res, op ≠ .respond i res) : s'.content.Sublist s.content := by
  cases h with
  | keep h => rw [h.content]
  | add hreq hcb hadm h
  | invalidate hreq hcb hinv h => exact absurd rfl (hop _ _)
  | remove h =>
    rw [h.content, hr.content_without]
    exact List.filter_sublist
  | update h =>
    rw [h.content, hr.content_withoutAll]
    exact List.filter_sublist
  | flush h =>
    rw [h.content, content_flush]
    exact List.nil_sublist _

lemma StockStep.content_recheck (h : StockStep p s (.respond i res) s')
    (hr : Rep p s) (hre : ∀ r, s.requests[i]? = some r → r.callback = none) :
    s'.content.Sublist s.content := by
  cases h with
  | keep h => rw [h.content]
  | add hreq hcb hadm h => exact absurd (hre _ hreq) hcb
  | invalidate hreq hcb hinv h =>
    rw [h.content, hr.content_without]
    exact List.filter_sublist

lemma rep_flush (p : Setup) (s : Pool κ) : Rep p (flush s) := by
  have hcontent := content_flush s
  refine ⟨?_, fun k e => ?_, ?_, ?_, p.config.maxTxsBytes_nonneg⟩
  · rw [hcontent]
    exact List.nodup_nil
  · show (∅ : HashMap TxKey Nat).lookup k = some e
      ↔ ∃ m, (e, m) ∈ s.txs.removeAll.elems ∧ p.key m.tx = k
    rw [elems_removeAll]
    simp
  · rw [hcontent]
    rfl
  show (s.txs.removeAll.elems.length : Int) ≤ _
  rw [elems_removeAll]
  exact p.config.size_nonneg

lemma StockStep.rep (h : StockStep p s op s') (hr : Rep p s) : Rep p s' := by
  cases h with
  | keep h => exact h.rep hr
  | add hreq hcb hadm h =>
    refine h.rep (hr.addTx ?_ ?_)
    · unfold admits at hadm
      simp only [Bool.and_eq_true, Option.isNone_iff_eq_none] at hadm
      exact hadm.2
    unfold admits at hadm
    simp only [Bool.and_eq_true, Option.isNone_iff_eq_none] at hadm
    exact hadm.1.2
  | invalidate hreq hcb hinv h | remove h => exact h.rep (hr.without _)
  | update h => exact h.rep (hr.withoutAll _)
  | flush h => exact h.rep (rep_flush p s)

lemma run_rep (hr : Rep p s) (ops : List (Op κ)) :
    Rep p (p.runFrom s ops) := by
  induction ops using List.reverseRecOn with
  | nil => exact hr
  | append_singleton ops op ih =>
    rw [p.runFrom_concat]
    exact (apply_stock ih op).rep ih

/-- After any operations on a new mempool, with the answers of the
application in any order, the list, the map and the byte counter agree and
are within the limits. -/
theorem mempool_representation (p : Setup) (height : Int)
    (preCheck : Option PreCheckFunc) (postCheck : Option PostCheckFunc)
    (ops : List (Op κ)) :
    Rep p (p.runFrom (p.new height preCheck postCheck) ops) :=
  run_rep (rep_new p height preCheck postCheck) ops

end HetuEngine.Mempool
