/-
Whether the transactions known by their hash are those in the mempool.

`txsByHash` is written when a callback sees that the application accepted
the transaction, and loses hashes in `Update` and `Flush` only. The wrapped
mempool also refuses an accepted transaction when it is full or the
post-check fails, drops one that a recheck finds invalid, and removes one on
`RemoveTxByKey`. Each of these leaves a hash without its transaction
(`hashes_tracked_fails`), and a batch with such a hash counts as complete.

`hashes_tracked` says when the two agree. Between an answer and its
callback, and inside `Update` and `Flush`, they differ by what is on its
way: `tracked` counts the hashes a callback is about to store, `leaving`
those no longer in the map but still in the mempool.
-/
import HetuEngine.Lib.Along
import HetuEngine.Mempool.Proofs.Flags
import HetuEngine.Mempool.Proofs.Steps
import HetuEngine.Narwhal.Proofs.Identity

namespace HetuEngine.Mempool

open Lib List Solo Mempool.System Setup
open Narwhal (Bytes32.bytes_inj)

-- ==== hashes

lemma hexDigit_inj : ∀ a < 16, ∀ b < 16, hexDigit a = hexDigit b → a = b := by
  decide +kernel

lemma hexText_inj {xs ys : List UInt8} (h : hexText xs = hexText ys) :
    xs = ys := by
  induction xs generalizing ys with
  | nil =>
    cases ys with
    | nil => rfl
    | cons y ys => cases h
  | cons x xs ih =>
    cases ys with
    | nil => cases h
    | cons y ys =>
      unfold hexText at h
      simp only [flatMap_cons, cons_append, nil_append, cons.injEq] at h
      obtain ⟨hhigh, hlow, hrest⟩ := h
      have hx := x.toNat_lt
      have hy := y.toNat_lt
      have hdiv := hexDigit_inj _ (by omega) _ (by omega) hhigh
      have hmod := hexDigit_inj _ (by omega) _ (by omega) hlow
      have hxy : x = y := UInt8.toNat_inj.mp (by omega)
      rw [hxy, ih hrest]

lemma System.hash_eq_iff (p : System) {tx tx' : Tx} :
    p.hash tx = p.hash tx' ↔ p.key tx = p.key tx' := by
  constructor
  · intro h
    exact Bytes32.bytes_inj (hexText_inj h)
  intro h
  unfold hash
  rw [show p.sha256 tx = p.sha256 tx' from h]

variable {tx : Tx} {i : Nat} {r : Request Caller} {res : Response}
  {height : Int} {postCheck : Option PostCheckFunc}
  {preCheck : Option PreCheckFunc}

lemma System.hash_mem_iff (p : System) {txs : List (Tx × Nat)} :
    p.hash tx ∈ txs.map (fun x => p.hash x.1)
      ↔ p.key tx ∈ txs.map fun x => p.key x.1 := by
  simp only [mem_map, p.hash_eq_iff]

-- ==== definitions

def Updater.committed : Updater → List (Tx × Nat)
  | .idle => []
  | .mapUpdated _ committed _ _ => committed

variable {p : System} {n n' : Node} {e : Event}

/-- A hash that is in the map, or that a callback is about to store. -/
def System.tracked (p : System) (n : Node) (h : Bytes) : Prop :=
  (n.txsByHash.lookup h).isSome = true ∨ ∃ x ∈ n.callbacks, x.2.code = codeTypeOK ∧ p.hash x.1 = h

/-- A hash whose transaction is about to leave the mempool. -/
def System.leaving (p : System) (n : Node) (h : Bytes) : Prop :=
  n.flusher ≠ .idle ∨ h ∈ n.updater.committed.map fun x => p.hash x.1

/-- The map and the mempool agree but for what is on its way. -/
structure Tracked (p : System) (n : Node) : Prop where
  iff : n.pool.crashed = none → ∀ h, p.tracked n h ↔ h ∈ n.pool.content.map p.hash ∧ ¬ p.leaving n h
  free : n.updater ≠ .idle → n.pool.updating = false

/-- The steps that keep map and mempool together. A recheck invalidates
nothing, an accepted transaction is added or there already and no `Update`
or `Flush` is removing it, the answers to the poller add nothing,
`RemoveTxByKey` finds nothing, and `Update` and `Flush` do not begin while a
callback has a transaction they remove. -/
def InStep (p : System) (n : Node) : Event → Prop
  | .respond i res => ∀ r, n.pool.requests[i]? = some r → match r.callback with
      | none => n.pool.valid r.tx res = true ∨ n.pool.txsMap.lookup (p.key r.tx) = none
      | some .client => res.code = codeTypeOK → ¬ p.leaving n (p.hash r.tx)
            ∧ (p.admits r.tx res n.pool = true ∨ n.pool.txsMap.lookup (p.key r.tx) ≠ none)
      | some .poll => p.admits r.tx res n.pool = false
  | .update _ committed _ _ => ∀ x ∈ n.callbacks, x.2.code = codeTypeOK →
        p.hash x.1 ∉ committed.map fun x => p.hash x.1
  | .flush => ∀ x ∈ n.callbacks, x.2.code ≠ codeTypeOK
  | .removeTxByKey txKey => n.pool.txsMap.lookup txKey = none
  | _ => True

/-- No response is outstanding and no operation is under way. -/
structure Settled (n : Node) : Prop where
  alive : n.pool.crashed = none
  callbacks : n.callbacks = []
  updater : n.updater = .idle
  flusher : n.flusher = .idle

-- ==== steps

section

variable (h : Tracked p n) (hup : n'.updater = n.updater)
    (hupd : n'.pool.updating = true → n.pool.updating = true)

include h hup hupd

lemma Tracked.free_of : n'.updater ≠ .idle → n'.pool.updating = false := by
  intro hne
  rw [hup] at hne
  have hfree := h.free hne
  cases hcase : n'.pool.updating with
  | false => rfl
  | true =>
    rw [hupd hcase] at hfree
    cases hfree

lemma Tracked.congr (hcrash : n'.pool.crashed = none → n.pool.crashed = none)
    (hmap : n'.txsByHash = n.txsByHash) (hcb : n'.callbacks = n.callbacks)
    (hcontent : n'.pool.content = n.pool.content)
    (hfl : n'.flusher ≠ .idle ↔ n.flusher ≠ .idle) : Tracked p n' := by
  refine ⟨fun hc h' => ?_, h.free_of hup hupd⟩
  unfold tracked leaving
  rw [hmap, hcb, hcontent, hup, hfl]
  exact h.iff (hcrash hc) h'

end

lemma alive_of_apply {κ : Type} {p : Setup} {s : Pool κ} {op : Op κ}
    (h : (p.apply s op).crashed = none) : s.crashed = none := by
  cases hc : s.crashed with
  | none => rfl
  | some q =>
    rw [apply_crashed (by rw [hc]; rfl), hc] at h
    cases h

/-- An operation of the wrapped mempool that keeps the transactions. -/
lemma Tracked.apply (h : Tracked p n) (op : Op Caller)
    (hop : op.quiet = true ∨ op = .notifyTxsAvailable)
    (hpool : n'.pool = p.apply n.pool op)
    (hcontent : (p.apply n.pool op).content = n.pool.content)
    (hmap : n'.txsByHash = n.txsByHash) (hcb : n'.callbacks = n.callbacks)
    (hup : n'.updater = n.updater) (hfl : n'.flusher = n.flusher) :
    Tracked p n' := by
  refine h.congr hup ?_ ?_ hmap hcb ?_ (by rw [hfl])
  · rw [hpool]
    exact (apply_flags p.toSetup n.pool op).updating hop
  · rw [hpool]
    exact alive_of_apply
  rw [hpool]
  exact hcontent

lemma reqResCb_answered (res : Response) :
    p.reqResCb r.tx res (n.pool.answered i)
    = (if n.pool.recheck.done then modify (p.resCbFirstTime r.tx res)
      else throw (.panic .recheckUnfinished) : Action Caller Unit)
        (n.pool.answered i) := rfl

/-- The callback of the caller is next unless the mempool panicked. -/
lemma answer_callbacks (hreq : n.pool.requests[i]? = some r) (res : Response) :
    (p.answer i res n).callbacks = match r.callback with
    | some .client =>
      if n.pool.recheck.done then n.callbacks ++ [(r.tx, res)]
      else n.callbacks
    | _ => n.callbacks := by
  simp only [answer, respond_eq, hreq, callbacks]
  cases r.callback with
  | none =>
    simp only [bind_pure_eq]
    cases p.globalCb r.tx res (n.pool.answered i) with
    | ok a s' => rfl
    | error e s' => rfl
  | some caller =>
    simp only [bind_pure_eq, reqResCb_answered]
    cases n.pool.recheck.done with
    | true | false => cases caller <;> rfl

/-- An answer to `CheckTx` while a recheck runs is a panic. -/
lemma answer_panics (hreq : n.pool.requests[i]? = some r)
    (hcb : r.callback ≠ none) (hdone : n.pool.recheck.done = false)
    (res : Response) : (p.answer i res n).pool.crashed ≠ none := by
  show (p.apply n.pool (.respond i res)).crashed ≠ none
  intro hnone
  have halive := alive_of_apply hnone
  simp only [apply, halive, Option.isSome_none] at hnone
  rw [perform_respond hreq] at hnone
  cases hc : r.callback with
  | none => exact hcb hc
  | some caller =>
    simp only [hc, perform, reqResCb_answered, hdone] at hnone
    cases hnone

section

variable (hr : Rep p.toSetup n.pool)

include hr

lemma hash_mem_of_lookup (h : n.pool.txsMap.lookup (p.key tx) ≠ none) :
    p.hash tx ∈ n.pool.content.map p.hash := by
  by_contra hno
  refine h (hr.lookup_eq_none.mpr fun hmem => hno ?_)
  obtain ⟨tx', htx', hkey⟩ := mem_map.mp hmem
  exact mem_map.mpr ⟨tx', htx', p.hash_eq_iff.mpr hkey⟩

/-- The answer to a client: the transaction is in the mempool and its
callback is next. -/
lemma Tracked.answer_client (h : Tracked p n)
    (hreq : n.pool.requests[i]? = some r) (hcb : r.callback = some .client)
    (hin : InStep p n (.respond i res)) : Tracked p (p.answer i res n) := by
  have hne : r.callback ≠ none := by
    rw [hcb]
    exact Option.some_ne_none _
  have hcbs := answer_callbacks (p := p) hreq res
  have hclient := hin r hreq
  rw [hcb] at hcbs hclient
  constructor
  · intro hc tx
    have halive : n.pool.crashed = none := alive_of_apply hc
    cases hdone : n.pool.recheck.done with
    | false => exact absurd hc (answer_panics hreq hne hdone res)
    | true =>
      have hold := h.iff halive tx
      have hcontent : (p.answer i res n).pool.content = _ :=
        content_respond_new (p := p.toSetup) halive hreq hne res
      simp only [hdone, if_true] at hcbs
      have htracked : p.tracked (p.answer i res n) tx ↔ p.tracked n tx
            ∨ res.code = codeTypeOK ∧ p.hash r.tx = tx := by
        unfold tracked
        rw [hcbs]
        simp only [mem_append, mem_singleton, or_and_right, exists_or, exists_eq_left, or_assoc]
        rfl
      have hleaving : p.leaving (p.answer i res n) tx ↔ p.leaving n tx := Iff.rfl
      rw [htracked, hleaving, hold, hcontent]
      by_cases hok : res.code = codeTypeOK
      · obtain ⟨hstay, hin⟩ := hclient hok
        have hmem : tx ∈ (if p.admits r.tx res n.pool
              then n.pool.content ++ [r.tx] else n.pool.content).map p.hash
            ↔ tx ∈ n.pool.content.map p.hash ∨ p.hash r.tx = tx := by
          split_ifs with hadm
          · rw [map_append, mem_append, map_singleton, mem_singleton, eq_comm (a := tx)]
          refine ⟨.inl, fun hor => hor.elim id ?_⟩
          rintro rfl
          exact hash_mem_of_lookup hr (hin.resolve_left hadm)
        rw [hmem]
        constructor
        · rintro (⟨hheld, hno⟩ | ⟨-, rfl⟩)
          · exact ⟨.inl hheld, hno⟩
          exact ⟨.inr rfl, hstay⟩
        rintro ⟨hheld | hheld, hno⟩
        · exact .inl ⟨hheld, hno⟩
        exact .inr ⟨hok, hheld⟩
      have hadm : p.admits r.tx res n.pool = false := by simp [admits, Pool.valid, hok]
      simp [hok, hadm]
  exact h.free_of rfl ((apply_flags p.toSetup n.pool (.respond i res)).updating (.inl rfl))

lemma Tracked.answer (h : Tracked p n) (hin : InStep p n (.respond i res)) :
    Tracked p (p.answer i res n) := by
  cases hreq : n.pool.requests[i]? with
  | none =>
    refine h.apply (.respond i res) (.inl rfl) rfl ?_ rfl ?_ rfl rfl
    · rw [apply_respond_none hreq]
    simp only [System.answer, respond_eq, hreq]
  | some r =>
    have hcbs := answer_callbacks (p := p) hreq res
    cases hcb : r.callback with
    | none =>
      rw [hcb] at hcbs
      have hkeep := hin r hreq
      rw [hcb] at hkeep
      exact h.apply (.respond i res) (.inl rfl) rfl
        (content_respond_recheck hr hreq hcb hkeep) rfl hcbs rfl rfl
    | some caller =>
      cases caller with
      | poll =>
        rw [hcb] at hcbs
        have hadm := hin r hreq
        rw [hcb] at hadm
        refine h.apply (.respond i res) (.inl rfl) rfl ?_ rfl hcbs rfl rfl
        by_cases hc : n.pool.crashed = none
        · rw [content_respond_new hc hreq (by
            rw [hcb]
            exact Option.some_ne_none _), hadm]
          rfl
        rw [apply_crashed (Option.isSome_iff_ne_none.mpr hc)]
      | client => exact h.answer_client hr hreq hcb hin

end

-- ---- the other steps

lemma lookup_foldl_erase (m : HashMap Bytes MempoolTx) (hashes : List Bytes) (h : Bytes) :
    (hashes.foldl (fun m x => m.erase x) m).lookup h = if h ∈ hashes then none else m.lookup h := by
  induction hashes generalizing m with
  | nil => rfl
  | cons x rest ih =>
    rw [foldl_cons, ih]
    by_cases hx : h = x
    · subst hx
      simp
    simp [hx]

/-- A callback that is removed is the only one removed. -/
lemma exists_eraseIdx {α : Type} {l : List α} {a : α} {P : α → Prop}
    (h : l[i]? = some a) (ha : ¬P a) :
    (∃ x ∈ l.eraseIdx i, P x) ↔ ∃ x ∈ l, P x := by
  obtain ⟨hi, rfl⟩ := List.getElem?_eq_some_iff.mp h
  simp [← (getElem_cons_eraseIdx_perm hi).mem_iff, ha]

section

variable (h : Tracked p n)

include h

/-- The hash a callback was about to store is in the map. -/
lemma Tracked.store (hcb : n.callbacks[i]? = some (tx, res)) (hcode : res.code = codeTypeOK) :
    Tracked p { n with
      callbacks := n.callbacks.eraseIdx i
      txsByHash := n.txsByHash.insert (p.hash tx) ⟨n.pool.height, res.gasWanted, tx⟩ } := by
  refine ⟨fun hc h' => ?_, h.free⟩
  have hsame : p.tracked { n with
        callbacks := n.callbacks.eraseIdx i
        txsByHash := n.txsByHash.insert (p.hash tx)
          ⟨n.pool.height, res.gasWanted, tx⟩ } h' ↔ p.tracked n h' := by
    unfold tracked
    by_cases hh : h' = p.hash tx
    · subst hh
      simp only [AList.lookup_insert, Option.isSome_some, true_or, true_iff]
      exact .inr ⟨(tx, res), mem_of_getElem? hcb, hcode, rfl⟩
    rw [AList.lookup_insert_ne hh]
    exact or_congr_right (exists_eraseIdx hcb fun h => hh h.2.symm)
  rw [hsame]
  exact h.iff hc h'

lemma Tracked.ignore (hcb : n.callbacks[i]? = some (tx, res)) (hcode : res.code ≠ codeTypeOK) :
    Tracked p { n with callbacks := n.callbacks.eraseIdx i } := by
  refine ⟨fun hc h' => ?_, h.free⟩
  have hsame : p.tracked { n with callbacks := n.callbacks.eraseIdx i } h' ↔ p.tracked n h' := by
    exact or_congr_right (exists_eraseIdx hcb fun h => hcode h.1)
  rw [hsame]
  exact h.iff hc h'

variable {committed : List (Tx × Nat)}

lemma Tracked.updateMap (hidle : n.updateIdle = true)
    (hin : InStep p n (.update height committed preCheck postCheck)) : Tracked p { n with
      txsByHash := committed.foldl (fun m x => m.erase (p.hash x.1)) n.txsByHash
      updater := .mapUpdated height committed preCheck postCheck } := by
  obtain ⟨hup, hfree⟩ : n.updater = .idle ∧ n.pool.updating = false := by
    unfold Node.updateIdle at hidle
    cases hu : n.updater with
    | idle =>
      rw [hu] at hidle
      exact ⟨rfl, by simpa using hidle⟩
    | mapUpdated _ _ _ _ =>
      rw [hu] at hidle
      cases hidle
  refine ⟨fun hc h' => ?_, fun _ => hfree⟩
  have hold := h.iff hc h'
  have hmap : committed.foldl (fun m x => m.erase (p.hash x.1)) n.txsByHash
      = (committed.map fun x => p.hash x.1).foldl (fun m x => m.erase x)
        n.txsByHash := by
    rw [foldl_map]
  have htracked : p.tracked { n with
        txsByHash := committed.foldl (fun m x => m.erase (p.hash x.1)) n.txsByHash
        updater := .mapUpdated height committed preCheck postCheck } h'
      ↔ p.tracked n h' ∧ h' ∉ committed.map fun x => p.hash x.1 := by
    unfold tracked
    simp only [hmap, lookup_foldl_erase]
    by_cases hmem : h' ∈ committed.map fun x => p.hash x.1
    · simp only [hmem, if_true, Option.isSome_none, Bool.false_eq_true,
        false_or, not_true_eq_false, and_false, iff_false]
      rintro ⟨x, hx, hok, rfl⟩
      exact hin x hx hok hmem
    simp [hmem]
  have hleaving : ∀ m, p.leaving { n with
        txsByHash := m, updater := .mapUpdated height committed preCheck postCheck } h'
      ↔ p.leaving n h' ∨ h' ∈ committed.map fun x => p.hash x.1 := by
    intro m
    unfold leaving
    rw [hup]
    simp [Updater.committed]
  rw [htracked, hleaving, hold, not_or, and_assoc]

/-- The committed transactions leave the mempool. -/
lemma Tracked.updatePool (hr : Rep p.toSetup n.pool) {conn : AppConn}
    (hup : n.updater = .mapUpdated height committed preCheck postCheck) : Tracked p { n with
      pool := p.apply n.pool (.update conn height committed preCheck postCheck)
      updater := .idle } := by
  refine ⟨fun hc h' => ?_, fun hne => absurd rfl hne⟩
  have halive : n.pool.crashed = none := alive_of_apply hc
  have hold := h.iff halive h'
  have hfree := h.free (by
    rw [hup]
    exact fun heq => by cases heq)
  have hcontent : (p.apply n.pool (.update conn height committed preCheck postCheck)).content
      = n.pool.content.filter fun tx => p.key tx ∉ committed.map fun x => p.key x.1 := by
    have happly : p.apply n.pool (.update conn height committed preCheck postCheck)
        = perform (p.update conn height committed preCheck postCheck)
          n.pool := by
      simp [Setup.apply, halive, hfree]
    rw [happly, (hr.update conn height committed preCheck postCheck).content, hr.content_withoutAll]
  have hheld : h' ∈ (p.apply n.pool (.update conn height committed preCheck postCheck)).content.map
      p.hash ↔ h' ∈ n.pool.content.map p.hash ∧ h' ∉ committed.map fun x => p.hash x.1 := by
    rw [hcontent]
    constructor
    · intro hmem
      obtain ⟨tx, htx, rfl⟩ := mem_map.mp hmem
      obtain ⟨htx, hkey⟩ := mem_filter.mp htx
      refine ⟨mem_map_of_mem htx, fun hc => ?_⟩
      simp [p.hash_mem_iff.mp hc] at hkey
    rintro ⟨hmem, hno⟩
    obtain ⟨tx, htx, rfl⟩ := mem_map.mp hmem
    refine mem_map_of_mem (mem_filter.mpr ⟨htx, ?_⟩)
    exact decide_eq_true fun hkey => hno (p.hash_mem_iff.mpr hkey)
  have hleaving : p.leaving n h' ↔ n.flusher ≠ .idle ∨ h' ∈ committed.map fun x => p.hash x.1 := by
    unfold leaving
    rw [hup]
    rfl
  have hidle : ∀ pool, p.leaving { n with pool := pool, updater := .idle } h'
      ↔ n.flusher ≠ .idle := by
    intro pool
    unfold leaving
    simp [Updater.committed]
  show p.tracked n h' ↔ _
  rw [hold, hleaving, hidle, hheld, not_or, and_assoc]
  exact and_congr_right fun _ => and_comm

lemma Tracked.flushMap (hin : InStep p n .flush) :
    Tracked p { n with txsByHash := ∅, flusher := .mapFlushed } := by
  refine ⟨fun _ h' => ?_, h.free⟩
  constructor
  · rintro (hmap | ⟨x, hx, hok, -⟩)
    · rw [AList.lookup_empty] at hmap
      cases hmap
    exact absurd hok (hin x hx)
  rintro ⟨-, hno⟩
  exact absurd (.inl (fun heq => by cases heq)) hno

lemma Tracked.flushPool (hf : n.flusher = .queueFlushed) : Tracked p { n with
    pool := p.apply n.pool .flush, flusher := .idle } := by
  refine ⟨fun hc h' => ?_, h.free_of rfl
    ((apply_flags p.toSetup n.pool .flush).updating (.inl rfl))⟩
  have halive : n.pool.crashed = none := alive_of_apply hc
  have hnone : ¬ p.tracked n h' := fun ht =>
    ((h.iff halive h').mp ht).2 (.inl (by
      rw [hf]
      exact fun heq => by cases heq))
  have hcontent : (p.apply n.pool .flush).content = [] := by
    simp only [Setup.apply, halive, Option.isSome_none]
    exact content_flush n.pool
  refine ⟨fun ht => absurd ht hnone, fun hheld => ?_⟩
  have hmem := hheld.1
  simp only [hcontent, map_nil, not_mem_nil] at hmem

/-- Every step of the kind keeps map and mempool together. -/
lemma NodeStep.tracked (hs : NodeStep p n e n') (hr : Rep p.toSetup n.pool)
    (hin : InStep p n e) : Tracked p n' := by
  cases hs with
  | none => exact h
  | @forward conn _ _ _ memTx hp hsome =>
    exact h.apply (.checkTx conn memTx.tx .poll) (.inl rfl) rfl
      (content_keeps hr trivial) rfl rfl rfl rfl
  | @notify addedTxs hp =>
    cases addedTxs with
    | false => exact h.congr rfl id id rfl rfl rfl Iff.rfl
    | true =>
      exact h.apply .notifyTxsAvailable (.inr rfl) rfl (content_keeps hr trivial) rfl rfl rfl rfl
  | checkTx conn tx =>
    exact h.apply (.checkTx conn tx .client) (.inl rfl) rfl
      (content_keeps hr trivial) rfl rfl rfl rfl
  | answer i res => exact h.answer hr hin
  | store hcb hcode hfree => exact h.store hcb hcode
  | ignore hcb hcode => exact h.ignore hcb hcode
  | updateMap hidle hfree => exact h.updateMap hidle hin
  | updatePool hup => exact h.updatePool hr hup
  | @pool _ op hop hkind =>
    rcases hkind with rfl | rfl | rfl | ⟨txKey, rfl⟩
    · cases hop
      exact h.apply .enableTxsAvailable (.inl rfl) rfl (content_keeps hr trivial) rfl rfl rfl rfl
    · cases hop
      exact h.apply .recheckDone (.inl rfl) rfl (content_keeps hr trivial) rfl rfl rfl rfl
    · cases hop
      exact h.apply .recheckTimeout (.inl rfl) rfl (content_keeps hr trivial) rfl rfl rfl rfl
    cases hop
    exact h.apply (.removeTxByKey txKey) (.inl rfl) rfl (content_keeps hr hin) rfl rfl rfl rfl
  | flushMap hidle hfree => exact h.flushMap hin
  | flushQueue hf =>
    refine h.congr rfl id id rfl rfl rfl ⟨fun _ => ?_, fun _ => ?_⟩
    · rw [hf]
      exact fun heq => by cases heq
    exact fun heq => by cases heq
  | flushPool hf => exact h.flushPool hf
  | _ => exact h.congr rfl id id rfl rfl rfl Iff.rfl

end

-- ==== runs

lemma run_tracked {es : List Event}
    (h : Along (fun before e =>
      InStep p (p.runEvents (p.init height preCheck postCheck) before) e) []
      es) :
    Tracked p (p.runEvents (p.init height preCheck postCheck) es) := by
  induction es using reverseRecOn with
  | nil =>
    refine ⟨fun _ h' => ⟨?_, fun hheld => ?_⟩, fun hne => absurd rfl hne⟩
    · rintro (hmap | ⟨x, hx, -⟩)
      · cases hmap
      cases hx
    cases hheld.1
  | append_singleton es e ih =>
    obtain ⟨hes, he⟩ := along_concat.mp h
    rw [p.runEvents_concat]
    exact (step_node p _ e).tracked (ih hes) (run_nodeRep p height preCheck postCheck es) he

/-- In a run whose steps are all of the kind, whenever no response is
outstanding the hashes in `txsByHash` are those of the transactions in the
mempool. -/
theorem hashes_tracked (p : System) (height : Int)
    (preCheck : Option PreCheckFunc) (postCheck : Option PostCheckFunc)
    (es before : List Event) (hbefore : before.IsPrefix es)
    (hrun : Along (fun before e =>
      InStep p (p.runEvents (p.init height preCheck postCheck) before) e) []
      es)
    (hsettled : Settled
      (p.runEvents (p.init height preCheck postCheck) before))
    (h : Bytes) :
    ((p.runEvents (p.init height preCheck postCheck) before ).txsByHash.lookup
      h).isSome = true
      ↔ ∃ tx ∈
        (p.runEvents (p.init height preCheck postCheck) before ).pool.content,
        p.hash tx = h := by
  obtain ⟨after, rfl⟩ := hbefore
  have htracked := (run_tracked (along_append.mp hrun).1).iff hsettled.alive h
  unfold tracked leaving at htracked
  rw [hsettled.callbacks, hsettled.updater, hsettled.flusher] at htracked
  simpa [Updater.committed] using htracked

/-- A transaction is accepted, and committed in the next block. -/
theorem hashes_tracked_once : ((Solo.system.runEvents (Solo.system.init 1 none none)
      [.checkTx Solo.conn [7], .respond 0 Solo.accepted, .callback 0]
      ).txsByHash.lookup (Solo.system.hash [7])).isSome = true
    ↔ ∃ tx ∈ (Solo.system.runEvents (Solo.system.init 1 none none)
        [.checkTx Solo.conn [7], .respond 0 Solo.accepted, .callback 0]
        ).pool.content, Solo.system.hash tx = Solo.system.hash [7] := by
  refine hashes_tracked system 1 none none [.checkTx conn [7], .respond 0 accepted,
    .callback 0, .lock, .update 2 [([7], 0)] none none, .updatePool conn, .unlock] _
    ⟨_, rfl⟩ ⟨trivial, ?_, trivial, trivial, ?_, trivial, trivial, trivial⟩
    ⟨by decide +kernel, by decide +kernel, rfl, rfl⟩ _
  · intro r hr
    cases hr
    refine fun _ => ⟨?_, .inl (by decide +kernel)⟩
    rintro (hne | hmem)
    · exact hne rfl
    cases hmem
  intro x hx
  cases hx

/-- A transaction is accepted and then removed by its key: its hash
stays. -/
theorem hashes_tracked_fails :
    ¬ ∀ (p : System) (height : Int) (preCheck : Option PreCheckFunc)
        (postCheck : Option PostCheckFunc) (es : List Event),
      Settled (p.runEvents (p.init height preCheck postCheck) es) →
      (p.runEvents (p.init height preCheck postCheck) es).pool.requests
        = [] →
      ∀ h, ((p.runEvents (p.init height preCheck postCheck) es
          ).txsByHash.lookup h).isSome = true
        ↔ ∃ tx ∈ (p.runEvents (p.init height preCheck postCheck) es
            ).pool.content, p.hash tx = h := by
  intro hall
  have h := hall system 1 none none [.checkTx conn [7], .respond 0 accepted, .callback 0,
      .removeTxByKey (system.key [7])]
    ⟨by decide +kernel, by decide +kernel, rfl, rfl⟩ (by decide +kernel)
    (system.hash [7])
  revert h
  decide +kernel

end HetuEngine.Mempool
