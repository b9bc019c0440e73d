/-
No certificate is written twice, as long as a written one does not come back
below its author's last committed round.

# The argument

A written certificate has its author's last committed round at or above its
own (`Written.passed`). If it is still in the DAG after a cleanup the two
are equal, and then `order_dag` skips it. It is pushed again only if it is
in the DAG below its author's last committed round, and only receiving it
again can put it there. Within one walk nothing is emitted twice
(`Worklist.Yields.nodup`), and a leader is above everything written.

# Where it fails

The test in `order_dag` is an equality, `last_committed[origin] == round`,
and a certificate that is received again goes back into the DAG without a
look at `last_committed`. If that is below its author's last committed round,
the next leader that reaches it writes it again (`no_double_commit_fails`).
-/
import HetuEngine.Tusk.Proofs.Agreement

namespace HetuEngine.Tusk

open Lib Lib.Weight Narwhal Consensus Commit Certificate

variable {cn : Consensus}

-- ==== recording

variable {x : Digest × Certificate} {c : Certificate} {s : State}
  {ks : List Commit} {l : Certificate} {received : List Certificate}

variable {n : PublicKey} {cs : List Certificate}

lemma entry_recordAll {r : Nat} : ∀ {xs : List Certificate} {s : State},
    (recordAll cn s xs).entry r n = some x → s.entry r n = some x := by
  intro xs
  induction xs with
  | nil => intro s h; exact h
  | cons y xs ih =>
    intro s h
    exact ((s.entry_update y cn.gcDepth r n x).mp (ih h)).1

/-- After recording, an entry is not below its author's last committed
round. -/
lemma ahead_recordAll {r : Nat} :
    ∀ {xs : List Certificate} {s : State}, xs ≠ [] →
      (recordAll cn s xs).entry r n = some x →
      (recordAll cn s xs).Ahead n r := by
  intro xs
  induction xs with
  | nil => intro s h; exact absurd rfl h
  | cons y xs ih =>
    intro s _ h
    cases xs with
    | nil => exact ((s.entry_update y cn.gcDepth r n x).mp h).2.1
    | cons z xs => exact ih (List.cons_ne_nil _ _) h

/-- The author's last committed round is at or above the certificate's. -/
def Passed (s : State) (c : Certificate) : Prop :=
  ∃ m, s.lastCommitted.lookup c.origin = some m ∧ c.round ≤ m

lemma Passed.update (h : Passed s c) (x : Certificate) (gc : Nat) :
    Passed (s.update x gc) c := by
  obtain ⟨m, hm, hle⟩ := h
  unfold Passed
  rw [s.lookup_update x gc]
  split
  next =>
    rw [hm]
    exact ⟨_, rfl, le_trans hle (le_max_left _ _)⟩
  next => exact ⟨m, hm, hle⟩

lemma passed_update (s : State) (c : Certificate) (gc : Nat) :
    Passed (s.update c gc) c := by
  unfold Passed
  rw [s.lookup_update c gc, if_pos rfl]
  exact ⟨_, rfl, le_max_right _ _⟩

lemma passed_recordAll : ∀ {xs : List Certificate} {s : State},
    (Passed s c ∨ c ∈ xs) → Passed (recordAll cn s xs) c := by
  intro xs
  induction xs with
  | nil =>
    rintro s (h | h)
    · exact h
    cases h
  | cons x xs ih =>
    rintro s (h | h)
    · exact ih (.inl (h.update x cn.gcDepth))
    rcases List.mem_cons.mp h with rfl | h
    · exact ih (.inl (passed_update s c cn.gcDepth))
    exact ih (.inr h)

-- ==== the invariant

/-- The digest of a certificate determines its round and author. -/
def Placed (cn : Consensus) (cs : List Certificate) : Prop :=
  ∀ c ∈ cn.genesis ++ cs, ∀ d ∈ cn.genesis ++ cs,
    c.digest cn.crypto = d.digest cn.crypto → c.round = d.round ∧ c.origin = d.origin

def writtenDigests (cn : Consensus) (ks : List Commit) : List Digest :=
  (ks.flatMap Commit.sequence).map (Certificate.digest cn.crypto)

/-- A written certificate comes back only at its author's last committed
round, or beyond the garbage collection depth. -/
def NoLateRepeat (cn : Consensus) (ks : List Commit) (s : State) (c : Certificate) : Prop :=
  c.digest cn.crypto ∈ writtenDigests cn ks →
    s.lastCommitted.lookup c.origin = some c.round ∨ ¬ s.Recent cn.gcDepth c.round

instance (cn : Consensus) (ks : List Commit) (s : State)
    (c : Certificate) : Decidable (NoLateRepeat cn ks s c) :=
  inferInstanceAs (Decidable (_ → _ ∨ ¬ _))

abbrev repeatGuard (cn : Consensus) : Guard := fun _ ks s c => NoLateRepeat cn ks s c

structure Written (cn : Consensus) (received : List Certificate)
    (ks : List Commit) (s : State) : Prop where
  nodup : (writtenDigests cn ks).Nodup
  mem : ∀ c ∈ ks.flatMap Commit.sequence, c ∈ cn.genesis ++ received
  passed : ∀ c ∈ ks.flatMap Commit.sequence, Passed s c
  skipped : ∀ {r n x}, s.entry r n = some x → x.1 ∈ writtenDigests cn ks →
    s.lastCommitted.lookup n = some r ∨ ¬ s.Recent cn.gcDepth r

lemma mem_writtenDigests {d : Digest} : d ∈ writtenDigests cn ks
    ↔ ∃ c ∈ ks.flatMap sequence, c.digest cn.crypto = d :=
  List.mem_map

lemma writtenDigests_concat (ks : List Commit) (k : Commit) :
    writtenDigests cn (ks ++ [k])
      = writtenDigests cn ks ++ k.sequence.map (digest cn.crypto) := by
  unfold writtenDigests
  simp

section

variable (hinv : Inv cn received s) (hpar : ∀ c ∈ cn.genesis ++ received, ParentFirst cn received c)

include hinv hpar

/-- One walk emits no digest twice. -/
lemma orderDag_nodup (hplaced : Placed cn received)
    (hl : l ∈ cn.genesis ++ received) :
    ((cn.orderDag l s).map (digest cn.crypto)).Nodup := by
  obtain ⟨out, hyields, heq⟩ := orderDag_eq cn s l
  have hspec : ∀ {x}, Worklist.Reach (dagChildren s) (l.digest cn.crypto, l) x →
      x.2 ∈ cn.genesis ++ received ∧ x.1 = x.2.digest cn.crypto
        ∧ (x = (l.digest cn.crypto, l) ∨ x.2.round < l.round) :=
    fun hx => reach_spec hinv hpar hl rfl hx
  have hnd : (out.map Prod.fst).Nodup := by
    refine hyields.nodup fun x hx y hy hkey => ?_
    obtain ⟨hxrec, -, hxr⟩ := hspec hx
    obtain ⟨hyrec, hyd, hyr, -⟩ := child_spec hinv hpar hxrec hy
    have hround := (hplaced _ hyrec _ hl (hyd.symm.trans hkey)).1
    rcases hxr with rfl | hxr
    · simp only at hyr
      omega
    omega
  have hdigests : (out.map Prod.snd).map (digest cn.crypto) = out.map Prod.fst := by
    rw [List.map_map]
    exact List.map_congr_left fun x hx => (hspec (hyields.reach x hx)).2.1.symm
  rw [heq]
  refine ((List.perm_insertionSort _ _).map _).nodup_iff.mpr ?_
  refine List.Nodup.sublist ((List.filter_sublist).map _) ?_
  rw [hdigests]
  exact hnd

lemma orderDag_fresh (hplaced : Placed cn received)
    (hw : Written cn received ks s) (hl : IsLeader cn received s l)
    (hc : c ∈ cn.orderDag l s) :
    c.digest cn.crypto ∉ writtenDigests cn ks := by
  intro hmem
  obtain ⟨out, hyields, heq⟩ := orderDag_eq cn s l
  rw [heq] at hc
  obtain ⟨⟨d, hout⟩, hrecent⟩ := mem_finish.mp hc
  have hreach := hyields.reach _ hout
  -- either `c` is the leader, or it was pushed by an item of the walk
  rcases Relation.ReflTransGen.cases_tail hreach with
    heq' | ⟨x, hx, hchild⟩
  · cases heq'
    obtain ⟨w, hwmem, hwd⟩ := mem_writtenDigests.mp hmem
    have hround := (hplaced _ (hw.mem w hwmem) _ hl.mem hwd).1
    obtain ⟨m, hm, hle⟩ := hw.passed w hwmem
    have := hinv.tops.le hm
    have := hl.above
    omega
  obtain ⟨hxrec, -, -⟩ := reach_spec hinv hpar hl.mem rfl hx
  obtain ⟨hcrec, hcd, -, hentry⟩ := child_spec hinv hpar hxrec hchild
  obtain ⟨-, -, hskip⟩ := mem_dagChildren hchild
  rw [← hcd] at hmem
  rcases hw.skipped hentry hmem with h | h
  · exact hskip h
  exact h hrecent

lemma Written.commit (hplaced : Placed cn received)
    (hw : Written cn received ks s) (hl : IsLeader cn received s l) :
    Written cn received (ks ++ [⟨s, l, cn.orderDag l s⟩])
      (recordAll cn s (cn.orderDag l s)) := by
  have hflat : (ks ++ [(⟨s, l, cn.orderDag l s⟩ : Commit)]).flatMap
      sequence = ks.flatMap sequence ++ cn.orderDag l s := by
    simp
  have hmem : ∀ c ∈ ks.flatMap sequence ++ cn.orderDag l s, c ∈ cn.genesis ++ received := by
    intro c hc
    rcases List.mem_append.mp hc with hc | hc
    · exact hw.mem c hc
    exact (orderDag_mem hinv hpar hl.mem hc).1
  have hpassed : ∀ c ∈ ks.flatMap sequence ++ cn.orderDag l s,
      Passed (recordAll cn s (cn.orderDag l s)) c := by
    intro c hc
    refine passed_recordAll ?_
    rcases List.mem_append.mp hc with hc | hc
    · exact .inl (hw.passed c hc)
    exact .inr hc
  refine ⟨?_, by rw [hflat]; exact hmem, by rw [hflat]; exact hpassed, ?_⟩
  · rw [writtenDigests_concat]
    refine List.nodup_append.mpr
      ⟨hw.nodup, orderDag_nodup hinv hpar hplaced hl.mem, fun d hd e he => ?_⟩
    obtain ⟨c, hc, rfl⟩ := List.mem_map.mp he
    rintro rfl
    exact orderDag_fresh hinv hpar hplaced hw hl hc hd
  intro r n x hx hd
  by_cases hnil : cn.orderDag l s = []
  · rw [hnil] at hx ⊢
    rw [writtenDigests_concat, hnil, List.map_nil, List.append_nil] at hd
    exact hw.skipped hx hd
  -- after a cleanup a written certificate is at the last round
  left
  obtain ⟨w, hwmem, hwd⟩ := mem_writtenDigests.mp hd
  rw [hflat] at hwmem
  obtain ⟨hxd, hxr, hxo, hxrec⟩ := hinv.spec (entry_recordAll hx)
  obtain ⟨hr, ho⟩ := hplaced _ (hmem w hwmem) _ hxrec (hwd.trans hxd)
  obtain ⟨m, hm, hle⟩ := hpassed w hwmem
  have hno : w.origin = n := ho.trans hxo
  rw [hno] at hm
  have hge := ahead_recordAll hnil hx m hm
  rw [hm, show m = r by omega]

end

lemma Placed.of_concat (h : Placed cn (cs ++ [c])) : Placed cn cs := by
  have hsub : ∀ d ∈ cn.genesis ++ cs, d ∈ cn.genesis ++ (cs ++ [c]) := by
    intro d hd
    rw [← List.append_assoc]
    exact List.mem_append_left _ hd
  exact fun d hd e he => h d (hsub d hd) e (hsub e he)

lemma Trace.written (h : Trace cn (repeatGuard cn) cs ks s)
    (hplaced : Placed cn cs) : Written cn cs ks s := by
  induction h with
  | init =>
    refine ⟨List.nodup_nil, ?_, ?_, ?_⟩
    · intro c hc
      cases hc
    · intro c hc
      cases hc
    intro r n x _ hd
    cases hd
  | @insert cs ks s c h hc hP ih =>
    have hw := ih hplaced.of_concat
    refine ⟨hw.nodup, fun d hd => ?_, hw.passed, ?_⟩
    · rw [← List.append_assoc]
      exact List.mem_append_left _ (hw.mem d hd)
    intro r n x hx hd
    rw [entry_insert] at hx
    split at hx
    next hrn =>
      cases hx
      rw [hrn.1, hrn.2]
      exact hP hd
    next => exact hw.skipped hx hd
  | commit h hl ih => exact (ih hplaced).commit h.inv h.parents hplaced hl

-- ==== the main result

lemma Placed.of_prefix {pre : List Certificate} (hpre : pre <+: cs)
    (h : Placed cn cs) : Placed cn pre := by
  have hsub : ∀ d ∈ cn.genesis ++ pre, d ∈ cn.genesis ++ cs := by
    intro d hd
    rcases List.mem_append.mp hd with hd | hd
    · exact List.mem_append_left _ hd
    exact List.mem_append_right _ (hpre.subset hd)
  exact fun d hd e he => h d (hsub d hd) e (hsub e he)

/-- No certificate is written twice in a run in which a certificate that was
written comes back only at its author's last committed round or beyond the
garbage collection depth. -/
theorem no_double_commit (cn : Consensus) (cs : List Certificate)
    (hfirst : Along (ParentFirst cn) [] cs) (hplaced : Placed cn cs)
    (hrepeat : Along (fun pre c =>
      NoLateRepeat cn (Node.run cn pre).commits (Node.run cn pre).state c) []
      cs) :
    ((Node.run cn cs).output.map (Certificate.digest cn.crypto)).Nodup := by
  obtain ⟨pre, hpre, htrace, -⟩ := run_trace (P := repeatGuard cn) (hfirst.and hrepeat)
  exact (htrace.written (hplaced.of_prefix hpre)).nodup

namespace Repeat

open Trio (certOf a1 c1 a2 b2 b3)

/-- As in `Trio`, but the leader of round 2 references its author's first
certificate, so that both are written when it is committed. -/
def c2 : Certificate := certOf 2 2 [a1, c1]

def a3 : Certificate := certOf 0 3 [a2, c2]

def a4 : Certificate := certOf 0 4 [a3]

def b4 : Certificate := certOf 1 4 [a3, b3]

def b5 : Certificate := certOf 1 5 [a4]

def a5 : Certificate := certOf 0 5 [a4, b4]

def a6 : Certificate := certOf 0 6 [a5]

def a7 : Certificate := certOf 0 7 [a6]

/-- `c1` comes back after it was written and before the leader of round 4 is
committed. -/
def comesBack : List Certificate := [a1, c1, c2, a2, a3, a4, b5, c1, b2, b3, b4, a5, a6, a7]

/-- `a1` comes twice before it is written, `c2` comes back at its author's
last committed round. -/
def harmless : List Certificate := [a1, c1, a1, c2, a2, a3, a4, b5, c2, b2, b3, b4, a5, a6, a7]

lemma checked :
    Along (ParentFirst (Trio.task 50)) [] comesBack
      ∧ Placed (Trio.task 50) comesBack
      ∧ Along (ParentFirst (Trio.task 50)) [] harmless
      ∧ Placed (Trio.task 50) harmless := by
  unfold Placed
  decide +kernel

end Repeat

theorem no_double_commit_harmless :
    (Node.run (Trio.task 50) Repeat.harmless).output.length = 8
      ∧ ((Node.run (Trio.task 50) Repeat.harmless).output.map
        (Certificate.digest (Trio.task 50).crypto)).Nodup :=
  ⟨by decide +kernel, no_double_commit _ _ Repeat.checked.2.2.1
    Repeat.checked.2.2.2 (by decide +kernel)⟩

/-- `c1` is written with the leader of round 2, comes back, and is written
again with the leader of round 4. -/
theorem no_double_commit_fails : ¬ ∀ (cn : Consensus) (cs : List Certificate),
    Along (ParentFirst cn) [] cs → Placed cn cs → ((Node.run cn cs).output.map
        (Certificate.digest cn.crypto)).Nodup := by
  intro h
  have hnd := h (Trio.task 50) Repeat.comesBack Repeat.checked.1 Repeat.checked.2.1
  exact absurd hnd (by decide +kernel)

end HetuEngine.Tusk
