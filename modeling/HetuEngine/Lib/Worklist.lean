/-
The depth-first worklist: pop an item, emit it, push each of its children
whose key has not been pushed before.

# The invariant

Along a walk from `root`, the items emitted or still in the buffer carry
exactly the keys pushed so far, plus the root's (`Inv.perm`). So the walk
ends: a walk whose children's keys all lie in a list `U` empties its buffer
within `U.length + 1` steps (`run_buffer_nil`); at the end every child of an
emitted item has been emitted (`Yields.closed`); and nothing is emitted
twice, unless the root is pushed again (`Yields.nodup`).

# Dropping items

`Yields.filter` compares two walks. When the items a predicate rejects have
only rejected children, a walk that visits them and a walk that never sees
them emit the same items in the same order, the rejected ones apart: these
occupy buffer positions of their own and push nothing the other walk would
push. So the emitted order does not depend on how much of the rejected part a
walk has at hand.
-/
import Mathlib.Data.List.Perm.Subperm

namespace HetuEngine.Lib.Worklist

variable {α κ : Type} [DecidableEq κ]

/-- The state of a walk: the buffer (top first), the items emitted so far,
and the keys pushed so far. -/
structure Walk (α κ : Type) where
  buffer : List α
  ordered : List α
  seen : List κ

def push (key : α → κ) (w : Walk α κ) (y : α) : Walk α κ :=
  if key y ∈ w.seen then w
  else { w with buffer := y :: w.buffer, seen := key y :: w.seen }

def pushAll (key : α → κ) (w : Walk α κ) (ys : List α) : Walk α κ := ys.foldl (push key) w

/-- Pop and emit the top of the buffer, then push its children. -/
def step (key : α → κ) (children : α → List α) (w : Walk α κ) : Walk α κ :=
  match w.buffer with
  | [] => w
  | x :: rest => pushAll key { w with buffer := rest, ordered := w.ordered ++ [x] } (children x)

def start (root : α) : Walk α κ := ⟨[root], [], []⟩

def run (key : α → κ) (children : α → List α) (root : α) : Nat → Walk α κ
  | 0 => start root
  | n + 1 => step key children (run key children root n)

/-- The walk from `root` ends, having emitted `out`. -/
def Yields (key : α → κ) (children : α → List α) (root : α) (out : List α) : Prop :=
  ∃ n, (run key children root n).buffer = [] ∧ (run key children root n).ordered = out

/-- One item is reached from another by following children. -/
def Reach (children : α → List α) : α → α → Prop := Relation.ReflTransGen fun x y => y ∈ children x

-- ==== pushing

section

variable (key : α → κ) (w : Walk α κ)

lemma pushAll_nil : pushAll key w [] = w := rfl

lemma pushAll_cons (y : α) (ys : List α) :
    pushAll key w (y :: ys) = pushAll key (push key w y) ys := rfl

lemma push_ordered (y : α) : (push key w y).ordered = w.ordered := by
  unfold push
  split <;> rfl

lemma pushAll_ordered (ys : List α) :
    (pushAll key w ys).ordered = w.ordered := by
  induction ys generalizing w with
  | nil => rfl
  | cons y ys ih => rw [pushAll_cons, ih, push_ordered]

variable {z : α}

lemma mem_pushAll_buffer (ys : List α) (h : z ∈ (pushAll key w ys).buffer) :
    z ∈ w.buffer ∨ z ∈ ys := by
  induction ys generalizing w with
  | nil => exact .inl h
  | cons y ys ih =>
    rcases ih _ h with h | h
    · unfold push at h
      split at h
      · exact .inl h
      rcases List.mem_cons.mp h with rfl | h
      · exact .inr (List.mem_cons_self ..)
      exact .inl h
    exact .inr (List.mem_cons_of_mem _ h)

lemma mem_pushAll_of_mem (ys : List α) (h : z ∈ w.buffer) :
    z ∈ (pushAll key w ys).buffer := by
  induction ys generalizing w with
  | nil => exact h
  | cons y ys ih =>
    refine ih _ ?_
    unfold push
    split
    · exact h
    exact List.mem_cons_of_mem _ h

lemma mem_push_seen (y : α) {k : κ} :
    k ∈ (push key w y).seen ↔ k = key y ∨ k ∈ w.seen := by
  unfold push
  split
  next h =>
    constructor
    · exact .inr
    rintro (rfl | hk)
    · exact h
    exact hk
  next => exact List.mem_cons

lemma mem_pushAll_seen {k : κ} (ys : List α) :
    k ∈ (pushAll key w ys).seen ↔ k ∈ w.seen ∨ ∃ y ∈ ys, key y = k := by
  induction ys generalizing w with
  | nil =>
    rw [pushAll_nil]
    simp
  | cons y ys ih =>
    rw [pushAll_cons, ih, mem_push_seen]
    simp only [List.mem_cons, exists_eq_or_imp]
    constructor
    · rintro ((rfl | h) | h)
      · exact .inr (.inl rfl)
      · exact .inl h
      exact .inr (.inr h)
    rintro (h | rfl | h)
    · exact .inl (.inr h)
    · exact .inl (.inl rfl)
    exact .inr h

end

-- ==== the invariant

/-- What every state of a walk from `root` satisfies. -/
structure Inv (key : α → κ) (children : α → List α) (root : α) (w : Walk α κ) : Prop where
  perm : ((w.ordered ++ w.buffer).map key).Perm (key root :: w.seen)
  nodup : w.seen.Nodup
  reach : ∀ y ∈ w.ordered ++ w.buffer, Reach children root y
  closed : ∀ x ∈ w.ordered, ∀ y ∈ children x, key y ∈ w.seen
  pushed : ∀ k ∈ w.seen, ∃ x y, Reach children root x ∧ y ∈ children x ∧ key y = k
  root_mem : root ∈ w.ordered ++ w.buffer

variable {key : α → κ} {children : α → List α} {root : α}

omit [DecidableEq κ] in
lemma inv_start : Inv key children root (start root) where
  perm := List.Perm.refl _
  nodup := List.nodup_nil
  reach := by
    intro y hy
    rw [show y = root from List.mem_singleton.mp hy]
    exact Relation.ReflTransGen.refl
  closed := by
    intro x hx
    cases hx
  pushed := by
    intro k hk
    cases hk
  root_mem := List.mem_singleton.mpr rfl

variable {w : Walk α κ} {out : List α} {P : α → Prop} {keep : α → Bool} {children' : α → List α}

lemma push_perm (y : α)
    (h : ((w.ordered ++ w.buffer).map key).Perm (key root :: w.seen)) :
    (((push key w y).ordered ++ (push key w y).buffer).map key).Perm
      (key root :: (push key w y).seen) := by
  unfold push
  split
  · exact h
  show ((w.ordered ++ y :: w.buffer).map key).Perm (key root :: key y :: w.seen)
  have hmid : ((w.ordered ++ y :: w.buffer).map key).Perm
      (key y :: (w.ordered ++ w.buffer).map key) := by
    exact List.Perm.map key List.perm_middle
  exact (hmid.trans (h.cons _)).trans (List.Perm.swap ..)

lemma push_nodup (y : α) (h : w.seen.Nodup) : (push key w y).seen.Nodup := by
  unfold push
  split
  · exact h
  next hy => exact List.nodup_cons.mpr ⟨hy, h⟩

lemma pushAll_perm_nodup (ys : List α) (w : Walk α κ)
    (hp : ((w.ordered ++ w.buffer).map key).Perm (key root :: w.seen))
    (hn : w.seen.Nodup) :
    (((pushAll key w ys).ordered ++ (pushAll key w ys).buffer).map key).Perm
      (key root :: (pushAll key w ys).seen)
      ∧ (pushAll key w ys).seen.Nodup := by
  induction ys generalizing w with
  | nil => exact ⟨hp, hn⟩
  | cons y ys ih => exact ih _ (push_perm y hp) (push_nodup y hn)

lemma inv_step (h : Inv key children root w) :
    Inv key children root (step key children w) := by
  unfold step
  split
  · exact h
  next x rest hb =>
  have hx : Reach children root x := h.reach x (List.mem_append_right _ (hb ▸ List.mem_cons_self))
  -- popping `x` only moves it from the buffer to the emitted items
  have hmove : ∀ z, z ∈ (w.ordered ++ [x]) ++ rest ↔ z ∈ w.ordered ++ w.buffer := by
    intro z
    rw [hb]
    simp
  have hperm : (((w.ordered ++ [x]) ++ rest).map key).Perm (key root :: w.seen) := by
    rw [List.append_assoc, List.singleton_append, ← hb]
    exact h.perm
  obtain ⟨hp, hn⟩ := pushAll_perm_nodup (children x)
    { w with buffer := rest, ordered := w.ordered ++ [x] } hperm h.nodup
  refine ⟨hp, hn, ?_, ?_, ?_, ?_⟩
  · intro y hy
    rw [pushAll_ordered] at hy
    rcases List.mem_append.mp hy with hy | hy
    · exact h.reach y ((hmove y).mp (List.mem_append_left _ hy))
    rcases mem_pushAll_buffer key _ _ hy with hy | hy
    · exact h.reach y ((hmove y).mp (List.mem_append_right _ hy))
    exact hx.tail hy
  · intro z hz y hy
    rw [pushAll_ordered] at hz
    rw [mem_pushAll_seen]
    rcases List.mem_append.mp hz with hz | hz
    · exact .inl (h.closed z hz y hy)
    rw [List.mem_singleton.mp hz] at hy
    exact .inr ⟨y, hy, rfl⟩
  · intro k hk
    rcases (mem_pushAll_seen key _ _).mp hk with hk | ⟨y, hy, rfl⟩
    · exact h.pushed k hk
    exact ⟨x, y, hx, hy, rfl⟩
  rw [pushAll_ordered]
  rcases List.mem_append.mp ((hmove root).mpr h.root_mem) with hr | hr
  · exact List.mem_append_left _ hr
  exact List.mem_append_right _ (mem_pushAll_of_mem key _ _ hr)

lemma inv_run (n : Nat) : Inv key children root (run key children root n) := by
  induction n with
  | zero => exact inv_start
  | succ n ih => exact inv_step ih

-- ==== termination

lemma run_ordered_length (n : Nat) : (run key children root n).buffer = []
    ∨ (run key children root n).ordered.length = n := by
  induction n with
  | zero => exact .inr rfl
  | succ n ih =>
    show (step key children _).buffer = [] ∨ _
    unfold step
    split
    next hb => exact .inl hb
    next x rest hb =>
    right
    rcases ih with ih | ih
    · rw [ih] at hb
      cases hb
    show (step key children _).ordered.length = n + 1
    unfold step
    rw [hb]
    rw [pushAll_ordered, List.length_append, ih]
    rfl

/-- A walk whose children's keys all lie in `U` empties its buffer within
`U.length + 1` steps. -/
lemma run_buffer_nil {U : List κ} (hU : ∀ x, ∀ y ∈ children x, key y ∈ U)
    {n : Nat} (hn : U.length + 1 ≤ n) :
    (run key children root n).buffer = [] := by
  have hinv : Inv key children root _ := inv_run n
  have hlenOr : (run key children root n).buffer = [] ∨ _ := run_ordered_length n
  rcases hlenOr with h | h
  · exact h
  have hlen := hinv.perm.length_eq
  have hsub : (run key children root n).seen ⊆ U := by
    intro k hk
    obtain ⟨x, y, -, hy, rfl⟩ := hinv.pushed k hk
    exact hU x y hy
  have hle := (hinv.nodup.subperm hsub).length_le
  simp only [List.length_map, List.length_append, List.length_cons] at hlen
  exact List.length_eq_zero_iff.mp (by omega)

lemma run_stable {n : Nat} (h : (run key children root n).buffer = []) :
    ∀ k, run key children root (n + k) = run key children root n := by
  intro k
  induction k with
  | zero => rfl
  | succ k ih =>
    show step key children (run key children root (n + k)) = _
    rw [ih]
    unfold step
    rw [h]

section

variable (h : Yields key children root out)

include h

lemma Yields.unique {out' : List α} (h' : Yields key children root out') :
    out = out' := by
  obtain ⟨n, hn, rfl⟩ := h
  obtain ⟨m, hm, rfl⟩ := h'
  rw [← run_stable hn m, Nat.add_comm, run_stable hm n]

-- ==== what a walk emits

lemma Yields.reach : ∀ y ∈ out, Reach children root y := by
  obtain ⟨n, -, rfl⟩ := h
  intro y hy
  exact (inv_run n).reach y (List.mem_append_left _ hy)

lemma Yields.root_mem : root ∈ out := by
  obtain ⟨n, hn, rfl⟩ := h
  have hinv : Inv key children root _ := inv_run n
  have hr := hinv.root_mem
  rw [hn, List.append_nil] at hr
  exact hr

/-- A child of an emitted item is emitted, up to its key; or it carries the
root's key. -/
lemma Yields.closed {x y : α} (hx : x ∈ out) (hy : y ∈ children x) :
    ∃ y' ∈ out, key y' = key y := by
  obtain ⟨n, hn, rfl⟩ := h
  have hinv : Inv key children root _ := inv_run n
  have hseen := hinv.closed x hx y hy
  have hmem : key y ∈ ((run key children root n).ordered
      ++ (run key children root n).buffer).map key :=
    hinv.perm.mem_iff.mpr (List.mem_cons_of_mem _ hseen)
  rw [hn, List.append_nil] at hmem
  obtain ⟨y', hy', hk⟩ := List.mem_map.mp hmem
  exact ⟨y', hy', hk⟩

/-- With keys that identify the items reached, everything reached is
emitted. -/
lemma Yields.complete
    (hinj : ∀ x y, Reach children root x → Reach children root y →
      key x = key y → x = y)
    (hz : Reach children root z) : z ∈ out := by
  induction hz with
  | refl => exact h.root_mem
  | @tail x y hx hy ih =>
    obtain ⟨y', hy', hk⟩ := h.closed ih hy
    rw [← hinj y' y (h.reach y' hy') (Relation.ReflTransGen.tail hx hy) hk]
    exact hy'

/-- Nothing is emitted twice when no child carries the root's key. -/
lemma Yields.nodup
    (hroot : ∀ x, Reach children root x → ∀ y ∈ children x, key y ≠ key root) :
    (out.map key).Nodup := by
  obtain ⟨n, hn, rfl⟩ := h
  have hinv : Inv key children root _ := inv_run n
  have hp := hinv.perm
  rw [hn, List.append_nil] at hp
  refine hp.nodup_iff.mpr (List.nodup_cons.mpr ⟨?_, hinv.nodup⟩)
  intro hmem
  obtain ⟨x, y, hx, hy, hk⟩ := hinv.pushed _ hmem
  exact hroot x hx y hy hk

end

-- ==== dropping items

/-- Two walks side by side: the second is the first without the items
`keep` rejects. -/
structure Sim (key : α → κ) (P : α → Prop) (keep : α → Bool) (w v : Walk α κ) : Prop where
  buffer : w.buffer.filter keep = v.buffer
  ordered : w.ordered.filter keep = v.ordered
  seen : ∀ y, P y → keep y = true → (key y ∈ w.seen ↔ key y ∈ v.seen)
  inside : ∀ y ∈ w.buffer, P y

variable (hinj : ∀ x y, P x → P y → key x = key y → x = y)

include hinj

/-- Pushing a list on the first walk, and its kept part on the second. -/
lemma Sim.pushAll (ys : List α) {w v : Walk α κ} (hP : ∀ y ∈ ys, P y)
    (h : Sim key P keep w v) :
    Sim key P keep (pushAll key w ys) (pushAll key v (ys.filter keep)) := by
  induction ys generalizing w v with
  | nil => exact h
  | cons y ys ih =>
    have hy : P y := hP y (List.mem_cons_self ..)
    have hys : ∀ z ∈ ys, P z := fun z hz => hP z (List.mem_cons_of_mem _ hz)
    cases hk : keep y with
    | false =>
      rw [List.filter_cons_of_neg (by simp [hk])]
      refine ih hys ?_
      unfold push
      split
      · exact h
      refine ⟨?_, h.ordered, ?_, ?_⟩
      · rw [List.filter_cons_of_neg (by simp [hk])]
        exact h.buffer
      · intro z hz hkz
        rw [List.mem_cons, h.seen z hz hkz]
        constructor
        · rintro (heq | hmem)
          · rw [hinj z y hz hy heq, hk] at hkz
            cases hkz
          exact hmem
        exact .inr
      intro z hz
      rcases List.mem_cons.mp hz with rfl | hz
      · exact hy
      exact h.inside z hz
    | true =>
      rw [List.filter_cons_of_pos hk]
      refine ih hys ?_
      unfold push
      by_cases hseen : key y ∈ w.seen
      · rw [if_pos hseen, if_pos ((h.seen y hy hk).mp hseen)]
        exact h
      rw [if_neg hseen, if_neg (fun hc => hseen ((h.seen y hy hk).mpr hc))]
      refine ⟨?_, h.ordered, ?_, ?_⟩
      · rw [List.filter_cons_of_pos hk, h.buffer]
      · intro z hz hkz
        rw [List.mem_cons, List.mem_cons, h.seen z hz hkz]
      intro z hz
      rcases List.mem_cons.mp hz with rfl | hz
      · exact hy
      exact h.inside z hz

variable (hP : ∀ x, P x → ∀ y ∈ children x, P y)
    (hkeep : ∀ x, P x → keep x = true → (children x).filter keep = children' x)
    (hdrop : ∀ x, P x → keep x = false → ∀ y ∈ children x, keep y = false)
    (hroot : P root) (hrootKeep : keep root = true)

include hP hkeep hdrop hroot hrootKeep

/-- Every number of steps of the first walk is matched by some number of
steps of the second: as many as kept items were popped. -/
lemma sim_run :
    ∀ n, ∃ m, Sim key P keep (run key children root n)
      (run key children' root m) := by
  intro n
  induction n with
  | zero =>
    refine ⟨0, ?_, rfl, fun _ _ _ => Iff.rfl, ?_⟩
    · exact List.filter_cons_of_pos hrootKeep
    intro y hy
    rw [show y = root from List.mem_singleton.mp hy]
    exact hroot
  | succ n ih =>
    obtain ⟨m, h⟩ := ih
    cases hb : (run key children root n).buffer with
    | nil =>
      refine ⟨m, ?_⟩
      rw [run_stable hb 1]
      exact h
    | cons x rest =>
      have hx : P x := h.inside x (hb ▸ List.mem_cons_self)
      have hrest : ∀ y ∈ rest, P y := fun y hy => h.inside y (hb ▸ List.mem_cons_of_mem _ hy)
      have hstep : run key children root (n + 1)
          = pushAll key { run key children root n with
              buffer := rest
              ordered := (run key children root n).ordered ++ [x] }
            (children x) := by
        show step key children _ = _
        unfold step
        rw [hb]
      have hbuf := h.buffer
      rw [hb] at hbuf
      rw [hstep]
      cases hk : keep x with
      | true =>
        -- a kept item is on top of both buffers
        rw [List.filter_cons_of_pos hk] at hbuf
        refine ⟨m + 1, ?_⟩
        have hstep' : run key children' root (m + 1)
            = pushAll key { run key children' root m with
                buffer := rest.filter keep
                ordered := (run key children' root m).ordered ++ [x] }
              (children' x) := by
          show step key children' _ = _
          unfold step
          rw [← hbuf]
        rw [hstep', ← hkeep x hx hk]
        refine Sim.pushAll hinj _ (hP x hx) ⟨rfl, ?_, h.seen, hrest⟩
        rw [List.filter_append, h.ordered, List.filter_cons_of_pos hk]
        rfl
      | false =>
        -- a rejected item pushes rejected items only
        rw [List.filter_cons_of_neg (by simp [hk])] at hbuf
        refine ⟨m, ?_⟩
        have hnil : (children x).filter keep = [] := by
          rw [List.filter_eq_nil_iff]
          intro y hy
          rw [hdrop x hx hk y hy]
          exact Bool.false_ne_true
        have hpop : Sim key P keep { run key children root n with
            buffer := rest
            ordered := (run key children root n).ordered ++ [x] }
            (run key children' root m) := by
          refine ⟨hbuf, ?_, h.seen, hrest⟩
          rw [List.filter_append, h.ordered, List.filter_cons_of_neg (by simp [hk])]
          exact List.append_nil _
        have hs := Sim.pushAll hinj (children x) (hP x hx) hpop
        rw [hnil] at hs
        exact hs

/-- A walk that visits rejected items emits, those apart, what a walk that
never sees them emits. -/
lemma Yields.filter (h : Yields key children root out) :
    Yields key children' root (out.filter keep) := by
  obtain ⟨n, hn, rfl⟩ := h
  obtain ⟨m, hs⟩ := sim_run hinj hP hkeep hdrop hroot hrootKeep n
  refine ⟨m, ?_, hs.ordered.symm⟩
  rw [← hs.buffer, hn]
  rfl

end HetuEngine.Lib.Worklist
