/-
Finite maps as the programs use them: hash maps whose iteration order
nothing depends on, and ordered maps and sets.

A hash map is Mathlib's `AList`: an association list with no repeated key,
read through `lookup`. Two operations are added: `retain`, which visits every
entry, may change its value and may drop it, and `values`. Every statement
about a hash map goes through `lookup` or through membership in `values`,
so the list order never shows. A map whose values are sets is read with
`setAt`, for which a missing key is an empty set.

An ordered map or set is a strictly increasing list; the order is part of
the value, since iterating it is what its users do.
-/
import Mathlib.Algebra.GroupWithZero.Nat
import Mathlib.Data.Finset.Insert
import Mathlib.Data.List.AList

namespace HetuEngine.Lib

open AList

-- ==== hash maps

abbrev HashMap (K V : Type) := AList fun _ : K => V

namespace HashMap

variable {K V W : Type}

/-- One entry under `retain`: its key with the value `f` keeps, or nothing
when `f` drops it. -/
def retainEntry (f : K → V → Option V) (e : Sigma fun _ : K => V) : Option (Sigma fun _ : K => V) :=
  (f e.1 e.2).map fun v => ⟨e.1, v⟩

variable (f : K → V → Option V) (l : List (K × V))

lemma keys_retain_sublist :
    ∀ l : List (Sigma fun _ : K => V), (l.filterMap
      (retainEntry f)).keys.Sublist l.keys := by
  intro l
  induction l with
  | nil => exact List.Sublist.refl _
  | cons e l ih =>
    rw [List.filterMap_cons]
    unfold retainEntry
    cases f e.1 e.2 with
    | none => exact List.Sublist.cons _ ih
    | some v => exact List.Sublist.cons_cons _ ih

/-- Visit every entry; `f` returns the value to keep, or nothing when the
entry is to be dropped. -/
def retain (f : K → V → Option V) (m : HashMap K V) : HashMap K V where
  entries := m.entries.filterMap (retainEntry f)
  nodupKeys := List.Nodup.sublist (keys_retain_sublist f m.entries) m.nodupKeys

def values (m : HashMap K V) : List V := m.entries.map Sigma.snd

variable [DecidableEq K]

/-- Collect pairs into a map; of two pairs with one key the later wins. -/
def collect (l : List (K × V)) : HashMap K V := l.foldl (fun m e => m.insert e.1 e.2) ∅

/-- Reading a retained map: the old value, if there was one and `f` kept
it. -/
lemma lookup_retain (m : HashMap K V) (k : K) :
    (retain f m).lookup k = (m.lookup k).bind (f k) := by
  ext v
  rw [← Option.mem_def, mem_lookup_iff, Option.bind_eq_some_iff]
  constructor
  · intro h
    obtain ⟨⟨k', v'⟩, hmem, hkeep⟩ := List.mem_filterMap.mp h
    obtain ⟨v'', hv, heq⟩ := Option.map_eq_some_iff.mp hkeep
    cases heq
    exact ⟨v', mem_lookup_iff.mpr hmem, hv⟩
  rintro ⟨v', hmem, hv⟩
  exact List.mem_filterMap.mpr ⟨⟨k, v'⟩, mem_lookup_iff.mp hmem, by simp [retainEntry, hv]⟩

variable {m : HashMap K V} {v : V}

lemma mem_values : v ∈ values m ↔ ∃ k, m.lookup k = some v := by
  unfold values
  rw [List.mem_map]
  constructor
  · rintro ⟨⟨k, v'⟩, hmem, rfl⟩
    exact ⟨k, mem_lookup_iff.mpr hmem⟩
  rintro ⟨k, hk⟩
  exact ⟨⟨k, v⟩, mem_lookup_iff.mp hk, rfl⟩

variable {k : K}

/-- What a map holds after further pairs went in: one of those pairs, or
what it held before. -/
lemma lookup_foldl_insert (m : HashMap K V)
    (h : (l.foldl (fun m e => m.insert e.1 e.2) m).lookup k = some v) :
    (k, v) ∈ l ∨ m.lookup k = some v := by
  induction l generalizing m with
  | nil => exact .inr h
  | cons e l ih =>
    rcases ih _ h with h | h
    · exact .inl (List.mem_cons_of_mem _ h)
    by_cases hk : k = e.1
    · subst hk
      rw [lookup_insert] at h
      cases h
      exact .inl (List.mem_cons_self ..)
    rw [lookup_insert_ne hk] at h
    exact .inr h

lemma lookup_collect_mem {l : List (K × V)}
    (h : (collect l).lookup k = some v) : (k, v) ∈ l := by
  rcases lookup_foldl_insert l ∅ h with h | h
  · exact h
  cases h

lemma mem_foldl_insert (m : HashMap K V) :
    k ∈ l.foldl (fun m e => m.insert e.1 e.2) m
      ↔ k ∈ l.map Prod.fst ∨ k ∈ m := by
  induction l generalizing m with
  | nil => simp
  | cons e l ih =>
    rw [List.foldl_cons, ih, mem_insert, List.map_cons, List.mem_cons]
    tauto

lemma exists_lookup_collect {l : List (K × V)} (h : (k, v) ∈ l) :
    ∃ v', (collect l).lookup k = some v' := by
  have hmem : k ∈ collect l := (mem_foldl_insert l ∅).mpr (.inl (List.mem_map_of_mem h))
  exact Option.isSome_iff_exists.mp (lookup_isSome.mpr hmem)

-- ---- sets by key

variable {A : Type} [DecidableEq A]

/-- The set kept under a key, empty when there is none. -/
def setAt (m : HashMap K (Finset A)) (k : K) : Finset A := (m.lookup k).getD ∅

def addTo (m : HashMap K (Finset A)) (k : K) (a : A) : HashMap K (Finset A) :=
  m.insert k (insert a (setAt m k))

lemma mem_setAt_addTo {m : HashMap K (Finset A)} {k k' : K} {a b : A} :
    b ∈ setAt (addTo m k a) k' ↔ k' = k ∧ b = a ∨ b ∈ setAt m k' := by
  by_cases hk : k' = k
  · subst hk
    simp [addTo, setAt]
  simp [addTo, setAt, hk]

def retainKeys {V : Type} (p : K → Bool) (m : HashMap K V) : HashMap K V :=
  retain (fun k v => if p k then some v else none) m

omit [DecidableEq A] in
lemma mem_setAt_retainKeys {p : K → Bool} {m : HashMap K (Finset A)} {a : A} :
    a ∈ setAt (retainKeys p m) k ↔ p k = true ∧ a ∈ setAt m k := by
  unfold setAt retainKeys
  rw [lookup_retain]
  cases m.lookup k with
  | none => simp
  | some v => by_cases hp : p k = true <;> simp [hp]

end HashMap

-- ==== ordered maps

/-- An ordered map: its entries in strictly increasing key order. -/
structure BTreeMap (K V : Type) [LinearOrder K] where
  entries : List (K × V)
  sorted : (entries.map Prod.fst).Pairwise (· < ·)

/-- An ordered set: its elements in strictly increasing order. -/
structure BTreeSet (K : Type) [LinearOrder K] where
  toList : List K
  sorted : toList.Pairwise (· < ·)

namespace BTreeMap

variable {K V : Type} [LinearOrder K]

instance [DecidableEq V] : DecidableEq (BTreeMap K V) := fun a b =>
  decidable_of_iff (a.entries = b.entries)
    ⟨fun h => by cases a; cases b; cases h; rfl, fun h => h ▸ rfl⟩

def empty : BTreeMap K V := ⟨[], List.Pairwise.nil⟩

def keys (m : BTreeMap K V) : List K := m.entries.map Prod.fst

def values (m : BTreeMap K V) : List V := m.entries.map Prod.snd

def get (m : BTreeMap K V) (k : K) : Option V := m.entries.lookup k

lemma keys_nodup (m : BTreeMap K V) : m.keys.Nodup :=
  m.sorted.imp fun h => ne_of_lt h

lemma get_eq_none {m : BTreeMap K V} {k : K} (h : k ∉ m.keys) :
    m.get k = none := by
  refine List.lookup_eq_none_iff.mpr fun e he => ?_
  rw [bne_iff_ne]
  rintro rfl
  exact h (List.mem_map_of_mem he)

lemma get_of_mem {m : BTreeMap K V} {e : K × V} (h : e ∈ m.entries) :
    m.get e.1 = some e.2 := by
  obtain ⟨before, after, hsplit⟩ := List.append_of_mem h
  refine List.lookup_eq_some_iff.mpr ⟨before, after, hsplit, fun x hx => ?_⟩
  have hsorted := m.sorted
  rw [hsplit, List.map_append, List.map_cons] at hsorted
  have hlt :=
    (List.pairwise_append.mp hsorted).2.2 x.1 (List.mem_map_of_mem hx) e.1
      List.mem_cons_self
  exact bne_iff_ne.mpr hlt.ne'

lemma sum_get_keys (m : BTreeMap K V) (f : V → Nat) :
    (m.keys.map fun k => (m.get k).elim 0 f).sum = (m.values.map f).sum := by
  unfold keys values
  rw [List.map_map, List.map_map]
  congr 1
  refine List.map_congr_left fun e he => ?_
  simp [get_of_mem he]

end BTreeMap

namespace BTreeSet

variable {K : Type} [LinearOrder K]

instance : DecidableEq (BTreeSet K) := fun a b =>
  decidable_of_iff (a.toList = b.toList)
    ⟨fun h => by cases a; cases b; cases h; rfl, fun h => h ▸ rfl⟩

instance : Membership K (BTreeSet K) := ⟨fun s k => k ∈ s.toList⟩

instance (k : K) (s : BTreeSet K) : Decidable (k ∈ s) := inferInstanceAs (Decidable (k ∈ s.toList))

lemma mem_def {k : K} {s : BTreeSet K} : k ∈ s ↔ k ∈ s.toList := Iff.rfl

def empty : BTreeSet K := ⟨[], List.Pairwise.nil⟩

def insertSorted (k : K) : List K → List K
  | [] => [k]
  | a :: l =>
    if k < a then k :: a :: l
    else if k = a then a :: l
    else a :: insertSorted k l

lemma mem_insertSorted {k x : K} :
    ∀ {l : List K}, x ∈ insertSorted k l ↔ x = k ∨ x ∈ l := by
  intro l
  induction l with
  | nil => simp [insertSorted]
  | cons a l ih =>
    unfold insertSorted
    split
    · simp
    split
    next h => subst h; simp
    next => rw [List.mem_cons, ih, List.mem_cons]; tauto

lemma insertSorted_sorted (k : K) {l : List K} (h : l.Pairwise (· < ·)) :
    (insertSorted k l).Pairwise (· < ·) := by
  induction l with
  | nil => exact List.pairwise_singleton _ _
  | cons a l ih =>
    obtain ⟨ha, hl⟩ := List.pairwise_cons.mp h
    unfold insertSorted
    split
    next hka =>
      refine List.pairwise_cons.mpr ⟨fun x hx => ?_, h⟩
      rcases List.mem_cons.mp hx with rfl | hx
      · exact hka
      exact lt_trans hka (ha x hx)
    next hka =>
    split
    · exact h
    next hne =>
    refine List.pairwise_cons.mpr ⟨fun x hx => ?_, ih hl⟩
    rcases mem_insertSorted.mp hx with rfl | hx
    · exact lt_of_le_of_ne (not_lt.mp hka) (Ne.symm hne)
    exact ha x hx

def insert (k : K) (s : BTreeSet K) : BTreeSet K :=
  ⟨insertSorted k s.toList, insertSorted_sorted k s.sorted⟩

def ofList (l : List K) : BTreeSet K := l.foldr insert empty

lemma mem_ofList {k : K} {l : List K} : k ∈ ofList l ↔ k ∈ l := by
  induction l with
  | nil => exact Iff.rfl
  | cons a l ih =>
    show k ∈ insertSorted a (ofList l).toList ↔ _
    rw [mem_insertSorted, List.mem_cons, ← mem_def, ih]

end BTreeSet

-- ==== the best of several

/-- A fold that keeps one of two values, one at least as good as both, ends
with a value that was there and is at least as good as all. -/
lemma foldl_best {α : Type*} {r : α → α → Prop} {f : α → α → α}
    (hrefl : ∀ a, r a a) (htrans : ∀ {a b c}, r a b → r b c → r a c)
    (hf : ∀ a b, (f a b = a ∨ f a b = b) ∧ r a (f a b) ∧ r b (f a b))
    (l : List α) :
    ∀ a, l.foldl f a ∈ a :: l ∧ ∀ x ∈ a :: l, r x (l.foldl f a) := by
  induction l with
  | nil =>
    intro a
    exact ⟨List.mem_cons_self, List.forall_mem_singleton.mpr (hrefl a)⟩
  | cons b l ih =>
    intro a
    obtain ⟨hmem, hall⟩ := ih (f a b)
    obtain ⟨hpick, ha, hb⟩ := hf a b
    obtain ⟨hfirst, hrest⟩ := List.forall_mem_cons.mp hall
    rw [List.foldl_cons]
    refine ⟨?_, List.forall_mem_cons.mpr ⟨htrans ha hfirst,
      List.forall_mem_cons.mpr ⟨htrans hb hfirst, hrest⟩⟩⟩
    rcases List.mem_cons.mp hmem with h | h
    · rw [h]
      rcases hpick with h | h
      · exact h.symm ▸ List.mem_cons_self
      exact h.symm ▸ List.mem_cons_of_mem _ List.mem_cons_self
    exact List.mem_cons_of_mem _ (List.mem_cons_of_mem _ h)

end HetuEngine.Lib
