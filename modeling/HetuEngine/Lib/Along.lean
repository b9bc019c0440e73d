/-
Properties of a list of inputs that are checked input by input.

`Along P pre cs` says that every element `c` of `cs` satisfies `P before c`,
where `before` is `pre` and the elements of `cs` in front of `c`; `P` may run
a machine on `before` and look at the state it finds there. The definition
recurses forwards, so it can be evaluated; the proofs about runs go by the
last input, with `along_concat`.
-/
import Mathlib.Data.List.Induction

namespace HetuEngine.Lib

variable {α : Type} {P Q : List α → α → Prop}

/-- Every element satisfies `P` against the elements before it. -/
def Along (P : List α → α → Prop) : List α → List α → Prop
  | _, [] => True
  | pre, c :: cs => P pre c ∧ Along P (pre ++ [c]) cs

instance Along.decidable [∀ pre c, Decidable (P pre c)] : ∀ pre cs, Decidable (Along P pre cs)
  | _, [] => instDecidableTrue
  | pre, c :: cs =>
    let _ := Along.decidable (pre ++ [c]) cs
    inferInstanceAs (Decidable (P pre c ∧ Along P (pre ++ [c]) cs))

lemma along_nil (pre : List α) : Along P pre [] := trivial

lemma along_of_forall (h : ∀ pre c, P pre c) :
    ∀ pre cs : List α, Along P pre cs := by
  intro pre cs
  induction cs generalizing pre with
  | nil => exact trivial
  | cons c cs ih => exact ⟨h pre c, ih _⟩

variable {pre cs ds : List α}

lemma along_append :
    Along P pre (cs ++ ds) ↔ Along P pre cs ∧ Along P (pre ++ cs) ds := by
  induction cs generalizing pre with
  | nil =>
    rw [List.append_nil]
    exact ⟨fun h => ⟨trivial, h⟩, fun h => h.2⟩
  | cons a cs ih =>
    rw [List.append_cons pre a cs]
    exact ⟨fun h => ⟨⟨h.1, (ih.mp h.2).1⟩, (ih.mp h.2).2⟩, fun h => ⟨h.1.1, ih.mpr ⟨h.1.2, h.2⟩⟩⟩

variable {c : α} {R : α → Prop}

lemma along_concat :
    Along P pre (cs ++ [c]) ↔ Along P pre cs ∧ P (pre ++ cs) c := by
  rw [along_append]
  exact and_congr_right fun _ => ⟨fun h => h.1, fun h => ⟨h, trivial⟩⟩

lemma Along.imp (h : ∀ pre c, P pre c → Q pre c) (hP : Along P pre cs) :
    Along Q pre cs := by
  induction cs generalizing pre with
  | nil => exact trivial
  | cons a cs ih => exact ⟨h _ _ hP.1, ih hP.2⟩

/-- An element satisfies `P` against what is in front of it. -/
lemma Along.of_append (h : Along P pre (cs ++ c :: ds)) : P (pre ++ cs) c :=
  (along_append.mp h).2.1

/-- Every element satisfies `P` against a part of what is before it. -/
lemma Along.of_mem (h : Along P pre cs) (hc : c ∈ cs) :
    ∃ before, before.IsPrefix (pre ++ cs) ∧ P before c := by
  obtain ⟨front, rest, rfl⟩ := List.append_of_mem hc
  refine ⟨pre ++ front, ?_, h.of_append⟩
  rw [← List.append_assoc]
  exact List.prefix_append _ _

lemma Along.and (hP : Along P pre cs) (hQ : Along Q pre cs) :
    Along (fun pre c => P pre c ∧ Q pre c) pre cs := by
  induction cs generalizing pre with
  | nil => trivial
  | cons a cs ih => exact ⟨⟨hP.1, hQ.1⟩, ih hP.2 hQ.2⟩

lemma Along.and_mem (h : Along P pre cs) (hR : ∀ c ∈ cs, R c) :
    Along (fun pre c => P pre c ∧ R c) pre cs := by
  induction cs generalizing pre with
  | nil => trivial
  | cons a cs ih =>
    exact ⟨⟨h.1, hR a (List.mem_cons_self ..)⟩, ih h.2 fun c hc => hR c (List.mem_cons_of_mem _ hc)⟩

/-- What holds of an element whenever it and all before it are in `R` holds
along every list in `R`. -/
lemma along_of_forall_mem
    (h : ∀ before c, (∀ x ∈ before ++ [c], R x) → P before c)
    (hR : ∀ c ∈ cs, R c) : Along P [] cs := by
  induction cs using List.reverseRecOn with
  | nil => trivial
  | append_singleton cs c ih =>
    rw [along_concat]
    exact ⟨ih fun x hx => hR x (List.mem_append_left _ hx), h cs c hR⟩

/-- What holds at first and is kept by every step of a kind holds after such
steps. -/
lemma Along.invariant {J : List α → Prop} (hnil : J [])
    (hstep : ∀ pre c, (pre ++ [c]).IsPrefix cs → J pre → P pre c →
      J (pre ++ [c])) (h : Along P [] cs) : J cs := by
  induction cs using List.reverseRecOn with
  | nil => exact hnil
  | append_singleton cs c ih =>
    obtain ⟨hcs, hc⟩ := along_concat.mp h
    refine hstep cs c List.prefix_rfl (ih (fun pre c' hpre => ?_) hcs) hc
    exact hstep pre c' (hpre.trans (List.prefix_append ..))

/-- A property of runs, of which each step decides whether it still holds as
long as the invariant `J` does, holds all the way exactly when each step is of
the right kind. -/
lemma forall_prefix_iff_along_of {I J : List α → Prop} (hnil : J [])
    (himp : ∀ pre, J pre → I pre)
    (hstep : ∀ pre c, (pre ++ [c]).IsPrefix cs → J pre →
      (I (pre ++ [c]) → P pre c) ∧ (P pre c → J (pre ++ [c]))) :
    (∀ pre, pre.IsPrefix cs → I pre) ↔ Along P [] cs := by
  have hJ : ∀ ds, ds.IsPrefix cs → Along P [] ds → J ds := fun ds hds h =>
    h.invariant hnil fun pre c hpre h => (hstep pre c (hpre.trans hds) h).2
  constructor
  · intro h
    have hall : ∀ ds, ds.IsPrefix cs → Along P [] ds := by
      intro ds hds
      induction ds using List.reverseRecOn with
      | nil => trivial
      | append_singleton ds c ih =>
        have hpre := (List.prefix_append ds [c]).trans hds
        exact along_concat.mpr ⟨ih hpre,
          (hstep ds c hds (hJ ds hpre (ih hpre))).1 (h _ hds)⟩
    exact hall cs List.prefix_rfl
  rintro h pre ⟨rest, rfl⟩
  exact himp pre (hJ pre (List.prefix_append ..) (along_append.mp h).1)

/-- The same, where the property is its own invariant. -/
lemma forall_prefix_iff_along {I : List α → Prop} (hnil : I [])
    (hstep : ∀ pre c, I pre → (I (pre ++ [c]) ↔ P pre c)) (cs : List α) :
    (∀ pre, pre.IsPrefix cs → I pre) ↔ Along P [] cs :=
  forall_prefix_iff_along_of hnil (fun _ h => h)
    fun pre c _ h => ⟨(hstep pre c h).mp, (hstep pre c h).mpr⟩

end HetuEngine.Lib
