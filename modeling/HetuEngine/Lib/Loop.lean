/-
Loops that may not end: a step either goes on with another state or returns.

`run` makes at most a number of steps. `run_ends` is the rule for
termination: where a measure falls with every step, some number of steps is
enough. `run_post` is the rule for what is returned: it follows from an
invariant, for any number of steps.
-/
import Mathlib.Order.WellFounded

namespace HetuEngine.Lib.Loop

variable {S R M : Type} {step : S → S ⊕ R} {I : S → Prop}

def run (step : S → S ⊕ R) : Nat → S → Option R
  | 0, _ => none
  | n + 1, s =>
    match step s with
    | .inl s' => run step n s'
    | .inr r => some r

lemma run_next {n : Nat} {s s' : S} (h : step s = .inl s') :
    run step (n + 1) s = run step n s' := by
  rw [run, h]

lemma run_return {n : Nat} {s : S} {r : R} (h : step s = .inr r) :
    run step (n + 1) s = some r := by
  rw [run, h]

/-- What is returned satisfies what an invariant implies at every return. -/
lemma run_post {Q : R → Prop} (hnext : ∀ s s', I s → step s = .inl s' → I s')
    (hreturn : ∀ s r, I s → step s = .inr r → Q r) {n : Nat} {s : S} {r : R}
    (hs : I s) (h : run step n s = some r) : Q r := by
  induction n generalizing s with
  | zero => cases h
  | succ n ih =>
    cases hstep : step s with
    | inl s' =>
      rw [run_next hstep] at h
      exact ih (hnext s s' hs hstep) h
    | inr r' =>
      rw [run_return hstep] at h
      cases h
      exact hreturn s r hs hstep

/-- A loop whose every step lowers a measure returns. -/
lemma run_ends {rel : M → M → Prop} (hwf : WellFounded rel) (measure : S → M)
    (hnext : ∀ s s', I s → step s = .inl s' →
      I s' ∧ rel (measure s') (measure s)) :
    ∀ s, I s → ∃ n r, run step n s = some r := by
  intro s
  induction hm : measure s using hwf.induction generalizing s with
  | _ m ih =>
    intro hs
    cases hstep : step s with
    | inl s' =>
      obtain ⟨hs', hlt⟩ := hnext s s' hs hstep
      rw [hm] at hlt
      obtain ⟨n, r, hr⟩ := ih (measure s') hlt s' rfl hs'
      exact ⟨n + 1, r, by rw [run_next hstep]; exact hr⟩
    | inr r => exact ⟨1, r, run_return hstep⟩

end HetuEngine.Lib.Loop
