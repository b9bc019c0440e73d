/-
Computations that change a state and may fail, where a failure does not undo
the changes made before it: `EStateM`, as an asynchronous task with `?` and
early returns behaves.

# Effects

What a task can do to its state is described once, by a relation `r`: its
elementary effects, each with its condition. `Does r X m s Q` says that `m`,
started in `s`, performs effects only, fails at most with an error in `X`,
and that when it returns, value and state satisfy `Q`. The rules follow the
structure of the code, so a function is taken apart once, and
`invariant_of_effects` turns what every effect preserves into something the
function preserves, whichever way it ends.

# Ends

Where the steps of a function do not each preserve what it preserves as a
whole, `Ends m s Q F` says how it ends: with a value and a state of `Q`, or
in a state of `F` with an error, as a weakest precondition with two exits.
-/
import Mathlib.Logic.Relation

namespace HetuEngine.Lib

open Relation (ReflTransGen)

variable {E S α β : Type}

namespace Fallible

/-- The state in which a computation ends, whether it returns or fails. -/
def final (m : EStateM E S α) (s : S) : S :=
  match m s with
  | .ok _ s' => s'
  | .error _ s' => s'

/-- A computation that only looks: the outcome of a pure check. -/
def lift {E' : Type} (f : E' → E) (x : Except E' α) : EStateM E S α :=
  match x with
  | .ok a => pure a
  | .error e => throw (f e)

/-- Replace the error of a failing computation; the state stays. -/
def mapError (f : E → E) (m : EStateM E S α) : EStateM E S α := fun s =>
  match m s with
  | .ok a s' => .ok a s'
  | .error e s' => .error (f e) s'

variable {f : α → Except E β} {x : Except E α}

/-- A sequence of checks succeeds if each of them does. -/
lemma bind_eq_ok {b : β} :
    (x >>= f) = .ok b ↔ ∃ a, x = .ok a ∧ f a = .ok b := by
  cases x <;> simp [Bind.bind, Except.bind]

lemma ite_error_eq_ok {p : Prop} [Decidable p] {e : E} {a : α} :
    (if p then .error e else x) = .ok a ↔ ¬p ∧ x = .ok a := by
  split <;> simp [*]

lemma exists_bind (hx : ∃ a, x = .ok a)
    (hf : ∀ a, x = .ok a → ∃ b, f a = .ok b) : ∃ b, (x >>= f) = .ok b := by
  obtain ⟨a, ha⟩ := hx
  obtain ⟨b, hb⟩ := hf a ha
  exact ⟨b, bind_eq_ok.mpr ⟨a, ha, hb⟩⟩

end Fallible

open Fallible

/-- Started in `s`, `m` performs effects of `r` only, fails at most with an
error of `X`, and returns at most a value and a state of `Q`. -/
def Does (r : S → S → Prop) (X : E → Prop) (m : EStateM E S α) (s : S) (Q : α → S → Prop) : Prop :=
  match m s with
  | .ok a s' => ReflTransGen r s s' ∧ Q a s'
  | .error e s' => ReflTransGen r s s' ∧ X e

namespace Does

variable {r : S → S → Prop} {X : E → Prop} {s : S} {Q : α → S → Prop}

lemma of_pure {a : α} (h : Q a s) : Does r X (pure a : EStateM E S α) s Q :=
  ⟨.refl, h⟩

lemma of_throw {e : E} (h : X e) : Does r X (throw e : EStateM E S α) s Q :=
  ⟨.refl, h⟩

lemma of_modify {f : S → S} {Q : Unit → S → Prop} (hr : r s (f s))
    (h : Q () (f s)) : Does r X (modify f : EStateM E S Unit) s Q :=
  ⟨.single hr, h⟩

variable {R : β → S → Prop} {m : EStateM E S α}

lemma bind {f : α → EStateM E S β} (hm : Does r X m s Q)
    (hf : ∀ a s', ReflTransGen r s s' → Q a s' → Does r X (f a) s' R) :
    Does r X (m >>= f) s R := by
  unfold Does at hm ⊢
  show match EStateM.bind m f s with
    | .ok a s' => ReflTransGen r s s' ∧ R a s'
    | .error e s' => ReflTransGen r s s' ∧ X e
  unfold EStateM.bind
  revert hm
  cases m s with
  | error e s' => exact id
  | ok a s' =>
    intro hm
    have hrest := hf a s' hm.1 hm.2
    unfold Does at hrest
    simp only
    revert hrest
    cases f a s' with
    | ok b s'' | error e s'' => exact fun hrest => ⟨hm.1.trans hrest.1, hrest.2⟩

lemma mono {r' : S → S → Prop} (h : Does r X m s Q)
    (hr : ∀ s s', r s s' → r' s s') : Does r' X m s Q := by
  unfold Does at h ⊢
  revert h
  cases m s with
  | ok a s' | error e s' => exact fun h => ⟨ReflTransGen.mono hr _ _ h.1, h.2⟩

lemma imp {R : α → S → Prop} (h : Does r X m s Q)
    (hQ : ∀ a s', ReflTransGen r s s' → Q a s' → R a s') : Does r X m s R := by
  unfold Does at h ⊢
  revert h
  cases m s with
  | ok a s' => exact fun h => ⟨h.1, hQ a s' h.1 h.2⟩
  | error e s' => exact id

-- `bind` where the first computation looks, checks or updates.

lemma get_bind {f : S → EStateM E S β} (h : Does r X (f s) s R) :
    Does r X (get >>= f) s R := h

lemma lift_bind {E' : Type} {f : E' → E} {x : Except E' α}
    {g : α → EStateM E S β} (hX : ∀ e, X (f e))
    (hg : ∀ a, x = .ok a → Does r X (g a) s R) :
    Does r X (lift f x >>= g) s R := by
  cases x with
  | ok a => exact hg a rfl
  | error e => exact ⟨.refl, hX e⟩

lemma modify_bind {f : S → S} {g : Unit → EStateM E S β} (hr : r s (f s))
    (h : Does r X (g ()) (f s) R) : Does r X (modify f >>= g) s R :=
  bind (of_modify (Q := fun _ s' => s' = f s) hr rfl) fun _ s' _ hs => by
    subst hs
    exact h

lemma mapError {f : E → E} {Y : E → Prop} (h : Does r X m s Q)
    (hX : ∀ e, X e → Y (f e)) : Does r Y (mapError f m) s Q := by
  unfold Does Fallible.mapError at *
  revert h
  cases m s with
  | ok a s' => exact id
  | error e s' => exact fun h => ⟨h.1, hX _ h.2⟩

/-- A computation leads to its final state by effects. -/
lemma effects (h : Does r X m s Q) : ReflTransGen r s (final m s) := by
  unfold Does at h
  unfold final
  cases hm : m s with
  | ok a s' | error e s' =>
    rw [hm] at h
    exact h.1

end Does

/-- What every effect preserves, any number of effects preserves. -/
lemma invariant_of_effects {r : S → S → Prop} {I : S → Prop}
    (hstep : ∀ s s', r s s' → I s → I s') {s s' : S}
    (h : ReflTransGen r s s') (hI : I s) : I s' := by
  induction h with
  | refl => exact hI
  | tail _ hr ih => exact hstep _ _ hr ih

/-- Started in `s`, `m` returns a value and a state of `Q`, or fails in a
state of `F`. -/
def Ends (m : EStateM E S α) (s : S) (Q : α → S → Prop) (F : S → Prop) : Prop :=
  match m s with
  | .ok a s' => Q a s'
  | .error _ s' => F s'

namespace Ends

variable {s : S} {Q : α → S → Prop} {F : S → Prop}

lemma of_pure {a : α} (h : Q a s) : Ends (pure a : EStateM E S α) s Q F := h

lemma of_throw {e : E} (h : F s) : Ends (throw e : EStateM E S α) s Q F := h

lemma of_modify {f : S → S} {Q : Unit → S → Prop} (h : Q () (f s)) :
    Ends (modify f : EStateM E S Unit) s Q F :=
  h

variable {R : β → S → Prop}

lemma bind {m : EStateM E S α} {f : α → EStateM E S β}
    (hm : Ends m s (fun a s' => Ends (f a) s' R F) F) :
    Ends (m >>= f) s R F := by
  unfold Ends at hm ⊢
  show match EStateM.bind m f s with
    | .ok a s' => R a s'
    | .error _ s' => F s'
  unfold EStateM.bind
  cases hms : m s with
  | error e s' | ok a s' =>
    rw [hms] at hm
    exact hm

lemma get_bind {f : S → EStateM E S β} (h : Ends (f s) s R F) :
    Ends (get >>= f) s R F := h

lemma modify_bind {f : S → S} {g : Unit → EStateM E S β}
    (h : Ends (g ()) (f s) R F) : Ends (modify f >>= g) s R F :=
  h

lemma lift_bind {E' : Type} {f : E' → E} {x : Except E' α}
    {g : α → EStateM E S β} (hF : F s)
    (hg : ∀ a, x = .ok a → Ends (g a) s R F) :
    Ends (lift f x >>= g) s R F := by
  cases x with
  | ok a => exact hg a rfl
  | error e => exact hF

end Ends

namespace Does

variable {r : S → S → Prop} {X : E → Prop} {s : S} {Q : α → S → Prop}

/-- A computation whose steps are effects only together. -/
lemma of_ends {m : EStateM E S α} (hX : ∀ e, X e)
    (h : Ends m s (fun a s' => ReflTransGen r s s' ∧ Q a s')
      (ReflTransGen r s)) :
    Does r X m s Q := by
  unfold Does
  unfold Ends at h
  revert h
  cases m s with
  | ok a s' => exact id
  | error e s' => exact fun h => ⟨h, hX e⟩

lemma set_bind {s' : S} {g : Unit → EStateM E S β} {R : β → S → Prop}
    (hr : ReflTransGen r s s') (h : Does r X (g ()) s' R) :
    Does r X (set s' >>= g) s R :=
  bind (m := (set s' : EStateM E S Unit)) (Q := fun _ t => t = s') ⟨hr, rfl⟩ fun _ t _ ht => by
      subst ht
      exact h

end Does

end HetuEngine.Lib
