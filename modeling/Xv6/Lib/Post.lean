import Mathlib.Data.List.Basic

/-!
# Postconditions of computations that may fail

A computation in `Except` satisfies a postcondition for its result and one for its failure. The
rules follow the way it is put together.
-/

namespace Xv6.Lib

variable {ε α β : Type} {E E' : ε → Prop} {Q Q' : α → Prop} {R : β → Prop} {x : Except ε α}
  {f : α → Except ε β}

/-- A result satisfies `Q`, and a failure `E`. -/
inductive Post (E : ε → Prop) (Q : α → Prop) : Except ε α → Prop
  | ok {a : α} (h : Q a) : Post E Q (.ok a)
  | error {e : ε} (h : E e) : Post E Q (.error e)

namespace Post

theorem bind (hx : Post E Q x) (hf : ∀ a, Q a → Post E R (f a)) : Post E R (x >>= f) := by
  cases hx with
  | ok h => exact hf _ h
  | error h => exact .error h

theorem mono (h : Post E Q x) (hE : ∀ e, E e → E' e) (hQ : ∀ a, Q a → Q' a) : Post E' Q' x := by
  cases h with
  | ok h => exact .ok (hQ _ h)
  | error h => exact .error (hE _ h)

/-- A sequence whose first part fails in its own way. -/
theorem seq (hx : Post E Q x) (hE : ∀ e, E e → E' e)
    (hf : ∀ a, x = .ok a → Q a → Post E' R (f a)) : Post E' R (x >>= f) := by
  cases hx with
  | ok h => exact hf _ rfl h
  | error h => exact .error (hE _ h)

/-- A computation that cannot fail has a result. -/
theorem total (h : Post E Q x) (hE : ∀ e, ¬ E e) : ∃ a, x = .ok a ∧ Q a := by
  cases h with
  | ok h => exact ⟨_, rfl, h⟩
  | error h => exact absurd h (hE _)

theorem result (h : Post E Q x) {a : α} (hx : x = .ok a) : Q a := by
  subst hx
  cases h with
  | ok h => exact h

/-- What every turn of a loop keeps, the loop keeps. -/
theorem foldlM {σ : Type} {P : σ → Prop} {g : σ → α → Except ε σ} {as : List α}
    (hstep : ∀ a ∈ as, ∀ s, P s → Post E P (g s a)) {s : σ} (h0 : P s) :
    Post E P (as.foldlM g s) := by
  induction as generalizing s with
  | nil => exact .ok h0
  | cons a as ih =>
    rw [List.foldlM_cons]
    exact (hstep a List.mem_cons_self s h0).bind fun t ht =>
      ih (fun b hb => hstep b (List.mem_cons_of_mem a hb)) ht

end Post

end Xv6.Lib
