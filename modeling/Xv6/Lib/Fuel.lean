import Mathlib.Tactic.TypeStar

/-!
# Loops and recursion with a bound on the turns

A recursive function whose termination is a matter of proof takes the number of turns it may use
as an argument. Its outcome is a result, a failure, or `spin` if the turns do not suffice. The
rules take a sequence of computations apart.
-/

namespace Xv6.Lib

/-- The outcome of a computation with a bounded number of turns. -/
inductive Fuel (ε α : Type*)
  | done (a : α)
  | fail (e : ε)
  | spin
  deriving DecidableEq

namespace Fuel

variable {ε : Type} {α β : Type}

instance : Monad (Fuel ε) where
  pure := done
  bind x f := match x with
    | done a => f a
    | fail e => fail e
    | spin => spin

@[simp] theorem done_bind (a : α) (f : α → Fuel ε β) : (done a >>= f) = f a := rfl

/-! ## Pre- and postconditions -/

/-- A result satisfies `Q`, a failure satisfies `E`, and the turns suffice if `enough` holds. -/
def Sat (x : Fuel ε α) (enough : Prop) (E : ε → Prop) (Q : α → Prop) : Prop :=
  match x with
  | done a => Q a
  | fail e => E e
  | spin => ¬ enough

namespace Sat

variable {x : Fuel ε α} {f : α → Fuel ε β} {n n' : Prop} {E : ε → Prop} {Q Q' : α → Prop}
  {R : β → Prop}

theorem bind (hx : x.Sat n E Q) (hf : ∀ a, Q a → (f a).Sat n E R) : (x >>= f).Sat n E R := by
  cases x with
  | done a => exact hf a hx
  | fail e => exact hx
  | spin => exact hx

theorem mono (h : x.Sat n E Q) (hn : n' → n) (hQ : ∀ a, Q a → Q' a) : x.Sat n' E Q' := by
  cases x with
  | done a => exact hQ a h
  | fail e => exact h
  | spin => exact fun hn' => h (hn hn')

end Sat

end Fuel

end Xv6.Lib
