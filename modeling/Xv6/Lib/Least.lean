import Mathlib.Data.List.MinMax
import Mathlib.Data.Prod.Lex

/-!
# Scans for a least element

A pass over a table that remembers the best entry so far and moves on when it meets a better one
finds the first least entry, in the sense of `List.argmin`. The rules below take the equations of
such a loop to that description of its result.
-/

namespace Xv6.Lib

variable {α β : Type*} [LinearOrder β] {f : α → β}

/-- Of the first two entries only the better one matters. -/
theorem argmin_cons_cons (a i : α) (l : List α) :
    (a :: i :: l).argmin f = ((if f i < f a then i else a) :: l).argmin f := by
  simp only [List.argmin_cons]
  cases l.argmin f with
  | none => split_ifs <;> simp_all
  | some m =>
    dsimp only
    by_cases hi : f i < f a
    · by_cases hm : f m < f i
      · simp [hi, hm, hm.trans hi]
      · simp [hi, hm]
    · by_cases hm : f m < f i
      · simp [hi, hm]
      · have hma : ¬ f m < f a := not_lt.mpr ((not_lt.mp hi).trans (not_lt.mp hm))
        simp [hi, hm, hma]

variable [LinearOrder α] {c : α → Bool} {loop : List α → α → α}

/-- A loop over the entries that pass a test, from the best entry so far. -/
theorem argmin_of_loop (hnil : ∀ a, loop [] a = a)
    (hcons : ∀ {a i is}, a < i →
      loop (i :: is) a = if c i then loop is (if f i < f a then i else a) else loop is a)
    {is : List α} {a : α} (his : (a :: is).Pairwise (· < ·)) :
    (a :: is.filter c).argmin f = some (loop is a) := by
  induction is generalizing a with
  | nil => simp [hnil]
  | cons i is ih =>
    obtain ⟨hlt, hpair⟩ := List.pairwise_cons.mp his
    have hskip : (a :: is).Pairwise (· < ·) :=
      his.sublist ((List.sublist_cons_self i is).cons_cons a)
    rw [hcons (hlt i List.mem_cons_self)]
    cases hc : c i with
    | false =>
      rw [List.filter_cons_of_neg (by simp [hc])]
      exact ih hskip
    | true =>
      rw [List.filter_cons_of_pos hc, argmin_cons_cons, if_pos rfl]
      split
      · exact ih hpair
      · exact ih hskip

/-- The whole pass: it looks for the first entry that passes the test, and goes on from there;
`d` is the result if there is none. -/
theorem getD_argmin_of_pass {pass : List α → α} {d : α} (hnil : ∀ a, loop [] a = a)
    (hcons : ∀ {a i is}, a < i →
      loop (i :: is) a = if c i then loop is (if f i < f a then i else a) else loop is a)
    (hpass : pass [] = d) (hfirst : ∀ i is, pass (i :: is) = if c i then loop is i else pass is)
    {is : List α} (his : is.Pairwise (· < ·)) : pass is = ((is.filter c).argmin f).getD d := by
  induction is with
  | nil => simp [hpass]
  | cons i is ih =>
    rw [hfirst]
    cases hc : c i with
    | false =>
      rw [List.filter_cons_of_neg (by simp [hc])]
      exact ih his.of_cons
    | true =>
      rw [List.filter_cons_of_pos hc, argmin_of_loop hnil hcons his]
      rfl

/-- What the pass finds. -/
theorem least_of_pass (loop : List α → α → α) (pass : List α → α) {d : α} (hnil : ∀ a, loop [] a = a)
    (hcons : ∀ {a i is}, a < i →
      loop (i :: is) a = if c i then loop is (if f i < f a then i else a) else loop is a)
    (hpass : pass [] = d) (hfirst : ∀ i is, pass (i :: is) = if c i then loop is i else pass is)
    {is : List α} (his : is.Pairwise (· < ·)) :
    (∀ q ∈ is, c q = false) ∧ pass is = d ∨
      c (pass is) = true ∧ ∀ q ∈ is, c q = true → f (pass is) ≤ f q := by
  have heq := getD_argmin_of_pass hnil hcons hpass hfirst his
  cases hmin : (is.filter c).argmin f with
  | none =>
    rw [hmin] at heq
    refine .inl ⟨fun q hq => ?_, heq⟩
    have hempty := List.argmin_eq_none.mp hmin
    simpa using List.filter_eq_nil_iff.mp hempty q hq
  | some m =>
    rw [hmin, Option.getD_some] at heq
    rw [heq]
    have hmem := List.argmin_mem (Option.mem_def.mpr hmin)
    refine .inr ⟨(List.mem_filter.mp hmem).2, fun q hq hc => ?_⟩
    exact List.le_of_mem_argmin (List.mem_filter.mpr ⟨hq, hc⟩) (Option.mem_def.mpr hmin)

end Xv6.Lib
