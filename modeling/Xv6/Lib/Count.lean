import Mathlib.Data.Set.Card

/-!
# Counting the things that have a property

`Numbers P n` says that exactly `n` things have the property `P`, of a type that need not be
finite. The rules say how the number changes when one thing gets the property, loses it, or hands
it over to another.
-/

namespace Xv6.Lib

variable {τ : Type*} {P P' : τ → Prop} {n : ℕ} {z w : τ}

/-- Exactly `n` things have the property. -/
def Numbers (P : τ → Prop) (n : ℕ) : Prop := Set.encard {x | P x} = n

namespace Numbers

theorem congr (h : Numbers P n) (hP : ∀ x, P' x ↔ P x) : Numbers P' n := by
  rw [Numbers, show {x | P' x} = {x | P x} from Set.ext hP]
  exact h

theorem zero (h : ∀ x, ¬ P x) : Numbers P 0 := by
  rw [Numbers, Set.eq_empty_of_forall_notMem (s := {x | P x}) h, Set.encard_empty]
  rfl

theorem none (h : Numbers P 0) (x : τ) : ¬ P x := by
  rw [Numbers, Nat.cast_zero, Set.encard_eq_zero] at h
  exact fun hx => Set.notMem_empty x (h ▸ hx)

theorem pos (h : Numbers P n) (hz : P z) : 0 < n := by
  refine Nat.pos_of_ne_zero fun h0 => ?_
  subst h0
  exact h.none z hz

theorem exists_of_ne_zero (h : Numbers P n) (hn : n ≠ 0) : ∃ x, P x := by
  by_contra hno
  have h0 : Numbers P 0 := zero fun x hx => hno ⟨x, hx⟩
  exact hn (Nat.cast_injective (R := ℕ∞) (h.symm.trans h0))

/-- One thing gets the property. -/
theorem insert (h : Numbers P n) (hz : ¬ P z) (hz' : P' z) (hrest : ∀ x, x ≠ z → (P' x ↔ P x)) :
    Numbers P' (n + 1) := by
  have hset : {x | P' x} = Insert.insert z {x | P x} := by
    ext x
    by_cases hx : x = z
    · simp [hx, hz']
    · simp [hx, hrest x hx]
  rw [Numbers, hset, Set.encard_insert_of_notMem (s := {x | P x}) hz, h]
  rfl

/-- One thing loses the property. -/
theorem erase (h : Numbers P n) (hz : P z) (hz' : ¬ P' z)
    (hrest : ∀ x, x ≠ z → (P' x ↔ P x)) : Numbers P' (n - 1) := by
  have hset : {x | P x} = Insert.insert z {x | P' x} := by
    ext x
    by_cases hx : x = z
    · simp [hx, hz]
    · simp [hx, hrest x hx]
  have hpos := h.pos hz
  rw [Numbers, hset, Set.encard_insert_of_notMem (s := {x | P' x}) hz'] at h
  rw [Numbers]
  generalize Set.encard {x | P' x} = c at h ⊢
  cases c with
  | top => cases h
  | coe c => norm_cast at h ⊢; omega

/-- One thing hands the property over to another. -/
theorem swap (h : Numbers P n) (hz : P z) (hz' : ¬ P' z) (hw : ¬ P w) (hw' : P' w)
    (hrest : ∀ x, x ≠ z → x ≠ w → (P' x ↔ P x)) : Numbers P' n := by
  have hne : z ≠ w := fun h => hw (h ▸ hz)
  have hmid : Numbers (fun x => P x ∧ x ≠ z) (n - 1) :=
    h.erase hz (fun h => h.2 rfl) fun x hx => by simp [hx]
  have hlast : Numbers P' (n - 1 + 1) := by
    refine hmid.insert (fun h => hw h.1) hw' ?_
    intro x hx
    by_cases hxz : x = z
    · simp [hxz, hz']
    · simp [hxz, hrest x hxz hx]
  rwa [Nat.sub_add_cancel (h.pos hz)] at hlast

/-! ## Several counts -/

section Family
variable {ι : Type*} {Q Q' : ι → τ → Prop} {c c' : ι → ℕ} {i : ι}

theorem congrAt (h : ∀ j, Numbers (Q j) (c j)) (hQ : ∀ j x, Q' j x ↔ Q j x)
    (hc : ∀ j, c' j = c j) : ∀ j, Numbers (Q' j) (c' j) := by
  intro j
  rw [hc]
  exact (h j).congr (hQ j)

variable [DecidableEq ι]

/-- One thing gets one of the properties. -/
theorem insertAt (h : ∀ j, Numbers (Q j) (c j)) (hz : ¬ Q i z) (hz' : Q' i z)
    (hrest : ∀ j x, ¬ (j = i ∧ x = z) → (Q' j x ↔ Q j x))
    (hc : ∀ j, c' j = if j = i then c j + 1 else c j) : ∀ j, Numbers (Q' j) (c' j) := by
  intro j
  rw [hc]
  split
  · next hj =>
      subst hj
      exact (h j).insert hz hz' fun x hx => hrest j x fun h => hx h.2
  · next hj => exact (h j).congr fun x => hrest j x fun h => hj h.1

/-- One thing loses one of the properties. -/
theorem eraseAt (h : ∀ j, Numbers (Q j) (c j)) (hz : Q i z) (hz' : ¬ Q' i z)
    (hrest : ∀ j x, ¬ (j = i ∧ x = z) → (Q' j x ↔ Q j x))
    (hc : ∀ j, c' j = if j = i then c j - 1 else c j) : ∀ j, Numbers (Q' j) (c' j) := by
  intro j
  rw [hc]
  split
  · next hj =>
      subst hj
      exact (h j).erase hz hz' fun x hx => hrest j x fun h => hx h.2
  · next hj => exact (h j).congr fun x => hrest j x fun h => hj h.1

/-- One thing hands one of the properties over to another. -/
theorem swapAt (h : ∀ j, Numbers (Q j) (c j)) (hz : Q i z) (hz' : ¬ Q' i z) (hw : ¬ Q i w)
    (hw' : Q' i w)
    (hrest : ∀ j x, ¬ (j = i ∧ x = z) → ¬ (j = i ∧ x = w) → (Q' j x ↔ Q j x))
    (hc : ∀ j, c' j = c j) : ∀ j, Numbers (Q' j) (c' j) := by
  intro j
  rw [hc]
  by_cases hj : j = i
  · subst hj
    exact (h j).swap hz hz' hw hw' fun x hx hx' =>
      hrest j x (fun h => hx h.2) fun h => hx' h.2
  · exact (h j).congr fun x => hrest j x (fun h => hj h.1) fun h => hj h.1

end Family

end Numbers

end Xv6.Lib
