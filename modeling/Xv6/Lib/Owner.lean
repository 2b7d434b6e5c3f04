import Mathlib.Logic.Basic

/-!
# Resources that are at one place each

`Holds i r` says that the place `i` holds the resource `r`, and `used r` that `r` is taken. They
agree if the resources taken are those at some place, and no resource is at two places. A
resource is put at a place, removed from one or moved from one to another.
-/

namespace Xv6.Lib

variable {ι ρ : Type*}

/-- Every resource in use is at one place, and no other resource is at any. -/
structure Owned (Holds : ι → ρ → Prop) (used : ρ → Prop) : Prop where
  eq_of_holds : ∀ {i j r}, Holds i r → Holds j r → i = j
  used_iff : ∀ r, used r ↔ ∃ i, Holds i r

namespace Owned

variable {Holds Holds' : ι → ρ → Prop} {used used' : ρ → Prop} {i j : ι} {r : ρ}

theorem used_of_holds (h : Owned Holds used) (hi : Holds i r) : used r :=
  (h.used_iff r).mpr ⟨i, hi⟩

/-- Nothing has changed. -/
theorem congr (h : Owned Holds used) (hholds : ∀ i r, Holds' i r ↔ Holds i r)
    (hused : ∀ r, used' r ↔ used r) : Owned Holds' used' where
  eq_of_holds hi hj := h.eq_of_holds ((hholds _ _).mp hi) ((hholds _ _).mp hj)
  used_iff r := by simp only [hused, hholds, h.used_iff]

/-- A resource that was not taken is put at a place. -/
theorem put (h : Owned Holds used) (hfree : ¬ used r)
    (hholds : ∀ k x, Holds' k x ↔ Holds k x ∨ k = i ∧ x = r)
    (hused : ∀ x, used' x ↔ used x ∨ x = r) : Owned Holds' used' where
  eq_of_holds {j k x} hj hk := by
    obtain hj | ⟨rfl, rfl⟩ := (hholds _ _).mp hj <;> obtain hk | ⟨rfl, hx⟩ := (hholds _ _).mp hk
    · exact h.eq_of_holds hj hk
    · exact absurd (h.used_of_holds (hx ▸ hj)) hfree
    · exact absurd (h.used_of_holds hk) hfree
    · rfl
  used_iff x := by
    rw [hused, h.used_iff]
    constructor
    · rintro (⟨k, hk⟩ | rfl)
      · exact ⟨k, (hholds _ _).mpr (.inl hk)⟩
      · exact ⟨i, (hholds _ _).mpr (.inr ⟨rfl, rfl⟩)⟩
    · rintro ⟨k, hk⟩
      obtain hk | ⟨-, rfl⟩ := (hholds _ _).mp hk
      · exact .inl ⟨k, hk⟩
      · exact .inr rfl

/-- A resource is given back. -/
theorem drop (h : Owned Holds used) (hi : Holds i r)
    (hholds : ∀ k x, Holds' k x ↔ Holds k x ∧ ¬ (k = i ∧ x = r))
    (hused : ∀ x, used' x ↔ used x ∧ x ≠ r) : Owned Holds' used' where
  eq_of_holds hj hk := h.eq_of_holds ((hholds _ _).mp hj).1 ((hholds _ _).mp hk).1
  used_iff x := by
    rw [hused, h.used_iff]
    constructor
    · rintro ⟨⟨k, hk⟩, hne⟩
      exact ⟨k, (hholds _ _).mpr ⟨hk, fun h => hne h.2⟩⟩
    · rintro ⟨k, hk⟩
      obtain ⟨hk, hne⟩ := (hholds _ _).mp hk
      refine ⟨⟨k, hk⟩, ?_⟩
      rintro rfl
      exact hne ⟨h.eq_of_holds hk hi, rfl⟩

/-- A resource goes from one place to another. -/
theorem move (h : Owned Holds used) (hi : Holds i r)
    (hholds : ∀ k x, Holds' k x ↔ Holds k x ∧ ¬ (k = i ∧ x = r) ∨ k = j ∧ x = r)
    (hused : ∀ x, used' x ↔ used x) : Owned Holds' used' := by
  have hout : Owned (fun k x => Holds k x ∧ ¬ (k = i ∧ x = r)) (fun x => used x ∧ x ≠ r) :=
    h.drop hi (fun _ _ => Iff.rfl) fun _ => Iff.rfl
  refine hout.put (fun h => h.2 rfl) hholds fun x => ?_
  rw [hused]
  constructor
  · intro hx
    by_cases hr : x = r
    · exact .inr hr
    · exact .inl ⟨hx, hr⟩
  · rintro (⟨hx, -⟩ | rfl)
    · exact hx
    · exact h.used_of_holds hi

end Owned

end Xv6.Lib
