import Mathlib.Data.List.Basic

/-!
# Loops that may fail

Rules for `List.foldlM` in `Except`: what a loop body keeps, the loop keeps, and a loop whose
body succeeds from every state with a property succeeds and keeps the property. Two computations
are `Sim`ilar if they fail alike or return related results; loops whose bodies are similar are.
-/

namespace Xv6.Lib

variable {σ α ε : Type*} {f : σ → α → Except ε σ} {s t : σ} {as : List α}

theorem bind_eq_ok {β γ : Type*} {x : Except ε β} {g : β → Except ε γ} {c : γ} :
    x.bind g = .ok c ↔ ∃ b, x = .ok b ∧ g b = .ok c := by
  cases x <;> simp [Except.bind]

theorem map_eq_ok {β γ : Type*} {x : Except ε β} {g : β → γ} {c : γ} :
    x.map g = .ok c ↔ ∃ b, x = .ok b ∧ g b = c := by
  cases x <;> simp [Except.map]

/-- A sequence does not fail with `e` if none of its parts does. -/
theorem bind_ne_error {β γ : Type*} {x : Except ε β} {g : β → Except ε γ} {e : ε}
    (hx : x ≠ .error e) (hg : ∀ b, x = .ok b → g b ≠ .error e) : x.bind g ≠ .error e := by
  cases x with
  | error e' =>
    intro h
    cases h
    exact hx rfl
  | ok b => exact hg b rfl

theorem foldlM_cons_ok {a : α} :
    (a :: as).foldlM f s = .ok t ↔ ∃ u, f s a = .ok u ∧ as.foldlM f u = .ok t := by
  rw [List.foldlM_cons]
  exact bind_eq_ok

/-- What every turn of a loop keeps, the loop keeps. -/
theorem foldlM_rule {P : σ → Prop} (h0 : P s)
    (hstep : ∀ s a t, a ∈ as → f s a = .ok t → P s → P t) (h : as.foldlM f s = .ok t) : P t := by
  induction as generalizing s with
  | nil => cases h; exact h0
  | cons a as ih =>
    obtain ⟨u, hu, hrest⟩ := foldlM_cons_ok.mp h
    exact ih (hstep s a u List.mem_cons_self hu h0)
      (fun s b t hb => hstep s b t (List.mem_cons_of_mem a hb)) hrest

/-- A loop whose turns all succeed succeeds. -/
theorem foldlM_total {P : σ → Prop} (h0 : P s)
    (hstep : ∀ s a, a ∈ as → P s → ∃ t, f s a = .ok t ∧ P t) :
    ∃ t, as.foldlM f s = .ok t ∧ P t := by
  induction as generalizing s with
  | nil => exact ⟨s, rfl, h0⟩
  | cons a as ih =>
    obtain ⟨u, hu, hPu⟩ := hstep s a List.mem_cons_self h0
    obtain ⟨t, ht, hPt⟩ := ih hPu fun s b hb => hstep s b (List.mem_cons_of_mem a hb)
    exact ⟨t, foldlM_cons_ok.mpr ⟨u, hu, ht⟩, hPt⟩

/-- A loop whose turns all succeed, with a property of the part of the list that is done. -/
theorem foldlM_prefix (l : List α) {P : List α → σ → Prop} (h0 : P [] s)
    (hstep : ∀ done a rest, l = done ++ a :: rest → ∀ s, P done s →
      ∃ t, f s a = .ok t ∧ P (done ++ [a]) t) : ∃ t, l.foldlM f s = .ok t ∧ P l t := by
  suffices h : ∀ rest done s, l = done ++ rest → P done s →
      ∃ t, rest.foldlM f s = .ok t ∧ P l t from h l [] s rfl h0
  intro rest
  induction rest with
  | nil =>
    intro done s hl hP
    exact ⟨s, rfl, by rwa [hl, List.append_nil]⟩
  | cons a rest ih =>
    intro done s hl hP
    obtain ⟨u, hu, hPu⟩ := hstep done a rest hl s hP
    obtain ⟨t, ht, hPt⟩ := ih (done ++ [a]) u (by rw [hl]; simp) hPu
    exact ⟨t, foldlM_cons_ok.mpr ⟨u, hu, ht⟩, hPt⟩

/-- Two computations that fail with the same error or return related results. -/
inductive Sim {β γ : Type*} (R : β → γ → Prop) : Except ε β → Except ε γ → Prop
  | ok {b : β} {c : γ} (h : R b c) : Sim R (.ok b) (.ok c)
  | error (e : ε) : Sim R (.error e) (.error e)

namespace Sim

variable {β γ β' γ' : Type*} {R : β → γ → Prop} {R' : β' → γ' → Prop} {x : Except ε β}
  {y : Except ε γ}

/-- Two uses of one computation. -/
theorem of_eq {x : Except ε β} {R : β → β → Prop} (hR : ∀ b, R b b) : Sim R x x := by
  cases x with
  | ok b => exact .ok (hR b)
  | error e => exact .error e

theorem map {g : β → β'} {g' : γ → γ'} (h : Sim R x y) (hg : ∀ b c, R b c → R' (g b) (g' c)) :
    Sim R' (x.map g) (y.map g') := by
  cases h with
  | ok h => exact .ok (hg _ _ h)
  | error e => exact .error e

theorem bind {g : β → Except ε β'} {g' : γ → Except ε γ'} (h : Sim R x y)
    (hg : ∀ b c, R b c → Sim R' (g b) (g' c)) : Sim R' (x.bind g) (y.bind g') := by
  cases h with
  | ok h => exact hg _ _ h
  | error e => exact .error e

/-- Loops whose turns are similar are similar. -/
theorem foldlM {τ : Type*} {R : σ → τ → Prop} {g : τ → α → Except ε τ} {s : σ} {t : τ} (h0 : R s t)
    (hstep : ∀ s t a, R s t → Sim R (f s a) (g t a)) : Sim R (as.foldlM f s) (as.foldlM g t) := by
  induction as generalizing s t with
  | nil => exact .ok h0
  | cons a as ih =>
    rw [List.foldlM_cons, List.foldlM_cons]
    exact (hstep s t a h0).bind fun _ _ h => ih h

end Sim

end Xv6.Lib
