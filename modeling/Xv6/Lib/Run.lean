import Mathlib.Data.List.Induction

/-!
# Runs of a partial labelled step

A system is a function `step : σ → α → Option σ`: from a state and an action to the next
state, or `none` where the action is not enabled. `exec` runs a list of actions, `Visits` and
`Takes` name the states a run goes through and the actions it takes there, and `Reach` is
reachability by steps that all meet a side condition.
-/

namespace Xv6.Lib

variable {σ α : Type*}

/-- A step under a guard has been taken. -/
theorem of_guard {c : Prop} [Decidable c] {a b : σ} (h : (if c then some a else none) = some b) :
    c ∧ a = b := by
  simpa using h

/-- A step that a guard rules out has been taken. -/
theorem of_unless {c : Prop} [Decidable c] {a b : σ} (h : (if c then none else some a) = some b) :
    ¬ c ∧ a = b := by
  simpa using h

/-- Run a list of actions, stopping where one is not enabled. -/
def exec (step : σ → α → Option σ) : σ → List α → Option σ
  | s, [] => some s
  | s, a :: as => (step s a).bind fun t => exec step t as

variable {step : σ → α → Option σ}

@[simp] theorem exec_nil (s : σ) : exec step s [] = some s := rfl

@[simp] theorem exec_cons (s : σ) (a : α) (as : List α) :
    exec step s (a :: as) = (step s a).bind fun t => exec step t as := rfl

/-- Split a run after its first actions. -/
theorem exec_append (s : σ) (as bs : List α) :
    exec step s (as ++ bs) = (exec step s as).bind fun t => exec step t bs := by
  induction as generalizing s with
  | nil => simp
  | cons a as ih =>
    simp only [List.cons_append, exec_cons]
    cases step s a with
    | none => simp
    | some t => simpa using ih t

variable {as : List α} {a : α}

/-- Expose the last action of a run. -/
theorem exec_concat {s u : σ} :
    exec step s (as ++ [a]) = some u ↔ ∃ t, exec step s as = some t ∧ step t a = some u := by
  rw [exec_append]
  simp [Option.bind_eq_some_iff]

/-- The run of `as` from `s` goes through the state `t`. -/
def Visits (step : σ → α → Option σ) (s : σ) (as : List α) (t : σ) : Prop :=
  ∃ bs, bs <+: as ∧ exec step s bs = some t

/-- The run of `as` from `s` takes the action `a` in the state `t`. -/
def Takes (step : σ → α → Option σ) (s : σ) (as : List α) (t : σ) (a : α) : Prop :=
  ∃ bs, bs ++ [a] <+: as ∧ exec step s bs = some t

variable {s t : σ}

theorem Visits.last (h : exec step s as = some t) : Visits step s as t := ⟨as, List.prefix_rfl, h⟩

theorem Visits.mono {as cs : List α} (h : Visits step s as t) : Visits step s (as ++ cs) t := by
  obtain ⟨bs, hb, he⟩ := h
  exact ⟨bs, hb.trans (List.prefix_append as cs), he⟩

/-- A step a run takes in `t` leads to a state it visits, provided it is enabled there. -/
theorem Takes.visits {s t u : σ} (h : Takes step s as t a)
    (hu : step t a = some u) : Visits step s as u := by
  obtain ⟨bs, hb, he⟩ := h
  exact ⟨bs ++ [a], hb, exec_concat.mpr ⟨t, he, hu⟩⟩

theorem Takes.visits_start (h : Takes step s as t a) : Visits step s as t := by
  obtain ⟨bs, hb, he⟩ := h
  exact ⟨bs, (List.prefix_append bs [a]).trans hb, he⟩

/-- A step of the rest of a run is a step of the run. -/
theorem Takes.after {s t u : σ} {as bs cs : List α} (hpre : bs ++ cs <+: as)
    (hrun : exec step s bs = some t) (h : Takes step t cs u a) : Takes step s as u a := by
  obtain ⟨ds, hd, he⟩ := h
  refine ⟨bs ++ ds, ?_, by rw [exec_append, hrun]; exact he⟩
  rw [List.append_assoc]
  exact ((List.prefix_append_right_inj bs).mpr hd).trans hpre

/-- A step taken by a run that goes to its end is enabled. -/
theorem Takes.enabled {s t u : σ} (h : Takes step s as t a)
    (hrun : exec step s as = some u) : ∃ v, step t a = some v := by
  obtain ⟨bs, ⟨cs, rfl⟩, he⟩ := h
  rw [List.append_assoc, exec_append, he] at hrun
  simp only [Option.bind_some, List.singleton_append, exec_cons] at hrun
  obtain ⟨v, hv, -⟩ := Option.bind_eq_some_iff.mp hrun
  exact ⟨v, hv⟩

variable {P : σ → Prop}

/-- **Invariance along a run.** What holds at the start and is kept by every step the run
takes holds in every state it visits. -/
theorem Visits.induction {s : σ} (h0 : P s)
    (hstep : ∀ t a u, Takes step s as t a → step t a = some u → P t → P u)
    {t : σ} (ht : Visits step s as t) : P t := by
  obtain ⟨bs, hb, he⟩ := ht
  -- the induction is on the visited prefix, from its last action backwards
  induction bs using List.reverseRecOn generalizing t with
  | nil => simp only [exec_nil, Option.some.injEq] at he; exact he ▸ h0
  | append_singleton bs a ih =>
    obtain ⟨v, hv, hstep'⟩ := exec_concat.mp he
    exact hstep v a t ⟨bs, hb, hv⟩ hstep'
      (ih ((List.prefix_append bs [a]).trans hb) hv)

/-- What does not hold at the start of a run and holds in a state it visits is brought about by a
step it takes. -/
theorem Visits.exists_step (ht : Visits step s as t)
    (h0 : ¬ P s) (hP : P t) : ∃ u a v, Takes step s as u a ∧ step u a = some v ∧ ¬ P u ∧ P v := by
  by_contra hno
  refine Visits.induction (P := fun t => ¬ P t) h0 (fun u a v htakes hstep hu hv => ?_) ht hP
  exact hno ⟨u, a, v, htakes, hstep, hu, hv⟩

variable {ok : σ → α → Prop}

/-- **An invariant that a guard decides.** Suppose a step from a good state leads to a good
state exactly when the guard holds there. Then a complete run from a good state visits good
states only exactly when the guard holds at every step it takes. -/
theorem visits_all_iff_takes_all {s e : σ} (h0 : P s) (hrun : exec step s as = some e)
    (hstep : ∀ t a u, Takes step s as t a → step t a = some u → P t → (P u ↔ ok t a)) :
    (∀ t, Visits step s as t → P t) ↔ ∀ t a, Takes step s as t a → ok t a := by
  constructor
  · intro hall t a ht
    obtain ⟨u, hu⟩ := ht.enabled hrun
    exact (hstep t a u ht hu (hall t ht.visits_start)).mp (hall u (ht.visits hu))
  · intro hok t ht
    refine Visits.induction h0 ?_ ht
    intro v a u hv hu hP
    exact (hstep v a u hv hu hP).mpr (hok v a hv)

/-- **A property that a guard decides, by way of an invariant.** The invariant `J` gives the
property and is kept by the steps that meet the guard; a step that does not meet it leads to a
state without the property. Then a complete run has the property throughout exactly when all
its steps meet the guard. -/
theorem visits_all_iff_of_invariant {J P : σ → Prop} {s e : σ}
    (h0 : J s) (hJP : ∀ t, J t → P t) (hrun : exec step s as = some e)
    (hkeep : ∀ t a u, Takes step s as t a → step t a = some u → J t → ok t a → J u)
    (hneed : ∀ t a u, Takes step s as t a → step t a = some u → J t → P u → ok t a) :
    (∀ t, Visits step s as t → P t) ↔ ∀ t a, Takes step s as t a → ok t a := by
  constructor
  · intro hall
    have hJ : ∀ t, Visits step s as t → J t := by
      intro t ht
      refine Visits.induction h0 ?_ ht
      intro v a u hv hu hJv
      exact hkeep v a u hv hu hJv (hneed v a u hv hu hJv (hall u (hv.visits hu)))
    intro t a ht
    obtain ⟨u, hu⟩ := ht.enabled hrun
    exact hneed t a u ht hu (hJ t ht.visits_start) (hall u (ht.visits hu))
  · intro hok t ht
    refine hJP t (Visits.induction h0 ?_ ht)
    intro v a u hv hu hJv
    exact hkeep v a u hv hu hJv (hok v a hv)

/-- The system with a side condition on its steps. -/
def guarded (ok : σ → α → Prop) [∀ s a, Decidable (ok s a)] (step : σ → α → Option σ) (s : σ)
    (a : α) : Option σ := if ok s a then step s a else none

/-- A run of the guarded system is a run all of whose steps meet the guard. -/
theorem exec_guarded [∀ s a, Decidable (ok s a)] {s e : σ}
    (h : exec (guarded ok step) s as = some e) :
    exec step s as = some e ∧ ∀ t a, Takes step s as t a → ok t a := by
  induction as generalizing s with
  | nil =>
    refine ⟨h, ?_⟩
    rintro t a ⟨bs, hb, -⟩
    simp at hb
  | cons a as ih =>
    simp only [exec_cons, Option.bind_eq_some_iff, guarded] at h
    obtain ⟨u, hu, hrest⟩ := h
    split at hu
    · obtain ⟨hrun, hok⟩ := ih hrest
      refine ⟨by rw [exec_cons, hu]; exact hrun, ?_⟩
      rintro t b ⟨bs, hb, he⟩
      cases bs with
      | nil =>
        simp only [List.nil_append, List.cons_prefix_cons, List.nil_prefix, and_true] at hb
        simp only [exec_nil, Option.some.injEq] at he
        rw [hb, ← he]
        assumption
      | cons c bs =>
        simp only [List.cons_append, List.cons_prefix_cons] at hb
        obtain ⟨rfl, hb⟩ := hb
        rw [exec_cons, hu] at he
        exact hok t b ⟨bs, hb, he⟩
    · cases hu

/-! ## Records of a run -/

section Recorded
variable {γ : Type*} {note : σ → α → γ → γ}

/-- The system that keeps a record of its run beside its state. A note is made of the state a
step starts from and of the action. -/
def recorded (step : σ → α → Option σ) (note : σ → α → γ → γ) (s : σ × γ) (a : α) :
    Option (σ × γ) := (step s.1 a).map fun t => (t, note s.1 a s.2)

theorem recorded_eq_some {s t : σ × γ} :
    recorded step note s a = some t ↔ step s.1 a = some t.1 ∧ t.2 = note s.1 a s.2 := by
  rw [recorded, Option.map_eq_some_iff]
  constructor
  · rintro ⟨u, hu, rfl⟩; exact ⟨hu, rfl⟩
  · rintro ⟨hu, hnote⟩; exact ⟨t.1, hu, by rw [← hnote]⟩

/-- Forgetting the record of a run leaves the run. -/
theorem exec_recorded {s t : σ × γ} (h : exec (recorded step note) s as = some t) :
    exec step s.1 as = some t.1 := by
  induction as generalizing s with
  | nil => simp only [exec_nil, Option.some.injEq] at h ⊢; rw [h]
  | cons a as ih =>
    obtain ⟨u, hu, hrest⟩ := Option.bind_eq_some_iff.mp h
    rw [exec_cons, (recorded_eq_some.mp hu).1]
    exact ih hrest

theorem Visits.forget {s t : σ × γ} (h : Visits (recorded step note) s as t) :
    Visits step s.1 as t.1 := by
  obtain ⟨bs, hb, he⟩ := h
  exact ⟨bs, hb, exec_recorded he⟩

end Recorded

/-! ## Two runs side by side -/

section Paired

/-- Two copies of the system that take the same actions. -/
def paired (step : σ → α → Option σ) (s : σ × σ) (a : α) : Option (σ × σ) :=
  (step s.1 a).bind fun t => (step s.2 a).map fun u => (t, u)

theorem paired_eq_some {s t : σ × σ} :
    paired step s a = some t ↔ step s.1 a = some t.1 ∧ step s.2 a = some t.2 := by
  simp only [paired, Option.bind_eq_some_iff, Option.map_eq_some_iff]
  constructor
  · rintro ⟨u, hu, v, hv, rfl⟩; exact ⟨hu, hv⟩
  · rintro ⟨hu, hv⟩; exact ⟨t.1, hu, t.2, hv, rfl⟩

theorem exec_paired {s t : σ × σ} : exec (paired step) s as = some t ↔
      exec step s.1 as = some t.1 ∧ exec step s.2 as = some t.2 := by
  induction as generalizing s with
  | nil => simp [Prod.ext_iff]
  | cons a as ih =>
    simp only [exec_cons, Option.bind_eq_some_iff, paired_eq_some, ih]
    constructor
    · rintro ⟨u, ⟨h₁, h₂⟩, h₃, h₄⟩; exact ⟨⟨u.1, h₁, h₃⟩, u.2, h₂, h₄⟩
    · rintro ⟨⟨u, h₁, h₃⟩, v, h₂, h₄⟩; exact ⟨(u, v), ⟨h₁, h₂⟩, h₃, h₄⟩

theorem Visits.fst {s t : σ × σ} (h : Visits (paired step) s as t) : Visits step s.1 as t.1 := by
  obtain ⟨bs, hb, he⟩ := h
  exact ⟨bs, hb, (exec_paired.mp he).1⟩

end Paired

/-- The states reached from `init` by steps that all meet `ok` in the state they start from. -/
inductive Reach (step : σ → α → Option σ) (ok : σ → α → Prop) (init : σ) : σ → Prop
  | refl : Reach step ok init init
  | tail {s t : σ} {a : α} : Reach step ok init s → ok s a → step s a = some t →
      Reach step ok init t

/-- The states reached by any steps at all. -/
abbrev Reachable (step : σ → α → Option σ) (init : σ) : σ → Prop :=
  Reach step (fun _ _ => True) init

/-- **Invariance.** What holds initially and is kept by every admitted step holds in every
state reached. -/
theorem Reach.invariant {init : σ} (h0 : P init)
    (hstep : ∀ s a t, ok s a → step s a = some t → P s → P t) {s : σ}
    (h : Reach step ok init s) : P s := by
  induction h with
  | refl => exact h0
  | tail _ hok hs ih => exact hstep _ _ _ hok hs ih

theorem Reach.exec {init s t : σ}
    (h : Reach step ok init s) (hok : ∀ u a, ok u a) (he : exec step s as = some t) :
    Reach step ok init t := by
  induction as generalizing s with
  | nil => simp only [exec_nil, Option.some.injEq] at he; exact he ▸ h
  | cons a as ih =>
    simp only [exec_cons, Option.bind_eq_some_iff] at he
    obtain ⟨u, hu, hrest⟩ := he
    exact ih (h.tail (hok s a) hu) hrest

/-- A run of the guarded system reaches its end by steps that meet the guard. -/
theorem reach_of_guarded [∀ s a, Decidable (ok s a)]
    (h : exec (guarded ok step) s as = some t) : Reach step ok s t := by
  induction as using List.reverseRecOn generalizing t with
  | nil => cases h; exact .refl
  | append_singleton as a ih =>
    obtain ⟨u, hu, hstep⟩ := exec_concat.mp h
    rw [guarded] at hstep
    split at hstep
    · exact (ih hu).tail ‹_› hstep
    · cases hstep

/-- Every state of a run is reachable. -/
theorem Visits.reachable (h : Visits step s as t) : Reachable step s t := by
  obtain ⟨bs, -, he⟩ := h
  exact Reach.refl.exec (fun _ _ => trivial) he

end Xv6.Lib
