import Xv6.Dispatch.Lines

/-!
# Every step is a move

Carrying out a line, selecting a process, a call and an interrupt are moves of
`Xv6.Dispatch.View`, and keep the shape of the stacks. So the invariant of the moves holds along
every run of the kernel.
-/

namespace Xv6.Dispatch

open Lib
open Function (update_eq_self)

namespace Kernel

variable {H : Type} {s t : Kernel H} {h : H} {p : Slot} {fs gs : List Frame}

theorem thread_of_some (hon : s.on h = some p) : s.thread h = .proc p := by
  rw [thread, hon]

theorem thread_of_none (hon : s.on h = none) : s.thread h = .hart h := by
  rw [thread, hon]

theorem pmodeOf_of_sect (hfs : ProcShape p fs)
    (hsect : fs.head?.bind (Frame.sect (some p)) = none) : pmodeOf p fs = .quiet := by
  cases fs with
  | nil => rfl
  | cons f fs =>
    have hkind := hfs.kind f List.mem_cons_self
    change f.sect (some p) = none at hsect
    change f.pmode p = .quiet
    cases f with
    | yield pc => cases pc <;> first | rfl | cases hsect
    | sleep chan pc => cases pc <;> first | rfl | cases hsect
    | fork pc => cases pc <;> first | rfl | cases hsect
    | exit pc => cases pc <;> first | rfl | cases hsect
    | forkret => cases hsect
    | scheduler q pc => cases hkind
    | _ => rfl

theorem hmodeOf_of_sect (hfs : HartShape fs)
    (hsect : fs.head?.bind (Frame.sect none) = none) : hmodeOf fs = .quiet := by
  cases fs with
  | nil => rfl
  | cons f fs =>
    have hkind := hfs.kind f List.mem_cons_self
    change f.sect none = none at hsect
    change f.hmode = .quiet
    cases f with
    | scheduler q pc => cases pc <;> first | rfl | cases hsect
    | _ => rfl

variable [DecidableEq H]

theorem of_run {ok : Bool} (hrun : s.run h ok = some t) :
    ∃ f fs e gs u, s.stack (s.thread h) = f :: fs ∧
      f.next s (s.on h) (s.proc h) ok = some (e, gs) ∧ s.apply h e = some u ∧
        t = u.setStack (s.thread h) (gs ++ fs) := by
  unfold run at hrun
  split at hrun
  · cases hrun
  · next f fs hst =>
      obtain ⟨⟨e, gs⟩, hnext, hrun⟩ := Option.bind_eq_some_iff.mp hrun
      obtain ⟨u, hu, rfl⟩ := Option.map_eq_some_iff.mp hrun
      exact ⟨f, fs, e, gs, u, hst, hnext, hu, rfl⟩

theorem sim_run {ok : Bool} (hs : s.Shape) (hinv : s.view.Inv) (hrun : s.run h ok = some t) :
    s.view.Move h t.view ∧ t.Shape := by
  obtain ⟨f, fs, e, gs, u, hst, hnext, hu, rfl⟩ := of_run hrun
  have hshape := hs.apply hu
  cases hon : s.on h with
  | some p =>
    rw [thread_of_some hon] at hst ⊢
    rw [hon] at hnext
    have hp : ProcShape p (f :: fs) := hst ▸ hs.procs p
    exact ⟨move_of_proc hinv hon hp hst hnext hu,
      hshape.setStack_proc (procShape_of_next hp hnext)⟩
  | none =>
    rw [thread_of_none hon] at hst ⊢
    rw [hon] at hnext
    have hp : HartShape (f :: fs) := hst ▸ hs.harts h
    exact ⟨move_of_hart hon hp hst hnext hu, hshape.setStack_hart (hartShape_of_next hp hnext)⟩

/-- What an interrupt pushes on a stack. -/
theorem sim_push_proc (hs : s.Shape) (hmode : pmodeOf p (s.stack (.proc p)) = .quiet)
    (hgs : ∀ g ∈ gs, g.pmode p = .quiet ∧ g.isScheduler = false ∧ g.isFork = false) :
    s.view.Move h (s.setStack (.proc p) (gs ++ s.stack (.proc p))).view ∧
      (s.setStack (.proc p) (gs ++ s.stack (.proc p))).Shape := by
  refine ⟨?_, hs.setStack_proc ((hs.procs p).push hmode hgs)⟩
  have hsame : pmodeOf p (gs ++ s.stack (.proc p)) = s.view.pmode p := by
    refine Eq.trans ?_ hmode.symm
    cases gs with
    | nil => exact hmode
    | cons g gs => exact (hgs g List.mem_cons_self).1
  have hmaking : makingOf (gs ++ s.stack (.proc p)) = s.view.making p := by
    have hnil : gs.filterMap Frame.makes = [] :=
      List.filterMap_eq_nil_iff.mpr fun g hg => Frame.makes_eq_none (hgs g hg).2.2
    rw [makingOf, List.filterMap_append, hnil]
    rfl
  rw [view_setStack_proc, hsame, hmaking]
  simpa only [View.setMaking, View.setPmode, update_eq_self] using View.Move.stay

theorem sim_push_hart (hs : s.Shape) (hmode : hmodeOf (s.stack (.hart h)) = .quiet)
    (hgs : ∀ g ∈ gs, g.hmode = .quiet ∧ g.ofHart = true) :
    s.view.Move h (s.setStack (.hart h) (gs ++ s.stack (.hart h))).view ∧
      (s.setStack (.hart h) (gs ++ s.stack (.hart h))).Shape := by
  refine ⟨?_, hs.setStack_hart ((hs.harts h).push hmode hgs)⟩
  have hsame : hmodeOf (gs ++ s.stack (.hart h)) = s.view.hmode h := by
    refine Eq.trans ?_ hmode.symm
    cases gs with
    | nil => exact hmode
    | cons g gs => exact (hgs g List.mem_cons_self).1
  rw [view_setStack_hart, hsame]
  simpa only [View.setHmode, update_eq_self] using View.Move.stay

theorem sim_intr {wakes : List Chan} {timer : Bool} (hs : s.Shape)
    (hstep : s.step (.intr h wakes timer) = some t) : s.view.Move h t.view ∧ t.Shape := by
  simp only [step, Option.ite_none_right_eq_some, Option.some.injEq] at hstep
  obtain ⟨hsect, rfl⟩ := hstep
  rw [sect] at hsect
  cases hon : s.on h with
  | some p =>
    rw [thread_of_some hon] at hsect ⊢
    rw [hon] at hsect
    refine sim_push_proc hs (pmodeOf_of_sect (hs.procs p) hsect) ?_
    intro g hg
    obtain hg | hg := List.mem_append.mp hg
    · obtain ⟨c, -, rfl⟩ := List.mem_map.mp hg
      exact ⟨rfl, rfl, rfl⟩
    · split at hg
      · obtain rfl := List.mem_singleton.mp hg
        exact ⟨rfl, rfl, rfl⟩
      · cases hg
  | none =>
    rw [thread_of_none hon] at hsect ⊢
    rw [hon] at hsect
    refine sim_push_hart hs (hmodeOf_of_sect (hs.harts h) hsect) ?_
    intro g hg
    rw [if_neg (by simp), List.append_nil] at hg
    obtain ⟨c, -, rfl⟩ := List.mem_map.mp hg
    exact ⟨rfl, rfl⟩

theorem sim_call {call : Call} (hs : s.Shape) (hstep : s.step (.call h call) = some t) :
    s.view.Move h t.view ∧ t.Shape := by
  simp only [step] at hstep
  split at hstep
  · next p hon =>
      simp only [Option.ite_none_right_eq_some, Option.some.injEq] at hstep
      obtain ⟨hnil, rfl⟩ := hstep
      have hmode : pmodeOf p [call.frame] = s.view.pmode p := by
        change _ = pmodeOf p (s.stack (.proc p))
        rw [hnil]
        cases call <;> rfl
      have hmaking : makingOf [call.frame] = s.view.making p := by
        change _ = makingOf (s.stack (.proc p))
        rw [hnil]
        cases call <;> rfl
      constructor
      · rw [view_setStack_proc, hmode, hmaking]
        simpa only [View.setMaking, View.setPmode, update_eq_self] using View.Move.stay
      · refine hs.setStack_proc ⟨by simp, ?_, List.length_filter_le _ _⟩
        cases call <;> simp [Call.frame, Frame.isScheduler]
  · cases hstep

theorem sim_select {build : Build} {table : Kern} (hs : s.Shape)
    (hstep : s.step (.select h build table) = some t) : s.view.Move h t.view ∧ t.Shape := by
  simp only [step, Option.ite_none_right_eq_some] at hstep
  obtain ⟨⟨hon, hnil⟩, hstep⟩ := hstep
  split at hstep
  · next q _ =>
      cases hstep
      have hquiet : ∀ g ∈ [Frame.scheduler q .enter], g.hmode = .quiet ∧ g.ofHart = true := by
        simp [Frame.hmode, Frame.ofHart]
      have hpush := sim_push_hart (h := h) hs (by rw [hnil]; rfl) hquiet
      rwa [hnil] at hpush
  · cases hstep; exact ⟨.stay, hs⟩
  · cases hstep

/-- A step of the kernel is a move of its hart. -/
theorem sim_step {a : Act H} (hs : s.Shape) (hinv : s.view.Inv) (hstep : s.step a = some t) :
    (∃ h, s.view.Move h t.view) ∧ t.Shape := by
  cases a with
  | run h ok => exact (sim_run hs hinv hstep).imp_left fun hmove => ⟨h, hmove⟩
  | select h build table => exact (sim_select hs hstep).imp_left fun hmove => ⟨h, hmove⟩
  | call h call => exact (sim_call hs hstep).imp_left fun hmove => ⟨h, hmove⟩
  | intr h wakes timer => exact (sim_intr hs hstep).imp_left fun hmove => ⟨h, hmove⟩

omit [DecidableEq H] in
theorem shape_boot : (boot : Kernel H).Shape where
  procs p := by
    simp only [boot]
    split
    · exact ⟨by simp, by simp [Frame.isScheduler], by simp [Frame.isFork]⟩
    · exact ⟨by simp, by simp, by simp⟩
  harts h := ⟨by simp [boot], by simp [boot]⟩

omit [DecidableEq H] in
theorem inv_boot : (boot : Kernel H).view.Inv := by
  have hstate : ∀ p, (boot : Kernel H).view.state p = .runnable ∧ p = initproc ∨
      (boot : Kernel H).view.state p = .unused := by
    intro p
    by_cases hp : p = initproc
    · exact .inl ⟨by simp [view, boot, hp], hp⟩
    · exact .inr (by simp [view, boot, hp])
  have hmaking : ∀ p, (boot : Kernel H).view.making p = none := by
    intro p
    simp only [view, boot]
    split <;> rfl
  constructor
  case off =>
    intro p hp _
    obtain ⟨-, rfl⟩ | hp' := hstate p
    · simp [view, boot, pmodeOf, Frame.pmode]
    · rw [hp'] at hp
      simp at hp
  case made => intro p q b hm; rw [hmaking] at hm; cases hm
  case maker => intro p p' q b b' hm; rw [hmaking] at hm; cases hm
  case runs =>
    intro p hp
    obtain ⟨hp', -⟩ | hp' := hstate p <;> rw [hp'] at hp <;> cases hp
  all_goals simp [view, boot, hmodeOf]

theorem inv_of_visits {acts : List (Act H)} (hvisit : Visits step boot acts s) :
    s.Shape ∧ s.view.Inv := by
  refine Visits.induction (P := fun s => s.Shape ∧ s.view.Inv) ⟨shape_boot, inv_boot⟩ ?_ hvisit
  intro t a u _ hstep ⟨hshape, hinv⟩
  obtain ⟨⟨h, hmove⟩, hshape'⟩ := sim_step hshape hinv hstep
  exact ⟨hshape', View.inv_of_move hinv hmove⟩

end Kernel

end Xv6.Dispatch
