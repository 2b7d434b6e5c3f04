import Xv6.Dispatch.Shape

/-!
# Every line is a move

Each line that a hart carries out is one of the moves of `Xv6.Dispatch.View`, and keeps the shape of
the stacks.
-/

namespace Xv6.Dispatch

open Function (update_comm update_eq_self)

open Lib (of_guard)

namespace Kernel

variable {H : Type} {s t u : Kernel H} {h : H} {p q : Slot} {f : Frame} {fs gs : List Frame}

theorem view_wakeIf (s : Kernel H) (q : Slot) (c : Bool) :
    (s.wakeIf q c).view = if c then s.view.setState q .runnable else s.view := by
  cases c with
  | true => rfl
  | false => simp [wakeIf, setState, update_eq_self]

theorem view_pmode (hst : s.stack (.proc p) = f :: fs) : s.view.pmode p = f.pmode p := by
  simp [view, hst, pmodeOf]

theorem view_hmode (hst : s.stack (.hart h) = f :: fs) : s.view.hmode h = f.hmode := by
  simp [view, hst, hmodeOf]

/-! ## The stacks keep their shape -/

variable {e : Effect} {ok : Bool}

theorem procShape_of_next {me myproc : Option Slot}
    (hshape : ProcShape p (f :: fs)) (hnext : f.next s me myproc ok = some (e, gs)) :
    ProcShape p (gs ++ fs) := by
  have hkind := hshape.kind f List.mem_cons_self
  suffices h : (∀ g ∈ gs.tail, g.pmode p = .quiet) ∧ (∀ g ∈ gs, g.isScheduler = false) ∧
      (gs.filter Frame.isFork).length ≤ if f.isFork then 1 else 0 from
    hshape.replace h.1 h.2.1 h.2.2
  clear hshape
  revert hnext
  fun_cases Frame.next s me myproc ok f <;> intro hnext
  all_goals first
    | cases hnext
    | (obtain ⟨q, -, hq⟩ := Option.map_eq_some_iff.mp hnext
       try split at hq
       all_goals cases hq)
  all_goals first
    | (refine ⟨?_, ?_, ?_⟩ <;>
         simp [Frame.pmode, Frame.isScheduler, Frame.isFork, List.filter_cons]; done)
    | cases hkind

theorem hartShape_of_next {me myproc : Option Slot}
    (hshape : HartShape (f :: fs)) (hnext : f.next s me myproc ok = some (e, gs)) :
    HartShape (gs ++ fs) := by
  have hkind := hshape.kind f List.mem_cons_self
  cases f with
  | wakeup chan ps =>
    cases ps with
    | nil => cases hnext; exact hshape.replace (by simp) (by simp)
    | cons q qs =>
      simp only [Frame.next] at hnext
      split at hnext <;> cases hnext <;>
        exact hshape.replace (by simp) (by simp [Frame.ofHart])
  | scheduler q pc =>
    cases pc with
    | test =>
      simp only [Frame.next] at hnext
      split at hnext <;> cases hnext <;>
        exact hshape.replace (by simp) (by simp [Frame.ofHart])
    | _ => cases hnext; exact hshape.replace (by simp) (by simp [Frame.ofHart])
  | _ => cases hkind

variable [DecidableEq H]

theorem Shape.setStack_proc (hs : s.Shape) (hfs : ProcShape p fs) :
    (s.setStack (.proc p) fs).Shape where
  procs q := by
    by_cases hq : q = p
    · subst hq; simpa [setStack] using hfs
    · simpa [setStack, hq] using hs.procs q
  harts k := by simpa [setStack] using hs.harts k

theorem Shape.setStack_hart (hs : s.Shape) (hfs : HartShape fs) :
    (s.setStack (.hart h) fs).Shape where
  procs q := by simpa [setStack] using hs.procs q
  harts k := by
    by_cases hk : k = h
    · subst hk; simpa [setStack] using hfs
    · simpa [setStack, hk] using hs.harts k

/-- Only the making of a process changes a stack besides that of the hart. -/
theorem stack_of_apply (hu : s.apply h e = some u) :
    u.stack = s.stack ∨ ∃ q, e = .setup q ∧ u = s.setStack (.proc q) [.forkret] := by
  cases e with
  | setup q => cases hu; exact .inr ⟨q, rfl, rfl⟩
  | skip | chan | parent | state | free | dispatch | idle => cases hu; exact .inl rfl
  | _ =>
    obtain ⟨-, rfl⟩ := of_guard hu
    exact .inl rfl

theorem Shape.apply (hs : s.Shape) (hu : s.apply h e = some u) : u.Shape := by
  obtain heq | ⟨q, -, rfl⟩ := stack_of_apply hu
  · exact ⟨by rw [heq]; exact hs.procs, by rw [heq]; exact hs.harts⟩
  · exact hs.setStack_proc ⟨by simp, by simp [Frame.isScheduler], by simp [Frame.isFork]⟩

/-- Frames in no section are pushed on a stack. -/
theorem quiet_push {P : Frame → Prop} (hgs : ∀ g ∈ gs, P g) (hhead : ∀ g ∈ fs.head?, P g)
    (hrest : ∀ g ∈ fs.tail, P g) : ∀ g ∈ (gs ++ fs).tail, P g := by
  intro g hg
  obtain hg | hg := List.mem_append.mp (List.mem_of_mem_tail hg)
  · exact hgs g hg
  · cases fs with
    | nil => cases hg
    | cons f fs =>
      obtain rfl | hg := List.mem_cons.mp hg
      · exact hhead g rfl
      · exact hrest g hg

theorem ProcShape.push (hfs : ProcShape p fs) (hmode : pmodeOf p fs = .quiet)
    (hgs : ∀ g ∈ gs, g.pmode p = .quiet ∧ g.isScheduler = false ∧ g.isFork = false) :
    ProcShape p (gs ++ fs) where
  rest := quiet_push (fun g hg => (hgs g hg).1) (by cases fs <;> simp_all [pmodeOf]) hfs.rest
  kind g hg := (List.mem_append.mp hg).elim (fun hg => (hgs g hg).2.1) (hfs.kind g)
  fork := by
    have hnil : gs.filter Frame.isFork = [] := List.filter_eq_nil_iff.mpr (by grind)
    rw [List.filter_append, hnil]
    exact hfs.fork

theorem HartShape.push (hfs : HartShape fs) (hmode : hmodeOf fs = .quiet)
    (hgs : ∀ g ∈ gs, g.hmode = .quiet ∧ g.ofHart = true) : HartShape (gs ++ fs) where
  rest := quiet_push (fun g hg => (hgs g hg).1) (by cases fs <;> simp_all [hmodeOf]) hfs.rest
  kind g hg := (List.mem_append.mp hg).elim (fun hg => (hgs g hg).2) (hfs.kind g)

/-! ## The view after a line -/

theorem view_setStack_proc (u : Kernel H) (p : Slot) (fs : List Frame) :
    (u.setStack (.proc p) fs).view =
      (u.view.setMaking p (makingOf fs)).setPmode p (pmodeOf p fs) := by
  simp only [view, setStack, View.setMaking, View.setPmode, View.mk.injEq, true_and]
  refine ⟨?_, rfl, ?_⟩
  all_goals
    funext q
    by_cases hq : q = p
    · subst hq; simp
    · simp [hq]

theorem view_setStack_hart (u : Kernel H) (h : H) (fs : List Frame) :
    (u.setStack (.hart h) fs).view = u.view.setHmode h (hmodeOf fs) := by
  simp only [view, setStack, View.setHmode, View.mk.injEq, true_and]
  refine ⟨rfl, ?_, rfl⟩
  funext k
  by_cases hk : k = h
  · subst hk; simp
  · simp [hk]

section
variable (hst : s.stack (.proc p) = f :: fs)
include hst

/-- The process goes on. -/
theorem move_of_mode (hu : u.stack = s.stack) (hmaking : makingOf gs = makingOf (f :: fs))
    (hmove : s.view.Move h (u.view.setPmode p (pmodeOf p gs))) :
    s.view.Move h (u.setStack (.proc p) gs).view := by
  have hmk : u.view.making p = makingOf gs := by rw [hmaking, ← hst, ← hu]; rfl
  rw [view_setStack_proc, ← hmk]
  simpa only [View.setMaking, update_eq_self] using hmove

/-- The process goes on in the same mode. -/
theorem move_of_same (hu : u.stack = s.stack)
    (hmaking : makingOf gs = makingOf (f :: fs)) (hmode : pmodeOf p gs = f.pmode p)
    (hmove : s.view.Move h u.view) : s.view.Move h (u.setStack (.proc p) gs).view := by
  refine move_of_mode hst hu hmaking ?_
  have hpm : u.view.pmode p = pmodeOf p gs := (view_pmode (by rw [hu, hst])).trans hmode.symm
  rw [← hpm]
  simpa only [View.setPmode, update_eq_self] using hmove

/-- The process goes on in the same mode, making something else. -/
theorem move_of_making (hu : u.stack = s.stack) (hmode : pmodeOf p gs = f.pmode p)
    (hmove : s.view.Move h (u.view.setMaking p (makingOf gs))) :
    s.view.Move h (u.setStack (.proc p) gs).view := by
  have hpm : (u.view.setMaking p (makingOf gs)).pmode p = pmodeOf p gs :=
    (view_pmode (by rw [hu, hst])).trans hmode.symm
  rw [view_setStack_proc, ← hpm]
  simpa only [View.setPmode, update_eq_self] using hmove

end

/-- The turn of a loop at a process that may be asleep. -/
theorem move_wakeIf {c : Bool} (hlock : s.lock q = none) (hc : c = true → s.state q = .sleeping) :
    s.view.Move h (s.wakeIf q c).view := by
  rw [view_wakeIf]
  split
  · exact .wake hlock (hc ‹_›)
  · exact .stay

/-- A scheduler goes on in the same mode. -/
theorem move_of_hmode (hst : s.stack (.hart h) = f :: fs) (hu : u.stack = s.stack)
    (hmode : hmodeOf gs = f.hmode) (hmove : s.view.Move h u.view) :
    s.view.Move h (u.setStack (.hart h) gs).view := by
  have hhm : u.view.hmode h = hmodeOf gs := (view_hmode (by rw [hu, hst])).trans hmode.symm
  rw [view_setStack_hart, ← hhm]
  simpa only [View.setHmode, update_eq_self] using hmove

theorem move_of_fork {pc : ForkAt} (hinv : s.view.Inv)
    (hon : s.on h = some p) (hshape : ProcShape p (.fork pc :: fs))
    (hst : s.stack (.proc p) = .fork pc :: fs)
    (hnext : (Frame.fork pc).next s (some p) (s.proc h) ok = some (e, gs))
    (hu : s.apply h e = some u) : s.view.Move h (u.setStack (.proc p) (gs ++ fs)).view := by
  have hrest := hshape.pmodeOf_tail
  have hnone : makingOf fs = none := makingOf_eq_none (hshape.no_fork rfl)
  have hmode := view_pmode hst
  have hmaking : s.view.making p = makingOf (.fork pc :: fs) := by rw [← hst]; rfl
  cases pc with
  | scan qs =>
    have hbefore : s.view.making p = none := by
      rw [hmaking, makingOf_cons_of_none rfl, hnone]
    cases qs with
    | nil => cases hnext; cases hu; exact move_of_same hst rfl rfl hrest .stay
    | cons q qs =>
      simp only [Frame.next] at hnext
      split at hnext <;> cases hnext <;>
        obtain ⟨hlock, rfl⟩ := of_guard hu
      · rw [view_setStack_proc]
        exact .alloc hon hmode hbefore hlock ‹_›
      · exact move_of_same hst rfl rfl rfl .stay
  | used np =>
    simp only [Frame.next] at hnext
    split at hnext <;> cases hnext <;> cases hu
    · have hne : p ≠ np := by
        rintro rfl
        exact hinv.not_on (hinv.made p p false hmaking).1 h hon
      rw [view_setStack_proc, view_setStack_proc]
      convert View.Move.setup hon hmode hmaking using 1
      have hsame : pmodeOf p ([.fork (.copied np)] ++ fs) = s.view.pmode p := hmode.symm
      simp only [View.setMaking, View.setPmode, View.mk.injEq, true_and]
      refine ⟨?_, rfl⟩
      rw [update_comm hne.symm, hsame, update_eq_self]
      rfl
    · refine move_of_making hst rfl rfl ?_
      rw [List.singleton_append, makingOf_cons_of_none rfl, hnone]
      exact .free hon hmode hmaking
  | failed np =>
    cases hnext
    obtain ⟨hlock, rfl⟩ := of_guard hu
    refine move_of_mode hst rfl rfl ?_
    rw [List.nil_append, hrest]
    exact .release hon (.inl hmode)
  | copied np =>
    cases hnext
    obtain ⟨hlock, rfl⟩ := of_guard hu
    exact move_of_mode hst rfl rfl (.release hon (.inl hmode))
  | link np => cases hnext; cases hu; exact move_of_same hst rfl rfl rfl .stay
  | ready np =>
    cases hnext
    obtain ⟨hlock, rfl⟩ := of_guard hu
    refine move_of_making hst rfl hrest ?_
    rw [List.nil_append, hnone]
    exact .ready hon hmaking hlock

/-- The line of a process. -/
theorem move_of_proc (hinv : s.view.Inv) (hon : s.on h = some p)
    (hshape : ProcShape p (f :: fs)) (hst : s.stack (.proc p) = f :: fs)
    (hnext : f.next s (some p) (s.proc h) ok = some (e, gs))
    (hu : s.apply h e = some u) : s.view.Move h (u.setStack (.proc p) (gs ++ fs)).view := by
  have hrest := hshape.pmodeOf_tail
  have hmode := view_pmode hst
  cases f with
  | wakeup chan ps =>
    cases ps with
    | nil => cases hnext; cases hu; exact move_of_same hst rfl rfl hrest .stay
    | cons q qs =>
      simp only [Frame.next] at hnext
      split at hnext
      · cases hnext; cases hu; exact move_of_same hst rfl rfl rfl .stay
      · cases hnext
        obtain ⟨hlock, rfl⟩ := of_guard hu
        exact move_of_same hst rfl rfl rfl (move_wakeIf hlock (by simp; tauto))
  | kill pid ps =>
    cases ps with
    | nil => cases hnext; cases hu; exact move_of_same hst rfl rfl hrest .stay
    | cons q qs =>
      simp only [Frame.next] at hnext
      split at hnext <;> cases hnext <;>
        obtain ⟨hlock, rfl⟩ := of_guard hu
      · exact move_of_same hst rfl rfl hrest (move_wakeIf hlock (by simp))
      · exact move_of_same hst rfl rfl rfl .stay
  | yield pc =>
    cases pc <;> cases hnext
    · obtain ⟨hlock, rfl⟩ := of_guard hu
      exact move_of_mode hst rfl rfl (.acquire hon hmode hlock)
    · cases hu
      exact move_of_mode hst rfl rfl (.leave hon hmode (.inl rfl))
    · obtain ⟨hlock, rfl⟩ := of_guard hu
      exact move_of_mode hst rfl rfl (.sched hon hmode)
    · obtain ⟨hlock, rfl⟩ := of_guard hu
      refine move_of_mode hst rfl rfl ?_
      rw [List.nil_append, hrest]
      exact .release hon (.inr ⟨rfl, hmode⟩)
  | sleep chan pc =>
    cases pc <;> cases hnext
    · obtain ⟨hlock, rfl⟩ := of_guard hu
      exact move_of_mode hst rfl rfl (.acquire hon hmode hlock)
    · cases hu
      exact move_of_same hst rfl rfl rfl .stay
    · cases hu
      exact move_of_mode hst rfl rfl (.leave hon hmode (.inr (.inl rfl)))
    · obtain ⟨hlock, rfl⟩ := of_guard hu
      exact move_of_mode hst rfl rfl (.sched hon hmode)
    · cases hu
      exact move_of_mode hst rfl rfl (.tidy hon hmode)
    · obtain ⟨hlock, rfl⟩ := of_guard hu
      refine move_of_mode hst rfl rfl ?_
      rw [List.nil_append, hrest]
      exact .release hon (.inl hmode)
  | forkret =>
    cases hnext
    obtain ⟨hlock, rfl⟩ := of_guard hu
    refine move_of_mode hst rfl rfl ?_
    rw [List.nil_append, hrest]
    exact .release hon (.inr ⟨rfl, hmode⟩)
  | fork pc => exact move_of_fork hinv hon hshape hst hnext hu
  | exit pc =>
    cases pc with
    | start =>
      simp only [Frame.next] at hnext
      split at hnext <;> cases hnext
      cases hu
      exact move_of_same hst rfl rfl rfl .stay
    | reparent cs =>
      cases cs with
      | nil => cases hnext; cases hu; exact move_of_same hst rfl rfl rfl .stay
      | cons c cs =>
        simp only [Frame.next] at hnext
        split at hnext <;> cases hnext <;> cases hu <;>
          exact move_of_same hst rfl rfl rfl .stay
    | enter =>
      cases hnext
      obtain ⟨hlock, rfl⟩ := of_guard hu
      exact move_of_mode hst rfl rfl (.acquire hon hmode hlock)
    | locked =>
      cases hnext; cases hu
      exact move_of_mode hst rfl rfl (.leave hon hmode (.inr (.inr rfl)))
    | marked =>
      cases hnext
      obtain ⟨hlock, rfl⟩ := of_guard hu
      exact move_of_mode hst rfl rfl (.sched hon hmode)
    | dead => cases hnext
  | wait cs havekids =>
    cases cs with
    | nil =>
      simp only [Frame.next, Option.map_some, Option.some.injEq] at hnext
      split at hnext <;> cases hnext <;> cases hu
      · exact move_of_same hst rfl rfl hrest .stay
      · exact move_of_same hst rfl rfl rfl .stay
    | cons c cs =>
      simp only [Frame.next] at hnext
      split at hnext
      · split at hnext
        · split at hnext <;> cases hnext <;>
            obtain ⟨hlock, rfl⟩ := of_guard hu
          · exact move_of_same hst rfl rfl hrest (.reap hlock ‹_›)
          · exact move_of_same hst rfl rfl hrest .stay
        · cases hnext
          obtain ⟨hlock, rfl⟩ := of_guard hu
          exact move_of_same hst rfl rfl rfl .stay
      · cases hnext; cases hu; exact move_of_same hst rfl rfl rfl .stay
  | scheduler q pc =>
    have := hshape.kind _ List.mem_cons_self
    cases this

/-- The line of a scheduler. -/
theorem move_of_hart (hon : s.on h = none)
    (hshape : HartShape (f :: fs)) (hst : s.stack (.hart h) = f :: fs)
    (hnext : f.next s none (s.proc h) ok = some (e, gs))
    (hu : s.apply h e = some u) : s.view.Move h (u.setStack (.hart h) (gs ++ fs)).view := by
  have hrest := hshape.hmodeOf_tail
  have hkind := hshape.kind f List.mem_cons_self
  have hmode := view_hmode hst
  cases f with
  | wakeup chan ps =>
    cases ps with
    | nil => cases hnext; cases hu; exact move_of_hmode hst rfl hrest .stay
    | cons q qs =>
      simp only [Frame.next] at hnext
      split at hnext
      · cases hnext; cases hu; exact move_of_hmode hst rfl rfl .stay
      · cases hnext
        obtain ⟨hlock, rfl⟩ := of_guard hu
        exact move_of_hmode hst rfl rfl (move_wakeIf hlock (by simp; tauto))
  | scheduler q pc =>
    cases pc with
    | enter =>
      cases hnext
      obtain ⟨hlock, rfl⟩ := of_guard hu
      rw [view_setStack_hart]
      exact .pick hon hmode hlock
    | test =>
      simp only [Frame.next] at hnext
      split at hnext <;> cases hnext <;> cases hu
      · rw [view_setStack_hart]
        exact .run hon hmode ‹_›
      · exact move_of_hmode hst rfl rfl .stay
    | set =>
      cases hnext; cases hu
      rw [view_setStack_hart]
      exact .dispatch hon hmode
    | back =>
      cases hnext; cases hu
      rw [view_setStack_hart]
      exact .idle hon hmode
    | unlock =>
      cases hnext
      obtain ⟨hlock, rfl⟩ := of_guard hu
      rw [view_setStack_hart, List.nil_append, hrest]
      exact .drop hon hmode
  | _ => cases hkind

end Kernel

end Xv6.Dispatch
