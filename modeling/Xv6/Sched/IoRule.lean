import Xv6.Sched.Requeue
import Xv6.Sched.Life

/-!
# Where a process goes after it has slept

On one hart the queues and the processes always agree, and the process that runs or is about to
run is in no queue. A process that goes to sleep keeps its level and the time it was last
dispatched until `mlfq_scheduler` finds it runnable again. That call runs `ageing` first: a
process that was away for too long is queued one level up, not at the level it left.
-/

namespace Xv6.Kern

open Lib

variable {k k' k'' : Kern} {a : Act} {h : ℕ} {p q : Slot} {f : Proc → Proc}

/-- The step is made by hart 0, and pids do not wrap around. -/
def Solo (k : Kern) (a : Act) : Prop := a.hart = 0 ∧ NoWrap k a

instance (k : Kern) (a : Act) : Decidable (Solo k a) := by unfold Solo; infer_instance

/-- Hart 0 runs the process, or has selected it. -/
def OnHart (k : Kern) (p : Slot) : Prop := (k.cpu 0).proc = some p ∨ (k.cpu 0).sel = some p

/-- What holds throughout a run on one hart. -/
structure Tidy (k : Kern) : Prop where
  sane : k.Sane
  pids : k.PidSane
  queues : k.WellQueued
  out : ∀ p, k.OnHart p → (k.proc p).inQueue = false

/-! ## One step -/

theorem not_onHart_setCpu (k : Kern) (p : Slot) : ¬ (k.setCpu 0 none).OnHart p := by
  rintro (hp | hp) <;> rw [cpu_setCpu, if_pos rfl] at hp <;> cases hp

theorem OnHart.of_eq (hcpu : k'.cpu = k.cpu) (hp : k'.OnHart p) : k.OnHart p := by
  rwa [OnHart, hcpu] at hp

theorem not_onHart_exit {status : Int32} (hexit : k.exit 0 q status = .ok k') : ¬ k'.OnHart p := by
  obtain ⟨-, k₁, -, rfl⟩ := exit_ok hexit
  exact not_onHart_setCpu _ p

theorem onHart_preempt (hp : (preempt .mlfq k 0 q).OnHart p) : k.OnHart p := by
  rw [preempt] at hp
  split at hp
  · exact absurd hp (not_onHart_setCpu _ p)
  · exact hp

theorem onHart_trapped {user : Bool} (ht : Trapped .mlfq k 0 user k') (hp : k'.OnHart p) :
    k.OnHart p := by
  cases ht with
  | none _ => exact hp.of_eq (cpu_devintr k 0)
  | exit _ _ _ hexit => exact absurd hp (not_onHart_exit hexit)
  | preempt _ _ => exact (onHart_preempt hp).of_eq (cpu_devintr k 0)

/-- Only a selection brings a process to the hart. -/
theorem onHart_next (hs : k.Sane) (ha : a.hart = 0) (hsel : a ≠ .select 0)
    (hnext : Kern.next .mlfq k a = some k') (hp : k'.OnHart p) : k.OnHart p := by
  cases moves_of_next hnext with
  | @select h _ _ _ _ => cases ha; exact absurd rfl hsel
  | @dispatch h q hq =>
    cases ha
    rw [dispatch] at hp
    split at hp
    · rcases hp with hp | hp <;> rw [run, cpu_setCpu, if_pos rfl] at hp
      · cases hp; exact .inr hq
      · cases hp
    · exact absurd hp (not_onHart_setCpu _ p)
  | @kerneltrap h => cases ha; exact onHart_trapped (trapped_of_next hs hnext) hp
  | @usertrap h _ _ _ _ => cases ha; exact onHart_trapped (trapped_of_next hs hnext) hp
  | wakeup => exact hp.of_eq rfl
  | @sleep h _ _ _ => cases ha; exact absurd hp (not_onHart_setCpu _ p)
  | kill _ hkill => cases hkill <;> exact hp.of_eq rfl
  | fork _ hfork => cases hfork <;> exact hp.of_eq rfl
  | @exit h _ _ _ _ hexit => cases ha; exact absurd hp (not_onHart_exit hexit)
  | @wait h _ _ _ _ hwait =>
    cases ha
    cases hwait with
    | same => exact hp
    | reaped _ => exact hp.of_eq rfl
    | slept => exact absurd hp (not_onHart_setCpu _ p)
  | setPriority _ =>
    exact hp.of_eq (of_sysSetPriority (P := fun k' => k'.cpu = k.cpu) rfl fun _ _ =>
      cpu_actuallySetPriority k _ _)
  | @fault h _ _ _ hexit => cases ha; exact absurd hp (not_onHart_exit hexit)

/-- No step but a selection changes whether a process is queued. -/
theorem inQueue_next (hs : k.Sane) (hsel : ∀ h, a ≠ .select h)
    (hnext : Kern.next .mlfq k a = some k') (i : Slot) :
    (k'.proc i).inQueue = (k.proc i).inQueue := by
  cases a with
  | timer h user =>
    exact ((framed_devintr (π := Proc.inQueue) (fun _ _ _ _ _ _ _ _ => rfl) k h).trans
      ((trapped_of_next hs hnext).framed (fun _ _ _ _ _ _ => rfl) hs)).field i
  | _ => exact congrArg Prod.fst ((samePlaces_next hnext hsel (by simp)).place i)

theorem Tidy.demotesUnqueued (hk : k.Tidy) (ha : a.hart = 0) : k.DemotesUnqueued a := by
  unfold DemotesUnqueued
  split
  · rename_i h user
    cases ha
    split
    · rename_i p hp
      exact fun _ _ _ => hk.out p (.inl hp)
    · trivial
  · trivial

theorem Tidy.next (hk : k.Tidy) (ha : Solo k a) (hnext : Kern.next .mlfq k a = some k') :
    k'.Tidy := by
  refine ⟨hk.sane.next hnext, hk.pids.next hk.sane ha.2 hnext, ?_, fun p hp => ?_⟩
  · exact (wellQueued_next_iff hk.sane hk.pids.distinct hk.queues hnext).mpr
      (hk.demotesUnqueued ha.1)
  · by_cases hsel : a = .select 0
    · subst hsel
      cases moves_of_next hnext with
      | @select _ r hproc _ hr =>
        obtain ⟨xs, hq⟩ := hk.queues.queued
        obtain ⟨r', ys, hr', -, hout⟩ := mlfqScheduler_ok hq hk.pids.distinct
        cases hr'.symm.trans hr
        rcases hp with hp | hp <;> dsimp only at hp <;> rw [Function.update_self] at hp
        · cases hp
        · exact (hout p hp).2
    · have hsel' : ∀ h, a ≠ .select h := by
        rintro h rfl
        cases ha.1
        exact hsel rfl
      rw [inQueue_next hk.sane hsel' hnext]
      exact hk.out p (onHart_next hk.sane ha.1 hsel hnext hp)

theorem tidy_boot : boot.Tidy :=
  ⟨sane_boot, pidSane_boot, wellQueued_boot, by rintro p (hp | hp) <;> cases hp⟩

theorem tidy_of_reach (hk : Reach (Kern.next .mlfq) Solo boot k) : k.Tidy :=
  hk.invariant tidy_boot fun _ _ _ ha hnext hk => hk.next ha hnext

/-! ## A process at rest -/

/-- What decides where a process is queued next. -/
def rest (x : Proc) : Fin NMLFQ × Bool × Int32 := (x.level, x.inQueue, x.qEnter)

/-- The process `p` was left alone, or was woken. -/
structure Rests (p : Slot) (k k' : Kern) : Prop where
  rest : rest (k'.proc p) = rest (k.proc p)
  state : (k'.proc p).state = (k.proc p).state ∨
    (k.proc p).state = .sleeping ∧ (k'.proc p).state = .runnable

namespace Rests

theorem of_eq (heq : k'.proc p = k.proc p) : Rests p k k' := ⟨by rw [heq], .inl (by rw [heq])⟩

theorem trans (h₁ : Rests p k k') (h₂ : Rests p k' k'') : Rests p k k'' := by
  refine ⟨h₂.rest.trans h₁.rest, ?_⟩
  rcases h₂.state with h₂ | ⟨hs, h₂⟩
  · rw [h₂]; exact h₁.state
  · rcases h₁.state with h₁ | ⟨-, h₁⟩
    · exact .inr ⟨h₁ ▸ hs, h₂⟩
    · rw [h₁] at hs; cases hs

end Rests

theorem rests_modProc_of_ne (hq : q ≠ p) : Rests p k (k.modProc q f) :=
  .of_eq (proc_modProc_of_ne _ _ hq.symm)

/-- A hart puts down or takes up another process. -/
theorem rests_other (hq : q ≠ p) (c : Option Slot) : Rests p k ((k.modProc q f).setCpu h c) :=
  .of_eq (by rw [proc_setCpu, proc_modProc_of_ne _ _ hq.symm])

theorem Woken.rests (hw : Woken k k') (p : Slot) : Rests p k k' := by
  refine ⟨hw.frame (fun _ _ _ => rfl) p, ?_⟩
  obtain ⟨st, par, hp, hst⟩ := hw.proc p
  rwa [hp]

theorem rests_exit (hq : q ≠ p) {status : Int32} (hexit : k.exit h q status = .ok k') :
    Rests p k k' := by
  obtain ⟨-, k₁, hw, rfl⟩ := exit_ok hexit
  exact (hw.rests p).trans (rests_other hq none)

theorem rests_actuallySetPriority (k : Kern) (v pid : Int32) (p : Slot) :
    Rests p k (k.actuallySetPriority v pid).1 := by
  refine ⟨?_, .inl (state_actuallySetPriority k v pid p)⟩
  exact (framed_actuallySetPriority (π := Kern.rest) (fun _ _ _ _ => rfl) k v pid).field p

theorem rests_devintr (k : Kern) (h : ℕ) (p : Slot) : Rests p k (k.devintr h) := by
  refine ⟨devintr_frame (π := Kern.rest) (fun _ _ _ _ _ _ _ _ => rfl) k h p, ?_⟩
  rw [devintr]
  split
  · rw [state_clockintr]
    split
    · rename_i hwake; exact .inr ⟨hwake.2.1, rfl⟩
    · exact .inl rfl
  · exact .inl rfl

theorem rests_preempt (hq : q ≠ p) : Rests p k (preempt .mlfq k h q) := by
  rw [preempt]
  split
  · rw [yield, modProc_modProc]; exact rests_other hq none
  · exact .of_eq rfl

/-- A process that is not on the hart is left alone or woken by every step that selects none. -/
theorem rests_next (hs : k.Sane) (ha : a.hart = 0) (hsel : a ≠ .select 0) (hoff : ¬ k.OnHart p)
    (hp : (k.proc p).state = .sleeping ∨ (k.proc p).state = .runnable)
    (hnext : Kern.next .mlfq k a = some k') : Rests p k k' := by
  have hother : ∀ q, k.OnHart q → q ≠ p := fun q hq heq => hoff (heq ▸ hq)
  have htimer : ∀ user, Kern.next .mlfq k (.timer 0 user) = some k' → Rests p k k' := by
    intro user hnext
    cases trapped_of_next hs hnext with
    | none _ => exact rests_devintr k 0 p
    | exit hq _ _ hexit => exact (rests_devintr k 0 p).trans (rests_exit (hother _ (.inl hq)) hexit)
    | preempt hq _ => exact (rests_devintr k 0 p).trans (rests_preempt (hother _ (.inl hq)))
  cases moves_of_next hnext with
  | @select h _ _ _ _ => cases ha; exact absurd rfl hsel
  | @dispatch h q hq =>
    cases ha
    rw [dispatch]
    split
    · exact (rests_actuallySetPriority k _ _ p).trans
        (rests_other (hother q (.inr hq)) (some q))
    · exact .of_eq rfl
  | @kerneltrap h => cases ha; exact htimer _ hnext
  | @usertrap h _ _ _ _ => cases ha; exact htimer _ hnext
  | wakeup => exact (woken_wakeup k _ _).rests p
  | @sleep h q _ hq => cases ha; exact rests_other (hother q (.inl hq)) none
  | kill _ hkill =>
    cases hkill with
    | none => exact .of_eq rfl
    | @marked i _ =>
      by_cases hi : p = i
      · subst hi
        refine ⟨by rw [proc_modProc_self]; rfl, ?_⟩
        rw [proc_modProc_self]
        dsimp only
        split
        · rename_i hsleep; exact .inr ⟨hsleep, rfl⟩
        · exact .inl rfl
      · exact rests_modProc_of_ne (Ne.symm hi)
  | fork _ hfork =>
    have hfill : ∀ i, k.freeSlot = some i → ∀ f, Rests p k (k.fill i f) := by
      intro i hi f
      refine .of_eq ?_
      rw [proc_fill, if_neg]
      rintro rfl
      rw [unused_of_freeSlot hi] at hp
      simp at hp
    cases hfork with
    | full _ => exact .of_eq rfl
    | failed hi => exact hfill _ hi _
    | child hi => exact hfill _ hi _
  | @exit h q _ _ hq hexit => cases ha; exact rests_exit (hother q (.inl hq)) hexit
  | @wait h q _ _ hq hwait =>
    cases ha
    cases hwait with
    | same => exact .of_eq rfl
    | @reaped i hi =>
      refine rests_modProc_of_ne ?_
      rintro rfl
      rw [zombie_of_exitedChild hi] at hp
      simp at hp
    | slept => exact rests_other (hother q (.inl hq)) none
  | setPriority _ =>
    exact of_sysSetPriority (.of_eq rfl) fun _ _ => rests_actuallySetPriority k _ _ p
  | @fault h q _ hq hexit =>
    cases ha
    exact (rests_modProc_of_ne (hother q (.inl hq))).trans (rests_exit (hother q (.inl hq)) hexit)

/-- A process at rest at level `L`, last dispatched at time `t`. -/
structure Dormant (p : Slot) (L : Fin NMLFQ) (t : Int32) (k : Kern) : Prop where
  state : (k.proc p).state = .sleeping ∨ (k.proc p).state = .runnable
  off : ¬ k.OnHart p
  rest : rest (k.proc p) = (L, false, t)

/-- A step of hart 0 that does not queue `p`. -/
def Waits (p : Slot) (k : Kern) (a : Act) : Prop :=
  Solo k a ∧ (a = .select 0 → (k.proc p).state ≠ .runnable)

deriving instance DecidableEq for Act

instance (p : Slot) (k : Kern) (a : Act) : Decidable (Waits p k a) := by
  unfold Waits; infer_instance

variable {L : Fin NMLFQ}

theorem Dormant.select {t : Int32} (hk : k.Tidy) (hd : Dormant p L t k)
    (hp : (k.proc p).state ≠ .runnable) (hnext : Kern.next .mlfq k (.select 0) = some k') :
    Dormant p L t k' := by
  have hsleep := hd.state.resolve_right hp
  cases moves_of_next hnext with
  | @select _ r _ _ hr =>
    have hpass := (selects_passes p).mlfqScheduler hr
    obtain ⟨xs, hq⟩ := hk.queues.queued
    obtain ⟨r', ys, hr', -, hout⟩ := mlfqScheduler_ok hq hk.pids.distinct
    cases hr'.symm.trans hr
    have hrest := hd.rest
    simp only [Kern.rest, Prod.mk.injEq] at hrest
    refine ⟨.inl ((hpass.state p).trans hsleep), ?_, ?_⟩
    · rintro (hon | hon) <;> dsimp only at hon <;> rw [Function.update_self] at hon
      · cases hon
      · have hrun := (hout p hon).1
        rw [hpass.state, hsleep] at hrun
        cases hrun
    · simp only [Kern.rest, Prod.mk.injEq]
      exact ⟨(hpass.level hp).trans hrest.1, hpass.inQueue hp hrest.2.1,
        (hpass.qEnter hp).trans hrest.2.2⟩

theorem Dormant.next {t : Int32} (hk : k.Tidy) (hd : Dormant p L t k)
    (ha : Waits p k a) (hnext : Kern.next .mlfq k a = some k') : Dormant p L t k' := by
  by_cases hsel : a = .select 0
  · subst hsel
    exact hd.select hk (ha.2 rfl) hnext
  · have hrests := rests_next hk.sane ha.1.1 hsel hd.off hd.state hnext
    refine ⟨?_, fun hon => hd.off (onHart_next hk.sane ha.1.1 hsel hnext hon),
      hrests.rest.trans hd.rest⟩
    rcases hrests.state with hst | ⟨-, hst⟩
    · rw [hst]; exact hd.state
    · exact .inr hst

/-- A process that goes to sleep is at rest. -/
theorem dormant_sleep (hk : k.Tidy) (hp : (k.cpu 0).proc = some p) (chan : Chan) :
    (k.sleep 0 p chan).Tidy ∧
      Dormant p (k.proc p).level (k.proc p).qEnter (k.sleep 0 p chan) := by
  have hnext : Kern.next .mlfq k (.sleep 0 chan) = some (k.sleep 0 p chan) := by
    simp [Kern.next, step, Act.hart, hp, procStep, Except.toOption]
  refine ⟨hk.next ⟨rfl, by trivial⟩ hnext, ?_, not_onHart_setCpu _ p, ?_⟩
  · rw [sleep, proc_setCpu, proc_modProc_self]; exact .inl rfl
  · rw [sleep, proc_setCpu, proc_modProc_self, Kern.rest, hk.out p (.inl hp)]

theorem dormant_of_reach {t : Int32} (hk : k.Tidy ∧ Dormant p L t k)
    (hreach : Reach (Kern.next .mlfq) (Waits p) k k') : k'.Tidy ∧ Dormant p L t k' :=
  hreach.invariant (P := fun k => k.Tidy ∧ Dormant p L t k) hk fun _ _ _ ha hnext hd =>
    ⟨hd.1.next ha.1 hnext, hd.2.next hd.1 ha hnext⟩

/-! ## The call that queues the process -/

/-- The call of `mlfq_scheduler` in the kernel `k` pushes `p` at the tail of the queue of level
`L`: when its first loop comes to `p`, that queue gets `p` as its last entry and no other queue
changes. -/
def PushesAt (k : Kern) (p : Slot) (L : Fin NMLFQ) : Prop :=
  ∃ is rest k₁ k₂ k₃, slots = is ++ p :: rest ∧ k.ageing = .ok k₁ ∧
    is.foldlM enqueueAt k₁ = .ok k₂ ∧ k₂.enqueueAt p = .ok k₃ ∧
    ∀ l, (k₃.mlfq l).toList =
      if l = L then (k₂.mlfq l).toList ++ [some p] else (k₂.mlfq l).toList

/-- What `ageing` leaves in the slot of a process that is in no queue. -/
theorem ageing_slot {is : List Slot} (hnodup : is.Nodup) (hk : k.Good)
    (hp : (k.proc p).inQueue = false) : ∃ k', is.foldlM ageingAt k = .ok k' ∧ k'.Good ∧
      k'.proc p = if p ∈ is ∧ k.aged p then climb k.ticks (k.proc p) else k.proc p := by
  induction is generalizing k with
  | nil => exact ⟨k, rfl, hk, by simp⟩
  | cons i is ih =>
    obtain ⟨hi, hrest⟩ := List.nodup_cons.mp hnodup
    obtain ⟨k₁, hk₁, hgood, hproc⟩ := ageingAt_ok hk i
    have hticks : k₁.ticks = k.ticks := (selects_sameCore.ageingAt hk₁).ticks
    have hout : { k.proc p with inQueue := false } = k.proc p := by rw [← hp]
    by_cases hip : p = i
    · subst hip
      have hslot : k₁.proc p = if k.aged p then climb k.ticks (k.proc p) else k.proc p := by
        rw [hproc]
        split
        · rw [proc_modProc_self, hout]
        · rfl
      have hp₁ : (k₁.proc p).inQueue = false := by
        rw [hslot]
        split
        · exact hp
        · exact hp
      obtain ⟨k', hk', hgood', hslot'⟩ := ih hrest hgood hp₁
      refine ⟨k', foldlM_cons_ok.mpr ⟨k₁, hk₁, hk'⟩, hgood', ?_⟩
      rw [hslot', if_neg fun hc => hi hc.1, hslot]
      simp
    · have hslot : k₁.proc p = k.proc p := by
        rw [hproc]
        split
        · exact proc_modProc_of_ne _ _ hip
        · rfl
      obtain ⟨k', hk', hgood', hslot'⟩ := ih hrest hgood (by rw [hslot, hp])
      have haged : k₁.aged p = k.aged p := by rw [aged, aged, hslot, hticks]
      refine ⟨k', foldlM_cons_ok.mpr ⟨k₁, hk₁, hk'⟩, hgood', ?_⟩
      rw [hslot', hslot, haged, hticks]
      simp [hip]

/-- Queueing other processes leaves a process alone. -/
theorem enqueue_slot {is : List Slot} {xs : Fin NMLFQ → List Slot} (hp : p ∉ is)
    (hk : k.Queued xs) : ∃ k' ys, is.foldlM enqueueAt k = .ok k' ∧ k'.Queued ys ∧
      k'.proc p = k.proc p := by
  induction is generalizing k xs with
  | nil => exact ⟨k, xs, rfl, hk, rfl⟩
  | cons i is ih =>
    rw [List.mem_cons, not_or] at hp
    obtain ⟨hpi, hp⟩ := hp
    obtain ⟨k₁, ys, hk₁, hq₁, hcase⟩ := enqueueAt_ok hk i
    have hslot : k₁.proc p = k.proc p := by
      split at hcase
      · rw [hcase.2]; exact proc_modProc_of_ne _ _ hpi
      · rw [hcase.2]
    obtain ⟨k', zs, hk', hq', hslot'⟩ := ih hp hq₁
    exact ⟨k', zs, foldlM_cons_ok.mpr ⟨k₁, hk₁, hk'⟩, hq', hslot'.trans hslot⟩

/-- The level at which the next call of `mlfq_scheduler` queues a process that is in no queue. -/
def nextLevel (k : Kern) (p : Slot) : Fin NMLFQ :=
  if k.aged p then (climb k.ticks (k.proc p)).level else (k.proc p).level

theorem pushes_nextLevel (hk : k.Good) (hp : (k.proc p).state = .runnable)
    (hq : (k.proc p).inQueue = false) {is rest : List Slot} (hsplit : slots = is ++ p :: rest) :
    ∃ k₁ k₂ k₃, k.ageing = .ok k₁ ∧ is.foldlM enqueueAt k₁ = .ok k₂ ∧ k₂.enqueueAt p = .ok k₃ ∧
      ∀ l, (k₃.mlfq l).toList = if l = k.nextLevel p then (k₂.mlfq l).toList ++ [some p]
        else (k₂.mlfq l).toList := by
  have hnodup : (is ++ p :: rest).Nodup := hsplit ▸ List.nodup_finRange NPROC
  have hpis : p ∉ is := fun hmem =>
    (List.nodup_middle.mp hnodup).notMem (List.mem_append_left _ hmem)
  obtain ⟨k₁, hk₁, ⟨⟨xs, hxs⟩, -⟩, hslot₁⟩ := ageing_slot (List.nodup_finRange NPROC) hk hq
  simp only [List.mem_finRange, true_and] at hslot₁
  obtain ⟨k₂, ys, hk₂, hys, hslot₂⟩ := enqueue_slot hpis hxs
  have hlevel : (k₂.proc p).level = k.nextLevel p := by
    rw [hslot₂, hslot₁, nextLevel]; split <;> rfl
  have hready : (k₂.proc p).state = .runnable ∧ (k₂.proc p).inQueue = false := by
    rw [hslot₂, hslot₁]
    split
    · exact ⟨hp, hq⟩
    · exact ⟨hp, hq⟩
  obtain ⟨k₃, zs, hk₃, hzs, hcase⟩ := enqueueAt_ok hys p
  rw [if_pos hready] at hcase
  refine ⟨k₁, k₂, k₃, hk₁, hk₂, hk₃, fun l => ?_⟩
  rw [(hzs.holds l).toList, (hys.holds l).toList, hcase.1, hlevel]
  by_cases hl : l = k.nextLevel p
  · subst hl; simp
  · simp [hl]

theorem pushesAt_iff_nextLevel (hk : k.Good) (hp : (k.proc p).state = .runnable)
    (hq : (k.proc p).inQueue = false) (L : Fin NMLFQ) : k.PushesAt p L ↔ k.nextLevel p = L := by
  constructor
  · rintro ⟨is, rest, k₁, k₂, k₃, hsplit, hk₁, hk₂, hk₃, hL⟩
    obtain ⟨k₁', k₂', k₃', hk₁', hk₂', hk₃', hlevel⟩ := pushes_nextLevel hk hp hq hsplit
    cases hk₁.symm.trans hk₁'
    cases hk₂.symm.trans hk₂'
    cases hk₃.symm.trans hk₃'
    by_contra hne
    have h₁ := hL L
    have h₂ := hlevel L
    rw [if_pos rfl] at h₁
    rw [if_neg fun h => hne h.symm, h₁] at h₂
    simp at h₂
  · rintro rfl
    obtain ⟨is, rest, hsplit⟩ := List.append_of_mem (List.mem_finRange p)
    obtain ⟨k₁, k₂, k₃, hk₁, hk₂, hk₃, hlevel⟩ := pushes_nextLevel hk hp hq hsplit
    exact ⟨is, rest, k₁, k₂, k₃, hsplit, hk₁, hk₂, hk₃, hlevel⟩

theorem nextLevel_eq_iff (hp : (k.proc p).state = .runnable) :
    k.nextLevel p = (k.proc p).level ↔ (k.proc p).level = 0 ∨
      k.ticks - (k.proc p).qEnter.toUInt32 < UInt32.ofNat AGETICK := by
  have haged : k.aged p = true ↔
      ¬ k.ticks - (k.proc p).qEnter.toUInt32 < UInt32.ofNat AGETICK := by
    rw [aged, decide_eq_true_eq, UInt32.not_lt]
    exact ⟨fun h => h.2, fun h => ⟨hp, h⟩⟩
  by_cases hlt : k.ticks - (k.proc p).qEnter.toUInt32 < UInt32.ofNat AGETICK
  · rw [nextLevel, if_neg fun h => haged.mp h hlt]
    simp [hlt]
  · rw [nextLevel, if_pos (haged.mpr hlt)]
    simp only [hlt, or_false, climb]
    generalize (k.proc p).level = l
    revert l
    decide

/-- **Where a process goes after it has slept.** On one hart, a process that goes to sleep at a
level is pushed at the tail of the queue of that level by the first call of `mlfq_scheduler` that
finds it runnable again exactly when the level is 0 or fewer than `AGETICK` ticks have passed
since it was last dispatched. -/
theorem pushesAt_level_iff {chan : Chan} (hk : Reach (Kern.next .mlfq) Solo boot k)
    (hp : (k.cpu 0).proc = some p)
    (hreach : Reach (Kern.next .mlfq) (Waits p) (k.sleep 0 p chan) k')
    (hready : (k'.proc p).state = .runnable) :
    k'.PushesAt p (k.proc p).level ↔ (k.proc p).level = 0 ∨
      k'.ticks - (k.proc p).qEnter.toUInt32 < UInt32.ofNat AGETICK := by
  obtain ⟨htidy, hdormant⟩ := dormant_of_reach (dormant_sleep (tidy_of_reach hk) hp chan) hreach
  obtain ⟨xs, hq⟩ := htidy.queues.queued
  have hrest := hdormant.rest
  simp only [Kern.rest, Prod.mk.injEq] at hrest
  rw [pushesAt_iff_nextLevel ⟨⟨xs, hq⟩, htidy.pids.distinct⟩ hready hrest.2.1, ← hrest.1,
    ← hrest.2.2]
  exact nextLevel_eq_iff hready

/-- Init runs for a tick, is demoted to level 1 and dispatched again. -/
def demotedRun : List Act := [.select 0, .dispatch 0, .timer 0 true, .select 0, .dispatch 0]

/-- `n` ticks pass while init sleeps, and it is woken. -/
def sleepRun (n : ℕ) : List Act := List.replicate n (.timer 0 false) ++ [.wakeup 0 (.addr 7)]

/-- Init goes to sleep at level 1 and wakes up after `n` ticks to be queued at level `L`. -/
def sleepCheck (n : ℕ) (L : Fin NMLFQ) : Option Bool :=
  (exec (guarded Solo (Kern.next .mlfq)) boot demotedRun).bind fun k =>
    (exec (guarded (Waits 0) (Kern.next .mlfq)) (k.sleep 0 0 (.addr 7)) (sleepRun n)).map fun k' =>
      decide ((k.cpu 0).proc = some 0 ∧ (k.proc 0).level = 1 ∧ (k'.proc 0).state = .runnable ∧
        k'.ticks - (k.proc 0).qEnter.toUInt32 = UInt32.ofNat n ∧ k'.nextLevel 0 = L)

theorem of_sleepCheck {n : ℕ} (h : sleepCheck n L = some true) :
    ∃ k k', Reach (Kern.next .mlfq) Solo boot k ∧ (k.cpu 0).proc = some 0 ∧
      Reach (Kern.next .mlfq) (Waits 0) (k.sleep 0 0 (.addr 7)) k' ∧ (k.proc 0).level = 1 ∧
      (k'.proc 0).state = .runnable ∧
      k'.ticks - (k.proc 0).qEnter.toUInt32 = UInt32.ofNat n ∧ k'.nextLevel 0 = L := by
  obtain ⟨k, hk, h⟩ := Option.bind_eq_some_iff.mp h
  obtain ⟨k', hk', h⟩ := Option.map_eq_some_iff.mp h
  obtain ⟨hp, hlevel, hready, hticks, hnext⟩ := of_decide_eq_true h
  exact ⟨k, k', reach_of_guarded hk, hp, reach_of_guarded hk', hlevel, hready, hticks, hnext⟩

/-- Init sleeps for one tick and returns to level 1. -/
theorem pushesAt_short_sleep : ∃ k k', Reach (Kern.next .mlfq) Solo boot k ∧
    (k.cpu 0).proc = some 0 ∧ Reach (Kern.next .mlfq) (Waits 0) (k.sleep 0 0 (.addr 7)) k' ∧
    (k'.proc 0).state = .runnable ∧ (k.proc 0).level = 1 ∧ k'.PushesAt 0 (k.proc 0).level := by
  obtain ⟨k, k', hk, hp, hk', hlevel, hready, hticks, -⟩ :=
    of_sleepCheck (n := 1) (L := 1) (by decide +kernel)
  refine ⟨k, k', hk, hp, hk', hready, hlevel, (pushesAt_level_iff hk hp hk' hready).mpr (.inr ?_)⟩
  rw [hticks]
  decide

/-- Init sleeps for `AGETICK` ticks at level 1 and is queued at level 0. -/
theorem pushesAt_long_sleep : ∃ k k', Reach (Kern.next .mlfq) Solo boot k ∧
    (k.cpu 0).proc = some 0 ∧ Reach (Kern.next .mlfq) (Waits 0) (k.sleep 0 0 (.addr 7)) k' ∧
    (k'.proc 0).state = .runnable ∧ (k.proc 0).level = 1 ∧ k'.PushesAt 0 0 ∧
    ¬ k'.PushesAt 0 (k.proc 0).level := by
  obtain ⟨k, k', hk, hp, hk', hlevel, hready, -, hnext⟩ :=
    of_sleepCheck (n := AGETICK) (L := 0) (by decide +kernel)
  obtain ⟨htidy, hdormant⟩ := dormant_of_reach (dormant_sleep (tidy_of_reach hk) hp _) hk'
  obtain ⟨xs, hq⟩ := htidy.queues.queued
  have hpush := pushesAt_iff_nextLevel ⟨⟨xs, hq⟩, htidy.pids.distinct⟩ hready
    (congrArg (·.2.1) hdormant.rest)
  refine ⟨k, k', hk, hp, hk', hready, hlevel, (hpush 0).mpr hnext, fun h => ?_⟩
  rw [hpush, hnext, hlevel] at h
  exact absurd h (by decide)

end Xv6.Kern
