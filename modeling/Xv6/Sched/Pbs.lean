import Mathlib.Order.Fin.Basic
import Xv6.Lib.Least
import Xv6.Sched.Slots

/-!
# What the priority scheduler selects

One pass of `pbs_scheduler` makes three tests that overlap, from a candidate that need not be
runnable and a priority no process has. On a table whose priorities lie between 0 and 100 the
pass finds the runnable process that is least in a lexicographic order.
-/

namespace Xv6.Kern

open Lib

variable {b : Build} {k k' : Kern} {a : Act}

/-! ## The range of the priorities -/

/-- Both priorities of a slot lie between 0 and 100. -/
def Priced (x : Proc) : Prop :=
  (0 ≤ x.staticPriority ∧ x.staticPriority ≤ 100) ∧
    0 ≤ x.dynamicPriority ∧ x.dynamicPriority ≤ 100

instance (x : Proc) : Decidable (Priced x) := by unfold Priced; infer_instance

theorem le_max_min (x : Int32) : 0 ≤ max 0 (min x 100) := by
  change 0 ≤ (if 0 ≤ min x 100 then min x 100 else 0)
  split
  · assumption
  · decide

theorem max_min_le (x : Int32) : max 0 (min x 100) ≤ 100 := by
  have hmin : min x 100 ≤ 100 := by
    change (if x ≤ 100 then x else 100) ≤ 100
    split
    · assumption
    · decide
  change (if 0 ≤ min x 100 then min x 100 else 0) ≤ 100
  split
  · exact hmin
  · decide

theorem lasting_priced : Lasting Priced fun v => 0 ≤ v ∧ v ≤ 100 where
  frame := by
    intro x y heq hx
    simp only [Proc.account, Prod.mk.injEq] at heq
    rw [Priced, heq.2.2.1, heq.2.2.2]
    exact hx
  alloc x pid t hx := by
    change ((0 : Int32) ≤ 60 ∧ (60 : Int32) ≤ 100) ∧ (0 : Int32) ≤ 60 ∧ (60 : Int32) ≤ 100
    decide
  range := fun _ h₀ h₁ => ⟨h₀, h₁⟩
  priority x v hv hx := ⟨hv, hx.2⟩
  dynamic := fun _ hx => hx.2

theorem priced_clockintr (hk : k.Each Priced) (me : Option Slot) :
    (k.clockintr me).Each Priced := by
  intro i
  have hstatic := clockintr_frame (π := Proc.staticPriority) (fun _ _ _ _ _ _ _ _ => rfl) k me i
  refine ⟨?_, ?_⟩
  · rw [hstatic]
    exact (hk i).1
  · rw [proc_clockintr]
    exact ⟨le_max_min _, max_min_le _⟩

theorem priced_of_reachable (hk : Reachable (Kern.next b) boot k) : k.Each Priced := by
  refine (hk.invariant (P := fun k => k.Sane ∧ k.Each Priced) ⟨sane_boot, ?_⟩ ?_).2
  · unfold Each
    decide
  · rintro s a t - hnext ⟨hs, hp⟩
    exact ⟨hs.next hnext, lasting_priced.next hs hp (fun _ => priced_clockintr hp _) hnext⟩

/-! ## The pass -/

/-- What `pbs_scheduler` orders processes by: the dynamic priority, then the number of times the
process was scheduled, then its creation time, then its slot. -/
def rank (k : Kern) (i : Slot) : ℤ ×ₗ ℤ ×ₗ ℤ ×ₗ Slot :=
  toLex ((k.proc i).dynamicPriority.toInt, toLex ((k.proc i).nRun.toInt,
    toLex ((k.proc i).ctime.toInt, i)))

theorem rank_lt_rank {i j : Slot} (hji : j < i) : k.rank i < k.rank j ↔
    (k.proc i).dynamicPriority < (k.proc j).dynamicPriority ∨
      (k.proc i).dynamicPriority = (k.proc j).dynamicPriority ∧
        ((k.proc i).nRun < (k.proc j).nRun ∨ (k.proc i).nRun = (k.proc j).nRun ∧
          (k.proc i).ctime < (k.proc j).ctime) := by
  simp only [rank, Prod.Lex.toLex_lt_toLex, Int32.toInt_inj, ← Int32.lt_iff_toInt_lt,
    not_lt_of_gt hji, and_false, or_false]

/-- From a candidate in an earlier slot, with its priority, the loop body moves to the slot it
looks at exactly if that has the lower rank. -/
theorem pbsBody_eq {i j : Slot} (hji : j < i) :
    k.pbsBody i (j, (k.proc j).dynamicPriority) =
      if k.rank i < k.rank j then (i, (k.proc i).dynamicPriority)
      else (j, (k.proc j).dynamicPriority) := by
  simp only [pbsBody, rank_lt_rank hji]
  by_cases hdyn : (k.proc i).dynamicPriority < (k.proc j).dynamicPriority
  · simp [hdyn]
  · by_cases heq : (k.proc i).dynamicPriority = (k.proc j).dynamicPriority
    · by_cases hrun : (k.proc i).nRun < (k.proc j).nRun
      · simp [heq, hrun]
      · simp [heq, hrun]
    · simp [hdyn, heq]

/-- From the start value, the loop body moves to the first process it looks at. -/
theorem pbsBody_start {i : Slot} (hi : (k.proc i).dynamicPriority ≤ 100) (j : Slot) :
    k.pbsBody i (j, 10000) = (i, (k.proc i).dynamicPriority) := by
  have hlt : (k.proc i).dynamicPriority < 10000 := Int32.lt_of_le_of_lt hi (by decide)
  simp [pbsBody, hlt]

/-- The pass keeps the start value if no process is runnable, and otherwise ends with the
runnable process of least rank. -/
theorem pbsScheduler_cases (hk : k.Each Priced) :
    (∀ q, (k.proc q).state ≠ .runnable) ∨ (k.proc k.pbsScheduler).state = .runnable ∧
      ∀ q, (k.proc q).state = .runnable → k.rank k.pbsScheduler ≤ k.rank q := by
  have hpass := least_of_pass (f := k.rank) (c := fun i => (k.proc i).state = .runnable)
    (fun is j => k.pbsLoop is (j, (k.proc j).dynamicPriority))
    (fun is => k.pbsLoop is (1, 10000)) (fun _ => rfl) (fun {a i is} hlt => ?_) rfl
    (fun i is => ?_) (List.pairwise_lt_finRange NPROC)
  · simp only [List.mem_finRange, forall_const, decide_eq_false_iff_not, decide_eq_true_eq] at hpass
    exact hpass.imp_left And.left
  · rw [pbsLoop, pbsBody_eq hlt]
    split_ifs <;> simp_all
  · rw [pbsLoop, pbsBody_start (hk i).2.2]
    simp

theorem rank_injective (k : Kern) : Function.Injective k.rank := by
  intro i j hij
  simpa [rank] using congrArg (fun r => (ofLex (ofLex (ofLex r).2).2).2) hij

/-- A hart dispatches a process only if that is runnable. -/
theorem runnable_of_dispatch {h : ℕ} {p q : Slot} (hsel : (k.cpu h).sel = some p)
    (hnext : Kern.next b k (.dispatch h) = some k') (hq : (k'.cpu h).proc = some q) :
    (k.proc p).state = .runnable := by
  cases moves_of_next hnext with
  | dispatch hsel' =>
    obtain rfl := Option.some.inj (hsel.symm.trans hsel')
    by_contra hrun
    rw [dispatch, if_neg hrun, cpu_setCpu, if_pos rfl] at hq
    cases hq

/-- **Priority scheduling**: every slot has a priority between 0 and 100, and the scheduler selects
the runnable process of least rank. Where none is runnable it selects one that is not; the hart
dispatches this one only if a step of the run from there on has made it runnable. -/
theorem pbsScheduler_least (hk : Reachable (Kern.next .pbs) boot k) :
    (∀ i, 0 ≤ (k.proc i).dynamicPriority ∧ (k.proc i).dynamicPriority ≤ 100) ∧
      ((∃ q, (k.proc q).state = .runnable) →
        (k.proc k.pbsScheduler).state = .runnable ∧
          ∀ q, (k.proc q).state = .runnable → q ≠ k.pbsScheduler →
            k.rank k.pbsScheduler < k.rank q) ∧
      ((∀ q, (k.proc q).state ≠ .runnable) →
        (k.proc k.pbsScheduler).state ≠ .runnable ∧
          ∀ h as s t q, exec (Kern.next .pbs) k (.select h :: as) = some s →
            (s.cpu h).sel = some k.pbsScheduler → Kern.next .pbs s (.dispatch h) = some t →
            (t.cpu h).proc = some q → ∃ u a v, Takes (Kern.next .pbs) k (.select h :: as) u a ∧
              Kern.next .pbs u a = some v ∧ (u.proc k.pbsScheduler).state ≠ .runnable ∧
              (v.proc k.pbsScheduler).state = .runnable) := by
  have hr := priced_of_reachable hk
  refine ⟨fun i => (hr i).2, ?_, fun hnone => ⟨hnone _, ?_⟩⟩
  · rintro ⟨q₀, hq₀⟩
    rcases pbsScheduler_cases hr with hnone | ⟨hrun, hleast⟩
    · exact absurd hq₀ (hnone q₀)
    · refine ⟨hrun, fun q hq hne => lt_of_le_of_ne (hleast q hq) ?_⟩
      exact fun heq => hne (rank_injective k heq).symm
  · intro h as s t q hexec hsel hnext hq
    exact (Visits.last hexec).exists_step (hnone _) (runnable_of_dispatch hsel hnext hq)

/-- The first process forks three children, gives the second of them the static priority 40, and is
interrupted. It and the children are runnable then, with the priorities 65, 75, 55 and 75. -/
def fourRunnable : List Act :=
  [.select 0, .dispatch 0, .fork 0 true true, .fork 0 true true, .fork 0 true true,
    .setPriority 0 40 3, .timer 0 true]

theorem pbsScheduler_least_fourRunnable : ∃ k, exec (Kern.next .pbs) boot fourRunnable = some k ∧
    (∀ q : Slot, q < 4 → (k.proc q).state = .runnable) ∧ k.pbsScheduler = 2 ∧
    ∀ q, (k.proc q).state = .runnable → q ≠ 2 → k.rank 2 < k.rank q := by
  obtain ⟨k, hk, hstate⟩ := (Option.any_eq_true _ _).mp (show (exec (Kern.next .pbs) boot
    fourRunnable).any (fun k => decide ((∀ q : Slot, q < 4 → (k.proc q).state = .runnable) ∧
      k.pbsScheduler = 2)) = true by decide +kernel)
  obtain ⟨hrun, hpick⟩ := of_decide_eq_true hstate
  have hleast := ((pbsScheduler_least (Reach.refl.exec (fun _ _ => trivial) hk)).2.1
    ⟨0, hrun 0 (by decide)⟩).2
  rw [hpick] at hleast
  exact ⟨k, hk, hrun, hpick, hleast⟩

/-- Two harts: the child of the first process sleeps, and hart 1 is back in its scheduler. -/
def childAsleep : List Act :=
  [.select 0, .dispatch 0, .fork 0 true true, .select 1, .dispatch 1, .sleep 1 .ticks]

/-- **The process selected where none is runnable may be dispatched.** The scheduler of hart 1
finds no runnable process and selects the child, which sleeps; hart 0 wakes it up; and hart 1
dispatches it. -/
theorem childAsleep_dispatched : ∃ k s t, exec (Kern.next .pbs) boot childAsleep = some k ∧
    (∀ q, (k.proc q).state ≠ .runnable) ∧
    exec (Kern.next .pbs) k [.select 1, .wakeup 0 .ticks] = some s ∧
    (s.cpu 1).sel = some k.pbsScheduler ∧ Kern.next .pbs s (.dispatch 1) = some t ∧
    (t.cpu 1).proc = some k.pbsScheduler := by
  obtain ⟨k, hk, hstate⟩ := (Option.any_eq_true _ _).mp (show (exec (Kern.next .pbs) boot
    childAsleep).any (fun k => decide ((∀ q, (k.proc q).state ≠ .runnable) ∧
      (exec (Kern.next .pbs) k [.select 1, .wakeup 0 .ticks]).any (fun s =>
        (s.cpu 1).sel = some k.pbsScheduler ∧ (Kern.next .pbs s (.dispatch 1)).any
          (fun t => (t.cpu 1).proc = some k.pbsScheduler)))) = true by decide +kernel)
  obtain ⟨hnone, hlater⟩ := of_decide_eq_true hstate
  obtain ⟨s, hs, hsel⟩ := (Option.any_eq_true _ _).mp hlater
  obtain ⟨hsel, hdispatch⟩ := of_decide_eq_true hsel
  obtain ⟨t, ht, hproc⟩ := (Option.any_eq_true _ _).mp hdispatch
  exact ⟨k, s, t, hk, hnone, hs, hsel, ht, of_decide_eq_true hproc⟩

end Xv6.Kern
