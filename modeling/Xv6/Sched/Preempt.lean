import Xv6.Sched.Life

/-!
# Preemption in the PBS build

The README calls priority-based scheduling non-preemptive. The trap handlers leave out `yield` for
a timer interrupt in the FCFS build only, so in the PBS build a process that a timer interrupt
finds running is put back among the runnable ones.
-/

namespace Xv6.Kern

open Lib

variable {k k' : Kern} {a : Act} {h : ℕ} {p : Slot}

/-- A process that stops running has gone to sleep or has exited. -/
def Voluntary (k k' : Kern) : Prop :=
  ∀ p, (k.proc p).state = .running → (k'.proc p).state ≠ .running →
    (k'.proc p).state = .sleeping ∨ (k'.proc p).state = .zombie

/-- The step is a timer interrupt of a process, which has not been killed if the interrupt comes
from user mode. -/
def Interrupts (k : Kern) : Act → Prop
  | .timer h user => ∃ p, (k.cpu h).proc = some p ∧ (user = true → (k.proc p).killed = false)
  | _ => False

theorem voluntary_of_running (h : ∀ p, (k.proc p).state = .running → (k'.proc p).state = .running) :
    Voluntary k k' := fun p hp hnot => absurd (h p hp) hnot

theorem voluntary_modProc {f : Proc → Proc}
    (hf : (k.proc p).state = .running → (f (k.proc p)).state ≠ .running →
      (f (k.proc p)).state = .sleeping ∨ (f (k.proc p)).state = .zombie) :
    Voluntary k (k.modProc p f) := by
  intro i hi hnot
  by_cases hip : i = p
  · subst hip
    rw [proc_modProc_self] at hnot ⊢
    exact hf hi hnot
  · rw [proc_modProc_of_ne _ _ hip] at hnot
    exact absurd hi hnot

/-- `exit` and what it wakes. -/
theorem voluntary_exit {status : Int32} (hexit : k.exit h p status = .ok k') : Voluntary k k' := by
  obtain ⟨-, k₁, hw, rfl⟩ := exit_ok hexit
  intro i hi hnot
  rw [proc_setCpu] at hnot ⊢
  exact voluntary_modProc (k := k₁) (fun _ _ => .inr rfl) i ((hw.running_iff i).mpr hi) hnot

/-- A timer interrupt puts the process it finds among the runnable ones, and only then. -/
theorem Trapped.voluntary_iff {user : Bool} (hs : k.Sane) (ht : Trapped .pbs k h user k') :
    Voluntary k k' ↔ ¬ Interrupts k (.timer h user) := by
  cases ht with
  | none hh =>
    refine iff_of_true (voluntary_of_running fun i => (running_devintr k h i).mpr) ?_
    rintro ⟨p, hp, -⟩
    rw [hh] at hp
    cases hp
  | @exit p _ hp huser hkilled hexit =>
    refine iff_of_true (fun i hi => voluntary_exit hexit i ((running_devintr k h i).mpr hi)) ?_
    rintro ⟨q, hq, hlive⟩
    rw [hp] at hq
    cases hq
    rw [hlive huser] at hkilled
    cases hkilled
  | @preempt p hp hlive =>
    refine iff_of_false (fun hvol => ?_) (not_not.mpr ⟨p, hp, hlive⟩)
    have hstate : ((Kern.preempt .pbs (k.devintr h) h p).proc p).state = .runnable := by
      rw [Kern.preempt, yield, proc_setCpu, proc_modProc_self]
    have := hvol p (hs.running h p hp) (by rw [hstate]; decide)
    rw [hstate] at this
    rcases this with hst | hst <;> cases hst

theorem voluntary_fill (hp : (k.proc p).state = .unused) (f : Proc → Proc) :
    Voluntary k (k.fill p f) := by
  refine voluntary_of_running fun i hi => ?_
  rw [proc_fill, if_neg]
  · exact hi
  · rintro rfl
    rw [hp] at hi
    cases hi

theorem voluntary_sleep (k : Kern) (h : ℕ) (p : Slot) (chan : Chan) :
    Voluntary k (k.sleep h p chan) := by
  intro i hi
  rw [sleep, proc_setCpu]
  exact voluntary_modProc (fun _ _ => .inl rfl) i hi

theorem voluntary_dispatch (k : Kern) (h : ℕ) (p : Slot) : Voluntary k (k.dispatch h p) := by
  refine voluntary_of_running fun i hi => ?_
  rw [dispatch]
  split
  · rename_i hp
    rw [run, proc_setCpu, proc_modProc_of_ne, state_actuallySetPriority, hi]
    rintro rfl
    rw [hp] at hi
    cases hi
  · rwa [proc_setCpu]

/-- Only a timer interrupt puts a running process back. -/
theorem voluntary_of_not_timer (ha : ∀ h user, a ≠ .timer h user)
    (hnext : Kern.next .pbs k a = some k') : Voluntary k k' := by
  cases moves_of_next hnext with
  | kerneltrap => exact absurd rfl (ha _ _)
  | usertrap _ _ => exact absurd rfl (ha _ _)
  | select _ _ hr => exact voluntary_of_running fun i hi => ((sameCore_select hr).state i).trans hi
  | dispatch _ => exact voluntary_dispatch k _ _
  | wakeup => exact voluntary_of_running fun i => ((woken_wakeup k _ _).running_iff i).mpr
  | sleep _ => exact voluntary_sleep k _ _ _
  | kill _ hkill =>
    cases hkill with
    | none => exact voluntary_of_running fun _ hi => hi
    | marked _ =>
      refine voluntary_modProc fun hrun hnot => ?_
      simp [hrun] at hnot
  | fork _ hfork =>
    cases hfork with
    | full _ => exact voluntary_of_running fun _ hi => hi
    | failed hi => exact voluntary_fill (unused_of_freeSlot hi) _
    | child hi => exact voluntary_fill (unused_of_freeSlot hi) _
  | exit _ hexit => exact voluntary_exit hexit
  | wait _ hwait =>
    cases hwait with
    | same => exact voluntary_of_running fun _ hi => hi
    | reaped hnp =>
      refine voluntary_modProc fun hrun => ?_
      rw [zombie_of_exitedChild hnp] at hrun
      cases hrun
    | slept => exact voluntary_sleep k _ _ _
  | setPriority _ =>
    exact voluntary_of_running fun i hi => of_sysSetPriority
      (P := fun k' => (k'.proc i).state = .running) hi fun _ _ => by rwa [state_actuallySetPriority]
  | fault _ hexit =>
    intro i hi
    refine voluntary_exit hexit i ?_
    rw [proc_modProc]
    split <;> exact hi

theorem voluntary_iff_not_interrupts (hs : k.Sane) (hnext : Kern.next .pbs k a = some k') :
    Voluntary k k' ↔ ¬ Interrupts k a := by
  cases a with
  | timer h user => exact (trapped_of_next hs hnext).voluntary_iff hs
  | _ => exact iff_of_true (voluntary_of_not_timer (fun _ _ heq => by cases heq) hnext) id

/-- **Preemption.** Over a run of the PBS build, processes stop running by `sleep` and `exit` only
if and only if no timer interrupt of the run finds a process running, or only processes in user
mode that have been killed. -/
theorem pbs_voluntary_iff {as : List Act} {e : Kern} (hrun : exec (Kern.next .pbs) boot as = some e) :
    (∀ k a k', Takes (Kern.next .pbs) boot as k a → Kern.next .pbs k a = some k' →
      Voluntary k k') ↔
    ∀ k a, Takes (Kern.next .pbs) boot as k a → ¬ Interrupts k a := by
  have hiff : ∀ k a k', Takes (Kern.next .pbs) boot as k a → Kern.next .pbs k a = some k' →
      (Voluntary k k' ↔ ¬ Interrupts k a) := fun k a k' htakes hnext =>
    voluntary_iff_not_interrupts (sane_of_reachable htakes.visits_start.reachable) hnext
  constructor
  · intro hvol k a htakes
    obtain ⟨k', hnext⟩ := htakes.enabled hrun
    exact (hiff k a k' htakes hnext).mp (hvol k a k' htakes hnext)
  · intro hnot k a k' htakes hnext
    exact (hiff k a k' htakes hnext).mpr (hnot k a htakes)

instance (k : Kern) : (a : Act) → Decidable (Interrupts k a)
  | .timer .. => inferInstanceAs (Decidable (∃ _, _))
  | .select _ | .dispatch _ | .wakeup .. | .sleep .. | .kill .. | .fork .. | .exit .. | .wait ..
  | .setPriority .. | .fault _ => instDecidableFalse

/-- Init forks on hart 0 and kills its child on hart 1. The timer interrupts hart 2, which runs
nothing, and then the child in user mode; init goes to sleep. -/
def killedRun : List Act :=
  [.select 0, .dispatch 0, .fork 0 true true, .select 1, .dispatch 1, .timer 2 false,
    .kill 0 2, .timer 1 true, .sleep 0 .ticks]

theorem pbs_voluntary_killedRun : ∃ e, exec (Kern.next .pbs) boot killedRun = some e ∧
    (e.proc 1).state = .zombie ∧
    ∀ k a k', Takes (Kern.next .pbs) boot killedRun k a → Kern.next .pbs k a = some k' →
      Voluntary k k' := by
  have hrun : (exec (guarded (fun k a => ¬ Interrupts k a) (Kern.next .pbs)) boot killedRun).any
      (fun e => (e.proc 1).state = .zombie) = true := by
    decide +kernel
  obtain ⟨e, hguarded, hzombie⟩ := (Option.any_eq_true _ _).mp hrun
  obtain ⟨hexec, hnot⟩ := exec_guarded hguarded
  exact ⟨e, hexec, of_decide_eq_true hzombie, (pbs_voluntary_iff hexec).mpr hnot⟩

/-- A timer interrupt takes the hart away from the first process. -/
theorem timer_preempts : ∃ k k',
    exec (Kern.next .pbs) boot [.select 0, .dispatch 0] = some k ∧
    Kern.next .pbs k (.timer 0 true) = some k' ∧ (k.proc 0).state = .running ∧
    (k'.proc 0).state = .runnable ∧ ¬ Voluntary k k' := by
  obtain ⟨k, k', hk, hk', hrun, hstate⟩ : ∃ k k',
      exec (Kern.next .pbs) boot [.select 0, .dispatch 0] = some k ∧
      Kern.next .pbs k (.timer 0 true) = some k' ∧ (k.proc 0).state = .running ∧
      (k'.proc 0).state = .runnable := ⟨_, _, rfl, rfl, rfl, rfl⟩
  refine ⟨k, k', hk, hk', hrun, hstate, fun hvol => ?_⟩
  have hstop := hvol 0 hrun (by rw [hstate]; decide)
  rw [hstate] at hstop
  rcases hstop with hst | hst <;> cases hst

end Xv6.Kern
