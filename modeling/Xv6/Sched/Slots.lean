import Xv6.Sched.Life

/-!
# What holds of every slot

The clock visits every slot of the process table, also those no process uses, so what it relies
on has to hold of all of them. A property of the times and priorities of a slot that survives
the creation of a process and a new static priority is kept by every step but a tick of the
clock.
-/

namespace Xv6

/-- The times and priorities the clock works on. -/
def Proc.account (x : Proc) : Int32 × Int32 × Int32 × Int32 :=
  (x.rtime, x.sleepTime, x.staticPriority, x.dynamicPriority)

namespace Kern

open Lib

variable {b : Build} {k k' : Kern} {a : Act} {h : ℕ} {p : Slot} {Q : Proc → Prop}

/-- Every slot of the table, used or not, has the property. -/
def Each (Q : Proc → Prop) (k : Kern) : Prop := ∀ i, Q (k.proc i)

theorem Each.modProc {f : Proc → Proc} (hk : k.Each Q) (hf : Q (k.proc p) → Q (f (k.proc p))) :
    (k.modProc p f).Each Q := by
  intro i
  rw [proc_modProc]
  split
  · rename_i heq
    rw [heq]
    exact hf (hk p)
  · exact hk i

theorem Each.setCpu (hk : k.Each Q) (h : ℕ) (c : Option Slot) : (k.setCpu h c).Each Q := hk

theorem Each.fill (hk : k.Each Q) {i : Slot} {f : Proc → Proc}
    (hf : Q (k.proc i) → Q (f (k.proc i))) : (k.fill i f).Each Q := by
  intro j
  rw [proc_fill]
  split
  · rename_i heq
    rw [heq]
    exact hf (hk i)
  · exact hk j

/-- A property of slots that the steps between two ticks keep; `R` is what a new static priority
is known to have. -/
structure Lasting (Q : Proc → Prop) (R : Int32 → Prop) : Prop where
  frame : ∀ {x y : Proc}, y.account = x.account → Q x → Q y
  alloc : ∀ x pid t, Q x → Q (x.alloc pid t)
  range : ∀ v, 0 ≤ v → v ≤ 100 → R v
  priority : ∀ x v, R v → Q x → Q { x with staticPriority := v, niceness := 5, sleepTime := 0 }
  dynamic : ∀ x, Q x → R x.dynamicPriority

namespace Lasting

variable {R : Int32 → Prop} (hQ : Lasting Q R)
include hQ

theorem framed (hf : Framed Proc.account k k') (hk : k.Each Q) : k'.Each Q :=
  fun i => hQ.frame (hf.field i) (hk i)

theorem modProc {f : Proc → Proc} (hf : ∀ x, (f x).account = x.account) (hk : k.Each Q) :
    (k.modProc p f).Each Q := Each.modProc hk (hQ.frame (hf _))

theorem woken (hw : Woken k k') (hk : k.Each Q) : k'.Each Q :=
  hQ.framed (hw.framed fun _ _ _ => rfl) hk

section
variable (hk : k.Each Q)
include hk

theorem sleep (chan : Chan) : (k.sleep h p chan).Each Q :=
  (hQ.modProc (fun _ => by rfl) hk).setCpu h none

theorem exit {status : Int32} (hexit : k.exit h p status = .ok k') : k'.Each Q := by
  obtain ⟨-, k₁, hw, rfl⟩ := exit_ok hexit
  exact (hQ.modProc (fun _ => by rfl) (hQ.woken hw hk)).setCpu h none

theorem preempt : (Kern.preempt b k h p).Each Q := by
  have hyield : ∀ k : Kern, k.Each Q → (k.yield h p).Each Q :=
    fun k hk => (hQ.modProc (fun _ => by rfl) hk).setCpu h none
  cases b with
  | fcfs => exact hk
  | rr => exact hyield k hk
  | pbs => exact hyield k hk
  | mlfq =>
    rw [Kern.preempt]
    split
    · exact hyield _ (hQ.modProc (fun _ => by rfl) hk)
    · exact hk

theorem forked (hf : Forked k p k') : k'.Each Q := by
  cases hf with
  | full _ => exact hk
  | failed _ => exact hk.fill fun hi => hQ.frame (by rfl) (hQ.alloc _ k.nextpid k.ticks hi)
  | child _ => exact hk.fill fun hi => hQ.frame (by rfl) (hQ.alloc _ k.nextpid k.ticks hi)

theorem actuallySetPriority {v : Int32} (hv : R v) (pid : Int32) :
    (k.actuallySetPriority v pid).1.Each Q :=
  of_actuallySetPriority hk fun _ _ => hk.modProc (hQ.priority _ _ hv)

theorem dispatch : (k.dispatch h p).Each Q := by
  rw [Kern.dispatch]
  split
  · have hk₁ := hQ.actuallySetPriority hk (hQ.dynamic _ (hk p)) (k.proc p).pid
    exact (hQ.modProc (fun _ => by rfl) hk₁).setCpu h (some p)
  · exact hk

end

/-- What the trap handlers do after `devintr`. -/
theorem trapped {user : Bool} (ht : Trapped b k h user k') (hk : (k.devintr h).Each Q) :
    k'.Each Q := by
  cases ht with
  | none _ => exact hk
  | exit _ _ _ hexit => exact hQ.exit hk hexit
  | preempt _ _ => exact hQ.preempt hk

/-- **Every slot**: a lasting property of all slots is kept by a step, if a tick of the clock
keeps it. -/
theorem next (hs : k.Sane) (hk : k.Each Q)
    (htick : isTick a = true → (k.clockintr (k.cpu 0).proc).Each Q)
    (hnext : Kern.next b k a = some k') : k'.Each Q := by
  have htimer : ∀ h user, a = .timer h user → Trapped b k h user k' → k'.Each Q := by
    intro h user ha ht
    refine hQ.trapped ht ?_
    rw [devintr]
    split
    · rename_i hh
      exact htick (by simp [ha, isTick, hh])
    · exact hk
  cases moves_of_next hnext with
  | select _ _ hr =>
    intro i
    have hcore := congrArg Proc.account ((sameCore_select hr).core i)
    exact hQ.frame (x := k.proc i) hcore (hk i)
  | dispatch _ => exact hQ.dispatch hk
  | kerneltrap => exact htimer _ _ rfl (trapped_kerneltrap hs)
  | usertrap hp hk' => exact htimer _ _ rfl (trapped_usertrap hp hk')
  | wakeup => exact hQ.woken (woken_wakeup k _ _) hk
  | sleep _ => exact hQ.sleep hk _
  | kill _ hkill =>
    cases hkill with
    | none => exact hk
    | marked _ => exact hQ.modProc (fun _ => by rfl) hk
  | fork _ hfork => exact hQ.forked hk hfork
  | exit _ hexit => exact hQ.exit hk hexit
  | wait _ hwait =>
    cases hwait with
    | same => exact hk
    | reaped _ => exact hQ.modProc (fun _ => by rfl) hk
    | slept => exact hQ.sleep hk _
  | setPriority _ =>
    exact of_sysSetPriority hk fun h₀ h₁ =>
      hQ.actuallySetPriority hk (hQ.range _ h₀ h₁) _
  | fault _ hexit => exact hQ.exit (hQ.modProc (fun _ => by rfl) hk) hexit

end Lasting

end Kern

end Xv6
