import Xv6.Sched.Select
import Xv6.Lib.Run

/-!
# The kernel as a transition system

The timer trap of `trap.c`, and the steps in which any number of harts move the kernel: a
scheduler selects, dispatches, a timer interrupt arrives, or the process running on a hart makes
a system call.
-/

namespace Xv6

open Lib

/-- Division as the `divw` instruction does it: a zero divisor gives `-1`. -/
def divw (a b : Int32) : Int32 := if b = 0 then -1 else a / b

/-- The body of the loop at the end of `clockintr`. -/
def Proc.clock (x : Proc) : Proc :=
  let x := if x.state = .sleeping then { x with sleepTime := x.sleepTime + 1 } else x
  let x := if x.state = .running then { x with rtime := x.rtime + 1 } else x
  let x := { x with niceness := divw x.sleepTime (x.sleepTime + x.rtime) * 10 }
  { x with dynamicPriority := max 0 (min (x.staticPriority - x.niceness + 5) 100) }

/-- Leave the level behind, unless it is the last. -/
def Proc.demote (x : Proc) : Proc :=
  { x with level := if x.level.val + 1 = NMLFQ then x.level else x.level + 1 }

namespace Kern

def updateTime (k : Kern) : Kern :=
  k.mapProc fun _ x => if x.state = .running then { x with rtime := x.rtime + 1 } else x

/-- The part of `clockintr` that charges the tick to the interrupted process. -/
def charge (k : Kern) : Option Slot → Kern
  | none => k
  | some p => k.modProc p fun x =>
    { x.countLevel with rtime := x.rtime + 1, changeQueue := x.changeQueue - 1 }

/-- `clockintr` on the hart that runs `me`. -/
def clockintr (k : Kern) (me : Option Slot) : Kern :=
  let k₁ := ({ k with ticks := k.ticks + 1 }.updateTime).wakeup me (some .ticks)
  (k₁.charge me).mapProc fun _ x => x.clock

/-- `devintr` for a timer interrupt on hart `h`: only hart 0 keeps the clock. -/
def devintr (k : Kern) (h : ℕ) : Kern := if h = 0 then k.clockintr (k.cpu 0).proc else k

/-- What the trap handlers do after a timer interrupt of the process `p` on hart `h`. -/
def preempt (b : Build) (k : Kern) (h : ℕ) (p : Slot) : Kern :=
  match b with
  | .fcfs => k
  | .mlfq => if (k.proc p).changeQueue ≤ 0 then (k.modProc p Proc.demote).yield h p else k
  | .rr => k.yield h p
  | .pbs => k.yield h p

/-- `usertrap` for a timer interrupt of the process `p` on hart `h`. -/
def usertrap (b : Build) (k : Kern) (h : ℕ) (p : Slot) : Except String Kern :=
  let k := k.devintr h
  if (k.proc p).killed then k.exit h p (-1) else .ok (preempt b k h p)

/-- `kerneltrap` for a timer interrupt on hart `h`. -/
def kerneltrap (b : Build) (k : Kern) (h : ℕ) : Kern :=
  let k := k.devintr h
  match (k.cpu h).proc with
  | some p => if (k.proc p).state = .running then preempt b k h p else k
  | none => k

/-- `sys_set_priority`. -/
def sysSetPriority (b : Build) (k : Kern) (priority pid : Int32) : Kern × Int32 :=
  if b ≠ .pbs then (k, -1)
  else if priority < 0 then (k, -1)
  else if priority > 100 then (k, -1)
  else k.actuallySetPriority priority pid

/-- `usertrap` for an exception the kernel does not know. -/
def fault (k : Kern) (h : ℕ) (p : Slot) : Except String Kern :=
  (k.modProc p fun x => { x with killed := true }).exit h p (-1)

/-- The kernel when the harts enter `scheduler`: `userinit` has made the first process. -/
def boot : Kern where
  proc := fun i => if i = initproc then { Proc.zero.alloc 1 0 with state := .runnable } else Proc.zero
  mlfq := fun _ => Queue.empty
  ticks := 0
  nextpid := 2
  alpha := 0
  cpu := fun _ => { proc := none, sel := none }

end Kern

/-- The steps of the kernel. All but the first two and `wakeup`, which interrupt handlers call
too, and a timer interrupt of kernel code are made by the process running on the hart. -/
inductive Act
  | select (h : ℕ)
  | dispatch (h : ℕ)
  | timer (h : ℕ) (user : Bool)
  | wakeup (h : ℕ) (chan : Chan)
  | sleep (h : ℕ) (chan : Chan)
  | kill (h : ℕ) (pid : Int32)
  | fork (h : ℕ) (mem copy : Bool)
  | exit (h : ℕ) (status : Int32)
  | wait (h : ℕ) (copy : Bool)
  | setPriority (h : ℕ) (priority pid : Int32)
  | fault (h : ℕ)

/-- The hart a step is made by. -/
def Act.hart : Act → ℕ
  | select h | dispatch h | timer h _ | wakeup h _ | sleep h _ | kill h _ | fork h _ _
  | exit h _ | wait h _ | setPriority h _ _ | fault h => h

namespace Kern

/-- A step made by the process `p` running on hart `h`. -/
def procStep (b : Build) (k : Kern) (h : ℕ) (p : Slot) : Act → Option (Except String Kern)
  | .timer _ true => some (usertrap b k h p)
  | .sleep _ chan => some (.ok (k.sleep h p chan))
  | .kill _ pid => some (.ok (k.kill pid).1)
  | .fork _ mem copy => some (.ok (k.fork p mem copy).1)
  | .exit _ status => some (k.exit h p status)
  | .wait _ copy => some (.ok (k.wait h p copy).1)
  | .setPriority _ priority pid => some (.ok (sysSetPriority b k priority pid).1)
  | .fault _ => some (k.fault h p)
  | _ => none

/-- One step: `none` where it is not enabled, an error where the kernel panics. -/
def step (b : Build) (k : Kern) (a : Act) : Option (Except String Kern) :=
  match a with
  | .select h =>
    if (k.cpu h).proc = none ∧ (k.cpu h).sel = none then
      some ((k.select b).map fun r =>
        { r.1 with cpu := Function.update r.1.cpu h { proc := none, sel := r.2 } })
    else none
  | .dispatch h => (k.cpu h).sel.map fun p => .ok (k.dispatch h p)
  | .timer h false => some (.ok (kerneltrap b k h))
  | .wakeup h chan => some (.ok (k.wakeup (k.cpu h).proc (some chan)))
  | a => (k.cpu a.hart).proc.bind fun p => procStep b k a.hart p a

/-- The successful steps. -/
def next (b : Build) (k : Kern) (a : Act) : Option Kern := (step b k a).bind Except.toOption

end Kern

end Xv6
