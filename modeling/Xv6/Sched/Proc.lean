import Xv6.Sched.Queue

/-!
# Processes

`struct proc` and the operations of `proc.c` on the process table: allocation and release of
slots, `fork`, `exit`, `wait`, `sleep`, `wakeup`, `kill` and the priority calls. The table loops
whose bodies only touch the slot they are at are written as one pass over the table. Page
tables, open files, names and `trace` masks play no part in scheduling and are left out; whether
a page allocation or a copy to user memory succeeds is an argument.
-/

namespace Xv6

/-- `enum procstate`. -/
inductive ProcState
  | unused
  | used
  | sleeping
  | runnable
  | running
  | zombie
  deriving DecidableEq

/-- A wait channel: `&ticks`, the `struct proc` of a process in `wait`, or another address. -/
inductive Chan
  | ticks
  | proc (p : Slot)
  | addr (a : ℕ)
  deriving DecidableEq

/-- `struct proc`. A null channel or parent is `none`. -/
structure Proc where
  state : ProcState
  chan : Option Chan
  killed : Bool
  xstate : Int32
  pid : Int32
  parent : Option Slot
  ctime : Int32
  etime : Int32
  rtime : Int32
  sleepTime : Int32
  niceness : Int32
  staticPriority : Int32
  dynamicPriority : Int32
  level : Fin NMLFQ
  inQueue : Bool
  changeQueue : Int32
  nRun : Int32
  qEnter : Int32
  q : Fin NMLFQ → Int32

/-- What a hart's scheduler loop keeps: `c->proc`, and the process it has selected and not yet
dispatched. -/
structure Cpu where
  proc : Option Slot
  sel : Option Slot

/-- The kernel as the scheduler sees it. Harts are numbered from 0. -/
structure Kern where
  proc : Slot → Proc
  mlfq : Fin NMLFQ → Queue
  ticks : UInt32
  nextpid : Int32
  alpha : Slot
  cpu : ℕ → Cpu

/-- The slot `userinit` gets from `allocproc`. -/
def initproc : Slot := 0

/-- A slot of the zeroed process table. -/
def Proc.zero : Proc where
  state := .unused
  chan := none
  killed := false
  xstate := 0
  pid := 0
  parent := none
  ctime := 0
  etime := 0
  rtime := 0
  sleepTime := 0
  niceness := 0
  staticPriority := 0
  dynamicPriority := 0
  level := 0
  inQueue := false
  changeQueue := 0
  nRun := 0
  qEnter := 0
  q := fun _ => 0

/-- What `allocproc` sets in the slot it has found. -/
def Proc.alloc (x : Proc) (pid : Int32) (ticks : UInt32) : Proc :=
  { x with
    pid
    state := .used
    ctime := ticks.toInt32
    rtime := 0
    niceness := 5
    staticPriority := 60
    dynamicPriority := 60 }

/-- What `freeproc` resets. -/
def Proc.free (x : Proc) : Proc :=
  { x with
    pid := 0
    parent := none
    chan := none
    killed := false
    xstate := 0
    state := .unused }

/-- `p->q[p->level]++`. -/
def Proc.countLevel (x : Proc) : Proc :=
  { x with q := Function.update x.q x.level (x.q x.level + 1) }

/-- The run and wait times that `waitx` reports for an exited child. -/
def Proc.times (x : Proc) : UInt32 × UInt32 :=
  (x.rtime.toUInt32, (x.etime - x.ctime - x.rtime).toUInt32)

namespace Kern

/-- One pass over the process table. -/
def mapProc (k : Kern) (f : Slot → Proc → Proc) : Kern :=
  { k with proc := fun i => f i (k.proc i) }

/-- Change one slot. -/
def modProc (k : Kern) (p : Slot) (f : Proc → Proc) : Kern :=
  k.mapProc fun i x => if i = p then f x else x

/-- Set `c->proc` of a hart that has no selection pending. -/
def setCpu (k : Kern) (h : ℕ) (p : Option Slot) : Kern :=
  { k with cpu := Function.update k.cpu h { proc := p, sel := none } }

/-- The first slot that passes a test: a loop over the table that returns at the first hit. -/
def findProc (k : Kern) (test : Proc → Bool) : Option Slot :=
  (List.finRange NPROC).find? fun i => test (k.proc i)

/-- Release a slot. -/
def freeproc (k : Kern) (p : Slot) : Kern := k.modProc p Proc.free

/-- Take the first unused slot; `mem` tells whether the allocations for it succeed. -/
def allocproc (k : Kern) (mem : Bool) : Kern × Option Slot :=
  match k.findProc fun x => x.state = .unused with
  | none => (k, none)
  | some i =>
    let k' := { k.modProc i fun x => x.alloc k.nextpid k.ticks with nextpid := k.nextpid + 1 }
    if mem then (k', some i) else (k'.freeproc i, none)

/-- `fork` by the process `p`; `copy` tells whether `uvmcopy` succeeds. -/
def fork (k : Kern) (p : Slot) (mem copy : Bool) : Kern × Int32 :=
  match k.allocproc mem with
  | (k', none) => (k', -1)
  | (k', some np) =>
    if copy then
      (k'.modProc np fun x => { x with parent := some p, state := .runnable }, (k'.proc np).pid)
    else (k'.freeproc np, -1)

/-- Make runnable every process that sleeps on the channel, except the caller's own. -/
def wakeup (k : Kern) (me : Option Slot) (chan : Option Chan) : Kern :=
  k.mapProc fun i x =>
    if some i ≠ me ∧ x.state = .sleeping ∧ x.chan = chan then { x with state := .runnable } else x

/-- Pass the children of `p` to init. -/
def reparent (k : Kern) (p : Slot) : Kern :=
  let k' := k.mapProc fun _ x =>
    if x.parent = some p then { x with parent := some initproc } else x
  if (k.findProc fun x => x.parent = some p).isSome then
    k'.wakeup (some p) (some (.proc initproc))
  else k'

/-- `exit` by the process `p` running on hart `h`. -/
def exit (k : Kern) (h : ℕ) (p : Slot) (status : Int32) : Except String Kern :=
  if p = initproc then .error "init exiting"
  else
    let k₁ := k.reparent p
    let k₂ := k₁.wakeup (some p) ((k₁.proc p).parent.map .proc)
    .ok ((k₂.modProc p fun x =>
      { x with xstate := status, state := .zombie, etime := k.ticks.toInt32 }).setCpu h none)

/-- `sleep` by the process `p` running on hart `h`. -/
def sleep (k : Kern) (h : ℕ) (p : Slot) (chan : Chan) : Kern :=
  (k.modProc p fun x => { x with chan := some chan, state := .sleeping }).setCpu h none

/-- `yield` by the process `p` running on hart `h`. -/
def yield (k : Kern) (h : ℕ) (p : Slot) : Kern :=
  (k.modProc p fun x => { x with state := .runnable }).setCpu h none

/-- The child that `wait` finds: the first exited one. -/
def exitedChild (k : Kern) (p : Slot) : Option Slot :=
  k.findProc fun x => x.parent = some p ∧ x.state = .zombie

/-- One turn of the loop of `wait`, by the process `p` running on hart `h`; `copy` tells whether
the exit status can be stored. The result is `none` when the process goes to sleep. -/
def wait (k : Kern) (h : ℕ) (p : Slot) (copy : Bool) : Kern × Option Int32 :=
  match k.exitedChild p with
  | some np => if copy then (k.freeproc np, some (k.proc np).pid) else (k, some (-1))
  | none =>
    if (k.findProc fun x => x.parent = some p).isNone ∨ (k.proc p).killed then (k, some (-1))
    else (k.sleep h p (.proc p), none)

/-- Mark the first process with the given pid as killed, and wake it if it sleeps. -/
def kill (k : Kern) (pid : Int32) : Kern × Int32 :=
  match k.findProc fun x => x.pid = pid with
  | none => (k, -1)
  | some i => (k.modProc i fun x =>
    { x with killed := true, state := if x.state = .sleeping then .runnable else x.state }, 0)

/-- Set the static priority of the first process with the given pid. -/
def actuallySetPriority (k : Kern) (newPriority pid : Int32) : Kern × Int32 :=
  match k.findProc fun x => x.pid = pid with
  | none => (k, -1)
  | some i => (k.modProc i fun x =>
    { x with staticPriority := newPriority, niceness := 5, sleepTime := 0 },
    (k.proc i).staticPriority)

end Kern

end Xv6
