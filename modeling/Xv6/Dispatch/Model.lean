import Xv6.Lib.Run
import Xv6.Sched.Select

/-!
# Dispatch, hart by hart

`scheduler`, `sched`, `yield`, `sleep`, `wakeup`, `kill`, `fork`, `exit` and `wait` of
`kernel/proc.c`, on any number of harts. A hart is on one kernel stack at a time, that of a process
or that of its scheduler; a stack is a list of frames, and a step of a hart carries out the line
its top frame is at. Where the lock of a process is held across `swtch`, or while a process is
being made, every line is a step; a section that takes and releases the lock of one process is one
step, possible while nobody holds the lock. An interrupt may come whenever the hart holds the lock
of no process. The other spinlocks only rule out some of these runs and are left out.

The scheduler the kernel is built with selects a process without any lock, so what it reads of the
table may be out of date in any way: it works on any table at all.
-/

namespace Xv6.Dispatch

open Function (update)

/-- The lines of `yield`. -/
inductive YieldAt
  /-- `acquire(&p->lock)` -/
  | enter
  /-- `p->state = RUNNABLE` -/
  | locked
  /-- `sched()` -/
  | marked
  /-- `release(&p->lock)`, after `sched` returns. -/
  | resumed
  deriving DecidableEq

/-- The lines of `sleep`. -/
inductive SleepAt
  /-- `acquire(&p->lock)` -/
  | enter
  /-- `p->chan = chan` -/
  | locked
  /-- `p->state = SLEEPING` -/
  | chanSet
  /-- `sched()` -/
  | marked
  /-- `p->chan = 0`, after `sched` returns. -/
  | resumed
  /-- `release(&p->lock)` -/
  | tidied
  deriving DecidableEq

/-- The lines of `fork`, with those of `allocproc`. -/
inductive ForkAt
  /-- The loop of `allocproc`, with these slots to visit. -/
  | scan (qs : List Slot)
  /-- Past `p->state = USED`: the allocations and copies, which may fail. -/
  | used (np : Slot)
  /-- `release(&np->lock)` after `freeproc(np)`. -/
  | failed (np : Slot)
  /-- `release(&np->lock)` -/
  | copied (np : Slot)
  /-- `np->parent = p` -/
  | link (np : Slot)
  /-- `np->state = RUNNABLE`, under the lock. -/
  | ready (np : Slot)
  deriving DecidableEq

/-- The lines of `exit`. -/
inductive ExitAt
  | start
  /-- The loop of `reparent`, with these slots to visit. -/
  | reparent (cs : List Slot)
  /-- `acquire(&p->lock)` -/
  | enter
  /-- `p->state = ZOMBIE` -/
  | locked
  /-- `sched()` -/
  | marked
  /-- After `sched`, which does not return. -/
  | dead
  deriving DecidableEq

/-- The lines of one turn of the loop of `scheduler`. -/
inductive PickAt
  /-- `acquire(&p->lock)` -/
  | enter
  /-- `if (p->state == RUNNABLE)`, up to `p->state = RUNNING`. -/
  | test
  /-- `c->proc = p`, up to `swtch`. -/
  | set
  /-- `c->proc = 0`, after `swtch` returns. -/
  | back
  /-- `release(&p->lock)` -/
  | unlock
  deriving DecidableEq

/-- A function at one of its lines. -/
inductive Frame
  /-- The loop of `wakeup`, with these slots to visit. -/
  | wakeup (chan : Option Chan) (ps : List Slot)
  /-- The loop of `kill`. -/
  | kill (pid : Int32) (ps : List Slot)
  | yield (pc : YieldAt)
  | sleep (chan : Chan) (pc : SleepAt)
  | forkret
  | fork (pc : ForkAt)
  | exit (pc : ExitAt)
  /-- The loop of `wait` or `waitx`, with these slots to visit. -/
  | wait (cs : List Slot) (havekids : Bool)
  | scheduler (p : Slot) (pc : PickAt)
  deriving DecidableEq

/-- What a line does, besides moving on. -/
inductive Effect
  | skip
  | acquire (p : Slot)
  | release (p : Slot)
  /-- `p->chan = c` -/
  | chan (p : Slot) (c : Option Chan)
  /-- `p->parent = q` -/
  | parent (p q : Slot)
  /-- `p->state = st` -/
  | state (p : Slot) (st : ProcState)
  /-- `acquire(&p->lock); release(&p->lock)` -/
  | visit (p : Slot)
  /-- The turn of `wakeup`, under the lock. -/
  | wake (p : Slot) (c : Option Chan)
  /-- The turn of `kill` that has found its process, under the lock. -/
  | kill (p : Slot)
  /-- `acquire(&p->lock)`, and `p->pid = allocpid(); p->state = USED` -/
  | alloc (p : Slot)
  /-- The rest of `allocproc`, which lets the process start in `forkret`, and the copies. -/
  | setup (p : Slot)
  /-- `freeproc(p)` -/
  | free (p : Slot)
  /-- `p->state = RUNNABLE`, under the lock. -/
  | ready (p : Slot)
  /-- `freeproc(p)`, under the lock. -/
  | reap (p : Slot)
  /-- `sched()` of the process `p`, up to `swtch`. -/
  | sched (p : Slot)
  /-- `c->proc = p; swtch(&c->context, &p->context)` -/
  | dispatch (p : Slot)
  /-- `c->proc = 0` -/
  | idle

/-- The owner of a kernel stack. -/
inductive Thread (H : Type)
  | proc (p : Slot)
  | hart (h : H)
  deriving DecidableEq

/-- The kernel. -/
structure Kernel (H : Type) where
  /-- The hart that holds the lock of a process. -/
  lock : Slot → Option H
  /-- `c->proc` -/
  proc : H → Option Slot
  /-- The process whose stack a hart is on; `none` is the stack of its scheduler. -/
  on : H → Option Slot
  state : Slot → ProcState
  chan : Slot → Option Chan
  killed : Slot → Bool
  pid : Slot → Int32
  parent : Slot → Option Slot
  nextpid : Int32
  stack : Thread H → List Frame

/-- The system calls. -/
inductive Call
  | sleep (chan : Chan)
  | wakeup (chan : Chan)
  | kill (pid : Int32)
  | yield
  | fork
  | exit
  | wait
  deriving DecidableEq

/-- A step of a hart. -/
inductive Act (H : Type)
  /-- The line that the top frame is at; `ok` is whether an allocation or a copy succeeds. -/
  | run (h : H) (ok : Bool)
  /-- The scheduler of the hart selects a process, from what it has read of the table. -/
  | select (h : H) (build : Build) (table : Kern)
  /-- A call of the process the hart runs. -/
  | call (h : H) (call : Call)
  /-- An interrupt: calls of `wakeup`, and of `yield` if it is the timer's. -/
  | intr (h : H) (wakes : List Chan) (timer : Bool)

/-- A call at its first line. -/
def Call.frame : Call → Frame
  | .sleep chan => .sleep chan .enter
  | .wakeup chan => .wakeup (some chan) slots
  | .kill pid => .kill pid slots
  | .yield => .yield .enter
  | .fork => .fork (.scan slots)
  | .exit => .exit .start
  | .wait => .wait slots false

variable {H : Type}

/-- The line a frame is at, on the stack of the process `me` or of a scheduler, and what is left
of the frame. `myproc` is `c->proc`. -/
def Frame.next (s : Kernel H) (me myproc : Option Slot) (ok : Bool) :
    Frame → Option (Effect × List Frame)
  | .wakeup _ [] => some (.skip, [])
  | .wakeup chan (p :: ps) =>
    if some p = myproc then some (.skip, [.wakeup chan ps])
    else some (.wake p chan, [.wakeup chan ps])
  | .kill _ [] => some (.skip, [])
  | .kill pid (p :: ps) =>
    if s.pid p = pid then some (.kill p, []) else some (.visit p, [.kill pid ps])
  | .yield pc =>
    me.map fun p =>
      match pc with
      | .enter => (.acquire p, [.yield .locked])
      | .locked => (.state p .runnable, [.yield .marked])
      | .marked => (.sched p, [.yield .resumed])
      | .resumed => (.release p, [])
  | .sleep chan pc =>
    me.map fun p =>
      match pc with
      | .enter => (.acquire p, [.sleep chan .locked])
      | .locked => (.chan p (some chan), [.sleep chan .chanSet])
      | .chanSet => (.state p .sleeping, [.sleep chan .marked])
      | .marked => (.sched p, [.sleep chan .resumed])
      | .resumed => (.chan p none, [.sleep chan .tidied])
      | .tidied => (.release p, [])
  | .forkret => me.map fun p => (.release p, [])
  | .fork (.scan []) => some (.skip, [])
  | .fork (.scan (q :: qs)) =>
    if s.state q = .unused then some (.alloc q, [.fork (.used q)])
    else some (.visit q, [.fork (.scan qs)])
  | .fork (.used np) =>
    if ok then some (.setup np, [.fork (.copied np)])
    else some (.free np, [.fork (.failed np)])
  | .fork (.failed np) => some (.release np, [])
  | .fork (.copied np) => some (.release np, [.fork (.link np)])
  | .fork (.link np) => me.map fun p => (.parent np p, [.fork (.ready np)])
  | .fork (.ready np) => some (.ready np, [])
  | .exit .start => if me = some initproc then none else some (.skip, [.exit (.reparent slots)])
  | .exit (.reparent []) =>
    me.map fun p => (.skip, [.wakeup ((s.parent p).map .proc) slots, .exit .enter])
  | .exit (.reparent (c :: cs)) =>
    if s.parent c = me then
      some (.parent c initproc, [.wakeup (some (.proc initproc)) slots, .exit (.reparent cs)])
    else some (.skip, [.exit (.reparent cs)])
  | .exit .enter => me.map fun p => (.acquire p, [.exit .locked])
  | .exit .locked => me.map fun p => (.state p .zombie, [.exit .marked])
  | .exit .marked => me.map fun p => (.sched p, [.exit .dead])
  | .exit .dead => none
  | .wait [] havekids =>
    me.map fun p =>
      if !havekids || s.killed p then (.skip, [])
      else (.skip, [.sleep (.proc p) .enter, .wait slots false])
  | .wait (c :: cs) havekids =>
    if s.parent c = me then
      if s.state c = .zombie then
        if ok then some (.reap c, []) else some (.visit c, [])
      else some (.visit c, [.wait cs true])
    else some (.skip, [.wait cs havekids])
  | .scheduler p .enter => some (.acquire p, [.scheduler p .test])
  | .scheduler p .test =>
    if s.state p = .runnable then some (.state p .running, [.scheduler p .set])
    else some (.skip, [.scheduler p .unlock])
  | .scheduler p .set => some (.dispatch p, [.scheduler p .back])
  | .scheduler p .back => some (.idle, [.scheduler p .unlock])
  | .scheduler p .unlock => some (.release p, [])

/-- The process whose lock the hart holds at the line, for a frame on the stack of `me`. -/
def Frame.sect (me : Option Slot) : Frame → Option Slot
  | .yield .enter | .sleep _ .enter => none
  | .yield _ | .sleep .. | .forkret => me
  | .fork (.used np) | .fork (.failed np) | .fork (.copied np) => some np
  | .exit .locked | .exit .marked => me
  | .scheduler _ .enter => none
  | .scheduler p _ => some p
  | _ => none

namespace Kernel

/-- The stack a hart is on. -/
def thread (s : Kernel H) (h : H) : Thread H :=
  match s.on h with
  | some p => .proc p
  | none => .hart h

/-- The section of the top frame of the hart. -/
def sect (s : Kernel H) (h : H) : Option Slot :=
  (s.stack (s.thread h)).head?.bind (Frame.sect (s.on h))

def setState (s : Kernel H) (p : Slot) (st : ProcState) : Kernel H :=
  { s with state := update s.state p st }

/-- `if (cond) p->state = RUNNABLE` -/
def wakeIf (s : Kernel H) (p : Slot) (cond : Bool) : Kernel H :=
  s.setState p (if cond then .runnable else s.state p)

def freeproc (s : Kernel H) (p : Slot) : Kernel H :=
  { s.setState p .unused with
    pid := update s.pid p 0
    parent := update s.parent p none
    chan := update s.chan p none
    killed := update s.killed p false }

def setLock (s : Kernel H) (p : Slot) (h : Option H) : Kernel H :=
  { s with lock := update s.lock p h }

variable [DecidableEq H]

def setStack (s : Kernel H) (T : Thread H) (fs : List Frame) : Kernel H :=
  { s with stack := update s.stack T fs }

/-- What the hart does. It waits for a lock that is held; a hart that would panic takes no step. -/
def apply (s : Kernel H) (h : H) : Effect → Option (Kernel H)
  | .skip => some s
  | .acquire p => if s.lock p = none then some (s.setLock p (some h)) else none
  | .release p => if s.lock p = some h then some (s.setLock p none) else none
  | .chan p c => some { s with chan := update s.chan p c }
  | .parent p q => some { s with parent := update s.parent p (some q) }
  | .state p st => some (s.setState p st)
  | .visit p => if s.lock p = none then some s else none
  | .wake p c =>
    if s.lock p = none then some (s.wakeIf p (s.state p = .sleeping ∧ s.chan p = c)) else none
  | .kill p =>
    if s.lock p = none then
      some { s.wakeIf p (s.state p = .sleeping) with
        killed := update s.killed p true }
    else none
  | .alloc p =>
    if s.lock p = none then
      some { (s.setState p .used).setLock p (some h) with
        pid := update s.pid p s.nextpid, nextpid := s.nextpid + 1 }
    else none
  | .setup p => some (s.setStack (.proc p) [.forkret])
  | .free p => some (s.freeproc p)
  | .ready p => if s.lock p = none then some (s.setState p .runnable) else none
  | .reap p => if s.lock p = none then some (s.freeproc p) else none
  | .sched p =>
    if s.lock p = some h ∧ s.state p ≠ .running then
      some { s with on := update s.on h none }
    else none
  | .dispatch p =>
    some { s with
      proc := update s.proc h (some p)
      on := update s.on h (some p) }
  | .idle => some { s with proc := update s.proc h none }

/-- Carry out the line the top frame of the hart is at. -/
def run (s : Kernel H) (h : H) (ok : Bool) : Option (Kernel H) :=
  match s.stack (s.thread h) with
  | [] => none
  | f :: fs =>
    (f.next s (s.on h) (s.proc h) ok).bind fun r =>
      (s.apply h r.1).map fun t => t.setStack (s.thread h) (r.2 ++ fs)

/-- The step function. -/
def step (s : Kernel H) : Act H → Option (Kernel H)
  | .run h ok => s.run h ok
  | .select h build table =>
    if s.on h = none ∧ s.stack (.hart h) = [] then
      match table.select build with
      | .ok (_, some p) => some (s.setStack (.hart h) [.scheduler p .enter])
      | .ok (_, none) => some s
      | .error _ => none
    else none
  | .call h call =>
    match s.on h with
    | some p =>
      if s.stack (.proc p) = [] then some (s.setStack (.proc p) [call.frame]) else none
    | none => none
  | .intr h wakes timer =>
    if s.sect h = none then
      some (s.setStack (s.thread h)
        (wakes.map (fun c => .wakeup (some c) slots) ++
          (if timer ∧ s.on h ≠ none then [.yield .enter] else []) ++ s.stack (s.thread h)))
    else none

/-- After `userinit`: the first process is about to start. -/
def boot : Kernel H where
  lock _ := none
  proc _ := none
  on _ := none
  state p := if p = initproc then .runnable else .unused
  chan _ := none
  killed _ := false
  pid p := if p = initproc then 1 else 0
  parent _ := none
  nextpid := 2
  stack
    | .proc p => if p = initproc then [.forkret] else []
    | .hart _ => []

end Kernel

end Xv6.Dispatch
