import Xv6.Lib.Run
import Xv6.Sched.Proc

/-!
# Sleep and wakeup, lock by lock

`sleep`, `wakeup`, `kill`, `yield`, `sched` and `scheduler` of `kernel/proc.c` as sequences of
lock acquisitions, lock releases and assignments, for any number of processes on any number of
harts. A hart is on one kernel stack at a time: that of a process or that of its scheduler. A
stack is a list of frames, a frame is a function at one of its lines, and a step of a hart
carries out the line its top frame is at. An interrupt can come whenever the hart holds no lock,
and puts its frames on whatever stack the hart is on. A process in code that is none of these
functions has an empty stack, and can go on with any calls.
-/

namespace Xv6.Sleep

open Function (update update_of_ne update_self)

/-- The spinlocks: the one in each `struct proc`, and all others. -/
inductive Lock (n : ℕ) (L : Type*)
  | proc (p : Fin n)
  | other (l : L)
  deriving DecidableEq

/-- The lines of `sleep`. -/
inductive SleepAt
  /-- `acquire(&p->lock)` -/
  | enter
  /-- `release(lk)` -/
  | locked
  /-- `p->chan = chan` -/
  | unlocked
  /-- `p->state = SLEEPING` -/
  | marked
  /-- `sched()` -/
  | asleep
  /-- `p->chan = 0`, after `sched` returns. -/
  | resumed
  /-- `release(&p->lock)` -/
  | tidied
  /-- `acquire(lk)` -/
  | relock
  deriving DecidableEq, Repr

/-- The lines of the loops of `wakeup` and `kill`. -/
inductive ScanAt
  /-- The head of the loop and `acquire(&p->lock)`. -/
  | head
  /-- The tests of `p`, and the assignments that follow. -/
  | test
  /-- `release(&p->lock)` -/
  | unlock
  deriving DecidableEq, Repr

/-- The lines of `yield`. -/
inductive YieldAt
  /-- `acquire(&p->lock)` -/
  | enter
  /-- `p->state = RUNNABLE` -/
  | locked
  /-- `sched()` -/
  | marked
  /-- `release(&p->lock)`, after `sched` returns. -/
  | resumed
  deriving DecidableEq, Repr

/-- The lines of one turn of the loop of `scheduler`. -/
inductive PickAt
  /-- `acquire(&p->lock)` -/
  | enter
  /-- `if (p->state == RUNNABLE)`, up to `swtch`. -/
  | test
  /-- `c->proc = 0`, after `swtch` returns. -/
  | back
  /-- `release(&p->lock)` -/
  | unlock
  deriving DecidableEq, Repr

/-- A function at one of its lines. `wakeup` and `kill` carry the processes the loop has still
to visit. -/
inductive Frame (n : ℕ) (L C : Type*)
  /-- `acquire` of a lock that is not a process's, in any code. -/
  | lock (l : L)
  /-- `release` of such a lock. -/
  | unlock (l : L)
  | sleep (chan : C) (lk : L) (pc : SleepAt)
  | wakeup (chan : C) (ps : List (Fin n)) (pc : ScanAt)
  | kill (pid : ℤ) (ps : List (Fin n)) (pc : ScanAt)
  | yield (pc : YieldAt)
  | forkret
  | scheduler (p : Fin n) (pc : PickAt)
  deriving DecidableEq

/-- What a line does, besides moving on. -/
inductive Effect (n : ℕ) (L C : Type*)
  | skip
  | acquire (l : Lock n L)
  | release (l : Lock n L)
  /-- `p->chan = c` -/
  | chan (p : Fin n) (c : Option C)
  /-- `p->state = st` -/
  | state (p : Fin n) (st : ProcState)
  /-- `if (p->state == SLEEPING && p->chan == c) p->state = RUNNABLE` -/
  | wake (p : Fin n) (c : C)
  /-- `p->killed = 1; if (p->state == SLEEPING) p->state = RUNNABLE` -/
  | kill (p : Fin n)
  /-- `sched()` of the process `p`, up to `swtch`. -/
  | sched (p : Fin n)
  /-- `p->state = RUNNING; c->proc = p; swtch(&c->context, &p->context)` -/
  | dispatch (p : Fin n)
  /-- `c->proc = 0` -/
  | idle

/-- The owner of a kernel stack. -/
inductive Thread (n : ℕ) (H : Type*)
  | proc (p : Fin n)
  | hart (h : H)
  deriving DecidableEq

/-- The kernel: `n` processes, harts `H`, locks `L`, and channels `C`. -/
structure Kernel (n : ℕ) (H L C : Type*) where
  /-- The hart that holds a lock. -/
  cpu : Lock n L → Option H
  /-- How many locks a hart holds. -/
  noff : H → ℕ
  /-- `c->proc` -/
  proc : H → Option (Fin n)
  /-- The process whose stack a hart is on; `none` is the stack of its scheduler. -/
  on : H → Option (Fin n)
  state : Fin n → ProcState
  chan : Fin n → Option C
  killed : Fin n → Bool
  pid : Fin n → ℤ
  stack : Thread n H → List (Frame n L C)

/-- What code other than these functions can do. -/
inductive Call (L C : Type*)
  | lock (l : L)
  | unlock (l : L)
  | sleep (chan : C) (lk : L)
  | wakeup (chan : C)
  | kill (pid : ℤ)
  | yield
  deriving DecidableEq

/-- A step of a hart. -/
inductive Act (n : ℕ) (H L C : Type*)
  /-- The line that the top frame is at. -/
  | run (h : H)
  /-- The scheduler of the hart chooses a process, by whatever policy. -/
  | pick (h : H) (p : Fin n)
  /-- Calls of the process the hart runs, or of an interrupt. -/
  | call (h : H) (calls : List (Call L C))
  deriving DecidableEq

variable {n : ℕ} {H L C : Type*}

/-- A call at its first line. -/
def Call.frame : Call L C → Frame n L C
  | .lock l => .lock l
  | .unlock l => .unlock l
  | .sleep chan lk => .sleep chan lk .enter
  | .wakeup chan => .wakeup chan (List.finRange n) .head
  | .kill pid => .kill pid (List.finRange n) .head
  | .yield => .yield .enter

/-- The line a frame is at, on the stack of the process `me` or of a scheduler, and what is left
of the frame. `myproc` is `c->proc`. -/
def Frame.next (s : Kernel n H L C) (me myproc : Option (Fin n)) :
    Frame n L C → Option (Effect n L C × List (Frame n L C))
  | .lock l => some (.acquire (.other l), [])
  | .unlock l => some (.release (.other l), [])
  | .sleep chan lk pc =>
    me.map fun p =>
      match pc with
      | .enter => (.acquire (.proc p), [.sleep chan lk .locked])
      | .locked => (.release (.other lk), [.sleep chan lk .unlocked])
      | .unlocked => (.chan p (some chan), [.sleep chan lk .marked])
      | .marked => (.state p .sleeping, [.sleep chan lk .asleep])
      | .asleep => (.sched p, [.sleep chan lk .resumed])
      | .resumed => (.chan p none, [.sleep chan lk .tidied])
      | .tidied => (.release (.proc p), [.sleep chan lk .relock])
      | .relock => (.acquire (.other lk), [])
  | .wakeup _ [] _ => some (.skip, [])
  | .wakeup chan (p :: ps) .head =>
    if some p = myproc then some (.skip, [.wakeup chan ps .head])
    else some (.acquire (.proc p), [.wakeup chan (p :: ps) .test])
  | .wakeup chan (p :: ps) .test => some (.wake p chan, [.wakeup chan (p :: ps) .unlock])
  | .wakeup chan (p :: ps) .unlock => some (.release (.proc p), [.wakeup chan ps .head])
  | .kill _ [] _ => some (.skip, [])
  | .kill pid (p :: ps) .head => some (.acquire (.proc p), [.kill pid (p :: ps) .test])
  | .kill pid (p :: ps) .test =>
    -- having found its process, `kill` visits no other
    if s.pid p = pid then some (.kill p, [.kill pid [p] .unlock])
    else some (.skip, [.kill pid (p :: ps) .unlock])
  | .kill pid (p :: ps) .unlock => some (.release (.proc p), [.kill pid ps .head])
  | .yield pc =>
    me.map fun p =>
      match pc with
      | .enter => (.acquire (.proc p), [.yield .locked])
      | .locked => (.state p .runnable, [.yield .marked])
      | .marked => (.sched p, [.yield .resumed])
      | .resumed => (.release (.proc p), [])
  | .forkret => me.map fun p => (.release (.proc p), [])
  | .scheduler p .enter => some (.acquire (.proc p), [.scheduler p .test])
  | .scheduler p .test =>
    if s.state p = .runnable then some (.dispatch p, [.scheduler p .back])
    else some (.skip, [.scheduler p .unlock])
  | .scheduler p .back => some (.idle, [.scheduler p .unlock])
  | .scheduler p .unlock => some (.release (.proc p), [])

namespace Kernel

/-- The stack a hart is on. -/
def thread (s : Kernel n H L C) (h : H) : Thread n H :=
  match s.on h with
  | some p => .proc p
  | none => .hart h

variable [DecidableEq H]

def setStack (s : Kernel n H L C) (T : Thread n H) (fs : List (Frame n L C)) : Kernel n H L C :=
  { s with stack := update s.stack T fs }

@[simp] theorem setStack_stack_self (s : Kernel n H L C) (T : Thread n H)
    (fs : List (Frame n L C)) : (s.setStack T fs).stack T = fs := update_self ..

theorem setStack_stack_of_ne {s : Kernel n H L C} {T T' : Thread n H} {fs : List (Frame n L C)}
    (h : T' ≠ T) : (s.setStack T fs).stack T' = s.stack T' := update_of_ne h ..

def setState (s : Kernel n H L C) (p : Fin n) (st : ProcState) : Kernel n H L C :=
  { s with state := update s.state p st }

def setKilled (s : Kernel n H L C) (p : Fin n) : Kernel n H L C :=
  { s with killed := update s.killed p true }

/-- `if (cond) p->state = RUNNABLE` -/
def wakeIf (s : Kernel n H L C) (p : Fin n) (cond : Bool) : Kernel n H L C :=
  s.setState p (if cond then .runnable else s.state p)

variable [DecidableEq L] [DecidableEq C]

/-- A lock that is held is waited for, and one that is not held cannot be released; a hart that
would panic takes no step. -/
def apply (s : Kernel n H L C) (h : H) : Effect n L C → Option (Kernel n H L C)
  | .skip => some s
  | .acquire l =>
    if s.cpu l = none then
      some { s with
        cpu := update s.cpu l (some h)
        noff := update s.noff h (s.noff h + 1) }
    else none
  | .release l =>
    if s.cpu l = some h then
      some { s with
        cpu := update s.cpu l none
        noff := update s.noff h (s.noff h - 1) }
    else none
  | .chan p c => some { s with chan := update s.chan p c }
  | .state p st => some (s.setState p st)
  | .wake p c => some (s.wakeIf p (s.state p = .sleeping ∧ s.chan p = some c))
  | .kill p => some ((s.setKilled p).wakeIf p (s.state p = .sleeping))
  | .sched p =>
    if s.cpu (.proc p) = some h ∧ s.noff h = 1 ∧ s.state p ≠ .running then
      some { s with on := update s.on h none }
    else none
  | .dispatch p =>
    some { s.setState p .running with
      proc := update s.proc h (some p)
      on := update s.on h (some p) }
  | .idle => some { s with proc := update s.proc h none }

/-- Carry out the line the top frame of the hart is at. -/
def run (s : Kernel n H L C) (h : H) : Option (Kernel n H L C) :=
  match s.stack (s.thread h) with
  | [] => none
  | f :: fs =>
    (f.next s (s.on h) (s.proc h)).bind fun r =>
      (s.apply h r.1).map fun t => t.setStack (s.thread h) (r.2 ++ fs)

/-- The step function. -/
def step (s : Kernel n H L C) : Act n H L C → Option (Kernel n H L C)
  | .run h => s.run h
  | .pick h p =>
    if s.on h = none ∧ s.stack (.hart h) = [] then
      some (s.setStack (.hart h) [.scheduler p .enter])
    else none
  | .call h calls =>
    if s.stack (s.thread h) = [] ∨ s.noff h = 0 then
      some (s.setStack (s.thread h) (calls.map Call.frame ++ s.stack (s.thread h)))
    else none

/-- All processes runnable, each at the start of its life in the kernel. -/
def boot (pid : Fin n → ℤ) (killed : Fin n → Bool) : Kernel n H L C where
  cpu _ := none
  noff _ := 0
  proc _ := none
  on _ := none
  state _ := .runnable
  chan _ := none
  killed := killed
  pid := pid
  stack
    | .proc _ => [.forkret]
    | .hart _ => []

end Kernel

end Xv6.Sleep
