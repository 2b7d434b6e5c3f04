import Xv6.Lib.Run
import Xv6.Sched.Proc

/-!
# The life of a process, step by step

`fork`, `exit`, `reparent`, `wait` and `waitx` of `kernel/proc.c`, for any size of the process
table. `wait_lock` is held over many steps. A section under the lock of one process that takes
no other lock is one step; where the lock of a process and `wait_lock` overlap, in `exit` and in
`sleep(p, &wait_lock)`, every line is a step, and a process is `locked` from the line where its
own lock is taken to the `release` by the scheduler. A process takes its next step whenever the
scheduler picks it, so `RUNNABLE` stands for `RUNNING` too. Process identifiers are integers: C
does not define what `nextpid++` does on overflow.
-/

namespace Xv6.Wait

open Function (update)

/-- A process in the course of time: its slot, and how many processes the slot has held. -/
abbrev Inc (n : ℕ) := Fin n × ℕ

/-- Where a process is. -/
inductive Stage (n : ℕ)
  /-- It has not started, or it has left the processor for good. -/
  | none
  /-- In other code; the last call returned `ret`. -/
  | out (ret : ℤ)
  /-- `fork`, at the section that sets `np->parent`. -/
  | forkParent (np : Fin n)
  /-- `fork`, at the section that sets `np->state`. -/
  | forkReady (np : Fin n)
  /-- `exit`, at `acquire(&wait_lock)`. -/
  | exitEnter (status : Int32)
  /-- In the loop of `reparent`, with `cs` to visit. -/
  | exitReparent (status : Int32) (cs : List (Fin n))
  /-- In the `wakeup(initproc)` of `reparent`, with `qs` to visit. -/
  | exitAdopt (status : Int32) (cs qs : List (Fin n))
  /-- In `wakeup(p->parent)`, with `qs` to visit. -/
  | exitNotify (status : Int32) (parent : Option (Fin n)) (qs : List (Fin n))
  /-- At `acquire(&p->lock)`, `p->xstate = status` and `p->state = ZOMBIE`. -/
  | exitZombie (status : Int32)
  /-- At `release(&wait_lock)`. -/
  | exitRelease
  /-- At `sched()`, up to the `release(&p->lock)` of the scheduler. -/
  | exitSwitch
  /-- `wait` or `waitx`, at `acquire(&wait_lock)`; `addr` is whether a status is asked for. -/
  | waitEnter (addr : Bool)
  /-- In the loop that looks for exited children. -/
  | waitScan (addr : Bool) (cs : List (Fin n)) (havekids : Bool)
  /-- At `release(&wait_lock)` and `return ret`. -/
  | waitReturn (ret : ℤ)
  /-- In `sleep(p, &wait_lock)`, at `acquire(&p->lock)`. -/
  | sleepEnter (addr : Bool)
  /-- At `release(&wait_lock)`. -/
  | sleepUnlock (addr : Bool)
  /-- At `p->chan = p` and `p->state = SLEEPING`. -/
  | sleepMark (addr : Bool)
  /-- At `sched()`, up to the `release(&p->lock)` of the scheduler. -/
  | sleepSwitch (addr : Bool)
  /-- Off the processor, to go on with `p->chan = 0` and `release(&p->lock)`. -/
  | sleeping (addr : Bool)
  /-- At `acquire(&wait_lock)`, the end of `sleep`. -/
  | sleepRelock (addr : Bool)
  deriving DecidableEq

namespace Stage

variable {n : ℕ}

/-- Does the process hold `wait_lock`? -/
def wl : Stage n → Bool
  | .exitReparent .. | .exitAdopt .. | .exitNotify .. | .exitZombie _ | .exitRelease
  | .waitScan .. | .waitReturn _ | .sleepEnter _ | .sleepUnlock _ => true
  | _ => false

/-- Is the lock of the process held? -/
def locked : Stage n → Bool
  | .exitRelease | .exitSwitch | .sleepUnlock _ | .sleepMark _ | .sleepSwitch _ => true
  | _ => false

end Stage

/-- What `exit` leaves for `wait`. -/
structure Exit (n : ℕ) where
  who : Inc n
  pid : ℤ
  status : Int32
  deriving DecidableEq

/-- A child that `wait` or `waitx` has given to `freeproc`: by whom, what was returned, and the
status that was copied out if one was asked for. -/
structure Reap (n : ℕ) where
  child : Inc n
  reaper : Inc n
  pid : ℤ
  status : Option Int32
  deriving DecidableEq

/-- The process table. -/
structure Table (n : ℕ) where
  state : Fin n → ProcState
  pid : Fin n → ℤ
  parent : Fin n → Option (Fin n)
  xstate : Fin n → Int32
  killed : Fin n → Bool
  /-- The process whose address is the channel. -/
  chan : Fin n → Option (Fin n)
  nextpid : ℤ
  /-- The holder of `wait_lock`. -/
  waitLock : Option (Fin n)
  stage : Fin n → Stage n
  /-- History: how many processes a slot has held. No step tests it, nor the fields below. -/
  gen : Fin n → ℕ
  /-- History: the process that called `fork`. -/
  creator : Fin n → Inc n
  exits : List (Exit n)
  reaps : List (Reap n)

/-- What a step does to the table, besides moving on. -/
inductive Effect (n : ℕ)
  | skip
  /-- `allocproc`, and the copies that `fork` makes under the lock of the new process. -/
  | alloc (np : Fin n)
  /-- `allocproc`, and `freeproc` because there is not enough memory. -/
  | abort (np : Fin n)
  /-- `acquire(&wait_lock)` -/
  | lock
  /-- `release(&wait_lock)` -/
  | unlock
  /-- `np->parent = p`, under `wait_lock`. -/
  | link (np : Fin n)
  /-- `np->state = RUNNABLE` -/
  | ready (np : Fin n)
  /-- `pp->parent = initproc` -/
  | adopt (c : Fin n)
  /-- One turn of `wakeup(chan)`. -/
  | wake (q : Fin n) (chan : Option (Fin n))
  /-- `p->xstate = status; p->state = ZOMBIE` -/
  | zombie (status : Int32)
  /-- `copyout` of `np->xstate` if it is asked for, and `freeproc(np)`. -/
  | reap (c : Fin n) (addr : Bool)
  /-- `p->chan = p; p->state = SLEEPING` -/
  | mark
  /-- `p->chan = 0` -/
  | tidy

/-- The calls. -/
inductive Call (n : ℕ)
  /-- `fork`: `allocproc` finds the slot `np` or none, and the memory it needs is there or not. -/
  | fork (np : Option (Fin n)) (mem : Bool)
  | exit (status : Int32)
  | wait (addr : Bool)
  /-- Like `wait`; the times it hands to its caller are left out. -/
  | waitx (addr : Bool)
  deriving DecidableEq

/-- What can happen next. -/
inductive Act (n : ℕ)
  | call (p : Fin n) (call : Call n)
  /-- A process in a call goes on; `ok` is whether `copyout` to the status address succeeds. -/
  | run (p : Fin n) (ok : Bool)
  | kill (q : Fin n)
  deriving DecidableEq

variable {n : ℕ}

/-- `wakeup(chan)` of the process `p` at the slot `q`. -/
def visit (p q : Fin n) (chan : Option (Fin n)) : Effect n := if q = p then .skip else .wake q chan

/-- What a call of the process `p` starts with, and where that leads. `exit` of `initproc`
panics. -/
def Stage.call (initproc : Fin n) (s : Table n) (p : Fin n) (call : Call n) :
    Stage n → Option (Effect n × Stage n)
  | .out _ =>
    match call with
    | .fork Option.none _ => some (.skip, .out (-1))
    | .fork (some np) mem =>
      if s.state np = .unused then
        if mem then some (.alloc np, .forkParent np) else some (.abort np, .out (-1))
      else Option.none
    | .exit status => if p = initproc then Option.none else some (.skip, .exitEnter status)
    | .wait addr | .waitx addr => some (.skip, .waitEnter addr)
  | _ => Option.none

/-- What the process `p` does next in its call, and where that leads. -/
def Stage.next (initproc : Fin n) (s : Table n) (p : Fin n) (ok : Bool) :
    Stage n → Option (Effect n × Stage n)
  | .none | .out _ => Option.none
  | .forkParent np => some (.link np, .forkReady np)
  | .forkReady np => some (.ready np, .out (s.pid np))
  | .exitEnter status => some (.lock, .exitReparent status (List.finRange n))
  | .exitReparent status [] => some (.skip, .exitNotify status (s.parent p) (List.finRange n))
  | .exitReparent status (c :: cs) =>
    if s.parent c = some p then some (.adopt c, .exitAdopt status cs (List.finRange n))
    else some (.skip, .exitReparent status cs)
  | .exitAdopt status cs [] => some (.skip, .exitReparent status cs)
  | .exitAdopt status cs (q :: qs) => some (visit p q (some initproc), .exitAdopt status cs qs)
  | .exitNotify status _ [] => some (.skip, .exitZombie status)
  | .exitNotify status parent (q :: qs) =>
    some (visit p q parent, .exitNotify status parent qs)
  | .exitZombie status => some (.zombie status, .exitRelease)
  | .exitRelease => some (.unlock, .exitSwitch)
  | .exitSwitch => some (.skip, .none)
  | .waitEnter addr => some (.lock, .waitScan addr (List.finRange n) false)
  | .waitScan addr (c :: cs) havekids =>
    if s.parent c = some p then
      if (s.stage c).locked then Option.none
      else if s.state c = .zombie then
        if addr && !ok then some (.skip, .waitReturn (-1))
        else some (.reap c addr, .waitReturn (s.pid c))
      else some (.skip, .waitScan addr cs true)
    else some (.skip, .waitScan addr cs havekids)
  | .waitScan addr [] havekids =>
    if !havekids || s.killed p then some (.skip, .waitReturn (-1))
    else some (.skip, .sleepEnter addr)
  | .waitReturn ret => some (.unlock, .out ret)
  | .sleepEnter addr => some (.skip, .sleepUnlock addr)
  | .sleepUnlock addr => some (.unlock, .sleepMark addr)
  | .sleepMark addr => some (.mark, .sleepSwitch addr)
  | .sleepSwitch addr => some (.skip, .sleeping addr)
  | .sleeping addr =>
    if s.state p = .runnable then some (.tidy, .sleepRelock addr) else Option.none
  | .sleepRelock addr => some (.lock, .waitScan addr (List.finRange n) false)

namespace Table

/-- The process a slot holds. -/
def inc (s : Table n) (p : Fin n) : Inc n := (p, s.gen p)

def setStage (s : Table n) (p : Fin n) (st : Stage n) : Table n :=
  { s with stage := update s.stage p st }

def setState (s : Table n) (p : Fin n) (st : ProcState) : Table n :=
  { s with state := update s.state p st }

def setParent (s : Table n) (c : Fin n) (q : Option (Fin n)) : Table n :=
  { s with parent := update s.parent c q }

/-- `if (cond) q->state = RUNNABLE` -/
def wakeIf (s : Table n) (q : Fin n) (cond : Bool) : Table n :=
  s.setState q (if cond then .runnable else s.state q)

def freeproc (s : Table n) (p : Fin n) : Table n :=
  { s with
    pid := update s.pid p 0
    parent := update s.parent p none
    chan := update s.chan p none
    killed := update s.killed p false
    xstate := update s.xstate p 0
    state := update s.state p .unused }

/-- The part of `allocproc` that makes the slot `np` a new process. -/
def allocproc (s : Table n) (np : Fin n) : Table n :=
  { s with
    pid := update s.pid np s.nextpid
    nextpid := s.nextpid + 1
    state := update s.state np .used
    gen := update s.gen np (s.gen np + 1) }

/-- The table after an effect of the process `p`. -/
def carry (initproc : Fin n) (s : Table n) (p : Fin n) : Effect n → Table n
  | .skip => s
  | .alloc np => s.allocproc np
  | .abort np => (s.allocproc np).freeproc np
  | .lock => { s with waitLock := some p }
  | .unlock => { s with waitLock := none }
  | .link np => { s.setParent np (some p) with creator := update s.creator np (s.inc p) }
  | .ready np => (s.setState np .runnable).setStage np (.out 0)
  | .adopt c => s.setParent c (some initproc)
  | .wake q chan => s.wakeIf q (s.state q = .sleeping ∧ s.chan q = chan)
  | .zombie status =>
    { s.setState p .zombie with
      xstate := update s.xstate p status
      exits := s.exits ++ [⟨s.inc p, s.pid p, status⟩] }
  | .reap c addr =>
    { s.freeproc c with
      reaps := s.reaps ++
        [⟨s.inc c, s.inc p, s.pid c, if addr then some (s.xstate c) else none⟩] }
  | .mark => { s.setState p .sleeping with chan := update s.chan p (some p) }
  | .tidy => { s with chan := update s.chan p none }

/-- Must the process wait for a lock that an effect needs? -/
def blocks (s : Table n) : Effect n → Bool
  | .lock | .link _ => s.waitLock.isSome
  | .wake q _ => (s.stage q).locked
  | _ => false

/-- Carry out an effect of the process `p` and move on to `st'`. -/
def advance (initproc : Fin n) (s : Table n) (p : Fin n) (e : Effect n) (st' : Stage n) : Table n :=
  (s.carry initproc p e).setStage p st'

/-- Take a line, if there is one and no lock is in the way. -/
def turn (initproc : Fin n) (s : Table n) (p : Fin n) (line : Option (Effect n × Stage n)) :
    Option (Table n) :=
  line.bind fun r =>
    if s.blocks r.1 then none else some (s.advance initproc p r.1 r.2)

/-- `kill` of the process in slot `q`. -/
def kill (s : Table n) (q : Fin n) : Table n :=
  { s.wakeIf q (s.state q = .sleeping) with killed := update s.killed q true }

/-- The step function. -/
def step (initproc : Fin n) (s : Table n) : Act n → Option (Table n)
  | .call p call => s.turn initproc p ((s.stage p).call initproc s p call)
  | .run p ok => s.turn initproc p ((s.stage p).next initproc s p ok)
  | .kill q => if (s.stage q).locked then none else some (s.kill q)

/-- `userinit`: only `initproc` is there. -/
def boot (initproc : Fin n) : Table n where
  state p := if p = initproc then .runnable else .unused
  pid p := if p = initproc then 1 else 0
  parent _ := none
  xstate _ := 0
  killed _ := false
  chan _ := none
  nextpid := 2
  waitLock := none
  stage p := if p = initproc then .out 0 else .none
  gen _ := 0
  creator p := (p, 0)
  exits := []
  reaps := []

end Table

end Xv6.Wait
