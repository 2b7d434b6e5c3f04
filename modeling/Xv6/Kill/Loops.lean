import Xv6.Pipe.Model
import Xv6.Sched.Proc

/-!
# The loops that test `killed`

The six loops of the kernel that test `p->killed` before they sleep: `piperead` and `pipewrite`
of `kernel/pipe.c`, `consoleread` of `kernel/console.c`, `sys_sleep` of `kernel/sysproc.c`, `wait`
and `waitx` of `kernel/proc.c`, with `sleep` line by line, run by the processes of a table of any
size. They go on under the lock of a pipe, `cons.lock`, `tickslock` or `wait_lock`; `kill` takes
`p->lock` of its target only, and is one step. Each turn of the loop of `wakeup` is one step, as it
takes the lock of one process; the wakeups made elsewhere in the kernel come at any time. As a
process runs whenever the scheduler picks it, `RUNNABLE` stands for `RUNNING` too. What is
copied from user memory, whether a copy succeeds, and what the console interrupt handler leaves
in its buffer is up to the run.
-/

namespace Xv6.Kill

open Function (update update_self)

open Pipes (Pipe)

/-- The size of the console's buffer. -/
abbrev INPUT_BUF : ℕ := 128

/-- The buffer of the console. -/
structure Console where
  buf : Fin INPUT_BUF → UInt8
  /-- Read index. -/
  r : UInt32
  /-- Write index. -/
  w : UInt32

/-- The spinlocks that the loops sleep with. -/
inductive Lock (ι : Type)
  | pipe (pi : ι)
  | cons
  | ticks
  | wait
  deriving DecidableEq

/-- The addresses that are slept on. -/
inductive Chan (ι : Type) (n : ℕ)
  | nread (pi : ι)
  | nwrite (pi : ι)
  | cons
  | ticks
  | proc (p : Fin n)
  deriving DecidableEq

/-- A call, with the local variables of its loop. -/
inductive Call (ι : Type)
  /-- `i` of `n` bytes have been read. -/
  | piperead (pi : ι) (i n : ℤ)
  /-- `i` of `n` bytes have been written. -/
  | pipewrite (pi : ι) (i n : ℤ)
  /-- `n` of `target` bytes are to be read. -/
  | consoleread (target n : ℤ)
  /-- The argument of `sys_sleep` is compared as an `unsigned int`. -/
  | sysSleep (ticks0 n : UInt32)
  | wait
  | waitx
  deriving DecidableEq

/-- Where a process is. -/
inductive Stage (ι : Type) (n : ℕ)
  /-- It has exited, or its slot is free. -/
  | gone
  /-- In other code. -/
  | out
  /-- At `acquire(lk)`, at the start of the call. -/
  | enter (c : Call ι)
  /-- At the head of the loop. -/
  | head (c : Call ι)
  /-- At the test of `killed`. -/
  | test (c : Call ι)
  /-- `wait` and `waitx`: in the loop that looks for exited children. -/
  | scan (c : Call ι) (cs : List (Fin n)) (havekids : Bool)
  /-- `piperead`: in the loop that copies. -/
  | copy (c : Call ι)
  /-- `pipewrite`: in `wakeup(&pi->nread)` on the way to `sleep`, with `qs` to visit. -/
  | notify (c : Call ι) (qs : List (Fin n))
  /-- In the `wakeup` at the end of `piperead` or `pipewrite`. -/
  | finish (c : Call ι) (qs : List (Fin n))
  /-- At `release(lk)` and `return`. -/
  | leave (c : Call ι)
  /-- In `sleep`, at `acquire(&p->lock)`. -/
  | sleepEnter (c : Call ι)
  /-- At `release(lk)`. -/
  | sleepUnlock (c : Call ι)
  /-- At `p->chan = chan` and `p->state = SLEEPING`. -/
  | sleepMark (c : Call ι)
  /-- At `sched()`, up to the `release(&p->lock)` of the scheduler. -/
  | sleepSwitch (c : Call ι)
  /-- Off the processor, to go on with `p->chan = 0` and `release(&p->lock)`. -/
  | asleep (c : Call ι)
  /-- At `acquire(lk)`, the end of `sleep`. -/
  | relock (c : Call ι)
  deriving DecidableEq

variable {ι : Type} {n : ℕ}

/-- The lock that the loop sleeps with. -/
def Call.lk : Call ι → Lock ι
  | .piperead pi .. | .pipewrite pi .. => .pipe pi
  | .consoleread .. => .cons
  | .sysSleep .. => .ticks
  | .wait | .waitx => .wait

/-- What the process `p` sleeps on. -/
def Call.chan (p : Fin n) : Call ι → Chan ι n
  | .piperead pi .. => .nread pi
  | .pipewrite pi .. => .nwrite pi
  | .consoleread .. => .cons
  | .sysSleep .. => .ticks
  | .wait | .waitx => .proc p

/-- Is the lock of the process held? -/
def Stage.locked : Stage ι n → Bool
  | .sleepUnlock _ | .sleepMark _ | .sleepSwitch _ => true
  | _ => false

/-- The process is past the test of `killed`, and has not yet taken its lock in `sleep`. -/
def Stage.Unheard : Stage ι n → Prop
  | .notify .. | .sleepEnter _ => True
  | _ => False

instance (st : Stage ι n) : Decidable st.Unheard := by
  cases st <;> simp only [Stage.Unheard] <;> infer_instance

/-- The kernel as far as the loops see it. -/
structure Sys (ι : Type) (n : ℕ) where
  pipe : ι → Pipe
  cons : Console
  ticks : UInt32
  state : Fin n → ProcState
  killed : Fin n → Bool
  chan : Fin n → Option (Chan ι n)
  parent : Fin n → Option (Fin n)
  /-- The holder of a lock. -/
  lock : Lock ι → Option (Fin n)
  stage : Fin n → Stage ι n

/-- What a line does, besides moving on. -/
inductive Effect (ι : Type) (n : ℕ)
  | skip
  | acquire (l : Lock ι)
  | release (l : Lock ι)
  /-- A change of a pipe by one of its users. -/
  | pipe (pi : ι) (x : Pipe)
  /-- A change of `cons.r`. -/
  | cons (r : UInt32)
  /-- One turn of `wakeup(c)`. -/
  | wake (q : Fin n) (c : Chan ι n)
  /-- `freeproc(c)` -/
  | reap (c : Fin n)
  /-- `p->chan = c; p->state = SLEEPING` -/
  | mark (c : Chan ι n)
  /-- `p->chan = 0` -/
  | tidy

/-- What can happen next. -/
inductive Act (ι : Type) (n : ℕ)
  | call (p : Fin n) (c : Call ι)
  /-- A process in a call goes on; `ok` is whether a copy from or to user memory succeeds, and `ch`
  the byte a copy from it brings. -/
  | run (p : Fin n) (ok : Bool) (ch : UInt8)
  /-- `kill` of the process in slot `q`. -/
  | kill (q : Fin n)
  /-- One turn of a `wakeup(c)` in other code. -/
  | wakeup (q : Fin n) (c : Chan ι n)
  /-- `ticks++` of `clockintr`. -/
  | tick
  /-- The console interrupt handler. -/
  | input (cons : Console)
  /-- `pipeclose`. -/
  | close (pi : ι) (writable : Bool)
  /-- `fork` of the process `p` makes a child in the slot `np`. -/
  | fork (p np : Fin n)
  | exit (p : Fin n)
  /-- An exception that the kernel does not know. -/
  | fault (p : Fin n)

/-- The end of the input. -/
def ctrlD : UInt8 := 4

/-- `pipeclose` of one end. -/
def closeEnd (x : Pipe) (writable : Bool) : Pipe :=
  if writable then { x with writeopen := false } else { x with readopen := false }

/-- What `consoleread` makes of the next character. -/
def takeChar (s : Sys ι n) (ok : Bool) (target k : ℤ) : Effect ι n × Stage ι n :=
  let c := s.cons.buf (Fin.ofNat INPUT_BUF s.cons.r.toNat)
  if c = ctrlD then
    if k < target then (.skip, .leave (.consoleread target k))
    else (.cons (s.cons.r + 1), .leave (.consoleread target k))
  else if !ok then (.cons (s.cons.r + 1), .leave (.consoleread target k))
  else if c = 10 then (.cons (s.cons.r + 1), .leave (.consoleread target (k - 1)))
  else (.cons (s.cons.r + 1), .head (.consoleread target (k - 1)))

/-- The line a process in a call is at, and where it leads. -/
def Stage.next (s : Sys ι n) (p : Fin n) (ok : Bool) (ch : UInt8) :
    Stage ι n → Option (Effect ι n × Stage ι n)
  | .gone | .out => none
  | .enter (.sysSleep _ k) => some (.acquire .ticks, .head (.sysSleep s.ticks k))
  | .enter c | .relock c => some (.acquire c.lk, .head c)
  | .head c =>
    match c with
    | .piperead pi _ _ =>
      some (.skip, if (s.pipe pi).empty ∧ (s.pipe pi).writeopen then .test c else .copy c)
    | .pipewrite _ i k => some (.skip, if i < k then .test c else .finish c (List.finRange n))
    | .consoleread target k =>
      if 0 < k then
        if s.cons.r = s.cons.w then some (.skip, .test c)
        else some (takeChar s ok target k)
      else some (.skip, .leave c)
    | .sysSleep ticks0 k => some (.skip, if s.ticks - ticks0 < k then .test c else .leave c)
    | .wait | .waitx => some (.skip, .scan c (List.finRange n) false)
  | .test c =>
    match c with
    | .pipewrite pi i k =>
      if (s.pipe pi).readopen = false ∨ s.killed p then some (.skip, .leave c)
      else if (s.pipe pi).full then some (.skip, .notify c (List.finRange n))
      else if ok then some (.pipe pi ((s.pipe pi).put ch), .head (.pipewrite pi (i + 1) k))
      else some (.skip, .finish c (List.finRange n))
    | _ => some (.skip, if s.killed p then .leave c else .sleepEnter c)
  | .scan c (q :: qs) havekids =>
    if s.parent q = some p then
      if (s.stage q).locked then none
      else if s.state q = .zombie then
        if ok then some (.reap q, .leave c) else some (.skip, .leave c)
      else some (.skip, .scan c qs true)
    else some (.skip, .scan c qs havekids)
  | .scan c [] havekids =>
    some (.skip, if !havekids || s.killed p then .leave c else .sleepEnter c)
  | .copy (.piperead pi i k) =>
    if i < k ∧ ¬ (s.pipe pi).empty then
      some (.pipe pi (s.pipe pi).drop,
        if ok then .copy (.piperead pi (i + 1) k)
        else .finish (.piperead pi i k) (List.finRange n))
    else some (.skip, .finish (.piperead pi i k) (List.finRange n))
  | .copy _ => none
  | .notify c [] => some (.skip, .sleepEnter c)
  | .notify c (q :: qs) =>
    match c with
    | .pipewrite pi _ _ =>
      some (if q = p then .skip else .wake q (.nread pi), .notify c qs)
    | _ => none
  | .finish c [] => some (.skip, .leave c)
  | .finish c (q :: qs) =>
    match c with
    | .pipewrite pi _ _ => some (if q = p then .skip else .wake q (.nread pi), .finish c qs)
    | .piperead pi _ _ => some (if q = p then .skip else .wake q (.nwrite pi), .finish c qs)
    | _ => none
  | .leave c => some (.release c.lk, .out)
  | .sleepEnter c => some (.skip, .sleepUnlock c)
  | .sleepUnlock c => some (.release c.lk, .sleepMark c)
  | .sleepMark c => some (.mark (c.chan p), .sleepSwitch c)
  | .sleepSwitch c => some (.skip, .asleep c)
  | .asleep c => if s.state p = .runnable then some (.tidy, .relock c) else none

namespace Sys

variable [DecidableEq ι]

def goto (s : Sys ι n) (p : Fin n) (st : Stage ι n) : Sys ι n :=
  { s with stage := update s.stage p st }

def setState (s : Sys ι n) (p : Fin n) (st : ProcState) : Sys ι n :=
  { s with state := update s.state p st }

def setKilled (s : Sys ι n) (p : Fin n) (b : Bool) : Sys ι n :=
  { s with killed := update s.killed p b }

/-- `if (cond) q->state = RUNNABLE` -/
def wakeIf (s : Sys ι n) (q : Fin n) (cond : Bool) : Sys ι n :=
  s.setState q (if cond then .runnable else s.state q)

/-- `if (q->state == SLEEPING && q->chan == c) q->state = RUNNABLE` -/
def wake (s : Sys ι n) (q : Fin n) (c : Chan ι n) : Sys ι n :=
  s.wakeIf q (s.state q = .sleeping ∧ s.chan q = some c)

/-- The body of `kill`. -/
def kill (s : Sys ι n) (q : Fin n) : Sys ι n :=
  (s.setKilled q true).wakeIf q (s.state q = .sleeping)

def freeproc (s : Sys ι n) (q : Fin n) : Sys ι n :=
  { (s.setState q .unused).setKilled q false with
    parent := update s.parent q none
    chan := update s.chan q none }

/-- Carry out an effect of the process `p`; a lock that is held is waited for. -/
def carry (s : Sys ι n) (p : Fin n) : Effect ι n → Option (Sys ι n)
  | .skip => some s
  | .acquire l =>
    if s.lock l = none then some { s with lock := update s.lock l (some p) } else none
  | .release l => some { s with lock := update s.lock l none }
  | .pipe pi x => some { s with pipe := update s.pipe pi x }
  | .cons r => some { s with cons := { s.cons with r } }
  | .wake q c => if (s.stage q).locked then none else some (s.wake q c)
  | .reap q => some ((s.freeproc q).goto q .gone)
  | .mark c => some { s.setState p .sleeping with chan := update s.chan p (some c) }
  | .tidy => some { s with chan := update s.chan p none }

/-- The step function. -/
def step (s : Sys ι n) : Act ι n → Option (Sys ι n)
  | .call p c => if s.stage p = .out then some (s.goto p (.enter c)) else none
  | .run p ok ch =>
    ((s.stage p).next s p ok ch).bind fun r => (s.carry p r.1).map fun t => t.goto p r.2
  | .kill q => if (s.stage q).locked then none else some (s.kill q)
  | .wakeup q c => if (s.stage q).locked then none else some (s.wake q c)
  | .tick => if s.lock .ticks = none then some { s with ticks := s.ticks + 1 } else none
  | .input cons => if s.lock .cons = none then some { s with cons } else none
  | .close pi writable =>
    if s.lock (.pipe pi) = none then
      some { s with pipe := update s.pipe pi (closeEnd (s.pipe pi) writable) }
    else none
  | .fork p np =>
    if s.stage p = .out ∧ s.state np = .unused then
      some ({ s.setState np .runnable with
        parent := update s.parent np (some p) }.goto np .out)
    else none
  | .exit p => if s.stage p = .out then some ((s.setState p .zombie).goto p .gone) else none
  | .fault p => if s.stage p = .out then some (s.setKilled p true) else none

/-- The first process runs, and nobody is in a call. -/
def boot (pipe : ι → Pipe) (cons : Console) (initproc : Fin n) : Sys ι n where
  pipe := pipe
  cons := cons
  ticks := 0
  state p := if p = initproc then .runnable else .unused
  killed _ := false
  chan _ := none
  parent _ := none
  lock _ := none
  stage p := if p = initproc then .out else .gone

end Sys

/-! ## The loops of one pipe -/

/-- The places between the turns of the loops over a pipe, and those in the system of that pipe. -/
inductive Stage.InPipe (pi : ι) : Stage ι n → Pipes.Stage → Prop
  | writing (i k : ℤ) : InPipe pi (.head (.pipewrite pi i k)) (.writing i k)
  | full (i k : ℤ) (qs : List (Fin n)) :
    InPipe pi (.notify (.pipewrite pi i k) qs) (.sleeping .nwrite (.write i k))
  | written (i k : ℤ) (qs : List (Fin n)) : InPipe pi (.finish (.pipewrite pi i k) qs) (.written i)
  | waiting (k : ℤ) : InPipe pi (.head (.piperead pi 0 k)) (.waiting k)
  | empty (k : ℤ) : InPipe pi (.sleepEnter (.piperead pi 0 k)) (.sleeping .nread (.read k))
  | reading (i k : ℤ) : InPipe pi (.copy (.piperead pi i k)) (.reading i k)
  | finished (i k : ℤ) (qs : List (Fin n)) :
    InPipe pi (.finish (.piperead pi i k) qs) (.finished i)
  | failed (c : Call ι) : InPipe pi (.leave c) (.out (-1))

namespace Sys

variable {s : Sys ι n} {p : Fin n} {ok : Bool} {ch : UInt8}

theorem inPipe_goto {pi : ι} {st : Stage ι n} {xst : Pipes.Stage} (h : st.InPipe pi xst)
    (s : Sys ι n) (x : Pipes.PipeSys (Fin n)) :
    ((s.goto p st).stage p).InPipe pi ((x.goto p xst).stage p) := by
  simpa [goto] using h

variable [DecidableEq ι]

/-- A line of the process `p`. -/
theorem step_run {st st' : Stage ι n} {e : Effect ι n} {u : Sys ι n} (hst : s.stage p = st)
    (h : st.next s p ok ch = some (e, st')) (hu : s.carry p e = some u) :
    s.step (.run p ok ch) = some (u.goto p st') := by
  rw [step, hst, h, Option.bind_some, hu]
  rfl

/-- A line that only moves on. -/
theorem step_skip {st st₁ st' : Stage ι n} (hst : s.stage p = st)
    (h : st.next s p ok ch = some (.skip, st₁)) (heq : st₁ = st') :
    s.step (.run p ok ch) = some (s.goto p st') :=
  heq ▸ step_run hst h rfl

/-- **A turn of a loop over a pipe**, of one line or two, is a step of the system of that pipe. -/
theorem turn_of_pipe {pi : ι} {x y : Pipes.PipeSys (Fin n)} (hpipe : x.pipe = s.pipe pi)
    (hkilled : x.killed p = s.killed p) (hin : (s.stage p).InPipe pi (x.stage p))
    (hturn : ∀ i, x.stage p ≠ .written i ∧ x.stage p ≠ .finished i)
    (hy : x.step (.run p (if ok then some ch else none)) = some y) :
    ∃ t, Relation.ReflTransGen (fun s t => s.step (.run p ok ch) = some t) s t ∧
      t.pipe pi = y.pipe ∧ (t.stage p).InPipe pi (y.stage p) := by
  generalize hst : s.stage p = st at hin
  generalize hxst : x.stage p = xst at hin
  simp only [Pipes.PipeSys.step, Pipes.PipeSys.run, hxst] at hy
  cases hin with
  | full | empty | failed => cases hy
  | written i => exact absurd hxst (hturn i).1
  | finished i => exact absurd hxst (hturn i).2
  | writing i k =>
    cases hy
    have htest : i < k → s.step (.run p ok ch) = some (s.goto p (.test (.pipewrite pi i k))) :=
      fun hlt => step_skip hst rfl (if_pos hlt)
    unfold Pipes.PipeSys.pipewrite
    rw [hpipe, hkilled]
    split_ifs with hlt hfail hfull hok
    · exact ⟨_, .tail (.single (htest hlt)) (step_run (update_self ..) (if_pos hfail) rfl),
        hpipe.symm, inPipe_goto (.failed _) _ _⟩
    · exact ⟨_, .tail (.single (htest hlt)) (step_run (update_self ..)
        ((if_neg hfail).trans (if_pos hfull)) rfl), hpipe.symm, inPipe_goto (.full ..) _ _⟩
    · refine ⟨_, .tail (.single (htest hlt)) (step_run (update_self ..)
        ((if_neg hfail).trans ((if_neg hfull).trans (if_pos hok))) rfl), ?_,
        inPipe_goto (.writing ..) _ _⟩
      simp [goto, Pipes.PipeSys.goto, Pipes.PipeSys.put, hpipe]
    · exact ⟨_, .tail (.single (htest hlt)) (step_run (update_self ..)
        ((if_neg hfail).trans ((if_neg hfull).trans (if_neg hok))) rfl), hpipe.symm,
        inPipe_goto (.written ..) _ _⟩
    · exact ⟨_, .single (step_skip hst rfl (if_neg hlt)), hpipe.symm,
        inPipe_goto (.written ..) _ _⟩
  | waiting k =>
    cases hy
    have htest : (s.pipe pi).empty ∧ (s.pipe pi).writeopen = true →
        s.step (.run p ok ch) = some (s.goto p (.test (.piperead pi 0 k))) :=
      fun hempty => step_skip hst rfl (if_pos hempty)
    unfold Pipes.PipeSys.pipereadWait
    rw [hpipe, hkilled]
    split_ifs with hempty hdead
    · exact ⟨_, .tail (.single (htest hempty)) (step_skip (update_self ..) rfl (if_pos hdead)),
        hpipe.symm, inPipe_goto (.failed _) _ _⟩
    · exact ⟨_, .tail (.single (htest hempty)) (step_skip (update_self ..) rfl (if_neg hdead)),
        hpipe.symm, inPipe_goto (.empty _) _ _⟩
    · exact ⟨_, .single (step_skip hst rfl (if_neg hempty)),
        hpipe.symm, inPipe_goto (.reading ..) _ _⟩
  | reading i k =>
    cases hy
    unfold Pipes.PipeSys.pipereadCopy
    rw [hpipe]
    by_cases hmore : i < k ∧ ¬ (s.pipe pi).empty
    · have hdrop : s.step (.run p ok ch) = some _ := step_run hst (if_pos hmore) rfl
      rw [if_pos hmore.1, if_neg hmore.2]
      refine ⟨_, .single hdrop, ?_, ?_⟩
      · cases ok <;> simp [goto, Pipes.PipeSys.goto, Pipes.PipeSys.take, hpipe]
      · cases ok with
        | true => exact inPipe_goto (.reading ..) _ _
        | false => exact inPipe_goto (.finished ..) _ _
    · have hend : s.step (.run p ok ch) = some _ := step_run hst (if_neg hmore) rfl
      refine ⟨_, .single hend, ?_⟩
      split_ifs with hlt hempty
      all_goals first
        | exact ⟨hpipe.symm, inPipe_goto (.finished ..) _ _⟩
        | exact absurd ⟨hlt, hempty⟩ hmore

end Sys

end Xv6.Kill
