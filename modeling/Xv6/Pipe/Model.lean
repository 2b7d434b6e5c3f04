import Xv6.Lib.Ring
import Xv6.Lib.Run
import Xv6.Param

/-!
# Pipes

`pipewrite`, `piperead` and `pipeclose` of `kernel/pipe.c`, and `kill` of `kernel/proc.c`, for
any number of processes that use one pipe. One turn of a loop under `pi->lock` is one step, so a
`kill` can land between two turns: it takes the lock of its target only. What `copyin` brings
from user memory, and whether `copyout` succeeds, is chosen by the run.
-/

namespace Xv6.Pipes

open Function (update update_of_ne update_self)

/-- Size of the buffer of a pipe. -/
abbrev PIPESIZE : ℕ := 512

/-- The cell of a counter, `k % PIPESIZE`. -/
def slot (k : UInt32) : Fin PIPESIZE := Fin.ofNat PIPESIZE k.toNat

/-- `struct pipe`; its lock is the field `holder` of the system. -/
structure Pipe where
  data : Fin PIPESIZE → UInt8
  /-- Number of bytes read. -/
  nread : UInt32
  /-- Number of bytes written. -/
  nwrite : UInt32
  /-- The read end is still open. -/
  readopen : Bool
  /-- The write end is still open. -/
  writeopen : Bool

namespace Pipe

/-- `pipealloc`, on a page that `kalloc` has filled with junk. -/
def alloc (data : Fin PIPESIZE → UInt8) : Pipe :=
  { data, nread := 0, nwrite := 0, readopen := true, writeopen := true }

def empty (p : Pipe) : Prop := p.nread = p.nwrite

def full (p : Pipe) : Prop := p.nwrite = p.nread + 512

instance (p : Pipe) : Decidable p.empty := inferInstanceAs (Decidable (_ = _))

instance (p : Pipe) : Decidable p.full := inferInstanceAs (Decidable (_ = _))

/-- `pi->data[pi->nwrite++ % PIPESIZE] = ch`. -/
def put (p : Pipe) (ch : UInt8) : Pipe :=
  { p with data := update p.data (slot p.nwrite) ch, nwrite := p.nwrite + 1 }

/-- The byte `pi->data[pi->nread % PIPESIZE]`. -/
def first (p : Pipe) : UInt8 := p.data (slot p.nread)

/-- `pi->nread++`. -/
def drop (p : Pipe) : Pipe := { p with nread := p.nread + 1 }

end Pipe

/-- The address a process sleeps on. -/
inductive Chan
  | nread
  | nwrite
  deriving DecidableEq, Repr

/-- A call at the head of its outer loop. -/
inductive Call
  /-- `pipewrite` of `n` bytes, `i` of them stored. -/
  | write (i n : ℤ)
  /-- `piperead` of up to `n` bytes. -/
  | read (n : ℤ)
  deriving DecidableEq, Repr

/-- Where a process is. -/
inductive Stage
  /-- Not in a call; the last one returned `ret`. -/
  | out (ret : ℤ)
  /-- At `acquire(&pi->lock)`, the one of the call or the one `sleep` ends with. -/
  | acquiring (call : Call)
  /-- `SLEEPING` in a call. -/
  | sleeping (chan : Chan) (call : Call)
  /-- In the loop of `pipewrite`. -/
  | writing (i n : ℤ)
  /-- Past the loop of `pipewrite`. -/
  | written (i : ℤ)
  /-- In the first loop of `piperead`. -/
  | waiting (n : ℤ)
  /-- In the second loop of `piperead`. -/
  | reading (i n : ℤ)
  /-- Past the loops of `piperead`. -/
  | finished (i : ℤ)
  deriving DecidableEq, Repr

/-- Where a call goes on once it has the lock. -/
def Call.resume : Call → Stage
  | .write i n => .writing i n
  | .read n => .waiting n

namespace Stage

/-- The channel a process sleeps on. -/
def chan : Stage → Option Chan
  | .sleeping c _ => some c
  | _ => none

/-- Does a process here hold `pi->lock`? -/
def locked : Stage → Bool
  | .out _ | .acquiring _ | .sleeping .. => false
  | .writing .. | .written _ | .waiting _ | .reading .. | .finished _ => true

/-- The state `SLEEPING` is left for `RUNNABLE`. -/
def wake : Stage → Stage
  | .sleeping _ call => .acquiring call
  | st => st

end Stage

/-- One pipe and the processes that use it. -/
structure PipeSys (P : Type*) where
  pipe : Pipe
  /-- The page of the pipe has been given to `kfree`. -/
  freed : Bool
  /-- The holder of `pi->lock`. -/
  holder : Option P
  killed : P → Bool
  stage : P → Stage
  /-- History: the bytes stored in `pi->data` so far. No step reads it. -/
  sent : List UInt8
  /-- History: the bytes fetched from `pi->data` so far. No step reads it. -/
  taken : List UInt8

/-- What can happen next. -/
inductive PipeAct (P : Type*)
  /-- A process calls `pipewrite(pi, addr, n)`. -/
  | write (pr : P) (n : ℤ)
  /-- A process calls `piperead(pi, addr, n)`. -/
  | read (pr : P) (n : ℤ)
  /-- A process in a call goes on. `copied` is the byte that `copyin` brings if it succeeds,
  and is present if `copyout` succeeds. -/
  | run (pr : P) (copied : Option UInt8)
  /-- `pipeclose(pi, writable)`. -/
  | close (pr : P) (writable : Bool)
  /-- `kill`. -/
  | kill (pid : P)
  deriving DecidableEq, Repr

namespace PipeSys

variable {P : Type*} [DecidableEq P]

/-- A new pipe, no process in a call. -/
def boot (data : Fin PIPESIZE → UInt8) (killed : P → Bool) : PipeSys P :=
  { pipe := .alloc data, freed := false, holder := none, killed, stage := fun _ => .out 0,
    sent := [], taken := [] }

def goto (s : PipeSys P) (pr : P) (st : Stage) : PipeSys P :=
  { s with stage := update s.stage pr st }

@[simp] theorem goto_stage_self (s : PipeSys P) (pr : P) (st : Stage) :
    (s.goto pr st).stage pr = st := update_self ..

theorem goto_stage_of_ne {s : PipeSys P} {pr q : P} {st : Stage} (h : q ≠ pr) :
    (s.goto pr st).stage q = s.stage q := update_of_ne h ..

def release (s : PipeSys P) : PipeSys P := { s with holder := none }

/-- `wakeup(chan)` by the process `pr`: all others that sleep on the channel become runnable. -/
def wakeup (s : PipeSys P) (pr : P) (chan : Chan) : PipeSys P :=
  { s with
    stage := fun q => if q ≠ pr ∧ (s.stage q).chan = some chan then (s.stage q).wake
      else s.stage q }

/-- `sleep(chan, &pi->lock)`. -/
def sleep (s : PipeSys P) (pr : P) (chan : Chan) (call : Call) : PipeSys P :=
  s.release.goto pr (.sleeping chan call)

def put (s : PipeSys P) (ch : UInt8) : PipeSys P :=
  { s with pipe := s.pipe.put ch, sent := s.sent ++ [ch] }

def take (s : PipeSys P) : PipeSys P :=
  { s with pipe := s.pipe.drop, taken := s.taken ++ [s.pipe.first] }

/-- One turn of the loop of `pipewrite`. -/
def pipewrite (s : PipeSys P) (pr : P) (i n : ℤ) (copyin : Option UInt8) : PipeSys P :=
  if i < n then
    if s.pipe.readopen = false ∨ s.killed pr = true then
      s.release.goto pr (.out (-1))
    else if s.pipe.full then
      (s.wakeup pr .nread).sleep pr .nwrite (.write i n)
    else
      match copyin with
      | none => s.goto pr (.written i)
      | some ch => (s.put ch).goto pr (.writing (i + 1) n)
  else s.goto pr (.written i)

/-- One turn of the loop in which `piperead` waits for a byte. -/
def pipereadWait (s : PipeSys P) (pr : P) (n : ℤ) : PipeSys P :=
  if s.pipe.empty ∧ s.pipe.writeopen = true then
    if s.killed pr = true then s.release.goto pr (.out (-1))
    else s.sleep pr .nread (.read n)
  else s.goto pr (.reading 0 n)

/-- One turn of the loop in which `piperead` copies. A byte that `copyout` fails on is gone. -/
def pipereadCopy (s : PipeSys P) (pr : P) (i n : ℤ) (copyout : Bool) : PipeSys P :=
  if i < n then
    if s.pipe.empty then s.goto pr (.finished i)
    else if copyout then s.take.goto pr (.reading (i + 1) n)
    else s.take.goto pr (.finished i)
  else s.goto pr (.finished i)

def pipeclose (s : PipeSys P) (pr : P) (writable : Bool) : PipeSys P :=
  let s :=
    if writable then { s with pipe.writeopen := false }.wakeup pr .nread
    else { s with pipe.readopen := false }.wakeup pr .nwrite
  { s with freed := s.pipe.readopen = false ∧ s.pipe.writeopen = false }

/-- `kill`: the target is marked, and woken if it sleeps. -/
def kill (s : PipeSys P) (pid : P) : PipeSys P :=
  { s with killed := update s.killed pid true }.goto pid (s.stage pid).wake

/-- What the process `pr` does next in its call. -/
def run (s : PipeSys P) (pr : P) (copied : Option UInt8) : Option (PipeSys P) :=
  match s.stage pr with
  | .out _ | .sleeping .. => none
  | .acquiring call =>
    if s.holder = none ∧ s.freed = false then
      some ({ s with holder := some pr }.goto pr call.resume)
    else none
  | .writing i n => some (s.pipewrite pr i n copied)
  | .written i => some ((s.wakeup pr .nread).release.goto pr (.out i))
  | .waiting n => some (s.pipereadWait pr n)
  | .reading i n => some (s.pipereadCopy pr i n copied.isSome)
  | .finished i => some ((s.wakeup pr .nwrite).release.goto pr (.out i))

/-- Enter a call. -/
def begin (s : PipeSys P) (pr : P) (call : Call) : Option (PipeSys P) :=
  match s.stage pr with
  | .out _ => some (s.goto pr (.acquiring call))
  | _ => none

/-- The step function. `pipeclose` runs under `pi->lock` from beginning to end, and no page is
given back twice. -/
def step (s : PipeSys P) : PipeAct P → Option (PipeSys P)
  | .write pr n => s.begin pr (.write 0 n)
  | .read pr n => s.begin pr (.read n)
  | .run pr copied => s.run pr copied
  | .close pr writable =>
    match s.stage pr with
    | .out _ => if s.holder = none ∧ s.freed = false then some (s.pipeclose pr writable) else none
    | _ => none
  | .kill pid => some (s.kill pid)

end PipeSys

end Xv6.Pipes
