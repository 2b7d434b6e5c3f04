import Xv6.Sched.Proc

/-!
# Selection and dispatch

The four schedulers a kernel can be built with, and the block of `scheduler` that starts the
process one of them has selected.
-/

namespace Xv6

open Lib

/-- The scheduler the kernel is built with. -/
inductive Build
  | rr
  | fcfs
  | pbs
  | mlfq
  deriving DecidableEq

/-- The slots of the process table in table order. -/
abbrev slots : List Slot := List.finRange NPROC

namespace Kern

/-- `RoundRobin`. -/
def roundRobin (k : Kern) : Kern × Slot :=
  let alpha := k.alpha + 1
  ({ k with alpha }, alpha)

/-- The loop of `fcfs`, from the given candidate and its time on. -/
def fcfsLoop (k : Kern) : List Slot → Slot → Int32 → Slot
  | [], index, _ => index
  | i :: is, index, mintime =>
    if (k.proc i).state = .runnable ∧ (k.proc i).ctime ≤ mintime then
      fcfsLoop k is i (k.proc i).ctime
    else fcfsLoop k is index mintime

def fcfs (k : Kern) : Slot := k.fcfsLoop slots 0 k.ticks.toInt32

/-- The three tests of the loop body of `pbs_scheduler`, on the candidate and its priority. -/
def pbsBody (k : Kern) (i : Slot) (best : Slot × Int32) : Slot × Int32 :=
  let better (c : Bool) (best : Slot × Int32) : Slot × Int32 :=
    if c then (i, (k.proc i).dynamicPriority) else best
  let best := better ((k.proc i).dynamicPriority < best.2) best
  let best := better ((k.proc i).dynamicPriority = best.2 ∧
    (k.proc i).nRun < (k.proc best.1).nRun) best
  better ((k.proc i).dynamicPriority = best.2 ∧ (k.proc i).nRun = (k.proc best.1).nRun ∧
    (k.proc i).ctime < (k.proc best.1).ctime) best

/-- The loop of `pbs_scheduler`. -/
def pbsLoop (k : Kern) : List Slot → Slot × Int32 → Slot
  | [], best => best.1
  | i :: is, best =>
    if (k.proc i).state = .runnable then pbsLoop k is (k.pbsBody i best)
    else pbsLoop k is best

def pbsScheduler (k : Kern) : Slot := k.pbsLoop slots (1, 10000)

/-- Replace one of the run queues. -/
def setMlfq (k : Kern) (level : Fin NMLFQ) (q : Queue) : Kern :=
  { k with mlfq := Function.update k.mlfq level q }

/-- The part of `ageing` that takes a queued process out of its queue. -/
def unqueue (k : Kern) (p : Slot) : Except String Kern :=
  if (k.proc p).inQueue then
    ((k.mlfq (k.proc p).level).qerase (fun i => (k.proc i).pid) (k.proc p).pid).map fun q =>
      (k.setMlfq (k.proc p).level q).modProc p fun x => { x with inQueue := false }
  else .ok k

/-- A process has waited long enough to be moved up. -/
def aged (k : Kern) (p : Slot) : Bool :=
  (k.proc p).state = .runnable ∧ k.ticks - (k.proc p).qEnter.toUInt32 ≥ UInt32.ofNat AGETICK

/-- Move a process up one level and let its waiting time start anew. -/
def climb (ticks : UInt32) (x : Proc) : Proc :=
  { x with level := if x.level = 0 then 0 else x.level - 1, qEnter := ticks.toInt32 }

/-- The loop body of `ageing`. -/
def ageingAt (k : Kern) (p : Slot) : Except String Kern :=
  if k.aged p then (k.unqueue p).map fun k' => k'.modProc p (climb k.ticks) else .ok k

def ageing (k : Kern) : Except String Kern := slots.foldlM ageingAt k

/-- The loop body of the first loop of `mlfq_scheduler`: queue a runnable process. -/
def enqueueAt (k : Kern) (p : Slot) : Except String Kern :=
  if (k.proc p).state = .runnable ∧ (k.proc p).inQueue = false then
    ((k.mlfq (k.proc p).level).push p).map fun q =>
      (k.setMlfq (k.proc p).level q).modProc p fun x => { x with inQueue := true }
  else .ok k

/-- The inner loop of `mlfq_scheduler`: take processes off a queue up to a runnable one. -/
def takeLevel (level : Fin NMLFQ) : ℕ → Kern → Except String (Kern × Option Slot)
  | 0, _ => .error nullDeref
  | fuel + 1, k =>
    if (k.mlfq level).size = 0 then .ok (k, none)
    else do
      let q ← (k.mlfq level).pop
      match (k.mlfq level).front with
      | none => .error nullDeref
      | some p =>
        let k' := (k.setMlfq level q).modProc p fun x => { x with inQueue := false }
        if (k'.proc p).state = .runnable then
          .ok (k'.modProc p fun x => { x with qEnter := k.ticks.toInt32 }, some p)
        else takeLevel level fuel k'

/-- The loop over the levels. -/
def takeLevels (k : Kern) : List (Fin NMLFQ) → Except String (Kern × Option Slot)
  | [] => .ok (k, none)
  | level :: levels => do
      let r ← takeLevel level (NPROC + 2) k
      match r.2 with
      | some p => .ok (r.1, some p)
      | none => takeLevels r.1 levels

def mlfqScheduler (k : Kern) : Except String (Kern × Option Slot) := do
  let k₁ ← k.ageing
  let k₂ ← slots.foldlM enqueueAt k₁
  k₂.takeLevels (List.finRange NMLFQ)

/-- The call of the built-in scheduler in `scheduler`. -/
def select (b : Build) (k : Kern) : Except String (Kern × Option Slot) :=
  match b with
  | .rr => .ok ((k.roundRobin).1, some (k.roundRobin).2)
  | .fcfs => .ok (k, some k.fcfs)
  | .pbs => .ok (k, some k.pbsScheduler)
  | .mlfq => k.mlfqScheduler

/-- Hart `h` starts to run the process `p`: the body of the dispatch block. A process that
resumes inside `sleep` clears its channel before it releases the lock it was given. -/
def run (k : Kern) (h : ℕ) (p : Slot) : Kern :=
  let k₁ := (k.actuallySetPriority (k.proc p).dynamicPriority (k.proc p).pid).1
  (k₁.modProc p fun x =>
    { x.countLevel with
      changeQueue := Int32.ofNat (1 <<< x.level.val)
      state := .running
      qEnter := k.ticks.toInt32
      nRun := x.nRun + 1
      chan := none }).setCpu h (some p)

/-- The block of `scheduler` that holds the lock of the selected process. -/
def dispatch (k : Kern) (h : ℕ) (p : Slot) : Kern :=
  if (k.proc p).state = .runnable then k.run h p else k.setCpu h none

end Kern

end Xv6
