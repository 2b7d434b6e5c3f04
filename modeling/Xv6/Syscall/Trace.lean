import Xv6.Lib.Run
import Xv6.Lib.Tally
import Xv6.Sched.Queue
import Mathlib.Tactic.IntervalCases

/-!
# Tracing system calls

`syscall` of `kernel/syscall.c`: the dispatch table, the table of names and the table of argument
counts, each written out by hand in the source, and the line that is printed for a traced call.
The processes trap into the kernel with any register contents; `sys_trace` sets the mask of a
process and `fork` hands it down.

The tables do not agree, and a line is printed by two or three calls of `printf`, each of which
takes the lock of the console and drops it. The lines printed in a run are the right ones if no
traced call is one of the five for which the tables differ, and nothing else is written to the
console between the parts of a line.
-/

namespace Xv6.Trace

open Lib

/-- The functions that `syscalls` holds. -/
inductive Sys
  | fork | exit | wait | pipe | read | kill | exec | fstat | chdir | dup | getpid | sbrk
  | sleep | uptime | open | write | mknod | unlink | link | mkdir | close | trace | waitx
  | setPriority
  deriving DecidableEq, Repr

/-- `syscalls`, with the numbers of `syscall.h`. -/
def syscalls : ℕ → Option Sys
  | 1 => some .fork
  | 2 => some .exit
  | 3 => some .wait
  | 4 => some .pipe
  | 5 => some .read
  | 6 => some .kill
  | 7 => some .exec
  | 8 => some .fstat
  | 9 => some .chdir
  | 10 => some .dup
  | 11 => some .getpid
  | 12 => some .sbrk
  | 13 => some .sleep
  | 14 => some .uptime
  | 15 => some .open
  | 16 => some .write
  | 17 => some .mknod
  | 18 => some .unlink
  | 19 => some .link
  | 20 => some .mkdir
  | 21 => some .close
  | 22 => some .trace
  | 23 => some .waitx
  | 24 => some .setPriority
  | _ => none

/-- What `SyscallNamesArray` stores; `none` is an entry it leaves uninitialised. -/
def syscallNamesArray : ℕ → Option String
  | 1 => some "fork"
  | 2 => some "exit"
  | 3 => some "wait"
  | 4 => some "pipe"
  | 5 => some "read"
  | 6 => some "kill"
  | 7 => some "exec"
  | 8 => some "fstat"
  | 9 => some "chdir"
  | 10 => some "dup"
  | 11 => some "getpid"
  | 12 => some "sbrk"
  | 13 => some "sleep"
  | 14 => some "uptime"
  | 15 => some "open"
  | 16 => some "write"
  | 17 => some "mknod"
  | 18 => some "unlink"
  | 19 => some "link"
  | 20 => some "mkdir"
  | 21 => some "close"
  | 22 => some "trace"
  | 23 => some "set_priority"
  | _ => none

/-- What `ArgumentCount` stores; `none` is an entry it leaves uninitialised. -/
def argumentCount : ℕ → Option ℕ
  | 1 => some 0
  | 2 => some 1
  | 3 => some 1
  | 4 => some 0
  | 5 => some 3
  | 6 => some 2
  | 7 => some 2
  | 8 => some 1
  | 9 => some 1
  | 10 => some 1
  | 11 => some 0
  | 12 => some 1
  | 13 => some 1
  | 14 => some 0
  | 15 => some 2
  | 16 => some 3
  | 17 => some 3
  | 18 => some 1
  | 19 => some 2
  | 20 => some 1
  | 21 => some 1
  | 22 => some 1
  | _ => none

/-- The name of the call: `sys_` and this name is the function. -/
def Sys.name : Sys → String
  | .fork => "fork"
  | .exit => "exit"
  | .wait => "wait"
  | .pipe => "pipe"
  | .read => "read"
  | .kill => "kill"
  | .exec => "exec"
  | .fstat => "fstat"
  | .chdir => "chdir"
  | .dup => "dup"
  | .getpid => "getpid"
  | .sbrk => "sbrk"
  | .sleep => "sleep"
  | .uptime => "uptime"
  | .open => "open"
  | .write => "write"
  | .mknod => "mknod"
  | .unlink => "unlink"
  | .link => "link"
  | .mkdir => "mkdir"
  | .close => "close"
  | .trace => "trace"
  | .waitx => "waitx"
  | .setPriority => "set_priority"

/-- How many argument registers the function fetches. -/
def Sys.arity : Sys → ℕ
  | .fork | .getpid | .uptime => 0
  | .exit | .wait | .pipe | .kill | .chdir | .dup | .sbrk | .sleep | .unlink | .mkdir | .close
  | .trace => 1
  | .exec | .fstat | .open | .link | .setPriority => 2
  | .read | .write | .mknod | .waitx => 3

/-- The registers of a trapframe that `syscall` reads. -/
structure Regs where
  a0 : BitVec 64
  a1 : BitVec 64
  a2 : BitVec 64
  a7 : BitVec 64

/-- A call that has been dispatched, with the arguments `syscall` saves before it. -/
structure Call where
  num : ℕ
  sys : Sys
  arg1 : BitVec 32
  arg2 : BitVec 32
  arg3 : BitVec 32
  dispatched : syscalls num = some sys

/-- A line that `syscall` prints for a traced call. The name and the arguments are `none` if the
table entry that decides on them is uninitialised. -/
@[ext] structure Line where
  pid : ℤ
  name : Option String
  args : Option (List (BitVec 32))
  ret : BitVec 32
  deriving DecidableEq

/-- The line that is printed, from the entries `names[num]` and `count[num]`. -/
def Call.printed (c : Call) (pid : ℤ) (ret : BitVec 64) : Line where
  pid := pid
  name := syscallNamesArray c.num
  args := (argumentCount c.num).map fun count =>
    (if count = 1 then [c.arg1] else []) ++ (if count = 2 then [c.arg1, c.arg2] else []) ++
      (if count = 3 then [c.arg1, c.arg2, c.arg3] else [])
  ret := ret.setWidth 32

/-- The line that should be printed: the name of the call and the arguments it takes. -/
def Call.faithful (c : Call) (pid : ℤ) (ret : BitVec 64) : Line where
  pid := pid
  name := some c.sys.name
  args := some ([c.arg1, c.arg2, c.arg3].take c.sys.arity)
  ret := ret.setWidth 32

/-- The calls whose entries in the three tables do not agree. -/
def Sys.Mislabelled (c : Sys) : Prop :=
  c = .pipe ∨ c = .kill ∨ c = .fstat ∨ c = .waitx ∨ c = .setPriority

instance (c : Sys) : Decidable c.Mislabelled := by
  unfold Sys.Mislabelled
  infer_instance

/-- The rows of the three tables, one by one. -/
theorem tables_agree_iff {num : ℕ} {c : Sys} (h : syscalls num = some c) :
    (syscallNamesArray num = some c.name ∧ argumentCount num = some c.arity) ↔
      ¬ c.Mislabelled := by
  unfold syscalls at h
  split at h <;> cases h <;> decide

theorem argumentCount_le {num count : ℕ} (h : argumentCount num = some count) : count ≤ 3 := by
  unfold argumentCount at h
  split at h <;> cases h <;> decide

/-- The arguments that are shown are the first `count` ones. -/
theorem Call.args_printed (c : Call) {pid : ℤ} {ret : BitVec 64} {count : ℕ}
    (h : argumentCount c.num = some count) :
    (c.printed pid ret).args = some ([c.arg1, c.arg2, c.arg3].take count) := by
  have hle := argumentCount_le h
  rw [printed, h]
  interval_cases count <;> rfl

/-- Where the tables agree, the line is the right one. -/
theorem Call.printed_eq (c : Call) (pid : ℤ) (ret : BitVec 64) (h : ¬ c.sys.Mislabelled) :
    c.printed pid ret = c.faithful pid ret := by
  obtain ⟨hname, hcount⟩ := (tables_agree_iff c.dispatched).mpr h
  ext1
  · rfl
  · exact hname
  · exact c.args_printed hcount
  · rfl

/-- What one call of `printf` writes: the parts of a line, or anything else. -/
inductive Piece
  | head (pid : ℤ) (name : Option String)
  | args (args : Option (List (BitVec 32)))
  | tail (ret : BitVec 32)
  | other
  deriving DecidableEq

/-- The parts of a line; there is no call of `printf` for an empty list of arguments. -/
def Line.pieces (l : Line) : List Piece :=
  .head l.pid l.name :: (if l.args = some [] then [] else [.args l.args]) ++ [.tail l.ret]

/-! ## The processes -/

/-- What a process is doing. -/
inductive Mode
  | unused
  /-- In user code, or on its way back to it. -/
  | user
  /-- Inside the function that `syscall` has called. -/
  | inCall (c : Call)
  /-- Back in `syscall`, which has written a part of the line `l` and has the rest to write. -/
  | printing (l : Line) (shown rest : List Piece)
  | zombie

/-- The parts of an unfinished line that are on the console. -/
def Mode.shown : Mode → List Piece
  | printing _ shown _ => shown
  | _ => []

/-- The line that is to be finished. -/
def Mode.pending : Mode → Multiset Line
  | printing l _ _ => {l}
  | _ => 0

/-- What is written and what is to be written make up the line. -/
def Mode.Fits : Mode → Prop
  | printing l shown rest => shown ++ rest = l.pieces
  | _ => True

def Mode.isPrinting : Mode → Bool
  | printing .. => true
  | _ => false

theorem shown_plain {m : Mode} (h : m.isPrinting = false) : m.shown = [] := by
  cases m <;> first | rfl | cases h

theorem pending_plain {m : Mode} (h : m.isPrinting = false) : m.pending = 0 := by
  cases m <;> first | rfl | cases h

theorem fits_plain {m : Mode} (h : m.isPrinting = false) : m.Fits := by
  cases m <;> trivial

/-- The fields of `struct proc` that tracing reads. -/
structure Proc where
  pid : ℤ
  mask : BitVec 32
  mode : Mode

/-- What has happened so far, as far as it matters to tracing. -/
inductive Event
  | returned (p : Slot) (pid : ℤ) (c : Call) (ret : BitVec 64)
  | forked (parent child : Slot)

/-- The kernel. The code does not read `history`, which holds the last event first. -/
structure Kernel where
  proc : Slot → Proc
  nextpid : ℤ
  console : List Piece
  history : List Event

/-- The traps of the processes, and how the functions they call end: all but `sys_trace` and
`sys_fork` return whatever the rest of the kernel decides on. -/
inductive Act
  | syscall (p : Slot) (regs : Regs)
  | ret (p : Slot) (v : BitVec 64)
  /-- `sys_fork` creates a process in the slot `np`. -/
  | fork (p np : Slot)
  /-- The next call of `printf` for the line of a traced call. -/
  | print (p : Slot)
  /-- Other output to the console: a message of the kernel, or of a process. -/
  | other
  /-- The process exits, in `sys_exit` or since it has been killed. -/
  | exit (p : Slot)
  /-- A parent frees the slot of the zombie. -/
  | reap (p : Slot)

/-- The function that `syscall` calls for the register `a7`. -/
def dispatch (regs : Regs) : Option Call :=
  let num := (regs.a7.setWidth 32).toInt
  if 0 < num ∧ num < 25 then
    match h : syscalls num.toNat with
    | some sys => some ⟨num.toNat, sys, regs.a0.setWidth 32, regs.a1.setWidth 32,
        regs.a2.setWidth 32, h⟩
    | none => none
  else none

/-- `(mask >> num) & 0x1` -/
def traces (mask : BitVec 32) (num : ℕ) : Bool := mask.sshiftRight num &&& 1 ≠ 0

namespace Kernel

variable {k u : Kernel} {p : Slot}

def setProc (k : Kernel) (p : Slot) (x : Proc) : Kernel :=
  { k with proc := Function.update k.proc p x }

/-- The function has returned `v` to `syscall`, which then reads the mask. -/
def finish (k : Kernel) (p : Slot) (c : Call) (v : BitVec 64) : Kernel :=
  let x := k.proc p
  let line := c.printed x.pid v
  { k.setProc p { x with mode := if traces x.mask c.num then .printing line [] line.pieces
                                 else .user } with
    history := .returned p x.pid c v :: k.history }

/-- A call of `printf` has written `x`, of the line `l`. -/
def print (k : Kernel) (p : Slot) (l : Line) (shown : List Piece) (x : Piece)
    (rest : List Piece) : Kernel :=
  { k.setProc p { k.proc p with mode := if rest = [] then .user
                                        else .printing l (shown ++ [x]) rest } with
    console := k.console ++ [x] }

/-- Something else has been written. -/
def other (k : Kernel) : Kernel := { k with console := k.console ++ [.other] }

/-- The functions that `syscall` calls, when they return. -/
def ret (k : Kernel) (p : Slot) (c : Call) (v : BitVec 64) : Option Kernel :=
  match c.sys with
  | .exit => none
  | .fork => some (k.finish p c (-1))
  | .trace => some ((k.setProc p { k.proc p with mask := c.arg1 }).finish p c 0)
  | _ => some (k.finish p c v)

/-- `fork` when it finds the free slot `np` and the memory it needs. -/
def fork (k : Kernel) (p : Slot) (c : Call) (np : Slot) : Kernel :=
  let pid := k.nextpid
  { k.setProc np ⟨pid, (k.proc p).mask, .user⟩ with
    nextpid := pid + 1
    history := .forked p np :: k.history }.finish p c (BitVec.ofInt 64 pid)

/-- One step of the kernel. A number that is not dispatched leads to a message that is not a
trace line. -/
def step (k : Kernel) : Act → Option Kernel
  | .syscall p regs => match (k.proc p).mode with
    | .user => match dispatch regs with
      | some c => some (k.setProc p { k.proc p with mode := .inCall c })
      | none => some k.other
    | _ => none
  | .ret p v => match (k.proc p).mode with
    | .inCall c => k.ret p c v
    | _ => none
  | .fork p np => match (k.proc p).mode, (k.proc np).mode with
    | .inCall c, .unused => if c.sys = .fork then some (k.fork p c np) else none
    | _, _ => none
  | .print p => match (k.proc p).mode with
    | .printing l shown (x :: rest) => some (k.print p l shown x rest)
    | _ => none
  | .other => some k.other
  | .exit p => match (k.proc p).mode with
    | .user => some (k.setProc p { k.proc p with mode := .zombie })
    | .inCall c =>
      if c.sys = .exit then some (k.setProc p { k.proc p with mode := .zombie }) else none
    | _ => none
  | .reap p => match (k.proc p).mode with
    | .zombie => some (k.setProc p { k.proc p with pid := 0, mode := .unused })
    | _ => none

/-- A step that writes to the console does not come between the parts of a line of another. -/
def Undisturbed (k : Kernel) : Act → Prop
  | .print p => ∀ q, q ≠ p → (k.proc q).mode.shown = []
  | .other => ∀ q, (k.proc q).mode.shown = []
  | .syscall _ regs => dispatch regs = none → ∀ q, (k.proc q).mode.shown = []
  | _ => True

instance (k : Kernel) (a : Act) : Decidable (k.Undisturbed a) := by
  unfold Undisturbed
  split
  · infer_instance
  · infer_instance
  · exact decidable_of_iff ((dispatch _).isNone = true → ∀ q, (k.proc q).mode.shown = [])
      (by rw [Option.isNone_iff_eq_none])
  · infer_instance

/-- After `userinit`: the first process is about to run. -/
def boot : Kernel where
  proc p := if p = 0 then ⟨1, 0, .user⟩ else ⟨0, 0, .unused⟩
  nextpid := 2
  console := []
  history := []

end Kernel

/-! ## The lines that should be printed -/

/-- The mask of the process in a slot: the last argument of its `sys_trace`, or else the one it
has inherited. -/
def currentMask : List Event → Slot → BitVec 32
  | [], _ => 0
  | .returned p _ c _ :: es, q =>
    if p = q ∧ c.sys = .trace then c.arg1 else currentMask es q
  | .forked p np :: es, q => if np = q then currentMask es p else currentMask es q

/-- The last event is the return of a call that the mask of the process selects. -/
def Traced (p : Slot) (c : Call) (es : List Event) : Prop :=
  (currentMask es p).getLsbD c.num = true

instance (p : Slot) (c : Call) (es : List Event) : Decidable (Traced p c es) := by
  unfold Traced
  infer_instance

/-- One line for each traced call that has returned. -/
def traceLines (line : Call → ℤ → BitVec 64 → Line) : List Event → List Line
  | [] => []
  | .returned p pid c v :: es =>
    traceLines line es ++
      if Traced p c (.returned p pid c v :: es) then [line c pid v] else []
  | .forked _ _ :: es => traceLines line es

/-- The lines agree if those of each traced call do. -/
theorem traceLines_congr {f g : Call → ℤ → BitVec 64 → Line} {es : List Event}
    (h : ∀ p pid c v rest, .returned p pid c v :: rest <:+ es →
      Traced p c (.returned p pid c v :: rest) → f c pid v = g c pid v) :
    traceLines f es = traceLines g es := by
  induction es with
  | nil => rfl
  | cons e es ih =>
    have hrest := ih fun p pid c v rest hsuffix =>
      h p pid c v rest (List.suffix_cons_iff.mpr (.inr hsuffix))
    cases e with
    | returned p pid c v =>
      rw [traceLines, traceLines, hrest]
      split
      · next htraced => rw [h p pid c v es List.suffix_rfl htraced]
      · rfl
    | forked p np => exact hrest

theorem traces_eq_getLsbD (mask : BitVec 32) {num : ℕ} (h : num < 32) :
    traces mask num = mask.getLsbD num := by
  have hbit : (mask.sshiftRight num).getLsbD 0 = mask.getLsbD num := by
    rw [BitVec.getLsbD_sshiftRight]
    simp [h]
  have hand := BitVec.and_one_eq_setWidth_ofBool_getLsbD (x := mask.sshiftRight num)
  rw [hbit] at hand
  unfold traces
  rw [show (1 : BitVec 32) = 1#32 from rfl, hand]
  cases mask.getLsbD num <;> decide

theorem Call.num_lt (c : Call) : c.num < 32 := by
  have h := c.dispatched
  unfold syscalls at h
  split at h <;> first | omega | cases h

namespace Kernel

variable {k u : Kernel} {p np : Slot} {c : Call} {v : BitVec 64}

attribute [local simp] setProc currentMask Kernel.finish

/-- A move of a process that neither prints a line nor has one to print. -/
structure Plain (k : Kernel) (p : Slot) (x : Proc) : Prop where
  mask : x.mask = (k.proc p).mask
  old : (k.proc p).mode.isPrinting = false
  new : x.mode.isPrinting = false

/-- Every move of the kernel, as far as tracing sees it. -/
inductive Moves (k : Kernel) : Act → Kernel → Prop
  | plain {a : Act} {p : Slot} {x : Proc} (hx : Plain k p x) : Moves k a (k.setProc p x)
  | returned {a : Act} {p : Slot} {c : Call} {v : BitVec 64}
      (hp : (k.proc p).mode.isPrinting = false) (hc : c.sys ≠ .trace) : Moves k a (k.finish p c v)
  | traced {a : Act} {p : Slot} {c : Call} (hp : (k.proc p).mode.isPrinting = false)
      (hc : c.sys = .trace) :
      Moves k a ((k.setProc p { k.proc p with mask := c.arg1 }).finish p c 0)
  | forked {a : Act} {p np : Slot} {c : Call} (hp : (k.proc p).mode.isPrinting = false)
      (hnp : (k.proc np).mode.isPrinting = false) (hne : p ≠ np) (hc : c.sys = .fork) :
      Moves k a (k.fork p c np)
  | print {p : Slot} {l : Line} {shown rest : List Piece} {x : Piece}
      (hp : (k.proc p).mode = .printing l shown (x :: rest)) :
      Moves k (.print p) (k.print p l shown x rest)
  | other {a : Act} (hund : k.Undisturbed a → ∀ q, (k.proc q).mode.shown = []) :
      Moves k a k.other

theorem moves_ret {a : Act} (hp : (k.proc p).mode.isPrinting = false) (h : k.ret p c v = some u) :
    Moves k a u := by
  unfold ret at h
  split at h <;> cases h
  · next hc => exact .returned hp (by simp [hc])
  · next hc => exact .traced hp hc
  · next hc => exact .returned hp hc

theorem moves_of_step {a : Act} (h : k.step a = some u) : Moves k a u := by
  cases a with
  | syscall p regs =>
    simp only [step] at h
    split at h
    · next hp =>
        split at h
        · cases h
          exact .plain ⟨rfl, by rw [hp]; rfl, rfl⟩
        · next hnone =>
            cases h
            exact .other fun hund => hund hnone
    · cases h
  | ret p v =>
    simp only [step] at h
    split at h
    · next hp => exact moves_ret (by rw [hp]; rfl) h
    · cases h
  | fork p np =>
    simp only [step] at h
    split at h
    · next hp hnp =>
        split_ifs at h with hc
        cases h
        refine .forked (by rw [hp]; rfl) (by rw [hnp]; rfl) (fun heq => ?_) hc
        rw [heq, hnp] at hp
        cases hp
    · cases h
  | print p =>
    simp only [step] at h
    split at h
    · next hp =>
        cases h
        exact .print hp
    · cases h
  | other =>
    cases h
    exact .other id
  | exit p =>
    simp only [step] at h
    split at h
    · next hp =>
        cases h
        exact .plain ⟨rfl, by rw [hp]; rfl, rfl⟩
    · next hp =>
        split_ifs at h
        cases h
        exact .plain ⟨rfl, by rw [hp]; rfl, rfl⟩
    · cases h
  | reap p =>
    simp only [step] at h
    split at h
    · next hp =>
        cases h
        exact .plain ⟨rfl, by rw [hp]; rfl, rfl⟩
    · cases h

/-! ## The masks of a run -/

/-- The masks are those of the history. -/
def Masks (k : Kernel) : Prop := ∀ q, (k.proc q).mask = currentMask k.history q

theorem mask_setProc {x : Proc} (hx : x.mask = (k.proc p).mask) (q : Slot) :
    ((k.setProc p x).proc q).mask = (k.proc q).mask := update_proj Proc.mask hx q

theorem mask_finish (q : Slot) : ((k.finish p c v).proc q).mask = (k.proc q).mask := by
  refine update_proj Proc.mask ?_ q
  rfl

theorem Masks.finish (h : k.Masks) (hc : c.sys ≠ .trace) : (k.finish p c v).Masks := by
  intro q
  rw [mask_finish, h]
  simp [hc]

/-- A new process has the mask of its parent. -/
theorem Masks.child (h : k.Masks) (p np : Slot) (pid nextpid : ℤ) (mode : Mode) :
    Masks { k.setProc np ⟨pid, (k.proc p).mask, mode⟩ with
      nextpid := nextpid, history := .forked p np :: k.history } := by
  intro q
  by_cases hq : q = np
  · subst hq
    simp [h p]
  · simp [hq, Ne.symm hq, h q]

theorem Masks.moves {a : Act} (h : k.Masks) (hm : Moves k a u) : u.Masks := by
  cases hm with
  | plain hx => exact fun q => (mask_setProc hx.mask q).trans (h q)
  | returned _ hc => exact h.finish hc
  | @traced _ p c _ hc =>
    intro q
    rw [mask_finish]
    by_cases hq : q = p
    · subst hq
      simp [hc]
    · simp [hq, Ne.symm hq, h q]
  | forked _ _ _ hc => exact (h.child _ _ _ _ _).finish (by simp [hc])
  | print _ =>
    intro q
    refine Eq.trans (update_proj Proc.mask ?_ q) (h q)
    rfl
  | other _ => exact h

/-! ## The lines of a run -/

/-- The console is made of whole lines and of what is not part of one. -/
inductive Segment
  | line (l : Line)
  | other

def Segment.pieces : Segment → List Piece
  | line l => l.pieces
  | other => [.other]

def Segment.line? : Segment → Option Line
  | line l => some l
  | other => none

/-- The console holds segments, and the parts of the one line that is being printed. The lines
there and those still to be finished are those of the traced calls that have returned. -/
structure Shows (k : Kernel) : Prop where
  fits : ∀ q, (k.proc q).mode.Fits
  console : ∃ (segs : List Segment) (q : Slot),
    k.console = segs.flatMap Segment.pieces ++ (k.proc q).mode.shown ∧
    (∀ r, r ≠ q → (k.proc r).mode.shown = []) ∧
    (segs.filterMap Segment.line? : Multiset Line) + ∑ r, (k.proc r).mode.pending =
      (traceLines Call.printed k.history : Multiset Line)

section
variable (h : k.Shows) (hold : (k.proc p).mode.isPrinting = false)
include h hold

/-- A process moves on without writing; it may have a line to print then, that of a call that has
returned. -/
theorem Shows.unwritten {x : Proc} {l : List Line} (hproc : u.proc = Function.update k.proc p x)
    (hconsole : u.console = k.console) (hfits : x.mode.Fits) (hshown : x.mode.shown = [])
    (hpending : x.mode.pending = l)
    (hlines : traceLines Call.printed u.history = traceLines Call.printed k.history ++ l) :
    u.Shows := by
  have hsame : ∀ q, (u.proc q).mode.shown = (k.proc q).mode.shown := by
    rw [hproc]
    exact update_proj (fun x : Proc => x.mode.shown) (by rw [shown_plain hold, hshown])
  have hsum := sum_update_add (fun x : Proc => x.mode.pending) k.proc p x
  rw [pending_plain hold, add_zero, hpending] at hsum
  obtain ⟨segs, q, hsegs, hothers, hall⟩ := h.console
  refine ⟨?_, segs, q, by rw [hconsole, hsame, hsegs], fun r hr => by rw [hsame, hothers r hr], ?_⟩
  · rw [hproc]
    exact (Function.forall_update_iff k.proc fun _ y => y.mode.Fits).mpr ⟨hfits, fun q _ => h.fits q⟩
  · rw [hproc, hsum, ← add_assoc, hall, hlines, Multiset.coe_add]

theorem Shows.keep {x : Proc} (hnew : x.mode.isPrinting = false) : (k.setProc p x).Shows :=
  h.unwritten (l := []) hold rfl rfl (fits_plain hnew) (shown_plain hnew) (pending_plain hnew)
    (List.append_nil _).symm

/-- A call returns, and has its line to print if it is traced. -/
theorem Shows.finish
    (hmask : (k.proc p).mask = currentMask (.returned p (k.proc p).pid c v :: k.history) p) :
    (k.finish p c v).Shows := by
  have htraces : traces (k.proc p).mask c.num = true ↔
      Traced p c (.returned p (k.proc p).pid c v :: k.history) := by
    rw [traces_eq_getLsbD _ c.num_lt, Traced, hmask]
  refine h.unwritten hold rfl rfl ?_ ?_ ?_ rfl
  · dsimp only
    split <;> first | rfl | trivial
  · dsimp only
    split <;> rfl
  · simp only [htraces]
    split <;> rfl

end

/-- Under way, the console ends with what the process has written of its line, if no other line is
unfinished. -/
theorem Shows.ends (h : k.Shows) (hund : ∀ q, q ≠ p → (k.proc q).mode.shown = []) :
    ∃ segs : List Segment, k.console = segs.flatMap Segment.pieces ++ (k.proc p).mode.shown ∧
      (segs.filterMap Segment.line? : Multiset Line) + ∑ r, (k.proc r).mode.pending =
        (traceLines Call.printed k.history : Multiset Line) := by
  obtain ⟨segs, q, hconsole, hothers, hlines⟩ := h.console
  refine ⟨segs, hconsole.trans ?_, hlines⟩
  by_cases hq : q = p
  · rw [hq]
  · rw [hund q hq, hothers p (Ne.symm hq)]

/-- A part of a line is written while no other line is unfinished. -/
theorem Shows.print (h : k.Shows) {l : Line} {shown rest : List Piece} {x : Piece}
    (hp : (k.proc p).mode = .printing l shown (x :: rest))
    (hund : ∀ q, q ≠ p → (k.proc q).mode.shown = []) : (k.print p l shown x rest).Shows := by
  have hfits := h.fits p
  obtain ⟨segs, hconsole, hlines⟩ := h.ends hund
  rw [hp] at hfits hconsole
  have hline : shown ++ x :: rest = l.pieces := hfits
  have hothers : ∀ r, r ≠ p → ((k.print p l shown x rest).proc r).mode.shown = [] := by
    intro r hr
    rw [show (k.print p l shown x rest).proc r = k.proc r from Function.update_of_ne hr ..]
    exact hund r hr
  have hsum := sum_update_add (fun x : Proc => x.mode.pending) k.proc p
    ((k.print p l shown x rest).proc p)
  have hupdate : Function.update k.proc p ((k.print p l shown x rest).proc p) =
      (k.print p l shown x rest).proc := by
    rw [show (k.print p l shown x rest).proc p = _ from Function.update_self ..]
    rfl
  rw [hupdate, hp] at hsum
  by_cases hrest : rest = []
  · subst hrest
    have hself : ((k.print p l shown x []).proc p).mode = .user := by simp [Kernel.print]
    rw [hself] at hsum
    refine ⟨?_, segs ++ [.line l], p, ?_, hothers, ?_⟩
    · rw [← hupdate]
      refine (Function.forall_update_iff k.proc fun _ y => y.mode.Fits).mpr ⟨?_, fun q _ => h.fits q⟩
      rw [hself]
      trivial
    · rw [hself, show (k.print p l shown x []).console = k.console ++ [x] from rfl, hconsole]
      simp [Mode.shown, Segment.pieces, ← hline]
    · have hsum : ∑ r, ((k.print p l shown x []).proc r).mode.pending + {l} =
          ∑ r, (k.proc r).mode.pending + 0 := hsum
      have hsegs : (segs ++ [Segment.line l]).filterMap Segment.line? =
          segs.filterMap Segment.line? ++ [l] := by simp [Segment.line?]
      rw [hsegs, ← Multiset.coe_add, Multiset.coe_singleton, add_assoc,
        add_comm ({l} : Multiset Line), hsum, add_zero]
      exact hlines
  · have hself : ((k.print p l shown x rest).proc p).mode = .printing l (shown ++ [x]) rest := by
      simp [Kernel.print, hrest]
    rw [hself] at hsum
    refine ⟨?_, segs, p, ?_, hothers, ?_⟩
    · rw [← hupdate]
      refine (Function.forall_update_iff k.proc fun _ y => y.mode.Fits).mpr ⟨?_, fun q _ => h.fits q⟩
      rw [hself]
      exact (List.append_assoc ..).trans hline
    · rw [hself, show (k.print p l shown x rest).console = k.console ++ [x] from rfl, hconsole]
      exact List.append_assoc ..
    · rw [add_right_cancel hsum]
      exact hlines

theorem Shows.other (h : k.Shows) (hund : ∀ q, (k.proc q).mode.shown = []) : k.other.Shows := by
  obtain ⟨segs, q, hconsole, hothers, hlines⟩ := h.console
  have hsegs : (segs ++ [Segment.other]).filterMap Segment.line? = segs.filterMap Segment.line? := by
    simp [Segment.line?]
  refine ⟨h.fits, segs ++ [.other], q, ?_, hothers, by rw [hsegs]; exact hlines⟩
  rw [show k.other.console = k.console ++ [.other] from rfl, hconsole]
  simp [Kernel.other, hund q, Segment.pieces]

theorem Shows.moves {a : Act} (h : k.Shows) (hk : k.Masks) (hm : Moves k a u)
    (hund : k.Undisturbed a) : u.Shows := by
  cases hm with
  | plain hx => exact h.keep hx.old hx.new
  | returned hp hc => exact h.finish hp (by simp [hc, hk _])
  | @traced _ p c hp hc =>
    have hset : (k.setProc p { k.proc p with mask := c.arg1 }).Shows := h.keep hp hp
    refine hset.finish (by simpa using hp) ?_
    simp [hc]
  | @forked _ p np c hp hnp hne hc =>
    have hchild : Shows { k.setProc np ⟨k.nextpid, (k.proc p).mask, .user⟩ with
        nextpid := k.nextpid + 1, history := .forked p np :: k.history } :=
      { h.keep hnp rfl with }
    refine hchild.finish (by simpa [hne] using hp) ?_
    simp [hc, hne, hne.symm, hk p]
  | print hp => exact h.print hp hund
  | other hsay => exact h.other (hsay hund)

theorem shows_boot : boot.Shows := by
  have hmode : ∀ q, (boot.proc q).mode.isPrinting = false := by decide
  refine ⟨fun q => fits_plain (hmode q), [], 0, rfl, fun r _ => shown_plain (hmode r), ?_⟩
  exact (zero_add _).trans (Finset.sum_eq_zero fun r _ => pending_plain (hmode r))

theorem masks_boot : boot.Masks := by
  intro q
  unfold boot
  dsimp only
  split <;> rfl

theorem shows_of_exec {as : List Act} (h : exec step boot as = some k)
    (hund : ∀ s a, Takes step boot as s a → s.Undisturbed a) : k.Shows := by
  refine (Visits.induction (P := fun k => Masks k ∧ Shows k) ⟨masks_boot, shows_boot⟩ ?_
    (Visits.last h)).2
  rintro s a t htakes hstep ⟨hmasks, hshows⟩
  have hm := moves_of_step hstep
  exact ⟨hmasks.moves hm, hshows.moves hmasks hm (hund s a htakes)⟩

/-- No table entry that the part is made from is uninitialised. -/
def Initialised : Piece → Prop
  | .head _ name => name ≠ none
  | .args args => args ≠ none
  | _ => True

/-- The console holds one faithful line for each traced call that has returned, each in one piece,
and nothing on it comes from an uninitialised entry of a table. -/
def Faithful (k : Kernel) : Prop :=
  (∃ segs : List Segment, k.console = segs.flatMap Segment.pieces ∧
    (segs.filterMap Segment.line?).Perm (traceLines Call.faithful k.history)) ∧
  ∀ x ∈ k.console, Initialised x

theorem faithful_of_mem {es : List Event} {l : Line} (hl : l ∈ traceLines Call.faithful es) :
    l.name ≠ none ∧ l.args ≠ none := by
  induction es with
  | nil => cases hl
  | cons e es ih =>
    cases e with
    | returned p pid c v =>
      rw [traceLines, List.mem_append] at hl
      obtain hl | hl := hl
      · exact ih hl
      · split at hl
        · cases List.mem_singleton.mp hl
          simp [Call.faithful]
        · cases hl
    | forked p np => exact ih hl

theorem initialised_pieces {l : Line} (hname : l.name ≠ none) (hargs : l.args ≠ none) :
    ∀ x ∈ l.pieces, Initialised x := by
  intro x hx
  simp only [Line.pieces, List.cons_append, List.mem_cons, List.mem_append, List.mem_ite_nil_left,
    List.not_mem_nil, or_false] at hx
  obtain rfl | ⟨-, rfl⟩ | rfl := hx
  · exact hname
  · exact hargs
  · trivial

/-- **Tracing.** In a run in which nothing is written to the console between the parts of a line,
and no traced call that has returned is one for which the tables disagree, the console holds the
faithful lines whenever no process has a line to finish. -/
theorem faithful_of_undisturbed {as : List Act} (h : exec step boot as = some k)
    (hund : ∀ s a, Takes step boot as s a → s.Undisturbed a)
    (hquiet : ∀ q, (k.proc q).mode.isPrinting = false)
    (htables : ∀ p pid c v es, .returned p pid c v :: es <:+ k.history →
      Traced p c (.returned p pid c v :: es) → ¬ c.sys.Mislabelled) : k.Faithful := by
  obtain ⟨segs, q, hconsole, -, hlines⟩ := (shows_of_exec h hund).console
  rw [shown_plain (hquiet q), List.append_nil] at hconsole
  rw [Finset.sum_eq_zero fun r _ => pending_plain (hquiet r), add_zero,
    traceLines_congr fun p pid c v es hsuffix htraced =>
      c.printed_eq pid v (htables p pid c v es hsuffix htraced), Multiset.coe_eq_coe] at hlines
  refine ⟨⟨segs, hconsole, hlines⟩, fun x hx => ?_⟩
  rw [hconsole, List.mem_flatMap] at hx
  obtain ⟨seg, hseg, hx⟩ := hx
  cases seg with
  | line l =>
    have hl : l ∈ traceLines Call.faithful k.history :=
      hlines.mem_iff.mp (List.mem_filterMap.mpr ⟨_, hseg, rfl⟩)
    obtain ⟨hname, hargs⟩ := faithful_of_mem hl
    exact initialised_pieces hname hargs x hx
  | other =>
    cases List.mem_singleton.mp hx
    trivial

/-- The first process has `fork` and `getpid` traced, and forks. The child calls `getpid`, and
prints its line before its parent does. -/
def forkedRun : List Act :=
  [.syscall 0 ⟨0x802, 0, 0, 22⟩, .ret 0 0, .syscall 0 ⟨0, 0, 0, 1⟩, .fork 0 1,
    .syscall 1 ⟨0, 0, 0, 11⟩, .ret 1 2, .print 1, .print 1, .other, .print 0, .print 0]

theorem faithful_of_undisturbed_forkedRun : ∃ k, exec step boot forkedRun = some k ∧
    k.console = [.head 2 (some "getpid"), .tail 2, .other, .head 1 (some "fork"), .tail 2] ∧
    k.Faithful := by
  obtain ⟨k, hrun, hquiet, hconsole, htables⟩ : ∃ k,
      exec (guarded Undisturbed step) boot forkedRun = some k ∧
      (∀ q, (k.proc q).mode.isPrinting = false) ∧
      k.console = [.head 2 (some "getpid"), .tail 2, .other, .head 1 (some "fork"), .tail 2] ∧
      k.history.all fun e => match e with
        | .returned _ _ c _ => decide (¬ c.sys.Mislabelled)
        | .forked _ _ => true := ⟨_, rfl, by decide, by decide, by decide⟩
  obtain ⟨hexec, hund⟩ := exec_guarded hrun
  refine ⟨k, hexec, hconsole, faithful_of_undisturbed hexec hund hquiet ?_⟩
  intro p pid c v es hsuffix _
  simpa using List.all_eq_true.mp htables _ (hsuffix.subset List.mem_cons_self)

/-- The first process asks for its calls of `waitx` to be traced, and makes one. -/
def waitxRun : List Act :=
  [.syscall 0 ⟨1 <<< 23, 0, 0, 22⟩, .ret 0 0, .syscall 0 ⟨1, 2, 3, 23⟩, .ret 0 (-1), .print 0,
    .print 0, .print 0]

/-- A traced `waitx` is reported as `set_priority`, with as many arguments as an uninitialised
entry says. -/
theorem waitx_mislabelled : ∃ k, exec step boot waitxRun = some k ∧
    k.console = [.head 1 (some "set_priority"), .args none, .tail (-1)] ∧ ¬ k.Faithful := by
  obtain ⟨k, hrun, hconsole⟩ : ∃ k, exec step boot waitxRun = some k ∧
      k.console = [.head 1 (some "set_priority"), .args none, .tail (-1)] := ⟨_, rfl, by decide⟩
  refine ⟨k, hrun, hconsole, fun hf => ?_⟩
  have hargs := hf.2 (.args none) (by simp [hconsole])
  exact hargs rfl

end Kernel

end Xv6.Trace
