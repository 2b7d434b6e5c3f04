import Xv6.Log.Group
import Xv6.Lib.Count
import Xv6.Sleep.Kernel

/-!
# The processes that wait in `begin_op`

`begin_op`, `log_write` and `end_op`, with the `sleep` of `begin_op` and the `wakeup` of `end_op`
line by line: a waiting process gives up `log.lock` before it is marked `SLEEPING`, `wakeup`
visits the processes one after another under their own locks, and `commit` runs without
`log.lock`. A stretch under `log.lock` that takes no other lock is one step. A process that is
preempted takes no step.

Whenever `log.lock` is free, what a sleeping process waits for has not come about yet.
-/

namespace Xv6

open Lib Lib.Dev Sleep
open Function (update update_apply)

/-- Where a process is. The scan of `wakeup` carries the processes it has still to visit. -/
inductive WaitPc (n : ℕ)
  /-- Outside an operation. -/
  | idle
  /-- In the `sleep` of `begin_op`. -/
  | sleep (pc : SleepAt)
  /-- Between `begin_op` and `end_op`. -/
  | active
  /-- In the `commit` of `end_op`; `leave` is the `acquire(&log.lock)` after it. -/
  | commit (c : CommitPc)
  /-- In one of the two calls of `wakeup` of `end_op`. -/
  | wakeup (ps : List (Fin n)) (pc : ScanAt)
  deriving DecidableEq

/-- The kernel as the waiting of `begin_op` sees it, with `n` processes. -/
structure LogKernel (n : ℕ) where
  mem : Mem
  disk : Disk
  /-- The holder of `log.lock`. -/
  lock : Option (Fin n)
  /-- The holder of `p->lock`, if it is a process and not the scheduler. -/
  plock : Fin n → Option (Fin n)
  state : Fin n → ProcState
  /-- `p->chan == &log` -/
  chan : Fin n → Bool
  pc : Fin n → WaitPc n

/-- The calls of the processes, the lines of the calls that take several steps, the scheduler
running a process, and `kill`. -/
inductive WaitAct (n : ℕ)
  | beginOp (p : Fin n)
  | logWrite (p : Fin n) (b : BlockNo)
  | endOp (p : Fin n)
  | run (p : Fin n)
  | dispatch (p : Fin n)
  | kill (p : Fin n)
  deriving DecidableEq

namespace LogKernel

variable {n : ℕ} {s u : LogKernel n} {p q : Fin n}

attribute [local simp] update_apply

/-- The operation that `begin_op` would start has to wait. -/
def Full (s : LogKernel n) : Prop :=
  s.mem.log.committing = true ∨
    (s.mem.log.lh.length : ℤ) + (s.mem.log.outstanding + 1) * MAXOPBLOCKS > LOGSIZE

instance (s : LogKernel n) : Decidable s.Full := by
  unfold Full
  infer_instance

@[simps] def setLog (s : LogKernel n) (l : Log) : LogKernel n :=
  { s with mem := { s.mem with log := l } }

@[simps] def setLock (s : LogKernel n) (o : Option (Fin n)) : LogKernel n := { s with lock := o }

@[simps] def setPc (s : LogKernel n) (p : Fin n) (c : WaitPc n) : LogKernel n :=
  { s with pc := update s.pc p c }

@[simps] def setPlock (s : LogKernel n) (p : Fin n) (o : Option (Fin n)) : LogKernel n :=
  { s with plock := update s.plock p o }

@[simps] def setState (s : LogKernel n) (p : Fin n) (st : ProcState) : LogKernel n :=
  { s with state := update s.state p st }

@[simps] def setChan (s : LogKernel n) (p : Fin n) (c : Bool) : LogKernel n :=
  { s with chan := update s.chan p c }

/-- `begin_op` once it has the room it needs. -/
@[simp] def enterOp (s : LogKernel n) (p : Fin n) : LogKernel n :=
  (s.setLog { s.mem.log with outstanding := s.mem.log.outstanding + 1 }).setPc p .active

/-- `acquire(&log.lock)` and one turn of the loop of `begin_op`. -/
def beginOp (s : LogKernel n) (p : Fin n) : LogKernel n :=
  if s.Full then (s.setLock p).setPc p (.sleep .enter) else s.enterOp p

/-- `wakeup(&log)` is called, with `log.lock` held. -/
@[simp] def startWakeup (s : LogKernel n) (p : Fin n) : LogKernel n :=
  (s.setLock p).setPc p (.wakeup (List.finRange n) .head)

/-- The end of an operation that is not the last one outstanding, up to its `wakeup`. -/
@[simp] def endInner (s : LogKernel n) (p : Fin n) : LogKernel n :=
  (s.setLog { s.mem.log with outstanding := s.mem.log.outstanding - 1 }).startWakeup p

/-- The end of the last operation outstanding: `committing` is set and `commit` begins. -/
@[simp] def endLast (s : LogKernel n) (p : Fin n) : LogKernel n :=
  (s.setLog { s.mem.log with
    outstanding := s.mem.log.outstanding - 1, committing := true }).setPc p (.commit .enter)

/-- The first stretch of `end_op` under `log.lock`. -/
def endOp (s : LogKernel n) (p : Fin n) : Option (LogKernel n) :=
  if s.mem.log.committing then none
  else if s.mem.log.outstanding - 1 = 0 then some (s.endLast p)
  else some (s.endInner p)

/-- `acquire(&log.lock); log.committing = 0;` after the commit, up to the `wakeup`. -/
@[simp] def leave (s : LogKernel n) (p : Fin n) : LogKernel n :=
  (s.setLog { s.mem.log with committing := false }).startWakeup p

/-- One statement of `commit`. -/
@[simp] def commitStmt (s : LogKernel n) (p : Fin n) (c : CommitPc) : LogKernel n :=
  { s with mem := c.stmt.state s.mem s.disk, disk := c.stmt.disk s.mem s.disk }.setPc p
    (.commit (c.stmt.val s.mem s.disk))

/-- One line of `sleep(&log, &log.lock)`; `sched` gives `p->lock` to the scheduler, which
releases it. -/
def sleepLine (s : LogKernel n) (p : Fin n) : SleepAt → Option (LogKernel n)
  | .enter => if s.plock p = none then some ((s.setPlock p p).setPc p (.sleep .locked)) else none
  | .locked => some ((s.setLock none).setPc p (.sleep .unlocked))
  | .unlocked => some ((s.setChan p true).setPc p (.sleep .marked))
  | .marked => some ((s.setState p .sleeping).setPc p (.sleep .asleep))
  | .asleep => some ((s.setPlock p none).setPc p (.sleep .resumed))
  | .resumed =>
    if s.state p = .running then some ((s.setChan p false).setPc p (.sleep .tidied)) else none
  | .tidied => some ((s.setPlock p none).setPc p (.sleep .relock))
  | .relock => if s.lock = none then some (s.beginOp p) else none

/-- One line of `wakeup(&log)`; after the last process, `end_op` releases `log.lock` and
returns. -/
def wakeupLine (s : LogKernel n) (p : Fin n) : List (Fin n) → ScanAt → Option (LogKernel n)
  | [], _ => some ((s.setLock none).setPc p .idle)
  | q :: ps, .head =>
    if q = p then some (s.setPc p (.wakeup ps .head))
    else if s.plock q = none then some ((s.setPlock q p).setPc p (.wakeup (q :: ps) .test))
    else none
  | q :: ps, .test =>
    some ((if s.state q = .sleeping ∧ s.chan q then s.setState q .runnable else s).setPc p
      (.wakeup (q :: ps) .unlock))
  | q :: ps, .unlock => some ((s.setPlock q none).setPc p (.wakeup ps .head))

/-- One step of the kernel. A panic ends the run. -/
def step (s : LogKernel n) : WaitAct n → Option (LogKernel n)
  | .beginOp p => if s.pc p = .idle ∧ s.lock = none then some (s.beginOp p) else none
  | .logWrite p b =>
    if s.pc p = .active ∧ s.lock = none then
      match logWrite s.mem b with
      | .ok m => some { s with mem := m }
      | .error _ => none
    else none
  | .endOp p => if s.pc p = .active ∧ s.lock = none then s.endOp p else none
  | .run p => match s.pc p with
    | .sleep pc => s.sleepLine p pc
    | .commit .leave => if s.lock = none then some (s.leave p) else none
    | .commit c => some (s.commitStmt p c)
    | .wakeup ps pc => s.wakeupLine p ps pc
    | _ => none
  | .dispatch p =>
    if s.pc p = .sleep .resumed ∧ s.state p = .runnable ∧ s.plock p = none then
      some ((s.setState p .running).setPlock p p)
    else none
  | .kill p =>
    if s.state p = .sleeping ∧ s.plock p = none then some (s.setState p .runnable) else none

/-- After `initlog`: no operation has begun and the header is clear. -/
def boot (start : BlockNo) (size : ℤ) (disk : Disk) : LogKernel n where
  mem := bootMem { start, size, outstanding := 0, committing := false, lh := [] }
  disk := disk
  lock := none
  plock := fun _ => none
  state := fun _ => .running
  chan := fun _ => false
  pc := fun _ => .idle

/-! ## What a step can do -/

/-- Every move of the kernel, with what the code has checked before it. -/
inductive Line (s : LogKernel n) : LogKernel n → Prop
  | wait {p : Fin n} (hp : s.pc p = .idle ∨ s.pc p = .sleep .relock) (hlock : s.lock = none)
      (hfull : s.Full) : Line s ((s.setLock p).setPc p (.sleep .enter))
  | enterOp {p : Fin n} (hp : s.pc p = .idle ∨ s.pc p = .sleep .relock) (hlock : s.lock = none)
      (hfull : ¬ s.Full) : Line s (s.enterOp p)
  | log {p : Fin n} {b : BlockNo} {m : Mem} (hp : s.pc p = .active) (hlock : s.lock = none)
      (hlog : logWrite s.mem b = .ok m) : Line s { s with mem := m }
  | endLast {p : Fin n} (hp : s.pc p = .active) (hlock : s.lock = none)
      (hcommitting : s.mem.log.committing = false) (hout : s.mem.log.outstanding - 1 = 0) :
      Line s (s.endLast p)
  | endInner {p : Fin n} (hp : s.pc p = .active) (hlock : s.lock = none)
      (hcommitting : s.mem.log.committing = false) (hout : s.mem.log.outstanding - 1 ≠ 0) :
      Line s (s.endInner p)
  | commitStmt {p : Fin n} {c : CommitPc} (hp : s.pc p = .commit c) (hc : c ≠ .leave) :
      Line s (s.commitStmt p c)
  | leave {p : Fin n} (hp : s.pc p = .commit .leave) (hlock : s.lock = none) :
      Line s (s.leave p)
  | lockProc {p : Fin n} (hp : s.pc p = .sleep .enter) (hplock : s.plock p = none) :
      Line s ((s.setPlock p p).setPc p (.sleep .locked))
  | releaseLog {p : Fin n} (hp : s.pc p = .sleep .locked) :
      Line s ((s.setLock none).setPc p (.sleep .unlocked))
  | chan {p : Fin n} (hp : s.pc p = .sleep .unlocked) :
      Line s ((s.setChan p true).setPc p (.sleep .marked))
  | sleeping {p : Fin n} (hp : s.pc p = .sleep .marked) :
      Line s ((s.setState p .sleeping).setPc p (.sleep .asleep))
  | sched {p : Fin n} (hp : s.pc p = .sleep .asleep) :
      Line s ((s.setPlock p none).setPc p (.sleep .resumed))
  | tidy {p : Fin n} (hp : s.pc p = .sleep .resumed) (hrun : s.state p = .running) :
      Line s ((s.setChan p false).setPc p (.sleep .tidied))
  | releaseProc {p : Fin n} (hp : s.pc p = .sleep .tidied) :
      Line s ((s.setPlock p none).setPc p (.sleep .relock))
  | scanned {p : Fin n} {pc : ScanAt} (hp : s.pc p = .wakeup [] pc) :
      Line s ((s.setLock none).setPc p .idle)
  | skip {p : Fin n} {ps : List (Fin n)} (hp : s.pc p = .wakeup (p :: ps) .head) :
      Line s (s.setPc p (.wakeup ps .head))
  | visit {p q : Fin n} {ps : List (Fin n)} (hp : s.pc p = .wakeup (q :: ps) .head) (hq : q ≠ p)
      (hplock : s.plock q = none) :
      Line s ((s.setPlock q p).setPc p (.wakeup (q :: ps) .test))
  | wake {p q : Fin n} {ps : List (Fin n)} (hp : s.pc p = .wakeup (q :: ps) .test)
      (hq : s.state q = .sleeping ∧ s.chan q = true) :
      Line s ((s.setState q .runnable).setPc p (.wakeup (q :: ps) .unlock))
  | pass {p q : Fin n} {ps : List (Fin n)} (hp : s.pc p = .wakeup (q :: ps) .test)
      (hq : ¬ (s.state q = .sleeping ∧ s.chan q = true)) :
      Line s (s.setPc p (.wakeup (q :: ps) .unlock))
  | move {p q : Fin n} {ps : List (Fin n)} (hp : s.pc p = .wakeup (q :: ps) .unlock) :
      Line s ((s.setPlock q none).setPc p (.wakeup ps .head))
  | dispatch {p : Fin n} (hp : s.pc p = .sleep .resumed) (hstate : s.state p = .runnable)
      (hplock : s.plock p = none) : Line s ((s.setState p .running).setPlock p p)
  | kill {p : Fin n} (hstate : s.state p = .sleeping) (hplock : s.plock p = none) :
      Line s (s.setState p .runnable)

theorem line_beginOp (hp : s.pc p = .idle ∨ s.pc p = .sleep .relock) (hlock : s.lock = none) :
    Line s (s.beginOp p) := by
  unfold beginOp
  split_ifs with hfull
  · exact .wait hp hlock hfull
  · exact .enterOp hp hlock hfull

theorem line_endOp (hp : s.pc p = .active) (hlock : s.lock = none) (h : s.endOp p = some u) :
    Line s u := by
  unfold endOp at h
  split_ifs at h with hc hout <;> cases h
  · exact .endLast hp hlock (by simpa using hc) hout
  · exact .endInner hp hlock (by simpa using hc) hout

theorem line_sleepLine {pc : SleepAt} (hp : s.pc p = .sleep pc) (h : s.sleepLine p pc = some u) :
    Line s u := by
  cases pc <;> simp only [sleepLine, Option.ite_none_right_eq_some, Option.some.injEq] at h
  case enter => exact h.2 ▸ .lockProc hp h.1
  case locked => exact h ▸ .releaseLog hp
  case unlocked => exact h ▸ .chan hp
  case marked => exact h ▸ .sleeping hp
  case asleep => exact h ▸ .sched hp
  case resumed => exact h.2 ▸ .tidy hp h.1
  case tidied => exact h ▸ .releaseProc hp
  case relock => exact h.2 ▸ line_beginOp (.inr hp) h.1

theorem line_wakeupLine {ps : List (Fin n)} {pc : ScanAt} (hp : s.pc p = .wakeup ps pc)
    (h : s.wakeupLine p ps pc = some u) : Line s u := by
  cases ps with
  | nil =>
    cases h
    exact .scanned hp
  | cons q ps =>
    cases pc <;> simp only [wakeupLine] at h
    case head =>
      split_ifs at h with hq hplock <;> cases h
      · exact .skip (hq ▸ hp)
      · exact .visit hp hq hplock
    case test =>
      split_ifs at h with hq <;> cases h
      · exact .wake hp hq
      · exact .pass hp hq
    case unlock =>
      cases h
      exact .move hp

theorem line_of_step {a : WaitAct n} (h : s.step a = some u) : Line s u := by
  cases a with
  | beginOp p =>
    obtain ⟨⟨hp, hlock⟩, rfl⟩ := of_guard h
    exact line_beginOp (.inl hp) hlock
  | logWrite p b =>
    simp only [step, Option.ite_none_right_eq_some] at h
    obtain ⟨⟨hp, hlock⟩, h⟩ := h
    split at h <;> cases h
    exact .log hp hlock ‹_›
  | endOp p =>
    simp only [step, Option.ite_none_right_eq_some] at h
    exact line_endOp h.1.1 h.1.2 h.2
  | run p =>
    simp only [step] at h
    split at h
    · exact line_sleepLine ‹_› h
    · split_ifs at h with hlock
      cases h
      exact .leave ‹_› hlock
    · next hc hp =>
        cases h
        exact .commitStmt hp fun heq => hc heq
    · exact line_wakeupLine ‹_› h
    · cases h
  | dispatch p =>
    obtain ⟨⟨hp, hstate, hplock⟩, rfl⟩ := of_guard h
    exact .dispatch hp hstate hplock
  | kill p =>
    obtain ⟨⟨hstate, hplock⟩, rfl⟩ := of_guard h
    exact .kill hstate hplock

/-! ## The locks -/

/-- The process holds `log.lock`. -/
def Locked : WaitPc n → Prop
  | .sleep .enter => True
  | .sleep .locked => True
  | .wakeup _ _ => True
  | _ => False

/-- The process holds its own `p->lock`, if its state is `st`. -/
def Holds (st : ProcState) (c : WaitPc n) : Prop :=
  c = .sleep .locked ∨ c = .sleep .unlocked ∨ c = .sleep .marked ∨ c = .sleep .asleep ∨
    c = .sleep .resumed ∧ st = .running ∨ c = .sleep .tidied

/-- Who holds which lock, and what the fields of a sleeping process hold. -/
structure Locks (s : LogKernel n) : Prop where
  mutex : ∀ p, s.lock = some p ↔ Locked (s.pc p)
  held : ∀ p, Holds (s.state p) (s.pc p) → s.plock p = some p
  visited : ∀ p q ps pc, s.pc p = .wakeup (q :: ps) pc → pc ≠ .head → q ≠ p ∧ s.plock q = some p
  sleeping : ∀ p, s.state p = .sleeping → s.pc p = .sleep .asleep ∨ s.pc p = .sleep .resumed
  asleep : ∀ p, s.pc p = .sleep .asleep → s.state p = .sleeping
  chan : ∀ p, s.pc p = .sleep .marked ∨ s.state p = .sleeping → s.chan p = true

namespace Locks

variable (h : s.Locks) (hl : Line s u)
include h hl

theorem mutex_line (p : Fin n) : u.lock = some p ↔ Locked (u.pc p) := by
  have hmutex := h.mutex
  cases hl with
  -- `log.lock` is only taken when it is free
  | _ =>
    simp
    grind [Locked]

theorem held_line (p : Fin n) : Holds (u.state p) (u.pc p) → u.plock p = some p := by
  have hp := h.held p
  have hvisited := h.visited
  have hasleep := h.asleep
  cases hl with
  -- a scan only gives up the lock of the process it visits
  | _ =>
    simp
    grind [Holds]

theorem visited_line (p q : Fin n) (ps : List (Fin n)) (pc : ScanAt) :
    u.pc p = .wakeup (q :: ps) pc → pc ≠ .head → q ≠ p ∧ u.plock q = some p := by
  have hvisited := h.visited
  have hq := h.held q
  cases hl with
  | _ =>
    simp
    grind [Holds]

theorem sleeping_line (p : Fin n) :
    u.state p = .sleeping → u.pc p = .sleep .asleep ∨ u.pc p = .sleep .resumed := by
  have hp := h.sleeping p
  cases hl with
  | _ =>
    simp
    grind

theorem asleep_line (p : Fin n) : u.pc p = .sleep .asleep → u.state p = .sleeping := by
  have hp := h.asleep p
  have hheld := h.held p
  have hvisited := h.visited
  cases hl with
  -- nobody can change the state of a process that holds its own lock
  | _ =>
    simp
    grind [Holds]

theorem chan_line (p : Fin n) :
    u.pc p = .sleep .marked ∨ u.state p = .sleeping → u.chan p = true := by
  have hp := h.chan p
  have hsleeping := h.sleeping p
  have hasleep := h.asleep p
  cases hl with
  | _ =>
    simp
    grind

theorem line : u.Locks where
  mutex := h.mutex_line hl
  held := h.held_line hl
  visited := h.visited_line hl
  sleeping := h.sleeping_line hl
  asleep := h.asleep_line hl
  chan := h.chan_line hl

end Locks

/-! ## The variables of the log -/

/-- The variables are what the stages of the processes say. -/
structure Counts (s : LogKernel n) : Prop where
  count : ∃ k : ℕ, s.mem.log.outstanding = k ∧ Numbers (fun p => s.pc p = .active) k
  committing : ∀ p c, s.pc p = .commit c → s.mem.log.committing = true ∧ s.mem.log.outstanding = 0
  staged : ∀ p c, s.pc p = .commit c → c.Stage s.mem.log.lh s.mem.log.lh
  single : ∀ p q c c', s.pc p = .commit c → s.pc q = .commit c' → p = q
  empty : s.mem.log.outstanding = 0 → s.mem.log.committing = false → s.mem.log.lh = []

/-- The header's part of `Stage` does not depend on the blocks written. -/
theorem stage_self {c : CommitPc} {lh ws : List BlockNo} (h : c.Stage lh ws) : c.Stage lh lh := by
  cases c with
  | installTrans tail => exact fun b hb => List.mem_of_mem_take hb
  | clear => exact fun b hb => hb
  | _ => exact h

namespace Counts

variable (h : s.Counts) (hl : Line s u)
include h hl

theorem count_line :
    ∃ k : ℕ, u.mem.log.outstanding = k ∧ Numbers (fun p => u.pc p = .active) k := by
  obtain ⟨k, hk, hcount⟩ := h.count
  have hsame (hout : u.mem.log.outstanding = s.mem.log.outstanding)
      (hpc : ∀ p, u.pc p = .active ↔ s.pc p = .active) :
      ∃ k : ℕ, u.mem.log.outstanding = k ∧ Numbers (fun p => u.pc p = .active) k :=
    ⟨k, hout.trans hk, hcount.congr hpc⟩
  cases hl with
  | @enterOp p hp =>
    refine ⟨k + 1, by simp [enterOp, hk], hcount.insert (z := p) ?_ (by simp [enterOp]) ?_⟩
    · rcases hp with hp | hp <;> simp [hp]
    · intro q hq
      simp [enterOp, hq]
  | @endLast p hp =>
    have hpos := hcount.pos hp
    refine ⟨k - 1, by simp [endLast, hk]; omega, hcount.erase hp (by simp [endLast]) ?_⟩
    intro q hq
    simp [endLast, hq]
  | @endInner p hp =>
    have hpos := hcount.pos hp
    refine ⟨k - 1, by simp [endInner, startWakeup, hk]; omega,
      hcount.erase hp (by simp [endInner, startWakeup]) ?_⟩
    intro q hq
    simp [endInner, startWakeup, hq]
  | commitStmt hp =>
    refine hsame ?_ fun q => ?_
    · rw [commitStmt, setPc_mem, CommitPc.log_stmt]
      split <;> rfl
    · simp only [commitStmt, setPc_pc, update_apply]
      grind
  | log hp hlock hlog => exact hsame (by rw [(logWrite_ok hlog).2.2.2.2]) fun _ => Iff.rfl
  | _ =>
    refine hsame (by simp [leave, startWakeup]) fun q => ?_
    simp [leave, startWakeup] <;> grind

theorem committing_line (p : Fin n) (c : CommitPc) :
    u.pc p = .commit c → u.mem.log.committing = true ∧ u.mem.log.outstanding = 0 := by
  have hp := h.committing p
  have hsingle := h.single
  obtain ⟨k, hk, hcount⟩ := h.count
  cases hl with
  | log _ _ hlog =>
    rw [(logWrite_ok hlog).2.2.2.2]
    exact hp c
  | commitStmt hq =>
    rw [commitStmt, setPc_mem, CommitPc.log_stmt]
    split <;> simp [h.committing _ _ hq]
  | enterOp hq hlock hfull =>
    simp only [Full, not_or, Bool.not_eq_true] at hfull
    simp [enterOp]
    grind
  | _ =>
    simp
    grind

theorem single_line (p q : Fin n) (c c' : CommitPc) :
    u.pc p = .commit c → u.pc q = .commit c' → p = q := by
  have hsingle := h.single
  have hcommitting := h.committing
  cases hl with
  | _ =>
    simp
    grind

theorem staged_line (p : Fin n) (c : CommitPc) :
    u.pc p = .commit c → c.Stage u.mem.log.lh u.mem.log.lh := by
  have hp := h.staged p c
  cases hl with
  | log _ _ hlog =>
    intro hc
    have hok := logWrite_ok hlog
    have hzero := h.committing p c hc
    omega
  | @commitStmt q c' hq =>
    have hnext := stage_self (CommitPc.stage_stmt (d := s.disk) (h.staged q c' hq))
    have hsingle := h.single p q c c'
    simp only [commitStmt, setPc_pc, setPc_mem, update_apply]
    grind
  | endLast =>
    have htrivial : CommitPc.enter.Stage s.mem.log.lh s.mem.log.lh := trivial
    simp
    grind
  | _ =>
    simp
    grind

theorem empty_line :
    u.mem.log.outstanding = 0 → u.mem.log.committing = false → u.mem.log.lh = [] := by
  have hempty := h.empty
  cases hl with
  | log _ _ hlog =>
    have hok := logWrite_ok hlog
    rw [hok.2.2.2.2]
    intro hout
    dsimp only at hout
    omega
  | commitStmt hp =>
    rw [commitStmt, setPc_mem, CommitPc.log_stmt]
    split <;> simp [h.committing _ _ hp]
  | enterOp =>
    obtain ⟨k, hk, -⟩ := h.count
    intro hout
    dsimp only [enterOp, setLog, setPc] at hout
    omega
  | endLast => simp [endLast]
  | endInner _ _ _ hout => exact fun hout' => absurd hout' hout
  | leave hp => exact fun _ _ => h.staged _ _ hp
  | _ => simpa using hempty

theorem line : u.Counts where
  count := h.count_line hl
  committing := h.committing_line hl
  staged := h.staged_line hl
  single := h.single_line hl
  empty := h.empty_line hl

end Counts

/-! ## The waiting processes -/

/-- The processes that the scan has not woken yet. -/
def unvisited : WaitPc n → List (Fin n)
  | .wakeup ps .unlock => ps.tail
  | .wakeup ps _ => ps
  | _ => []

/-- The process has given up `log.lock` in `sleep` and has not been woken. -/
def Waiting (s : LogKernel n) (p : Fin n) : Prop :=
  s.pc p = .sleep .unlocked ∨ s.pc p = .sleep .marked ∨ s.state p = .sleeping

/-- A process that has decided to sleep has to wait, until a scan is on its way to it. -/
structure Inv (s : LogKernel n) : Prop extends Locks s, Counts s where
  tested : ∀ p, s.pc p = .sleep .enter ∨ s.pc p = .sleep .locked → s.Full
  waits : ∀ p, s.Waiting p → s.Full ∨ ∃ q, p ∈ unvisited (s.pc q)

/-- Only the two stretches of `end_op` that call `wakeup` can end a reason to wait. -/
theorem full_line (h : s.Counts) (hl : Line s u) (hs : s.Full) :
    u.Full ∨ s.lock = none ∧ ∃ p, unvisited (u.pc p) = List.finRange n := by
  cases hl with
  | log _ _ hlog =>
    left
    unfold Full at *
    rw [(logWrite_ok hlog).2.2.2.2]
    refine hs.imp id fun hs => ?_
    dsimp only
    split
    · exact hs
    · rw [List.length_append, Nat.cast_add]
      omega
  | commitStmt hp =>
    refine .inl (.inl ?_)
    rw [commitStmt, setPc_mem, CommitPc.log_stmt]
    split <;> simp [h.committing _ _ hp]
  | enterOp _ _ hfull => exact absurd hs hfull
  | endLast => exact .inl (.inl rfl)
  | @endInner p _ hlock => exact .inr ⟨hlock, p, by simp [endInner, startWakeup, unvisited]⟩
  | @leave p _ hlock => exact .inr ⟨hlock, p, by simp [leave, startWakeup, unvisited]⟩
  | _ => exact .inl hs

theorem waiting_of_line (hl : Line s u) (hp : u.Waiting p) :
    s.Waiting p ∨ s.pc p = .sleep .locked := by
  unfold Waiting at *
  cases hl with
  | _ =>
    simp at hp
    grind

/-- A scan passes a process only by waking it: the lock it takes excludes one that is about to
sleep. -/
theorem Locks.unvisited_line (h : s.Locks) (hl : Line s u) (hs : s.Waiting p) (hu : u.Waiting p)
    (hq : p ∈ unvisited (s.pc q)) : p ∈ unvisited (u.pc q) := by
  have hheld := h.held p
  have hvisited := h.visited
  have hchan := h.chan p
  have hsleeping := h.sleeping p
  unfold Waiting at *
  cases hl with
  | @scanned r pc hr =>
    have hne : q ≠ r := by
      rintro rfl
      cases pc <;> simp [hr, unvisited] at hq
    simpa [hne] using hq
  | _ =>
    simp at *
    grind [unvisited, Holds]

namespace Inv

theorem tested_line (h : s.Inv) (hl : Line s u) (p : Fin n)
    (hp : u.pc p = .sleep .enter ∨ u.pc p = .sleep .locked) : u.Full := by
  have hfrom : u.Full ∨ s.pc p = .sleep .enter ∨ s.pc p = .sleep .locked := by
    cases hl with
    | wait _ _ hfull => exact .inl hfull
    | _ =>
      simp at hp
      grind
  obtain hu | hpc := hfrom
  · exact hu
  obtain hu | ⟨hlock, -⟩ := full_line h.toCounts hl (h.tested p hpc)
  · exact hu
  -- the process holds `log.lock`, which the calls of `wakeup` have just taken
  · have hmutex := h.mutex p
    grind [Locked]

theorem waits_line (h : s.Inv) (hl : Line s u) (p : Fin n) (hp : u.Waiting p) :
    u.Full ∨ ∃ q, p ∈ unvisited (u.pc q) := by
  have hfull (hs : s.Full) : u.Full ∨ ∃ q, p ∈ unvisited (u.pc q) := by
    obtain hu | ⟨-, q, hq⟩ := full_line h.toCounts hl hs
    · exact .inl hu
    · exact .inr ⟨q, hq ▸ List.mem_finRange p⟩
  obtain hs | hs := waiting_of_line hl hp
  · obtain hs' | ⟨q, hq⟩ := h.waits p hs
    · exact hfull hs'
    · exact .inr ⟨q, h.unvisited_line hl hs hp hq⟩
  · exact hfull (h.tested p (.inr hs))

theorem line (h : s.Inv) (hl : Line s u) : u.Inv where
  toLocks := h.toLocks.line hl
  toCounts := h.toCounts.line hl
  tested := h.tested_line hl
  waits := h.waits_line hl

end Inv

theorem inv_boot (start : BlockNo) (size : ℤ) (disk : Disk) :
    (boot start size disk : LogKernel n).Inv where
  mutex := by simp [boot, Locked]
  held := by simp [boot, Holds]
  visited := by simp [boot]
  sleeping := by simp [boot]
  asleep := by simp [boot]
  chan := by simp [boot]
  count := ⟨0, rfl, Numbers.zero (by simp [boot])⟩
  committing := by simp [boot]
  staged := by simp [boot]
  single := by simp [boot]
  empty := by simp [boot, bootMem]
  tested := by simp [boot]
  waits := by simp [boot, Waiting]

theorem inv_of_visits {start : BlockNo} {size : ℤ} {disk : Disk} {as : List (WaitAct n)}
    (h : Visits step (boot start size disk) as s) : s.Inv :=
  Visits.induction (P := Inv) (inv_boot start size disk)
    (fun _ _ _ _ hstep hinv => hinv.line (line_of_step hstep)) h

/-- The process is `SLEEPING` in `begin_op`. -/
def SleepsInBeginOp (s : LogKernel n) (p : Fin n) : Prop :=
  (∃ pc, s.pc p = .sleep pc) ∧ s.state p = .sleeping

/-- In every state of every run in which `log.lock` is free, a process that sleeps in `begin_op`
still has to wait, and with no operation outstanding and no commit in progress the header is
empty and no process sleeps. -/
theorem waiters_not_stranded {start : BlockNo} {size : ℤ} {disk : Disk} {as : List (WaitAct n)}
    (h : Visits step (boot start size disk) as s) (hlock : s.lock = none) :
    (∀ p, s.SleepsInBeginOp p → s.mem.log.committing = true ∨
      (s.mem.log.lh.length : ℤ) + (s.mem.log.outstanding + 1) * MAXOPBLOCKS > LOGSIZE) ∧
    (s.mem.log.outstanding = 0 → s.mem.log.committing = false →
      s.mem.log.lh = [] ∧ ∀ p, ¬ s.SleepsInBeginOp p) := by
  have hinv := inv_of_visits h
  have hfull : ∀ p, s.SleepsInBeginOp p → s.Full := by
    intro p hp
    obtain hfull | ⟨q, hq⟩ := hinv.waits p (.inr (.inr hp.2))
    · exact hfull
    · have hfree : ¬ Locked (s.pc q) := by simp [← hinv.mutex, hlock]
      cases hpc : s.pc q <;> simp [hpc, unvisited, Locked] at hq hfree
  refine ⟨hfull, fun hout hcommitting => ?_⟩
  have hlh := hinv.empty hout hcommitting
  refine ⟨hlh, fun p hp => ?_⟩
  have := hfull p hp
  simp [Full, hlh, hout, hcommitting] at this

/-- One process commits while another falls asleep in `begin_op`. -/
def sleeperRun : List (WaitAct 2) :=
  [.beginOp 0, .endOp 0, .beginOp 1, .run 1, .run 1, .run 1, .run 1, .run 1]

theorem waiters_not_stranded_sleeper : ∃ s : LogKernel 2,
    Visits step (boot 2 LOGSIZE fun _ _ => 0) sleeperRun s ∧ s.lock = none ∧
      s.SleepsInBeginOp 1 ∧ (s.mem.log.committing = true ∨
        (s.mem.log.lh.length : ℤ) + (s.mem.log.outstanding + 1) * MAXOPBLOCKS > LOGSIZE) := by
  obtain ⟨s, hrun, hlock, hpc, hstate⟩ : ∃ s : LogKernel 2,
      exec step (boot 2 LOGSIZE fun _ _ => 0) sleeperRun = some s ∧ s.lock = none ∧
        s.pc 1 = .sleep .resumed ∧ s.state 1 = .sleeping := ⟨_, rfl, rfl, rfl, rfl⟩
  have hsleeps : s.SleepsInBeginOp 1 := ⟨⟨_, hpc⟩, hstate⟩
  have hvisits := Visits.last hrun
  exact ⟨s, hvisits, hlock, hsleeps, (waiters_not_stranded hvisits hlock).1 1 hsleeps⟩

end LogKernel

end Xv6
