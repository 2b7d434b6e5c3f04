import Xv6.Log.Crash
import Xv6.Lib.Run
import Mathlib.Data.Fintype.Basic
import Mathlib.Algebra.BigOperators.Group.Finset.Basic

/-!
# Group commit

Any number of processes call `begin_op`, `log_write` and `end_op`. The part of each call that
holds `log.lock` is one step; `commit`, which the last `end_op` runs without the lock, is one
step per loop iteration, so that the other processes' steps fall between its writes. The state
carries, beside what the code keeps, a record of what each operation logged and of what each
commit wrote to the disk.
-/

namespace Xv6

open Lib Lib.Dev

/-- Where `end_op` is inside its call of `commit`. -/
inductive CommitPc
  | enter
  | writeLog (tail : ℕ)
  | writeHead
  | installTrans (tail : ℕ)
  | clear
  | clearHead
  | leave
  deriving DecidableEq

/-- The statement of `commit` at a given point, returning the point after it. -/
def CommitPc.stmt : CommitPc → LogM CommitPc
  | enter => do
      let lh ← gets fun m => m.log.lh
      if lh.length > 0 then pure (writeLog 0) else pure leave
  | writeLog tail => do
      let lh ← gets fun m => m.log.lh
      match lh[tail]? with
      | some b => do
          writeLogBlock tail b
          pure (writeLog (tail + 1))
      | none => pure writeHead
  | writeHead => do
      Xv6.writeHead
      pure (installTrans 0)
  | installTrans tail => do
      let lh ← gets fun m => m.log.lh
      match lh[tail]? with
      | some b => do
          installBlock false tail b
          pure (installTrans (tail + 1))
      | none => pure clear
  | clear => do
      setLh []
      pure clearHead
  | clearHead => do
      Xv6.writeHead
      pure leave
  | leave => pure leave

/-! ## The statements of `commit` -/

/-- What the commit has written when it is at a given point: `lh` is what is left of the
header, `ws` the blocks written so far. -/
def CommitPc.Stage (lh ws : List BlockNo) : CommitPc → Prop
  | installTrans tail => ∀ b ∈ lh.take tail, b ∈ ws
  | clear => ∀ b ∈ lh, b ∈ ws
  | clearHead => lh = []
  | leave => lh = []
  | _ => True

/-- Only one statement of `commit` touches `struct log`. -/
theorem CommitPc.log_stmt (c : CommitPc) (m : Mem) (d : Disk) :
    (c.stmt.state m d).log = if c = clear then { m.log with lh := [] } else m.log := by
  cases c with
  | enter => by_cases hlh : 0 < m.log.lh.length <;> simp [stmt, hlh]
  | writeLog tail =>
    cases h : m.log.lh[tail]? with
    | none => simp [stmt, h]
    | some b => simpa [stmt, h] using (issues_writeLogBlock tail b m d).log
  | writeHead => simpa [stmt] using (issues_writeHead m d).log
  | installTrans tail =>
    cases h : m.log.lh[tail]? with
    | none => simp [stmt, h]
    | some b => simpa [stmt, h] using (issues_installBlock false tail b m d).log
  | clear => simp [stmt, setLh]
  | clearHead => simpa [stmt] using (issues_writeHead m d).log
  | leave => simp [stmt]

/-- The statements of `commit` take one stage to the next. -/
theorem CommitPc.stage_stmt {c : CommitPc} {m : Mem} {d : Disk} {ws : List BlockNo}
    (h : c.Stage m.log.lh ws) :
    (c.stmt.val m d).Stage (c.stmt.state m d).log.lh
      (ws ++ (c.stmt.writes m d).map Prod.fst) := by
  rw [log_stmt]
  cases c with
  | enter =>
    by_cases hlh : 0 < m.log.lh.length
    · simp [stmt, hlh, Stage]
    · have hnil : m.log.lh = [] := List.eq_nil_of_length_eq_zero (by omega)
      simp [stmt, hnil, Stage]
  | writeLog tail =>
    cases htail : m.log.lh[tail]? <;> simp [stmt, htail, Stage]
  | writeHead => simp [stmt, Stage]
  | installTrans tail =>
    cases htail : m.log.lh[tail]? with
    | none =>
      have hlen : m.log.lh.length ≤ tail := List.getElem?_eq_none_iff.mp htail
      simpa [stmt, htail, Stage, List.take_of_length_le hlen] using h
    | some b =>
      have hw := (issues_installBlock false tail b m d).writes
      simp only [stmt, val_bind, val_gets, val_pure, writes_bind, writes_gets, writes_pure,
        htail, Stage, reduceCtorEq, if_false, state_gets, disk_gets, hw, List.take_add_one,
        Option.toList_some, List.mem_append, List.mem_singleton]
      rintro x (hx | rfl)
      · exact .inl (h x hx)
      · simp
  | clear => simp [stmt, Stage]
  | clearHead => simpa [stmt, Stage] using h
  | leave => simpa [stmt, Stage] using h

/-- Where a process is: outside the log, in the loop of `begin_op` (asleep or woken), inside
an operation, or committing in `end_op`. An operation records the blocks it logs, each with the
number of commits completed before. -/
inductive OpPc
  | idle
  | waiting (asleep : Bool)
  | active (logged : List (ℕ × BlockNo))
  | committing (c : CommitPc)
  deriving DecidableEq

/-- The process is between its `begin_op` and its `end_op`. -/
def OpPc.isActive : OpPc → Bool
  | active _ => true
  | _ => false

/-- `wakeup(&log)`, as one process sees it. -/
def OpPc.woken : OpPc → OpPc
  | waiting _ => waiting false
  | c => c

/-- The kernel as the logging code sees it, run by the processes `P`. The fields after
`panicked` are not read by the code: the block writes of each completed commit, those of the
commit in progress, and what each operation that has ended had logged. -/
structure LogSys (P : Type) where
  mem : Mem
  disk : Disk
  pc : P → OpPc
  panicked : Option String
  commits : List (List (BlockNo × Block))
  writes : List (BlockNo × Block)
  ops : List (List (ℕ × BlockNo))

/-- The calls of the processes, and `kill` waking a process that sleeps in `begin_op`. -/
inductive LogAct (P : Type)
  | beginOp (p : P)
  | logWrite (p : P) (b : BlockNo) (data : Block)
  | endOp (p : P)
  | commitStep (p : P)
  | wake (p : P)

namespace LogSys

variable {P : Type}

/-- Adjust `struct log`. -/
def setLog (s : LogSys P) (l : Log) : LogSys P := { s with mem := { s.mem with log := l } }

/-- `wakeup(&log)`. -/
def wakeup (s : LogSys P) : LogSys P := { s with pc := fun q => (s.pc q).woken }

variable [DecidableEq P]

/-- Move one process. -/
def setPc (s : LogSys P) (p : P) (c : OpPc) : LogSys P :=
  { s with pc := Function.update s.pc p c }

/-- `begin_op` once it has the room it needs. -/
def enterOp (s : LogSys P) (p : P) : LogSys P :=
  (s.setLog { s.mem.log with outstanding := s.mem.log.outstanding + 1 }).setPc p (.active [])

/-- One iteration of the loop of `begin_op`. -/
def beginOp (s : LogSys P) (p : P) : LogSys P :=
  if s.mem.log.committing then s.setPc p (.waiting true)
  else if (s.mem.log.lh.length : ℤ) + (s.mem.log.outstanding + 1) * MAXOPBLOCKS > LOGSIZE then
    s.setPc p (.waiting true)
  else s.enterOp p

/-- An operation that has logged `logged` fills a buffer and hands it to `log_write`. -/
def logOp (s : LogSys P) (p : P) (logged : List (ℕ × BlockNo)) (b : BlockNo) (data : Block) :
    LogSys P :=
  match logBlock s.mem (b, data) with
  | .ok m => { s with mem := m }.setPc p
      (.active (logged ++ [(s.commits.length, b)]))
  | .error e => { s with panicked := some e }

/-- The end of an operation that is not the last one outstanding. -/
def endInner (s : LogSys P) (p : P) : LogSys P :=
  (s.setLog { s.mem.log with outstanding := s.mem.log.outstanding - 1 }).wakeup.setPc p .idle

/-- The end of the last operation outstanding: `committing` is set and `commit` begins. -/
def endLast (s : LogSys P) (p : P) : LogSys P :=
  (s.setLog { s.mem.log with
    outstanding := s.mem.log.outstanding - 1, committing := true }).setPc p (.committing .enter)

/-- The part of `end_op` that decides whether to commit. -/
def endOp (s : LogSys P) (p : P) (logged : List (ℕ × BlockNo)) : LogSys P :=
  if s.mem.log.committing then { s with panicked := some "log.committing" }
  else if s.mem.log.outstanding - 1 = 0 then { s.endLast p with ops := s.ops ++ [logged] }
  else { s.endInner p with ops := s.ops ++ [logged] }

/-- One statement of `commit`. -/
def commitStmt (s : LogSys P) (p : P) (c : CommitPc) : LogSys P :=
  { s with
    mem := c.stmt.state s.mem s.disk
    disk := c.stmt.disk s.mem s.disk
    writes := s.writes ++ c.stmt.writes s.mem s.disk }.setPc p
      (.committing (c.stmt.val s.mem s.disk))

/-- The part of `end_op` after `commit`. -/
def leave (s : LogSys P) (p : P) : LogSys P :=
  { (s.setLog { s.mem.log with committing := false }).wakeup.setPc p .idle with
    commits := s.commits ++ [s.writes]
    writes := [] }

/-- One step of the system. A panic stops it. -/
def step (s : LogSys P) (a : LogAct P) : Option (LogSys P) :=
  if s.panicked.isSome then none
  else match a with
    | .beginOp p => match s.pc p with
      | .idle => some (s.beginOp p)
      | .waiting false => some (s.beginOp p)
      | _ => none
    | .logWrite p b data => match s.pc p with
      | .active logged => some (s.logOp p logged b data)
      | _ => none
    | .endOp p => match s.pc p with
      | .active logged => some (s.endOp p logged)
      | _ => none
    | .commitStep p => match s.pc p with
      | .committing .leave => some (s.leave p)
      | .committing c => some (s.commitStmt p c)
      | _ => none
    | .wake p => match s.pc p with
      | .waiting _ => some (s.setPc p (.waiting false))
      | _ => none

/-- After `initlog`: no operation has begun and the header is clear. -/
def boot (start : BlockNo) (size : ℤ) (disk : Disk) : LogSys P where
  mem := bootMem { start, size, outstanding := 0, committing := false, lh := [] }
  disk := disk
  pc := fun _ => .idle
  panicked := none
  commits := []
  writes := []
  ops := []

/-! ## What a step can do -/

/-- Every move of the system, with what the code has checked before it. -/
inductive Moves (s : LogSys P) : LogAct P → LogSys P → Prop
  | sleep {p : P} (hp : s.pc p = .idle ∨ s.pc p = .waiting false) :
      Moves s (.beginOp p) (s.setPc p (.waiting true))
  | enterOp {p : P} (hp : s.pc p = .idle ∨ s.pc p = .waiting false)
      (hcommitting : s.mem.log.committing = false)
      (hroom : (s.mem.log.lh.length : ℤ) + (s.mem.log.outstanding + 1) * MAXOPBLOCKS ≤ LOGSIZE) :
      Moves s (.beginOp p) (s.enterOp p)
  | log {p : P} {logged : List (ℕ × BlockNo)} {b : BlockNo} {data : Block} {m : Mem}
      (hp : s.pc p = .active logged) (hlog : logBlock s.mem (b, data) = .ok m) :
      Moves s (.logWrite p b data) ({ s with mem := m }.setPc p
        (.active (logged ++ [(s.commits.length, b)])))
  | logPanic {p : P} {logged : List (ℕ × BlockNo)} {b : BlockNo} {data : Block} {e : String}
      (hp : s.pc p = .active logged) (hlog : logBlock s.mem (b, data) = .error e) :
      Moves s (.logWrite p b data) { s with panicked := some e }
  | endPanic {p : P} {logged : List (ℕ × BlockNo)} (hp : s.pc p = .active logged)
      (hcommitting : s.mem.log.committing = true) :
      Moves s (.endOp p) { s with panicked := some "log.committing" }
  | endLast {p : P} {logged : List (ℕ × BlockNo)} (hp : s.pc p = .active logged)
      (hcommitting : s.mem.log.committing = false) (hout : s.mem.log.outstanding = 1) :
      Moves s (.endOp p) { s.endLast p with ops := s.ops ++ [logged] }
  | endInner {p : P} {logged : List (ℕ × BlockNo)} (hp : s.pc p = .active logged)
      (hcommitting : s.mem.log.committing = false) (hout : s.mem.log.outstanding ≠ 1) :
      Moves s (.endOp p) { s.endInner p with ops := s.ops ++ [logged] }
  | commitStmt {p : P} {c : CommitPc} (hp : s.pc p = .committing c) (hc : c ≠ .leave) :
      Moves s (.commitStep p) (s.commitStmt p c)
  | leave {p : P} (hp : s.pc p = .committing .leave) : Moves s (.commitStep p) (s.leave p)
  | wake {p : P} {asleep : Bool} (hp : s.pc p = .waiting asleep) :
      Moves s (.wake p) (s.setPc p (.waiting false))

theorem moves_beginOp {s : LogSys P} {p : P} (hp : s.pc p = .idle ∨ s.pc p = .waiting false) :
    Moves s (.beginOp p) (s.beginOp p) := by
  unfold beginOp
  split_ifs with hc hroom
  · exact .sleep hp
  · exact .sleep hp
  · exact .enterOp hp (by simpa using hc) (not_lt.mp hroom)

theorem moves_endOp {s : LogSys P} {p : P} {logged : List (ℕ × BlockNo)}
    (hp : s.pc p = .active logged) : Moves s (.endOp p) (s.endOp p logged) := by
  unfold endOp
  split_ifs with hc hout
  · exact .endPanic hp hc
  · exact .endLast hp (by simpa using hc) (by omega)
  · exact .endInner hp (by simpa using hc) (by omega)

theorem moves_logOp {s : LogSys P} {p : P} {logged : List (ℕ × BlockNo)}
    (hp : s.pc p = .active logged) (b : BlockNo) (data : Block) :
    Moves s (.logWrite p b data) (s.logOp p logged b data) := by
  unfold logOp
  split
  · exact .log hp ‹_›
  · exact .logPanic hp ‹_›

/-- Inversion of `step`: a running system makes one of the moves. -/
theorem moves_of_step {s t : LogSys P} {a : LogAct P} (h : s.step a = some t) :
    s.panicked = none ∧ Moves s a t := by
  unfold step at h
  split at h
  · cases h
  rename_i hpanic
  refine ⟨by simpa using hpanic, ?_⟩
  cases a with
  | beginOp p =>
    dsimp only at h
    split at h <;> cases h
    · exact moves_beginOp (.inl ‹_›)
    · exact moves_beginOp (.inr ‹_›)
  | logWrite p b data =>
    dsimp only at h
    split at h <;> cases h
    exact moves_logOp ‹_› b data
  | endOp p =>
    dsimp only at h
    split at h <;> cases h
    exact moves_endOp ‹_›
  | commitStep p =>
    dsimp only at h
    split at h <;> cases h
    · exact .leave ‹_›
    · rename_i c hc hp
      exact .commitStmt hp hc
  | wake p =>
    dsimp only at h
    split at h <;> cases h
    exact .wake ‹_›

end LogSys

end Xv6
