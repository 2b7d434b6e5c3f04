import Xv6.Dispatch.Model

/-!
# Dispatch, without the code

What the code of `Xv6.Dispatch.Model` comes down to: each kernel stack is in one of a few modes,
and a hart makes one of a few moves. A process that gives up its hart assigns its state under its
lock, switches to the scheduler with the lock held, and the scheduler releases the lock; a
scheduler that starts a process tests its state under the lock and switches to it with the lock
held. From the moves follows that no two harts are engaged with one process.
-/

namespace Xv6.Dispatch

open Function (update update_apply)

/-- The mode of the stack of a process. -/
inductive ProcMode
  /-- In no section. -/
  | quiet
  /-- In a section of the process `q`. -/
  | busy (q : Slot)
  /-- In its own section, past the assignment of the state, up to `swtch`. -/
  | leaving (st : ProcState)
  /-- In its own section, at the line after `swtch`. -/
  | resumable
  deriving DecidableEq

/-- The mode of the stack of a scheduler. -/
inductive HartMode
  | quiet
  /-- In a section of the process `q`. -/
  | busy (q : Slot)
  /-- Past `q->state = RUNNING`. -/
  | setting (q : Slot)
  /-- At the line after `swtch`. -/
  | backing (q : Slot)
  deriving DecidableEq

/-- The kernel, without the code. -/
structure View (H : Type) where
  lock : Slot → Option H
  proc : H → Option Slot
  on : H → Option Slot
  state : Slot → ProcState
  pmode : Slot → ProcMode
  hmode : H → HartMode
  /-- The process that a call of `fork` is making, and whether it can be started. -/
  making : Slot → Option (Slot × Bool)

namespace View

variable {H : Type}

def setLock (v : View H) (q : Slot) (h : Option H) : View H :=
  { v with lock := update v.lock q h }

def setState (v : View H) (q : Slot) (st : ProcState) : View H :=
  { v with state := update v.state q st }

def setPmode (v : View H) (p : Slot) (m : ProcMode) : View H :=
  { v with pmode := update v.pmode p m }

def setMaking (v : View H) (p : Slot) (m : Option (Slot × Bool)) : View H :=
  { v with making := update v.making p m }

section Hart
variable [DecidableEq H]

def setHmode (v : View H) (h : H) (m : HartMode) : View H :=
  { v with hmode := update v.hmode h m }

def setProc (v : View H) (h : H) (p : Option Slot) : View H :=
  { v with proc := update v.proc h p }

def setOn (v : View H) (h : H) (p : Option Slot) : View H :=
  { v with on := update v.on h p }

/-- What a hart can do. -/
inductive Move (v : View H) (h : H) : View H → Prop
  | stay : Move v h v
  /-- `wakeup` or `kill` finds a process asleep. -/
  | wake {q : Slot} (hlock : v.lock q = none) (hq : v.state q = .sleeping) :
      Move v h (v.setState q .runnable)
  /-- `wait` frees a process. -/
  | reap {q : Slot} (hlock : v.lock q = none) (hq : v.state q = .zombie) :
      Move v h (v.setState q .unused)
  | acquire {p q : Slot} (hon : v.on h = some p) (hmode : v.pmode p = .quiet)
      (hlock : v.lock q = none) :
      Move v h ((v.setLock q (some h)).setPmode p (.busy q))
  | release {p q : Slot} (hon : v.on h = some p)
      (hmode : v.pmode p = .busy q ∨ p = q ∧ v.pmode p = .resumable) :
      Move v h ((v.setLock q none).setPmode p .quiet)
  /-- `p->chan = 0` in `sleep`. -/
  | tidy {p : Slot} (hon : v.on h = some p) (hmode : v.pmode p = .resumable) :
      Move v h (v.setPmode p (.busy p))
  /-- `yield`, `sleep` and `exit` assign the state. -/
  | leave {p : Slot} {st : ProcState} (hon : v.on h = some p) (hmode : v.pmode p = .busy p)
      (hst : st = .runnable ∨ st = .sleeping ∨ st = .zombie) :
      Move v h ((v.setState p st).setPmode p (.leaving st))
  /-- `swtch` in `sched`. -/
  | sched {p : Slot} {st : ProcState} (hon : v.on h = some p) (hmode : v.pmode p = .leaving st) :
      Move v h ((v.setPmode p (if st = .zombie then .quiet else .resumable)).setOn h none)
  | pick {q : Slot} (hon : v.on h = none) (hmode : v.hmode h = .quiet) (hlock : v.lock q = none) :
      Move v h ((v.setLock q (some h)).setHmode h (.busy q))
  | drop {q : Slot} (hon : v.on h = none) (hmode : v.hmode h = .busy q) :
      Move v h ((v.setLock q none).setHmode h .quiet)
  /-- The scheduler finds its process runnable. -/
  | run {q : Slot} (hon : v.on h = none) (hmode : v.hmode h = .busy q)
      (hq : v.state q = .runnable) :
      Move v h ((v.setState q .running).setHmode h (.setting q))
  /-- `swtch` in `scheduler`. -/
  | dispatch {q : Slot} (hon : v.on h = none) (hmode : v.hmode h = .setting q) :
      Move v h (((v.setHmode h (.backing q)).setProc h (some q)).setOn h (some q))
  /-- `c->proc = 0` -/
  | idle {q : Slot} (hon : v.on h = none) (hmode : v.hmode h = .backing q) :
      Move v h ((v.setHmode h (.busy q)).setProc h none)
  /-- `allocproc` finds a slot. -/
  | alloc {p q : Slot} (hon : v.on h = some p) (hmode : v.pmode p = .quiet)
      (hmaking : v.making p = none) (hlock : v.lock q = none) (hq : v.state q = .unused) :
      Move v h ((((v.setState q .used).setLock q (some h)).setMaking p (some (q, false))).setPmode
        p (.busy q))
  | setup {p q : Slot} (hon : v.on h = some p) (hmode : v.pmode p = .busy q)
      (hmaking : v.making p = some (q, false)) :
      Move v h (((v.setMaking q none).setMaking p (some (q, true))).setPmode q .resumable)
  /-- `freeproc` of a process that could not be made. -/
  | free {p q : Slot} (hon : v.on h = some p) (hmode : v.pmode p = .busy q)
      (hmaking : v.making p = some (q, false)) :
      Move v h ((v.setState q .unused).setMaking p none)
  /-- `fork` lets the new process run. -/
  | ready {p q : Slot} (hon : v.on h = some p) (hmaking : v.making p = some (q, true))
      (hlock : v.lock q = none) : Move v h ((v.setState q .runnable).setMaking p none)

end Hart

/-- Which hart is where, and what that says about the states. -/
structure Inv (v : View H) : Prop where
  unique : ∀ h h' p, v.on h = some p → v.on h' = some p → h = h'
  /-- A hart holds the lock of the section it is in. -/
  busy : ∀ h p q, v.on h = some p → v.pmode p = .busy q → v.lock q = some h
  leaving : ∀ h p st, v.on h = some p → v.pmode p = .leaving st →
    v.lock p = some h ∧ v.state p = st ∧ (st = .runnable ∨ st = .sleeping ∨ st = .zombie)
  resumable : ∀ h p, v.on h = some p → v.pmode p = .resumable → v.lock p = some h
  picking : ∀ h q, v.hmode h = .busy q → v.lock q = some h
  setting : ∀ h q, v.hmode h = .setting q → v.lock q = some h
  backing : ∀ h q, v.on h = none → v.hmode h = .backing q → v.lock q = some h
  /-- A process whose stack a hart is on is running, unless it is leaving. -/
  running : ∀ h p, v.on h = some p → v.state p ≠ .running → v.pmode p = .leaving (v.state p)
  /-- A process that is not can go on after `swtch`. -/
  off : ∀ p, v.state p = .runnable ∨ v.state p = .sleeping → (∀ h, v.on h ≠ some p) →
    v.pmode p = .resumable
  proc : ∀ h p, v.proc h = some p ↔ v.hmode h = .backing p
  on : ∀ h p, v.on h = some p → v.proc h = some p
  started : ∀ h p, v.hmode h = .setting p →
    v.state p = .running ∧ (∀ k, v.on k ≠ some p) ∧ v.pmode p = .resumable
  gone : ∀ h p, v.on h = none → v.proc h = some p → v.state p ≠ .running
  runs : ∀ p, v.state p = .running → ∃ h, v.on h = some p ∨ v.hmode h = .setting p
  /-- What `fork` makes is not used by anybody else. -/
  made : ∀ p q b, v.making p = some (q, b) →
    v.state q = .used ∧ (b = true → v.pmode q = .resumable)
  maker : ∀ p p' q b b', v.making p = some (q, b) → v.making p' = some (q, b') → p = p'

/-! ## The moves keep the invariant -/

section Moves
variable {v w : View H} {h : H}

/-- Nobody is on the stack of a process that is being made. -/
theorem Inv.not_on (hv : v.Inv) {q : Slot} (hq : v.state q = .used) (k : H) : v.on k ≠ some q := by
  intro hon
  have hmode := hv.running k q hon (by rw [hq]; simp)
  obtain ⟨-, -, hst⟩ := hv.leaving k q _ hon hmode
  simp [hq] at hst

/-- Nor on that of a process whose lock is held by somebody else, unless it runs. -/
theorem Inv.not_on_of_lock (hv : v.Inv) {q : Slot} {h : H} (hq : v.state q ≠ .running)
    (hlock : v.lock q = some h) (hon : v.on h = none) (k : H) : v.on k ≠ some q := by
  intro hk
  have hmode := hv.running k q hk hq
  obtain ⟨hlock', -⟩ := hv.leaving k q _ hk hmode
  rw [hlock] at hlock'
  cases hlock'
  rw [hon] at hk
  cases hk

variable [DecidableEq H]

attribute [local simp] setLock setState setPmode setMaking setHmode setProc setOn
  update_apply

variable (hv : v.Inv)
include hv

variable (hmove : v.Move h w)
include hmove

theorem Inv.unique_move (k k' : H) (p : Slot) : w.on k = some p → w.on k' = some p → k = k' := by
  have hu := hv.unique k k' p
  cases hmove with
  | sched => simp; grind
  | dispatch _ hmode =>
    have hfree := (hv.started h _ hmode).2.1
    simp; grind
  | _ => exact hu

theorem Inv.busy_move (k : H) (p r : Slot) :
    w.on k = some p → w.pmode p = .busy r → w.lock r = some k := by
  have hb := hv.busy
  have hu := hv.unique
  have hr := hv.resumable
  cases hmove with
  | stay | wake | reap | run | idle | free | ready => exact hb k p r
  | drop _ hmode =>
    have hl := hv.picking h _ hmode
    simp; grind
  | dispatch _ hmode =>
    have hres := (hv.started h _ hmode).2.2
    simp; grind
  | _ => simp; grind

theorem Inv.leaving_move (k : H) (p : Slot) (st : ProcState) :
    w.on k = some p → w.pmode p = .leaving st →
      w.lock p = some k ∧ w.state p = st ∧
        (st = .runnable ∨ st = .sleeping ∨ st = .zombie) := by
  have hl := hv.leaving
  have hb := hv.busy
  have hu := hv.unique
  cases hmove with
  | stay | idle => exact hl k p st
  | drop _ hmode =>
    have hlock := hv.picking h _ hmode
    simp; grind
  | run _ hmode =>
    have hlock := hv.picking h _ hmode
    simp; grind
  | dispatch _ hmode =>
    have hres := (hv.started h _ hmode).2.2
    simp; grind
  | release hon hmode =>
    have hr := hv.resumable
    simp; grind
  | free _ _ hmaking | ready _ hmaking =>
    have hm := (hv.made _ _ _ hmaking).1
    simp; grind
  | _ => simp; grind

theorem Inv.resumable_move (k : H) (p : Slot) :
    w.on k = some p → w.pmode p = .resumable → w.lock p = some k := by
  have hr := hv.resumable
  have hu := hv.unique
  cases hmove with
  | stay | wake | reap | idle | run | free | ready => exact hr k p
  | release hon hmode =>
    have hb := hv.busy
    simp; grind
  | drop _ hmode =>
    have hlock := hv.picking h _ hmode
    simp; grind
  | dispatch _ hmode =>
    have hlock := hv.setting h _ hmode
    simp; grind
  | setup _ _ hmaking =>
    have hoff := hv.not_on (hv.made _ _ _ hmaking).1 k
    simp; grind
  | _ => simp; grind

theorem Inv.picking_move (k : H) (r : Slot) : w.hmode k = .busy r → w.lock r = some k := by
  have hp := hv.picking
  cases hmove with
  | release hon hmode =>
    have hb := hv.busy h
    have hr := hv.resumable h
    have hproc := hv.proc h
    have hon' := hv.on h
    simp; grind
  | idle hon hmode =>
    have hback := hv.backing h _ hon hmode
    simp; grind
  | acquire | alloc | pick | drop | run | dispatch => simp; grind
  | _ => exact hp k r

theorem Inv.setting_move (k : H) (r : Slot) : w.hmode k = .setting r → w.lock r = some k := by
  have hs := hv.setting
  cases hmove with
  | release hon hmode =>
    have hb := hv.busy h
    have hr := hv.resumable h
    have hproc := hv.proc h
    have hon' := hv.on h
    simp; grind
  | run hon hmode =>
    have hp := hv.picking h _ hmode
    simp; grind
  | drop hon hmode =>
    have hp := hv.picking h _ hmode
    simp; grind
  | acquire | alloc | pick | dispatch | idle => simp; grind
  | _ => exact hs k r

theorem Inv.backing_move (k : H) (r : Slot) :
    w.on k = none → w.hmode k = .backing r → w.lock r = some k := by
  have hback := hv.backing
  cases hmove with
  | release hon hmode =>
    have hb := hv.busy h
    have hr := hv.resumable h
    simp; grind
  | @sched p st hon hmode =>
    have hlock := (hv.leaving h p st hon hmode).1
    have hproc := hv.proc h
    have hon' := hv.on h p hon
    simp; grind
  | drop hon hmode =>
    have hp := hv.picking h _ hmode
    simp; grind
  | acquire | alloc | pick | run | dispatch | idle => simp; grind
  | _ => exact hback k r

theorem Inv.proc_move (k : H) (p : Slot) : w.proc k = some p ↔ w.hmode k = .backing p := by
  have hp := hv.proc k p
  cases hmove with
  | pick | drop | run =>
    have hproc := hv.proc h
    simp; grind
  | dispatch | idle => simp; grind
  | _ => exact hp

theorem Inv.on_move (k : H) (p : Slot) : w.on k = some p → w.proc k = some p := by
  have ho := hv.on k p
  cases hmove with
  | sched | dispatch | idle => simp; grind
  | _ => exact ho

theorem Inv.running_move (k : H) (p : Slot) :
    w.on k = some p → w.state p ≠ .running → w.pmode p = .leaving (w.state p) := by
  have hr := hv.running k p
  have hl := hv.leaving k p
  cases hmove with
  | stay | idle | pick | drop => exact hr
  | dispatch _ hmode =>
    have hst := (hv.started h _ hmode).1
    simp; grind
  | setup _ _ hmaking | free _ _ hmaking | ready _ hmaking =>
    have hoff := hv.not_on (hv.made _ _ _ hmaking).1 k
    simp; grind
  | sched hon hmode =>
    have hu := hv.unique k h p
    simp; grind
  | _ => simp; grind

theorem Inv.off_move (p : Slot) :
    w.state p = .runnable ∨ w.state p = .sleeping → (∀ k, w.on k ≠ some p) →
      w.pmode p = .resumable := by
  have hoff := hv.off p
  cases hmove with
  | stay | pick | drop | idle => exact hoff
  | @sched q st hon hmode =>
    have hl := (hv.leaving h q st hon hmode).2
    simp; grind
  | ready _ hmaking =>
    have hm := (hv.made _ _ _ hmaking).2 rfl
    simp; grind
  | _ => simp; grind

theorem Inv.started_move (k : H) (p : Slot) : w.hmode k = .setting p →
      w.state p = .running ∧ (∀ k', w.on k' ≠ some p) ∧ w.pmode p = .resumable := by
  have hs := hv.started k p
  cases hmove with
  | stay => exact hs
  | @run q hon hmode hq =>
    have hoff := hv.not_on_of_lock (by rw [hq]; simp) (hv.picking h q hmode) hon
    have hres := hv.off q (.inl hq) hoff
    simp; grind
  | dispatch _ hmode =>
    have hlock := hv.setting
    simp; grind
  | free _ _ hmaking | ready _ hmaking =>
    have hused := (hv.made _ _ _ hmaking).1
    simp; grind
  | _ => simp; grind

theorem Inv.gone_move (k : H) (p : Slot) :
    w.on k = none → w.proc k = some p → w.state p ≠ .running := by
  have hg := hv.gone k p
  cases hmove with
  | run hon hmode hq =>
    have hp := hv.picking h _ hmode
    have hb := hv.backing k p
    have hpr := hv.proc k p
    simp; grind
  | sched hon hmode =>
    have hl := (hv.leaving h _ _ hon hmode).2
    have hon' := hv.on h _ hon
    simp; grind
  | wake | reap | leave | dispatch | idle | alloc | free | ready => simp; grind
  | _ => exact hg

theorem Inv.runs_move (p : Slot) :
    w.state p = .running → ∃ k, w.on k = some p ∨ w.hmode k = .setting p := by
  have hr := hv.runs p
  cases hmove with
  | @sched q st hon hmode =>
    have hst := (hv.leaving h q st hon hmode).2
    intro hp
    obtain ⟨k, hk⟩ := hr hp
    refine ⟨k, ?_⟩
    simp at hp ⊢; grind
  | @run q hon hmode hq =>
    intro hp
    by_cases hpq : p = q
    · exact ⟨h, .inr (by simp [hpq])⟩
    · obtain ⟨k, hk⟩ := hr (by simpa [hpq] using hp)
      refine ⟨k, ?_⟩
      simp; grind
  | @dispatch q hon hmode =>
    intro hp
    obtain ⟨k, hk⟩ := hr hp
    by_cases hkh : k = h
    · exact ⟨h, .inl (by simp; grind)⟩
    · exact ⟨k, by simpa [hkh] using hk⟩
  | pick | drop | idle =>
    intro hp
    obtain ⟨k, hk⟩ := hr hp
    refine ⟨k, ?_⟩
    simp; grind
  | wake | reap | leave | alloc | free | ready =>
    intro hp
    exact hr (by simp at hp; grind)
  | _ => exact hr

theorem Inv.made_move (p q : Slot) (b : Bool) :
    w.making p = some (q, b) → w.state q = .used ∧ (b = true → w.pmode q = .resumable) := by
  have hm := hv.made p q b
  have hoff : v.state q = .used → v.on h ≠ some q := fun hq => hv.not_on hq h
  cases hmove with
  | stay | pick | drop | dispatch | idle => exact hm
  | setup _ _ hmaking | free _ _ hmaking | ready _ hmaking =>
    have hused := (hv.made _ _ _ hmaking).1
    have hmaker := hv.maker p
    simp; grind
  | _ => simp; grind

theorem Inv.maker_move (p p' q : Slot) (b b' : Bool) :
    w.making p = some (q, b) → w.making p' = some (q, b') → p = p' := by
  have hm := hv.maker p p' q b b'
  cases hmove with
  | alloc =>
    have hused := hv.made
    simp; grind
  | setup =>
    have hm' := hv.maker
    simp; grind
  | free | ready => simp; grind
  | _ => exact hm

theorem inv_of_move : w.Inv where
  unique := hv.unique_move hmove
  busy := hv.busy_move hmove
  leaving := hv.leaving_move hmove
  resumable := hv.resumable_move hmove
  picking := hv.picking_move hmove
  setting := hv.setting_move hmove
  backing := hv.backing_move hmove
  running := hv.running_move hmove
  off := hv.off_move hmove
  proc := hv.proc_move hmove
  on := hv.on_move hmove
  started := hv.started_move hmove
  gone := hv.gone_move hmove
  runs := hv.runs_move hmove
  made := hv.made_move hmove
  maker := hv.maker_move hmove

end Moves

/-- The transitions of `p->state`. -/
inductive Edge : ProcState → ProcState → Prop
  | alloc : Edge .unused .used
  | free : Edge .used .unused
  | ready : Edge .used .runnable
  | run : Edge .runnable .running
  | yield : Edge .running .runnable
  | sleep : Edge .running .sleeping
  | exit : Edge .running .zombie
  | wake : Edge .sleeping .runnable
  | reap : Edge .zombie .unused

/-- The state of a process stays, or moves along an edge. -/
theorem edge_of_move [DecidableEq H] {v w : View H} {h : H} (hv : v.Inv) (hmove : v.Move h w)
    (p : Slot) : w.state p = v.state p ∨ Edge (v.state p) (w.state p) := by
  have hset : ∀ (q : Slot) (st : ProcState), Edge (v.state q) st →
      (v.setState q st).state p = v.state p ∨ Edge (v.state p) ((v.setState q st).state p) := by
    intro q st hedge
    by_cases hpq : p = q
    · subst hpq
      exact .inr (by simpa [setState] using hedge)
    · exact .inl (by simp [setState, hpq])
  cases hmove with
  | wake _ hq => exact hset _ _ (by rw [hq]; exact .wake)
  | reap _ hq => exact hset _ _ (by rw [hq]; exact .reap)
  | run _ _ hq => exact hset _ _ (by rw [hq]; exact .run)
  | alloc _ _ _ _ hq => exact hset _ _ (by rw [hq]; exact .alloc)
  | free _ _ hmaking => exact hset _ _ (by rw [(hv.made _ _ _ hmaking).1]; exact .free)
  | ready _ hmaking => exact hset _ _ (by rw [(hv.made _ _ _ hmaking).1]; exact .ready)
  | @leave q st hon hmode hst =>
    have hrun : v.state q = .running := by
      by_contra hne
      rw [hv.running h q hon hne] at hmode
      cases hmode
    refine hset q st ?_
    rw [hrun]
    rcases hst with rfl | rfl | rfl
    · exact .yield
    · exact .sleep
    · exact .exit
  | _ => exact .inl rfl

end View

end Xv6.Dispatch
