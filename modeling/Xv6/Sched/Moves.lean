import Xv6.Sched.Step
import Xv6.Lib.Loop

/-!
# What a step of the kernel can do

The fields of the kernel after each operation, the inversion of `next`, and the part of a slot
that selecting a process never touches.
-/

namespace Xv6

open Lib

namespace Kern

section Fields
variable (k : Kern) (h : ℕ) (p i : Slot) (f : Proc → Proc) (g : Slot → Proc → Proc)

@[simp] theorem proc_mapProc : (k.mapProc g).proc i = g i (k.proc i) := rfl
@[simp] theorem cpu_mapProc : (k.mapProc g).cpu = k.cpu := rfl
@[simp] theorem mlfq_mapProc : (k.mapProc g).mlfq = k.mlfq := rfl
@[simp] theorem ticks_mapProc : (k.mapProc g).ticks = k.ticks := rfl
@[simp] theorem nextpid_mapProc : (k.mapProc g).nextpid = k.nextpid := rfl

theorem proc_modProc : (k.modProc p f).proc i = if i = p then f (k.proc i) else k.proc i := rfl
@[simp] theorem proc_modProc_self : (k.modProc p f).proc p = f (k.proc p) := if_pos rfl
@[simp] theorem cpu_modProc : (k.modProc p f).cpu = k.cpu := rfl
@[simp] theorem mlfq_modProc : (k.modProc p f).mlfq = k.mlfq := rfl
@[simp] theorem ticks_modProc : (k.modProc p f).ticks = k.ticks := rfl
@[simp] theorem nextpid_modProc : (k.modProc p f).nextpid = k.nextpid := rfl

variable {p i} in
theorem proc_modProc_of_ne (hne : i ≠ p) : (k.modProc p f).proc i = k.proc i := if_neg hne

@[simp] theorem proc_setCpu (c : Option Slot) : (k.setCpu h c).proc = k.proc := rfl
@[simp] theorem mlfq_setCpu (c : Option Slot) : (k.setCpu h c).mlfq = k.mlfq := rfl
@[simp] theorem ticks_setCpu (c : Option Slot) : (k.setCpu h c).ticks = k.ticks := rfl
@[simp] theorem nextpid_setCpu (c : Option Slot) : (k.setCpu h c).nextpid = k.nextpid := rfl

theorem cpu_setCpu (c : Option Slot) (h' : ℕ) :
    (k.setCpu h c).cpu h' = if h' = h then { proc := c, sel := none } else k.cpu h' :=
  Function.update_apply _ _ _ _

end Fields

/-- A change to one slot that a projection does not see. -/
theorem modProc_frame {β : Type*} {π : Proc → β} {f : Proc → Proc} (hf : ∀ x, π (f x) = π x)
    (k : Kern) (p i : Slot) : π ((k.modProc p f).proc i) = π (k.proc i) := by
  rw [proc_modProc]
  split
  · exact hf _
  · rfl

variable {test : Proc → Bool}

theorem findProc_some {k : Kern} {i : Slot} (h : k.findProc test = some i) :
    test (k.proc i) = true := List.find?_some (p := fun i => test (k.proc i)) h

theorem findProc_none {k : Kern} (h : k.findProc test = none) (i : Slot) :
    test (k.proc i) = false := by
  simpa using List.find?_eq_none.mp h i (List.mem_finRange i)

theorem findProc_congr {k k' : Kern}
    (h : ∀ i, test (k'.proc i) = test (k.proc i)) : k'.findProc test = k.findProc test := by
  simp only [findProc, h]

theorem modProc_modProc (k : Kern) (p : Slot) (f g : Proc → Proc) :
    (k.modProc p f).modProc p g = k.modProc p fun x => g (f x) := by
  have hproc : ∀ i, ((k.modProc p f).modProc p g).proc i = (k.modProc p fun x => g (f x)).proc i := by
    intro i
    simp only [proc_modProc]
    split <;> rfl
  have hproc := funext hproc
  simp only [modProc, mapProc] at hproc ⊢
  rw [hproc]

/-- The slot `allocproc` takes. -/
def freeSlot (k : Kern) : Option Slot := k.findProc fun x => x.state = .unused

theorem unused_of_freeSlot {k : Kern} {i : Slot} (h : k.freeSlot = some i) :
    (k.proc i).state = .unused := by simpa using findProc_some h

/-- Fill a slot and use up a pid. -/
def fill (k : Kern) (i : Slot) (f : Proc → Proc) : Kern :=
  { k.modProc i f with nextpid := k.nextpid + 1 }

section Fill
variable (k : Kern) (i j : Slot) (f : Proc → Proc)

theorem proc_fill : (k.fill i f).proc j = if j = i then f (k.proc j) else k.proc j := rfl
@[simp] theorem cpu_fill : (k.fill i f).cpu = k.cpu := rfl
@[simp] theorem mlfq_fill : (k.fill i f).mlfq = k.mlfq := rfl
@[simp] theorem ticks_fill : (k.fill i f).ticks = k.ticks := rfl
@[simp] theorem nextpid_fill : (k.fill i f).nextpid = k.nextpid + 1 := rfl

end Fill

/-- What `fork` does: nothing if the table is full, use up a slot's pid if memory runs out, or
make a child. -/
inductive Forked (k : Kern) (p : Slot) : Kern → Prop
  | full (hi : k.freeSlot = none) : Forked k p k
  | failed {i : Slot} (hi : k.freeSlot = some i) :
      Forked k p (k.fill i fun x => (x.alloc k.nextpid k.ticks).free)
  | child {i : Slot} (hi : k.freeSlot = some i) :
      Forked k p (k.fill i fun x =>
        { x.alloc k.nextpid k.ticks with parent := some p, state := .runnable })

/-- What `fork` makes of the free slot it has found. -/
def childOf (k : Kern) (p : Slot) (ok : Bool) (x : Proc) : Proc :=
  if ok then { x.alloc k.nextpid k.ticks with parent := some p, state := .runnable }
  else (x.alloc k.nextpid k.ticks).free

theorem fork_eq (k : Kern) (p : Slot) (mem copy : Bool) : (k.fork p mem copy).1 =
    match k.freeSlot with
    | none => k
    | some i => k.fill i (k.childOf p (mem && copy)) := by
  cases hi : k.freeSlot with
  | none => simp [fork, allocproc, show k.findProc _ = none from hi]
  | some i =>
    have hfind : k.findProc (fun x => x.state = .unused) = some i := hi
    have hfill : ∀ g : Proc → Proc, ({ k with nextpid := k.nextpid + 1 }.modProc i fun x =>
        x.alloc k.nextpid k.ticks).modProc i g = k.fill i fun x => g (x.alloc k.nextpid k.ticks) :=
      fun g => modProc_modProc _ i _ g
    rw [fork, allocproc, hfind]
    cases mem with
    | false => exact hfill Proc.free
    | true =>
      cases copy with
      | false => exact hfill Proc.free
      | true => exact hfill fun x => { x with parent := some p, state := .runnable }

theorem forked_fork (k : Kern) (p : Slot) (mem copy : Bool) : Forked k p (k.fork p mem copy).1 := by
  rw [fork_eq]
  cases hi : k.freeSlot with
  | none => exact .full hi
  | some i =>
    cases mem && copy with
    | false => exact .failed hi
    | true => exact .child hi

/-- What `wait` does: nothing, release an exited child, or sleep. -/
inductive Waited (k : Kern) (h : ℕ) (p : Slot) : Kern → Prop
  | same : Waited k h p k
  | reaped {np : Slot} (hnp : k.exitedChild p = some np) : Waited k h p (k.freeproc np)
  | slept : Waited k h p (k.sleep h p (.proc p))

theorem waited_wait (k : Kern) (h : ℕ) (p : Slot) (copy : Bool) :
    Waited k h p (k.wait h p copy).1 := by
  rw [wait]
  split
  · split
    · exact .reaped ‹_›
    · exact .same
  · split
    · exact .same
    · exact .slept

theorem zombie_of_exitedChild {k : Kern} {p np : Slot} (h : k.exitedChild p = some np) :
    (k.proc np).state = .zombie := by
  have := findProc_some h
  simp at this
  exact this.2

/-- What `kill` does: nothing, or mark the first process with the pid and wake it. -/
inductive Killed (k : Kern) (pid : Int32) : Kern → Prop
  | none : Killed k pid k
  | marked {i : Slot} (hi : k.findProc (fun x => x.pid = pid) = some i) :
      Killed k pid (k.modProc i fun x =>
        { x with killed := true, state := if x.state = .sleeping then .runnable else x.state })

theorem killed_kill (k : Kern) (pid : Int32) : Killed k pid (k.kill pid).1 := by
  rw [kill]
  split
  · exact .none
  · exact .marked ‹_›

section
variable {P : Kern → Prop} {k : Kern} {v pid : Int32} (hk : P k)
include hk

/-- A call that sets a priority changes one slot or none. -/
theorem of_actuallySetPriority (hset : ∀ i, k.findProc (fun x => x.pid = pid) = some i →
    P (k.modProc i fun x => { x with staticPriority := v, niceness := 5, sleepTime := 0 })) :
    P (k.actuallySetPriority v pid).1 := by
  rw [actuallySetPriority]
  split
  · exact hk
  · exact hset _ ‹_›

theorem of_sysSetPriority {b : Build} (hset : 0 ≤ v → v ≤ 100 → P (k.actuallySetPriority v pid).1) :
    P (sysSetPriority b k v pid).1 := by
  rw [sysSetPriority]
  split_ifs with hb hneg hbig
  · exact hk
  · exact hk
  · exact hk
  · exact hset (Int32.not_lt.mp hneg) (Int32.not_lt.mp hbig)

end

/-- Every successful step, with what it has checked. -/
inductive Moves (b : Build) (k : Kern) : Act → Kern → Prop
  | select {h : ℕ} {r : Kern × Option Slot} (hproc : (k.cpu h).proc = none)
      (hsel : (k.cpu h).sel = none) (hr : k.select b = .ok r) : Moves b k (.select h)
        { r.1 with cpu := Function.update r.1.cpu h { proc := none, sel := r.2 } }
  | dispatch {h : ℕ} {p : Slot} (hsel : (k.cpu h).sel = some p) :
      Moves b k (.dispatch h) (k.dispatch h p)
  | kerneltrap {h : ℕ} : Moves b k (.timer h false) (kerneltrap b k h)
  | usertrap {h : ℕ} {p : Slot} {k' : Kern} (hp : (k.cpu h).proc = some p)
      (hk : usertrap b k h p = .ok k') : Moves b k (.timer h true) k'
  | wakeup {h : ℕ} {chan : Chan} :
      Moves b k (.wakeup h chan) (k.wakeup (k.cpu h).proc (some chan))
  | sleep {h : ℕ} {p : Slot} {chan : Chan} (hp : (k.cpu h).proc = some p) :
      Moves b k (.sleep h chan) (k.sleep h p chan)
  | kill {h : ℕ} {p : Slot} {pid : Int32} {k' : Kern} (hp : (k.cpu h).proc = some p)
      (hk : Killed k pid k') : Moves b k (.kill h pid) k'
  | fork {h : ℕ} {p : Slot} {mem copy : Bool} {k' : Kern} (hp : (k.cpu h).proc = some p)
      (hk : Forked k p k') : Moves b k (.fork h mem copy) k'
  | exit {h : ℕ} {p : Slot} {status : Int32} {k' : Kern} (hp : (k.cpu h).proc = some p)
      (hk : k.exit h p status = .ok k') : Moves b k (.exit h status) k'
  | wait {h : ℕ} {p : Slot} {copy : Bool} {k' : Kern} (hp : (k.cpu h).proc = some p)
      (hk : Waited k h p k') : Moves b k (.wait h copy) k'
  | setPriority {h : ℕ} {p : Slot} {priority pid : Int32} (hp : (k.cpu h).proc = some p) :
      Moves b k (.setPriority h priority pid) (sysSetPriority b k priority pid).1
  | fault {h : ℕ} {p : Slot} {k' : Kern} (hp : (k.cpu h).proc = some p)
      (hk : k.fault h p = .ok k') : Moves b k (.fault h) k'

theorem toOption_eq_some {ε β : Type*} {x : Except ε β} {y : β} :
    x.toOption = some y ↔ x = .ok y := by cases x <;> simp [Except.toOption]

/-- Inversion of `next`. -/
theorem moves_of_next {b : Build} {k k' : Kern} {a : Act} (h : next b k a = some k') :
    Moves b k a k' := by
  obtain ⟨r, hr, hk⟩ := Option.bind_eq_some_iff.mp h
  rw [toOption_eq_some] at hk
  subst hk
  cases a with
  | select h =>
    obtain ⟨hidle, hr⟩ := Option.ite_none_right_eq_some.mp hr
    obtain ⟨r, hsel, rfl⟩ := map_eq_ok.mp (Option.some.inj hr)
    exact .select hidle.1 hidle.2 hsel
  | dispatch h =>
    obtain ⟨p, hp, hk⟩ := Option.map_eq_some_iff.mp hr
    cases hk
    exact .dispatch hp
  | timer h user =>
    cases user with
    | false => cases hr; exact .kerneltrap
    | true =>
      obtain ⟨p, hp, hk⟩ := Option.bind_eq_some_iff.mp hr
      exact .usertrap hp (Option.some.inj hk)
  | wakeup h chan => cases hr; exact .wakeup
  | sleep h chan =>
    obtain ⟨p, hp, hk⟩ := Option.bind_eq_some_iff.mp hr
    cases hk
    exact .sleep hp
  | kill h pid =>
    obtain ⟨p, hp, hk⟩ := Option.bind_eq_some_iff.mp hr
    cases hk
    exact .kill hp (killed_kill k pid)
  | fork h mem copy =>
    obtain ⟨p, hp, hk⟩ := Option.bind_eq_some_iff.mp hr
    cases hk
    exact .fork hp (forked_fork k p mem copy)
  | exit h status =>
    obtain ⟨p, hp, hk⟩ := Option.bind_eq_some_iff.mp hr
    exact .exit hp (Option.some.inj hk)
  | wait h copy =>
    obtain ⟨p, hp, hk⟩ := Option.bind_eq_some_iff.mp hr
    cases hk
    exact .wait hp (waited_wait k _ p copy)
  | setPriority h priority pid =>
    obtain ⟨p, hp, hk⟩ := Option.bind_eq_some_iff.mp hr
    cases hk
    exact .setPriority hp
  | fault h =>
    obtain ⟨p, hp, hk⟩ := Option.bind_eq_some_iff.mp hr
    exact .fault hp (Option.some.inj hk)

end Kern

/-! ## The clock -/

theorem Proc.clock_eq (x : Proc) : x.clock =
    { x with
      sleepTime := x.sleepTime + if x.state = .sleeping then 1 else 0
      rtime := x.rtime + if x.state = .running then 1 else 0
      niceness := x.clock.niceness
      dynamicPriority := x.clock.dynamicPriority } := by
  rcases hx : x.state <;> simp [Proc.clock, hx]

namespace Kern

/-- The slot of a process when `clockintr` has counted the tick, woken the sleepers and charged
the interrupted process. -/
def tickProc (me : Option Slot) (i : Slot) (x : Proc) : Proc :=
  let x := if x.state = .running then { x with rtime := x.rtime + 1 } else x
  let x := if some i ≠ me ∧ x.state = .sleeping ∧ x.chan = some .ticks then
    { x with state := .runnable } else x
  if me = some i then
    { x.countLevel with rtime := x.rtime + 1, changeQueue := x.changeQueue - 1 } else x

theorem proc_clockintr (k : Kern) (me : Option Slot) (i : Slot) :
    (k.clockintr me).proc i = (tickProc me i (k.proc i)).clock := by
  cases me with
  | none => rfl
  | some p =>
    by_cases hp : i = p
    · subst hp; simp [clockintr, charge, modProc, tickProc, updateTime, wakeup]
    · have hp' : ¬ p = i := fun heq => hp heq.symm
      simp [clockintr, charge, modProc, tickProc, updateTime, wakeup, hp, hp']

section
variable (k : Kern) (me : Option Slot)

@[simp] theorem cpu_clockintr : (k.clockintr me).cpu = k.cpu := by cases me <;> rfl
@[simp] theorem mlfq_clockintr : (k.clockintr me).mlfq = k.mlfq := by cases me <;> rfl
@[simp] theorem nextpid_clockintr : (k.clockintr me).nextpid = k.nextpid := by cases me <;> rfl
@[simp] theorem ticks_clockintr : (k.clockintr me).ticks = k.ticks + 1 := by cases me <;> rfl

end

/-- What the clock leaves alone. -/
theorem clockintr_frame {β : Type*} {π : Proc → β} (hπ : ∀ x s sl rt ni dy cq q,
    π { x with state := s, sleepTime := sl, rtime := rt, niceness := ni, dynamicPriority := dy,
               changeQueue := cq, q := q } = π x)
    (k : Kern) (me : Option Slot) (i : Slot) :
    π ((k.clockintr me).proc i) = π (k.proc i) := by
  have hclock : ∀ x : Proc, π x.clock = π x := fun x => by
    rw [Proc.clock_eq]; exact hπ x _ _ _ _ _ _ _
  rw [proc_clockintr, hclock]
  unfold tickProc
  dsimp only [Proc.countLevel]
  split_ifs
  all_goals first | rfl | exact hπ (k.proc i) _ _ _ _ _ _ _

theorem state_tickProc (me : Option Slot) (i : Slot) (x : Proc) : (tickProc me i x).state =
    if some i ≠ me ∧ x.state = .sleeping ∧ x.chan = some .ticks then .runnable else x.state := by
  unfold tickProc
  dsimp only [Proc.countLevel]
  split_ifs <;> simp_all

theorem rtime_tickProc (me : Option Slot) (i : Slot) (x : Proc) : (tickProc me i x).rtime =
    x.rtime + (if x.state = .running then 1 else 0) + if me = some i then 1 else 0 := by
  unfold tickProc
  dsimp only [Proc.countLevel]
  split_ifs <;> simp_all

theorem state_clockintr (k : Kern) (me : Option Slot) (i : Slot) :
    ((k.clockintr me).proc i).state = if some i ≠ me ∧ (k.proc i).state = .sleeping ∧
      (k.proc i).chan = some .ticks then .runnable else (k.proc i).state := by
  rw [proc_clockintr, Proc.clock_eq, ← state_tickProc]

theorem running_clockintr (k : Kern) (me : Option Slot) (i : Slot) :
    ((k.clockintr me).proc i).state = .running ↔ (k.proc i).state = .running := by
  rw [state_clockintr]
  split_ifs with hwake
  · simp [hwake.2.1]
  · rfl

/-- A tick is charged twice to a running process, and once more to the one interrupted. -/
theorem rtime_clockintr (k : Kern) (me : Option Slot) (i : Slot) :
    ((k.clockintr me).proc i).rtime = (k.proc i).rtime +
      (if (k.proc i).state = .running then 2 else 0) + if me = some i then 1 else 0 := by
  have hrun := running_clockintr k me i
  rw [proc_clockintr, Proc.clock_eq] at hrun ⊢
  dsimp only at hrun ⊢
  rw [rtime_tickProc]
  simp only [hrun]
  split_ifs <;> simp [Int32.add_assoc]

theorem changeQueue_clockintr (k : Kern) (me : Option Slot) (i : Slot) :
    ((k.clockintr me).proc i).changeQueue =
      if me = some i then (k.proc i).changeQueue - 1 else (k.proc i).changeQueue := by
  rw [proc_clockintr, Proc.clock_eq]
  unfold tickProc
  dsimp only [Proc.countLevel]
  split_ifs <;> rfl

end Kern

/-! ## What selection leaves alone -/

/-- A slot without the fields the feedback queues are kept in. -/
def Proc.core (x : Proc) : Proc := { x with level := 0, inQueue := false, qEnter := 0 }

namespace Kern

/-- Two kernels that differ only in the feedback queues and the round robin counter. -/
structure SameCore (k k' : Kern) : Prop where
  core : ∀ i, (k'.proc i).core = (k.proc i).core
  cpu : k'.cpu = k.cpu
  ticks : k'.ticks = k.ticks
  nextpid : k'.nextpid = k.nextpid

namespace SameCore

variable {k k' k'' : Kern}

theorem refl (k : Kern) : SameCore k k := ⟨fun _ => rfl, rfl, rfl, rfl⟩

theorem trans (h : SameCore k k') (h' : SameCore k' k'') : SameCore k k'' :=
  ⟨fun i => (h'.core i).trans (h.core i), h'.cpu.trans h.cpu, h'.ticks.trans h.ticks,
    h'.nextpid.trans h.nextpid⟩

theorem state (h : SameCore k k') (i : Slot) : (k'.proc i).state = (k.proc i).state :=
  (congrArg Proc.state (h.core i) :)

theorem pid (h : SameCore k k') (i : Slot) : (k'.proc i).pid = (k.proc i).pid :=
  (congrArg Proc.pid (h.core i) :)

end SameCore

theorem sameCore_modProc {f : Proc → Proc} (hf : ∀ x, (f x).core = x.core) (k : Kern) (p : Slot) :
    SameCore k (k.modProc p f) := ⟨modProc_frame hf k p, rfl, rfl, rfl⟩

theorem sameCore_setMlfq (k : Kern) (level : Fin NMLFQ) (q : Queue) :
    SameCore k (k.setMlfq level q) := ⟨fun _ => rfl, rfl, rfl, rfl⟩

/-- A preorder that every single change made by `mlfq_scheduler` respects. -/
structure Selects (R : Kern → Kern → Prop) : Prop where
  refl : ∀ k, R k k
  trans : ∀ {k k' k''}, R k k' → R k' k'' → R k k''
  setMlfq : ∀ k level q, R k (k.setMlfq level q)
  dequeue : ∀ k p, R k (k.modProc p fun x => { x with inQueue := false })
  enqueue : ∀ k p, (k.proc p).state = .runnable →
    R k (k.modProc p fun x => { x with inQueue := true })
  qEnter : ∀ k p t, (k.proc p).state = .runnable → R k (k.modProc p fun x => { x with qEnter := t })
  climb : ∀ k p t, (k.proc p).state = .runnable → R k (k.modProc p (climb t))

theorem selects_sameCore : Selects SameCore where
  refl := .refl
  trans := .trans
  setMlfq := sameCore_setMlfq
  dequeue k p := sameCore_modProc (by intro; rfl) k p
  enqueue k p _ := sameCore_modProc (by intro; rfl) k p
  qEnter k p _ _ := sameCore_modProc (by intro; rfl) k p
  climb k p _ _ := sameCore_modProc (by intro; rfl) k p

namespace Selects

variable {R : Kern → Kern → Prop} {k k' : Kern} {p : Slot}

theorem unqueue (hR : Selects R) (h : k.unqueue p = .ok k') : R k k' := by
  rw [Kern.unqueue] at h
  split at h
  · obtain ⟨q, -, rfl⟩ := map_eq_ok.mp h
    exact hR.trans (hR.setMlfq k _ q) (hR.dequeue _ p)
  · cases h; exact hR.refl k

theorem ageingAt (hR : Selects R) (h : k.ageingAt p = .ok k') : R k k' := by
  rw [Kern.ageingAt] at h
  split at h
  · rename_i haged
    have hp : (k.proc p).state = .runnable := by
      rw [aged, decide_eq_true_eq] at haged; exact haged.1
    obtain ⟨k₁, hk₁, rfl⟩ := map_eq_ok.mp h
    refine hR.trans (hR.unqueue hk₁) (hR.climb k₁ p k.ticks ?_)
    rw [(selects_sameCore.unqueue hk₁).state, hp]
  · cases h; exact hR.refl k

theorem enqueueAt (hR : Selects R) (h : k.enqueueAt p = .ok k') : R k k' := by
  rw [Kern.enqueueAt] at h
  split at h
  · rename_i hp
    obtain ⟨q, -, rfl⟩ := map_eq_ok.mp h
    exact hR.trans (hR.setMlfq k _ q) (hR.enqueue _ p hp.1)
  · cases h; exact hR.refl k

theorem foldlM (hR : Selects R) {f : Kern → Slot → Except String Kern} {is : List Slot}
    (hf : ∀ {k k' : Kern} {p : Slot}, f k p = .ok k' → R k k')
    (h : is.foldlM f k = .ok k') : R k k' :=
  foldlM_rule (hR.refl k) (fun _ _ _ _ hstep hk => hR.trans hk (hf hstep)) h

variable {r : Kern × Option Slot}

theorem takeLevel (hR : Selects R) {level : Fin NMLFQ} {fuel : ℕ}
    (h : Kern.takeLevel level fuel k = .ok r) : R k r.1 := by
  induction fuel generalizing k with
  | zero => cases h
  | succ fuel ih =>
    rw [Kern.takeLevel] at h
    split at h
    · cases h; exact hR.refl k
    obtain ⟨q, -, h⟩ := bind_eq_ok.mp h
    split at h
    · cases h
    rename_i p _
    have hpop := hR.trans (hR.setMlfq k level q) (hR.dequeue _ p)
    dsimp only at h
    split at h
    · rename_i hp
      cases h
      exact hR.trans hpop (hR.qEnter _ p k.ticks.toInt32 hp)
    · exact hR.trans hpop (ih h)

theorem takeLevels (hR : Selects R) {levels : List (Fin NMLFQ)}
    (h : k.takeLevels levels = .ok r) : R k r.1 := by
  induction levels generalizing k with
  | nil => cases h; exact hR.refl k
  | cons level levels ih =>
    obtain ⟨r₁, hr₁, h⟩ := bind_eq_ok.mp h
    have hlevel := hR.takeLevel hr₁
    split at h
    · cases h; exact hlevel
    · exact hR.trans hlevel (ih h)

/-- What every single change respects, `mlfq_scheduler` respects. -/
theorem mlfqScheduler (hR : Selects R) (h : k.mlfqScheduler = .ok r) : R k r.1 := by
  obtain ⟨k₁, hk₁, h⟩ := bind_eq_ok.mp h
  obtain ⟨k₂, hk₂, h⟩ := bind_eq_ok.mp h
  exact hR.trans (hR.trans (hR.foldlM hR.ageingAt hk₁) (hR.foldlM hR.enqueueAt hk₂))
    (hR.takeLevels h)

end Selects

/-- What selection does to a process `p` that is not `RUNNABLE`: it may take it off a queue. -/
structure Passes (p : Slot) (k k' : Kern) : Prop extends SameCore k k' where
  level : (k.proc p).state ≠ .runnable → (k'.proc p).level = (k.proc p).level
  qEnter : (k.proc p).state ≠ .runnable → (k'.proc p).qEnter = (k.proc p).qEnter
  inQueue : (k.proc p).state ≠ .runnable → (k.proc p).inQueue = false →
    (k'.proc p).inQueue = false

theorem Passes.refl (p : Slot) (k : Kern) : Passes p k k :=
  ⟨.refl k, fun _ => rfl, fun _ => rfl, fun _ hq => hq⟩

theorem Passes.trans {p : Slot} {k k' k'' : Kern} (h : Passes p k k') (h' : Passes p k' k'') :
    Passes p k k'' := by
  have hstate : (k.proc p).state ≠ .runnable → (k'.proc p).state ≠ .runnable := fun hp => by
    rwa [h.state]
  exact ⟨h.toSameCore.trans h'.toSameCore,
    fun hp => (h'.level (hstate hp)).trans (h.level hp),
    fun hp => (h'.qEnter (hstate hp)).trans (h.qEnter hp),
    fun hp hq => h'.inQueue (hstate hp) (h.inQueue hp hq)⟩

/-- A change to a `RUNNABLE` process. -/
theorem passes_modProc {f : Proc → Proc} (hf : ∀ x, (f x).core = x.core) (p : Slot) {k : Kern}
    {q : Slot} (hq : (k.proc q).state = .runnable) : Passes p k (k.modProc q f) := by
  have hne : (k.proc p).state ≠ .runnable → (k.modProc q f).proc p = k.proc p := fun hp =>
    proc_modProc_of_ne _ _ (by rintro rfl; exact hp hq)
  exact ⟨sameCore_modProc hf k q, fun hp => by rw [hne hp], fun hp => by rw [hne hp],
    fun hp h => by rwa [hne hp]⟩

theorem selects_passes (p : Slot) : Selects (Passes p) where
  refl := .refl p
  trans := .trans
  setMlfq k level q := ⟨sameCore_setMlfq k level q, fun _ => rfl, fun _ => rfl, fun _ hq => hq⟩
  dequeue k q := by
    refine ⟨sameCore_modProc (by intro; rfl) k q, fun _ => ?_, fun _ => ?_, fun _ hp => ?_⟩
    · exact modProc_frame (π := Proc.level) (by intro; rfl) k q p
    · exact modProc_frame (π := Proc.qEnter) (by intro; rfl) k q p
    · rw [proc_modProc]; split
      · rfl
      · exact hp
  enqueue k q hq := passes_modProc (by intro; rfl) p hq
  qEnter k q _ hq := passes_modProc (by intro; rfl) p hq
  climb k q _ hq := passes_modProc (by intro; rfl) p hq

/-- Selecting a process changes nothing but the feedback queues and the round robin counter. -/
theorem sameCore_select {b : Build} {k : Kern} {r : Kern × Option Slot}
    (h : k.select b = .ok r) : SameCore k r.1 := by
  cases b with
  | rr => cases h; exact ⟨fun _ => rfl, rfl, rfl, rfl⟩
  | fcfs => cases h; exact .refl k
  | pbs => cases h; exact .refl k
  | mlfq => exact selects_sameCore.mlfqScheduler h

end Kern

end Xv6
