import Xv6.Sched.Sane

/-!
# Process tables that look alike

What a slot that is not in use holds should not matter, and of a slot in use some fields are
written before they are next read: the time of exit, the slice and the level counters. Two
kernels `Agree` if they are equal up to these. The steps of the kernel take kernels that agree
to kernels that agree, except that `fork` builds a child from what it finds in a free slot.
-/

namespace Xv6

open Lib

/-- What `freeproc` resets and nothing writes until the slot is reused. -/
def Proc.blank (x : Proc) : Int32 × Option Slot × Option Chan × Int32 :=
  (x.pid, x.parent, x.chan, x.xstate)

/-- The same process with other values of the fields that are written before they are read. -/
def Proc.stale (x : Proc) (q : Fin NMLFQ → Int32) (e c : Int32) : Proc :=
  { x with q := q, etime := e, changeQueue := c }

/-- Two slots that nothing can tell apart until they are reused. -/
inductive Alike : Proc → Proc → Prop
  | unused {x y : Proc} (hx : x.state = .unused) (hy : y.state = .unused)
      (hblank : y.blank = x.blank) : Alike x y
  | live {x : Proc} {q : Fin NMLFQ → Int32} {e c : Int32} (hx : x.state ≠ .unused)
      (he : x.state = .zombie → e = x.etime) (hc : x.state = .running → c = x.changeQueue) :
      Alike x (x.stale q e c)

namespace Alike

variable {x y : Proc}

theorem refl (x : Proc) : Alike x x := by
  by_cases hx : x.state = .unused
  · exact .unused hx hx rfl
  · exact .live hx (fun _ => rfl) (fun _ => rfl)

theorem state (h : Alike x y) : y.state = x.state := by
  cases h with
  | unused hx hy _ => rw [hx, hy]
  | live => rfl

theorem blank (h : Alike x y) : y.blank = x.blank := by
  cases h with
  | unused _ _ hblank => exact hblank
  | live => rfl

theorem pid (h : Alike x y) : y.pid = x.pid := congrArg Prod.fst h.blank

theorem parent (h : Alike x y) : y.parent = x.parent := congrArg (·.2.1) h.blank

theorem chan (h : Alike x y) : y.chan = x.chan := congrArg (·.2.2.1) h.blank

/-- A field of a process in use that is not among those left open. -/
theorem field {β : Type*} {π : Proc → β} (h : Alike x y) (hx : x.state ≠ .unused)
    (hπ : ∀ x q e c, π (x.stale q e c) = π x) : π y = π x := by
  cases h with
  | unused hx' _ _ => exact absurd hx' hx
  | live _ _ _ => exact hπ x _ _ _

theorem changeQueue (h : Alike x y) (hx : x.state = .running) : y.changeQueue = x.changeQueue := by
  cases h with
  | unused hx' _ _ => rw [hx] at hx'; cases hx'
  | live _ _ hc => exact hc hx

/-- A branch on a test that does not tell the two apart. -/
theorem ite {c d : Prop} [Decidable c] [Decidable d] {x' y' : Proc} (hcd : d ↔ c)
    (h : c → Alike x y) (h' : Alike x' y') : Alike (if c then x else x') (if d then y else y') := by
  by_cases hc : c
  · rw [if_pos hc, if_pos (hcd.mpr hc)]; exact h hc
  · rw [if_neg hc, if_neg fun hd => hc (hcd.mp hd)]; exact h'

section
variable (h : Alike x y)
include h

/-- A change of other fields. -/
theorem map {f : Proc → Proc} (hstate : ∀ x, (f x).state = x.state)
    (hblank : ∀ x, (f x).blank = x.blank)
    (hstale : ∀ x q e c, f (x.stale q e c) = (f x).stale q e c)
    (hopen : ∀ x, (f x).etime = x.etime ∧ (f x).changeQueue = x.changeQueue) :
    Alike (f x) (f y) := by
  cases h with
  | unused hx hy hb =>
    exact .unused (by rw [hstate, hx]) (by rw [hstate, hy]) (by rw [hblank, hblank, hb])
  | live hx he hc =>
    rw [hstale]
    exact .live (by rwa [hstate]) (by rwa [hstate, (hopen x).1]) (by rwa [hstate, (hopen x).2])

/-- A process that leaves its state for another one in which neither open field counts. -/
theorem stop {f : Proc → Proc} (hx : x.state ≠ .unused)
    (hstale : ∀ x q e c, f (x.stale q e c) = (f x).stale q e c)
    (hstate : (f x).state ≠ .unused ∧ (f x).state ≠ .zombie ∧ (f x).state ≠ .running) :
    Alike (f x) (f y) := by
  cases h with
  | unused hx' _ _ => exact absurd hx' hx
  | live _ _ _ =>
    rw [hstale]
    exact .live hstate.1 (fun hz => absurd hz hstate.2.1) (fun hr => absurd hr hstate.2.2)

/-- What `exit` sets. -/
theorem exit (hx : x.state ≠ .unused) (status t : Int32) :
    Alike { x with xstate := status, state := .zombie, etime := t }
      { y with xstate := status, state := .zombie, etime := t } := by
  cases h with
  | unused hx' _ _ => exact absurd hx' hx
  | @live q e c _ _ _ =>
    exact .live (x := { x with xstate := status, state := .zombie, etime := t }) (q := q) (e := t)
      (c := c) (by simp) (fun _ => rfl) (by simp)

/-- What a dispatch sets. -/
theorem run (hx : x.state ≠ .unused) (t : Int32) : Alike { x.countLevel with
        changeQueue := Int32.ofNat (1 <<< x.level.val), state := .running, qEnter := t,
        nRun := x.nRun + 1, chan := none }
      { y.countLevel with
        changeQueue := Int32.ofNat (1 <<< y.level.val), state := .running, qEnter := t,
        nRun := y.nRun + 1, chan := none } := by
  cases h with
  | unused hx' _ _ => exact absurd hx' hx
  | @live q e c _ _ _ =>
    exact .live (x := { x.countLevel with
      changeQueue := Int32.ofNat (1 <<< x.level.val), state := .running, qEnter := t,
      nRun := x.nRun + 1, chan := none }) (q := Function.update q x.level (q x.level + 1)) (e := e)
      (c := Int32.ofNat (1 <<< x.level.val)) (by simp) (by simp) (fun _ => rfl)

/-- What the clock charges to the process it interrupts. -/
theorem charge : Alike { x.countLevel with rtime := x.rtime + 1, changeQueue := x.changeQueue - 1 }
      { y.countLevel with rtime := y.rtime + 1, changeQueue := y.changeQueue - 1 } := by
  cases h with
  | unused hx hy hb => exact .unused hx hy hb
  | @live q e c hx he hc =>
    exact .live
      (x := { x.countLevel with rtime := x.rtime + 1, changeQueue := x.changeQueue - 1 })
      (q := Function.update q x.level (q x.level + 1)) (e := e) (c := c - 1) hx he
      fun hr => congrArg (· - 1) (hc hr)

theorem clock : Alike x.clock y.clock := by
  refine h.map (fun x => ?_) (fun x => ?_) (fun x q e c => ?_) (fun x => ?_)
  · rw [Proc.clock_eq]
  · rw [Proc.clock_eq]; rfl
  · cases x with
    | mk state => cases state <;> rfl
  · rw [Proc.clock_eq]; exact ⟨rfl, rfl⟩

/-- What `wakeup` and `kill` do to a sleeper. -/
theorem wake (hx : x.state = .sleeping) :
    Alike { x with state := .runnable } { y with state := .runnable } :=
  h.stop (f := fun x => { x with state := .runnable }) (by simp [hx]) (fun _ _ _ _ => rfl) (by simp)

theorem kill :
    Alike { x with killed := true, state := if x.state = .sleeping then .runnable else x.state }
      { y with killed := true, state := if y.state = .sleeping then .runnable else y.state } := by
  have hkilled : Alike { x with killed := true } { y with killed := true } :=
    h.map (f := fun x => { x with killed := true }) (fun _ => rfl) (fun _ => rfl)
      (fun _ _ _ _ => rfl) (fun _ => ⟨rfl, rfl⟩)
  by_cases hx : x.state = .sleeping
  · rw [if_pos hx, if_pos (h.state.trans hx)]
    exact hkilled.wake hx
  · rw [if_neg hx, if_neg (by rwa [h.state])]
    exact hkilled

theorem setParent (par : Option Slot) :
    Alike { x with parent := par } { y with parent := par } := by
  cases h with
  | unused hx hy hb =>
    obtain ⟨hpid, -, hchan, hxstate⟩ : y.pid = x.pid ∧ y.parent = x.parent ∧ y.chan = x.chan ∧
      y.xstate = x.xstate := by simpa [Proc.blank] using hb
    exact .unused hx hy (by simp [Proc.blank, hpid, hchan, hxstate])
  | @live q e c hx he hc => exact .live (x := { x with parent := par }) hx he hc

end

/-- What `freeproc` leaves. -/
theorem free (x y : Proc) : Alike x.free y.free := .unused rfl rfl rfl

end Alike

namespace Kern

/-- Two kernels that nothing can tell apart until a free slot is reused. -/
structure Agree (k k' : Kern) : Prop where
  proc : ∀ i, Alike (k.proc i) (k'.proc i)
  mlfq : k'.mlfq = k.mlfq
  ticks : k'.ticks = k.ticks
  nextpid : k'.nextpid = k.nextpid
  alpha : k'.alpha = k.alpha
  cpu : k'.cpu = k.cpu

namespace Agree

variable {k k' : Kern} {h : ℕ} {p : Slot}

variable (hk : Agree k k')
include hk

theorem mapProc {f g : Slot → Proc → Proc}
    (hf : ∀ i, Alike (f i (k.proc i)) (g i (k'.proc i))) : Agree (k.mapProc f) (k'.mapProc g) :=
  ⟨hf, hk.mlfq, hk.ticks, hk.nextpid, hk.alpha, hk.cpu⟩

theorem modProc {f g : Proc → Proc} (p : Slot)
    (hf : Alike (f (k.proc p)) (g (k'.proc p))) : Agree (k.modProc p f) (k'.modProc p g) := by
  refine hk.mapProc fun i => ?_
  split
  · rename_i heq; subst heq; exact hf
  · exact hk.proc i

theorem setCpu (h : ℕ) (c : Option Slot) : Agree (k.setCpu h c) (k'.setCpu h c) :=
  ⟨hk.proc, hk.mlfq, hk.ticks, hk.nextpid, hk.alpha, by simp only [Kern.setCpu, hk.cpu]⟩

theorem setMlfq (level : Fin NMLFQ) (q : Queue) : Agree (k.setMlfq level q) (k'.setMlfq level q) :=
  ⟨hk.proc, by simp only [Kern.setMlfq, hk.mlfq], hk.ticks, hk.nextpid, hk.alpha, hk.cpu⟩

theorem findProc {test : Proc → Bool}
    (htest : ∀ x y, Alike x y → test y = test x) : k'.findProc test = k.findProc test :=
  findProc_congr fun i => htest _ _ (hk.proc i)

theorem findPid (pid : Int32) :
    k'.findProc (fun x => x.pid = pid) = k.findProc fun x => x.pid = pid :=
  hk.findProc fun x y hxy => by rw [hxy.pid]

/-! ### The operations on the process table -/

theorem wakeup (me : Option Slot) (chan : Option Chan) :
    Agree (k.wakeup me chan) (k'.wakeup me chan) := by
  refine hk.mapProc fun i => .ite ?_ (fun hc => (hk.proc i).wake hc.2.1) (hk.proc i)
  rw [(hk.proc i).state, (hk.proc i).chan]

theorem reparent (p : Slot) : Agree (k.reparent p) (k'.reparent p) := by
  have hpass : Agree
      (k.mapProc fun _ x => if x.parent = some p then { x with parent := some initproc } else x)
      (k'.mapProc fun _ x =>
        if x.parent = some p then { x with parent := some initproc } else x) := by
    refine hk.mapProc fun i => .ite ?_ (fun _ => (hk.proc i).setParent _) (hk.proc i)
    rw [(hk.proc i).parent]
  rw [Kern.reparent, Kern.reparent, hk.findProc fun x y hxy => by rw [hxy.parent]]
  split
  · exact hpass.wakeup _ _
  · exact hpass

section
variable (hp : (k.proc p).state ≠ .unused)
include hp

/-- A hart puts down a process that does not exit. -/
theorem stop {f : Proc → Proc} (hstale : ∀ x q e c, f (x.stale q e c) = (f x).stale q e c)
    (hstate : ∀ x, (f x).state ≠ .unused ∧ (f x).state ≠ .zombie ∧ (f x).state ≠ .running) :
    Agree ((k.modProc p f).setCpu h none) ((k'.modProc p f).setCpu h none) :=
  (hk.modProc p ((hk.proc p).stop hp hstale (hstate _))).setCpu h none

theorem sleep (h : ℕ) (chan : Chan) : Agree (k.sleep h p chan) (k'.sleep h p chan) :=
  hk.stop hp (fun _ _ _ _ => rfl) (by simp)

theorem yield (h : ℕ) : Agree (k.yield h p) (k'.yield h p) :=
  hk.stop hp (fun _ _ _ _ => rfl) (by simp)

end

theorem exit (hp : (k.proc p).state = .running) (h : ℕ) (status : Int32) :
    Sim Agree (k.exit h p status) (k'.exit h p status) := by
  rw [Kern.exit, Kern.exit]
  split
  · exact .error _
  · have hk₁ := hk.reparent p
    have hw := (woken_reparent k p).trans
      (woken_wakeup _ (some p) (((k.reparent p).proc p).parent.map .proc))
    have hk₂ := hk₁.wakeup (some p) (((k.reparent p).proc p).parent.map .proc)
    have hrun := (hw.running_iff p).mpr hp
    dsimp only
    rw [(hk₁.proc p).parent, hk.ticks]
    exact .ok ((hk₂.modProc p ((hk₂.proc p).exit (by simp [hrun]) _ _)).setCpu h none)

theorem kill (pid : Int32) : Agree (k.kill pid).1 (k'.kill pid).1 := by
  rw [Kern.kill, Kern.kill, hk.findPid]
  cases k.findProc fun x => x.pid = pid with
  | none => exact hk
  | some i =>
    dsimp only
    exact hk.modProc i (hk.proc i).kill

theorem actuallySetPriority (v pid : Int32) :
    Agree (k.actuallySetPriority v pid).1 (k'.actuallySetPriority v pid).1 := by
  rw [Kern.actuallySetPriority, Kern.actuallySetPriority, hk.findPid]
  cases k.findProc fun x => x.pid = pid with
  | none => exact hk
  | some i =>
    dsimp only
    exact hk.modProc i ((hk.proc i).map (f := fun x =>
      { x with staticPriority := v, niceness := 5, sleepTime := 0 }) (fun _ => rfl) (fun _ => rfl)
      (fun _ _ _ _ => rfl) (fun _ => ⟨rfl, rfl⟩))

theorem sysSetPriority (b : Build) (v pid : Int32) :
    Agree (Kern.sysSetPriority b k v pid).1 (Kern.sysSetPriority b k' v pid).1 := by
  rw [Kern.sysSetPriority, Kern.sysSetPriority]
  split_ifs
  · exact hk
  · exact hk
  · exact hk
  · exact hk.actuallySetPriority v pid

theorem wait (hp : (k.proc p).state ≠ .unused) (h : ℕ) (copy : Bool) :
    Agree (k.wait h p copy).1 (k'.wait h p copy).1 := by
  have hchild : k'.exitedChild p = k.exitedChild p :=
    hk.findProc fun x y hxy => by rw [hxy.parent, hxy.state]
  have hkids : k'.findProc (fun x => x.parent = some p) = k.findProc fun x => x.parent = some p :=
    hk.findProc fun x y hxy => by rw [hxy.parent]
  have hkilled : (k'.proc p).killed = (k.proc p).killed := (hk.proc p).field hp fun _ _ _ _ => rfl
  rw [Kern.wait, Kern.wait, hchild, hkids, hkilled]
  cases k.exitedChild p with
  | some np =>
    cases copy with
    | true => exact hk.modProc np (.free _ _)
    | false => exact hk
  | none =>
    dsimp only
    split
    · exact hk
    · exact hk.sleep hp h _

/-! ### Interrupts and dispatch -/

theorem charge (me : Option Slot) : Agree (k.charge me) (k'.charge me) := by
  cases me with
  | none => exact hk
  | some p =>
    rw [Kern.charge, Kern.charge]
    exact hk.modProc p (hk.proc p).charge

theorem clockintr (me : Option Slot) : Agree (k.clockintr me) (k'.clockintr me) := by
  have htime : Agree ({ k with ticks := k.ticks + 1 }.updateTime)
      ({ k' with ticks := k'.ticks + 1 }.updateTime) := by
    refine ⟨fun i => .ite (by rw [(hk.proc i).state]) (fun _ => ?_) (hk.proc i), hk.mlfq,
      congrArg (· + 1) hk.ticks, hk.nextpid, hk.alpha, hk.cpu⟩
    exact (hk.proc i).map (f := fun x => { x with rtime := x.rtime + 1 }) (fun _ => rfl)
      (fun _ => rfl) (fun _ _ _ _ => rfl) (fun _ => ⟨rfl, rfl⟩)
  have hcharge := (htime.wakeup me (some .ticks)).charge me
  exact hcharge.mapProc fun i => (hcharge.proc i).clock

theorem devintr (h : ℕ) : Agree (k.devintr h) (k'.devintr h) := by
  rw [Kern.devintr, Kern.devintr, hk.cpu]
  split
  · exact hk.clockintr _
  · exact hk

theorem preempt (hp : (k.proc p).state = .running) (b : Build) (h : ℕ) :
    Agree (Kern.preempt b k h p) (Kern.preempt b k' h p) := by
  have hlive : (k.proc p).state ≠ .unused := by rw [hp]; simp
  cases b with
  | fcfs => exact hk
  | rr => exact hk.yield hlive h
  | pbs => exact hk.yield hlive h
  | mlfq =>
    rw [Kern.preempt, Kern.preempt, (hk.proc p).changeQueue hp]
    split
    · have hdemote : Alike (k.proc p).demote (k'.proc p).demote :=
        (hk.proc p).map (fun _ => rfl) (fun _ => rfl) (fun _ _ _ _ => rfl) (fun _ => ⟨rfl, rfl⟩)
      refine (hk.modProc p hdemote).yield ?_ h
      rw [proc_modProc_self]
      exact hlive
    · exact hk

theorem usertrap (hp : (k.proc p).state = .running) (b : Build) (h : ℕ) :
    Sim Agree (Kern.usertrap b k h p) (Kern.usertrap b k' h p) := by
  have hdev := hk.devintr h
  have hp' := (running_devintr k h p).mpr hp
  have hkilled : ((k'.devintr h).proc p).killed = ((k.devintr h).proc p).killed :=
    (hdev.proc p).field (by simp [hp']) fun _ _ _ _ => rfl
  rw [Kern.usertrap, Kern.usertrap, hkilled]
  split
  · exact hdev.exit hp' h _
  · exact .ok (hdev.preempt hp' b h)

theorem kerneltrap (b : Build) (h : ℕ) :
    Agree (Kern.kerneltrap b k h) (Kern.kerneltrap b k' h) := by
  have hdev := hk.devintr h
  rw [Kern.kerneltrap, Kern.kerneltrap, hdev.cpu]
  split
  · rw [(hdev.proc _).state]
    split
    · exact hdev.preempt ‹_› b h
    · exact hdev
  · exact hdev

theorem dispatch (h : ℕ) (p : Slot) : Agree (k.dispatch h p) (k'.dispatch h p) := by
  rw [Kern.dispatch, Kern.dispatch, (hk.proc p).state]
  split
  · rename_i hp
    have hdyn : (k'.proc p).dynamicPriority = (k.proc p).dynamicPriority :=
      (hk.proc p).field (by simp [hp]) fun _ _ _ _ => rfl
    have hset := hk.actuallySetPriority (k.proc p).dynamicPriority (k.proc p).pid
    rw [Kern.run, Kern.run, hdyn, (hk.proc p).pid, hk.ticks]
    refine (hset.modProc p ((hset.proc p).run ?_ _)).setCpu h (some p)
    rw [state_actuallySetPriority, hp]
    simp
  · exact hk.setCpu h none

end Agree

end Kern

end Xv6
