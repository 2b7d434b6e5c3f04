import Mathlib.Data.Fintype.Pi
import Xv6.Sched.Alike
import Xv6.Sched.Pbs

/-!
# Reuse of process slots

Two kernels that differ only in what their unused slots hold are run side by side. `allocproc`
and `freeproc` do not reset all of a slot, so a child may differ between the two runs in the
level, the queue flag, the number of runs, the time of its last selection, the sleep time and
the killed flag it inherits from the slot. If every reused slot agrees in these, the runs agree.
-/

namespace Xv6.Kern

open Lib

variable {b : Build} {k k' : Kern} {a : Act} {h : ℕ} {p : Slot} {f : Proc → Proc}

/-! ## Unused slots -/

/-- Unused slots are as `freeproc` leaves them, as far as it resets them for good. -/
def Blank (k : Kern) : Prop := ∀ i, (k.proc i).state = .unused → (k.proc i).blank = Proc.zero.blank

theorem Blank.congr (hk : k.Blank)
    (hframe : ∀ i, (k'.proc i).state = .unused → (k.proc i).state = .unused ∧
      (k'.proc i).blank = (k.proc i).blank) : k'.Blank :=
  fun i hi => (hframe i hi).2.trans (hk i (hframe i hi).1)

theorem Blank.modProc (hk : k.Blank) (hf : (f (k.proc p)).state = .unused →
    (f (k.proc p)).blank = Proc.zero.blank) : (k.modProc p f).Blank := by
  intro i hi
  rw [proc_modProc] at hi ⊢
  split at hi
  · rename_i heq; subst heq; simpa using hf hi
  · rw [if_neg ‹_›]; exact hk i hi

theorem Blank.stop (hk : k.Blank) (hf : ∀ x, (f x).state ≠ .unused) (c : Option Slot) :
    ((k.modProc p f).setCpu h c).Blank :=
  show (k.modProc p f).Blank from hk.modProc fun hun => absurd hun (hf _)

theorem Blank.fill (hk : k.Blank) (hf : (f (k.proc p)).state = .unused →
    (f (k.proc p)).blank = Proc.zero.blank) : (k.fill p f).Blank :=
  show (k.modProc p f).Blank from hk.modProc hf

theorem Woken.blank (hw : Woken k k') (hk : k.Blank) : k'.Blank := by
  intro i hi
  have hun := (hw.unused_iff i).mp hi
  have hb := hk i hun
  simp only [Proc.blank, Proc.zero, Prod.mk.injEq] at hb ⊢
  have hrest : _ = _ := hw.frame (π := fun x => (x.pid, x.chan, x.xstate)) (fun _ _ _ => rfl) i
  simp only [Prod.mk.injEq] at hrest
  exact ⟨hrest.1.trans hb.1, hw.orphan i hb.2.1, hrest.2.1.trans hb.2.2.1,
    hrest.2.2.trans hb.2.2.2⟩

theorem Blank.exit (hk : k.Blank) {status : Int32} (hexit : k.exit h p status = .ok k') :
    k'.Blank := by
  obtain ⟨-, k₁, hw, rfl⟩ := exit_ok hexit
  exact (hw.blank hk).stop (by simp) none

theorem Blank.actuallySetPriority (hk : k.Blank) (v pid : Int32) :
    (k.actuallySetPriority v pid).1.Blank :=
  of_actuallySetPriority hk fun i _ => hk.modProc fun hun => hk i hun

theorem Blank.devintr (hk : k.Blank) (h : ℕ) : (k.devintr h).Blank :=
  hk.congr fun i hi => ⟨(unused_devintr k h i).mp hi,
    devintr_frame (π := Proc.blank) (fun _ _ _ _ _ _ _ _ => rfl) k h i⟩

theorem Blank.preempt (hk : k.Blank) (b : Build) (h : ℕ) (p : Slot) : (preempt b k h p).Blank := by
  cases b with
  | fcfs => exact hk
  | rr => exact hk.stop (by simp) none
  | pbs => exact hk.stop (by simp) none
  | mlfq =>
    rw [Kern.preempt]
    split
    · rw [yield, modProc_modProc]; exact hk.stop (by simp) none
    · exact hk

theorem Blank.next (hs : k.Sane) (hk : k.Blank) (hnext : Kern.next b k a = some k') : k'.Blank := by
  have htimer : ∀ h user, Kern.next b k (.timer h user) = some k' → k'.Blank := by
    intro h user hnext
    cases trapped_of_next hs hnext with
    | none _ => exact hk.devintr h
    | exit _ _ _ hexit => exact (hk.devintr h).exit hexit
    | preempt _ _ => exact (hk.devintr h).preempt b h _
  cases moves_of_next hnext with
  | @select h r _ _ hr =>
    have hcore := sameCore_select hr
    exact hk.congr fun i hi =>
      ⟨(hcore.state i).symm.trans hi, (congrArg Proc.blank (hcore.core i) :)⟩
  | @dispatch h p _ =>
    rw [Kern.dispatch]
    split
    · exact (hk.actuallySetPriority _ _).stop (by simp) _
    · exact hk
  | kerneltrap => exact htimer _ _ hnext
  | usertrap _ _ => exact htimer _ _ hnext
  | wakeup => exact (woken_wakeup k _ _).blank hk
  | sleep _ => exact hk.stop (by simp) none
  | kill _ hkill =>
    cases hkill with
    | none => exact hk
    | @marked i _ =>
      refine hk.modProc fun hun => ?_
      dsimp only at hun
      split at hun
      · cases hun
      · exact hk i hun
  | fork _ hfork =>
    cases hfork with
    | full _ => exact hk
    | failed _ => exact hk.fill fun _ => rfl
    | child _ => exact hk.fill fun hun => by cases hun
  | exit _ hexit => exact hk.exit hexit
  | wait _ hwait =>
    cases hwait with
    | same => exact hk
    | reaped _ => exact hk.modProc fun _ => rfl
    | slept => exact hk.stop (by simp) none
  | setPriority _ => exact of_sysSetPriority hk fun _ _ => hk.actuallySetPriority _ _
  | @fault h p k' _ hexit =>
    exact (hk.modProc (p := p) (f := fun x => { x with killed := true }) (hk p)).exit hexit

theorem blank_of_reachable (hk : Reachable (Kern.next b) boot k) : k.Blank := by
  refine (hk.invariant (P := fun k => k.Sane ∧ k.Blank) ⟨sane_boot, ?_⟩ ?_).2
  · unfold Blank
    decide
  · rintro s a t - hnext ⟨hs, hb⟩
    exact ⟨hs.next hnext, hb.next hs hnext⟩

/-! ## Selection -/

namespace Agree

theorem fcfs (hk : Agree k k') : k'.fcfs = k.fcfs := by
  have hloop : ∀ is index mintime,
      k'.fcfsLoop is index mintime = k.fcfsLoop is index mintime := by
    intro is
    induction is with
    | nil => intro index mintime; rfl
    | cons i is ih =>
      intro index mintime
      rw [fcfsLoop, fcfsLoop, (hk.proc i).state]
      by_cases hi : (k.proc i).state = .runnable
      · have hctime : (k'.proc i).ctime = (k.proc i).ctime :=
          (hk.proc i).field (by simp [hi]) fun _ _ _ _ => rfl
        rw [hctime, ih, ih]
      · simp only [hi, false_and, if_false, ih]
  rw [Kern.fcfs, Kern.fcfs, hk.ticks, hloop]

/-- The candidate is runnable, or the search has found none yet. -/
def Candidate (k : Kern) (best : Slot × Int32) : Prop :=
  (k.proc best.1).state = .runnable ∨ best.2 = 10000

section
variable (hk : Agree k k')
include hk

theorem pbsBody (hc : k.Each Priced) {i : Slot} {best : Slot × Int32}
    (hi : (k.proc i).state = .runnable) (hbest : Candidate k best) :
    k'.pbsBody i best = k.pbsBody i best ∧ Candidate k (k.pbsBody i best) := by
  have hlive : ∀ {j}, (k.proc j).state = .runnable → (k.proc j).state ≠ .unused := by
    intro j hj; rw [hj]; simp
  have hdyn : ∀ {j}, (k.proc j).state = .runnable →
      (k'.proc j).dynamicPriority = (k.proc j).dynamicPriority :=
    fun hj => (hk.proc _).field (hlive hj) fun _ _ _ _ => rfl
  have hnRun : ∀ {j}, (k.proc j).state = .runnable → (k'.proc j).nRun = (k.proc j).nRun :=
    fun hj => (hk.proc _).field (hlive hj) fun _ _ _ _ => rfl
  have hctime : ∀ {j}, (k.proc j).state = .runnable → (k'.proc j).ctime = (k.proc j).ctime :=
    fun hj => (hk.proc _).field (hlive hj) fun _ _ _ _ => rfl
  have hbetter : ∀ (c : Bool) (best : Slot × Int32), (k.proc best.1).state = .runnable →
      (k.proc (if c then (i, (k.proc i).dynamicPriority) else best).1).state = .runnable := by
    intro c best hb
    cases c
    · exact hb
    · exact hi
  -- the first test finds a runnable candidate, since no priority reaches 10000
  obtain ⟨best₁, hbest₁, hrun₁⟩ : ∃ best₁,
      (if decide ((k.proc i).dynamicPriority < best.2) then (i, (k.proc i).dynamicPriority)
        else best) = best₁ ∧ (k.proc best₁.1).state = .runnable := by
    refine ⟨_, rfl, ?_⟩
    rcases hbest with hbest | hbest
    · exact hbetter _ best hbest
    · have hlt : (k.proc i).dynamicPriority < best.2 := by
        rw [hbest]
        exact Int32.lt_of_le_of_lt (hc i).2.2 (by decide)
      rw [decide_eq_true hlt]
      exact hi
  obtain ⟨best₂, hbest₂, hrun₂⟩ : ∃ best₂,
      (if decide ((k.proc i).dynamicPriority = best₁.2 ∧ (k.proc i).nRun < (k.proc best₁.1).nRun)
        then (i, (k.proc i).dynamicPriority) else best₁) = best₂ ∧
        (k.proc best₂.1).state = .runnable := ⟨_, rfl, hbetter _ best₁ hrun₁⟩
  simp only [Kern.pbsBody, hdyn hi, hnRun hi, hctime hi, hbest₁, hnRun hrun₁, hbest₂, hnRun hrun₂,
    hctime hrun₂, true_and]
  exact .inl (hbetter _ best₂ hrun₂)

theorem pbsScheduler (hc : k.Each Priced) : k'.pbsScheduler = k.pbsScheduler := by
  have hloop : ∀ is best, Candidate k best → k'.pbsLoop is best = k.pbsLoop is best := by
    intro is
    induction is with
    | nil => intro best _; rfl
    | cons i is ih =>
      intro best hbest
      rw [pbsLoop, pbsLoop, (hk.proc i).state]
      split
      · obtain ⟨heq, hbest'⟩ := hk.pbsBody hc ‹_› hbest
        rw [heq, ih _ hbest']
      · exact ih best hbest
  exact hloop _ _ (.inr rfl)

theorem inQueue (p : Slot) (c : Bool) : Agree (k.modProc p fun x => { x with inQueue := c })
      (k'.modProc p fun x => { x with inQueue := c }) :=
  hk.modProc p ((hk.proc p).map (f := fun x => { x with inQueue := c }) (fun _ => rfl)
    (fun _ => rfl) (fun _ _ _ _ => rfl) (fun _ => ⟨rfl, rfl⟩))

theorem qEnter (p : Slot) (t : Int32) : Agree (k.modProc p fun x => { x with qEnter := t })
      (k'.modProc p fun x => { x with qEnter := t }) :=
  hk.modProc p ((hk.proc p).map (f := fun x => { x with qEnter := t }) (fun _ => rfl)
    (fun _ => rfl) (fun _ _ _ _ => rfl) (fun _ => ⟨rfl, rfl⟩))

theorem climb (p : Slot) (t : UInt32) :
    Agree (k.modProc p (Kern.climb t)) (k'.modProc p (Kern.climb t)) :=
  hk.modProc p ((hk.proc p).map (fun _ => rfl) (fun _ => rfl) (fun _ _ _ _ => rfl)
    (fun _ => ⟨rfl, rfl⟩))

theorem unqueue (hp : (k.proc p).state ≠ .unused) : Sim Agree (k.unqueue p) (k'.unqueue p) := by
  have hq : (k'.proc p).inQueue = (k.proc p).inQueue := (hk.proc p).field hp fun _ _ _ _ => rfl
  have hlevel : (k'.proc p).level = (k.proc p).level := (hk.proc p).field hp fun _ _ _ _ => rfl
  have hpids : (fun i => (k'.proc i).pid) = fun i => (k.proc i).pid :=
    funext fun i => (hk.proc i).pid
  rw [Kern.unqueue, Kern.unqueue, hq, hlevel, hpids, (hk.proc p).pid, hk.mlfq]
  split
  · refine Sim.map (Sim.of_eq (R := Eq) fun _ => rfl) ?_
    rintro q _ rfl
    exact (hk.setMlfq _ q).inQueue p false
  · exact .ok hk

theorem aged (p : Slot) : k'.aged p = k.aged p := by
  rw [Kern.aged, Kern.aged, (hk.proc p).state, hk.ticks]
  by_cases hp : (k.proc p).state = .runnable
  · have hqe : (k'.proc p).qEnter = (k.proc p).qEnter :=
      (hk.proc p).field (by simp [hp]) fun _ _ _ _ => rfl
    rw [hqe]
  · simp [hp]

theorem ageingAt (p : Slot) : Sim Agree (k.ageingAt p) (k'.ageingAt p) := by
  rw [Kern.ageingAt, Kern.ageingAt, hk.aged, hk.ticks]
  split
  · rename_i haged
    have hp : (k.proc p).state = .runnable := by
      rw [Kern.aged, decide_eq_true_eq] at haged; exact haged.1
    exact (hk.unqueue (by simp [hp])).map fun _ _ hk₁ => hk₁.climb p k.ticks
  · exact .ok hk

theorem enqueueAt (p : Slot) : Sim Agree (k.enqueueAt p) (k'.enqueueAt p) := by
  rw [Kern.enqueueAt, Kern.enqueueAt, (hk.proc p).state]
  by_cases hp : (k.proc p).state = .runnable
  · have hq : (k'.proc p).inQueue = (k.proc p).inQueue :=
      (hk.proc p).field (by simp [hp]) fun _ _ _ _ => rfl
    have hlevel : (k'.proc p).level = (k.proc p).level :=
      (hk.proc p).field (by simp [hp]) fun _ _ _ _ => rfl
    rw [hq, hlevel, hk.mlfq]
    split
    · refine Sim.map (Sim.of_eq (R := Eq) fun _ => rfl) ?_
      rintro q _ rfl
      exact (hk.setMlfq _ q).inQueue p true
    · exact .ok hk
  · rw [if_neg fun hc => hp hc.1, if_neg fun hc => hp hc.1]
    exact .ok hk

end

/-- Two selections: kernels that agree, and the same process. -/
def Selected (r r' : Kern × Option Slot) : Prop := Agree r.1 r'.1 ∧ r'.2 = r.2

theorem takeLevel (hk : Agree k k') (level : Fin NMLFQ) (fuel : ℕ) :
    Sim Selected (Kern.takeLevel level fuel k) (Kern.takeLevel level fuel k') := by
  induction fuel generalizing k k' with
  | zero => exact .error _
  | succ fuel ih =>
    rw [Kern.takeLevel, Kern.takeLevel, hk.mlfq, hk.ticks]
    split
    · exact .ok ⟨hk, rfl⟩
    · refine Sim.bind (Sim.of_eq (R := Eq) fun _ => rfl) ?_
      rintro q _ rfl
      cases (k.mlfq level).front with
      | none => exact .error _
      | some p =>
        have hpop := (hk.setMlfq level q).inQueue p false
        dsimp only
        rw [(hpop.proc p).state]
        split
        · exact .ok ⟨hpop.qEnter p _, rfl⟩
        · exact ih hpop

theorem takeLevels (hk : Agree k k') (levels : List (Fin NMLFQ)) :
    Sim Selected (k.takeLevels levels) (k'.takeLevels levels) := by
  induction levels generalizing k k' with
  | nil => exact .ok ⟨hk, rfl⟩
  | cons level levels ih =>
    refine (hk.takeLevel level (NPROC + 2)).bind ?_
    rintro ⟨k₁, sel⟩ ⟨k₁', sel'⟩ ⟨hk₁, hsel⟩
    dsimp only at hk₁ hsel
    subst hsel
    cases sel' with
    | some p => exact .ok ⟨hk₁, rfl⟩
    | none => exact ih hk₁

theorem mlfqScheduler (hk : Agree k k') : Sim Selected k.mlfqScheduler k'.mlfqScheduler := by
  refine (Sim.foldlM hk fun _ _ p hk => hk.ageingAt p).bind fun _ _ hk₁ => ?_
  exact (Sim.foldlM hk₁ fun _ _ p hk => hk.enqueueAt p).bind fun _ _ hk₂ => hk₂.takeLevels _

theorem select (hk : Agree k k') (hc : k.Each Priced) (b : Build) :
    Sim Selected (k.select b) (k'.select b) := by
  cases b with
  | rr =>
    refine .ok ⟨⟨hk.proc, hk.mlfq, hk.ticks, hk.nextpid, ?_, hk.cpu⟩, ?_⟩
    · exact congrArg (· + 1) hk.alpha
    · exact congrArg (fun i => some (i + 1)) hk.alpha
  | fcfs => exact .ok ⟨hk, by rw [hk.fcfs]⟩
  | pbs => exact .ok ⟨hk, by rw [hk.pbsScheduler hc]⟩
  | mlfq => exact hk.mlfqScheduler

end Agree

/-! ## Steps -/

/-- What a child takes over from the slot it is made in. -/
def recycled (x : Proc) : Fin NMLFQ × Bool × Int32 × Int32 × Int32 × Bool :=
  (x.level, x.inQueue, x.nRun, x.qEnter, x.sleepTime, x.killed)

/-- The slot in which `fork` makes a child holds the same in both kernels. -/
def RecyclesAlike (k k' : Kern) : Act → Prop
  | .fork _ mem copy => mem = true → copy = true → ∀ i, k.freeSlot = some i →
      recycled (k'.proc i) = recycled (k.proc i)
  | _ => True

instance (k k' : Kern) (a : Act) : Decidable (RecyclesAlike k k' a) :=
  match a with
  | .fork .. => inferInstanceAs (Decidable (_ → _ → ∀ _, _))
  | .select _ | .dispatch _ | .timer .. | .wakeup .. | .sleep .. | .kill .. | .exit .. | .wait ..
  | .setPriority .. | .fault _ => instDecidableTrue

theorem alike_child {x y : Proc} (hblank : y.blank = x.blank) (hrec : recycled y = recycled x)
    (n : Int32) (t : UInt32) (par : Slot) :
    Alike { x.alloc n t with parent := some par, state := .runnable }
      { y.alloc n t with parent := some par, state := .runnable } := by
  have hy : { y.alloc n t with parent := some par, state := .runnable } =
      Proc.stale { x.alloc n t with parent := some par, state := .runnable }
        y.q y.etime y.changeQueue := by
    simp only [Proc.blank, recycled, Prod.mk.injEq] at hblank hrec
    simp [Proc.alloc, Proc.stale, hblank, hrec]
  rw [hy]
  exact .live (by simp) (by simp) (by simp)

namespace Agree

variable (hk : Agree k k')
include hk

theorem freeSlot : k'.freeSlot = k.freeSlot :=
  hk.findProc fun x y hxy => by rw [hxy.state]

theorem fork {mem copy : Bool} (hrec : RecyclesAlike k k' (.fork h mem copy))
    (p : Slot) : Agree (k.fork p mem copy).1 (k'.fork p mem copy).1 := by
  rw [fork_eq, fork_eq, hk.freeSlot]
  cases hi : k.freeSlot with
  | none => exact hk
  | some i =>
    have hchild : Alike (k.childOf p (mem && copy) (k.proc i))
        (k'.childOf p (mem && copy) (k'.proc i)) := by
      rw [childOf, childOf, hk.nextpid, hk.ticks]
      split
      · rename_i hok
        rw [Bool.and_eq_true] at hok
        exact alike_child (hk.proc i).blank (hrec hok.1 hok.2 i hi) _ _ p
      · exact .free _ _
    have hfill := hk.modProc i hchild
    exact ⟨hfill.proc, hk.mlfq, hk.ticks, congrArg (· + 1) hk.nextpid, hk.alpha, hk.cpu⟩

theorem procStep (hp : (k.proc p).state = .running) (hrec : RecyclesAlike k k' a) :
    Option.Rel (Sim Agree) (Kern.procStep b k h p a) (Kern.procStep b k' h p a) := by
  have hlive : (k.proc p).state ≠ .unused := by rw [hp]; simp
  cases a with
  | timer h' user =>
    cases user with
    | true => exact .some (hk.usertrap hp b h)
    | false => exact .none
  | sleep h' chan => exact .some (.ok (hk.sleep hlive h chan))
  | kill h' pid => exact .some (.ok (hk.kill pid))
  | fork h' mem copy => exact .some (.ok (hk.fork hrec p))
  | exit h' status => exact .some (hk.exit hp h status)
  | wait h' copy => exact .some (.ok (hk.wait hlive h copy))
  | setPriority h' v pid => exact .some (.ok (hk.sysSetPriority b v pid))
  | fault h' =>
    have hmark : Agree (k.modProc p fun x => { x with killed := true })
        (k'.modProc p fun x => { x with killed := true }) :=
      hk.modProc p ((hk.proc p).map (f := fun x => { x with killed := true }) (fun _ => rfl)
        (fun _ => rfl) (fun _ _ _ _ => rfl) (fun _ => ⟨rfl, rfl⟩))
    exact .some (hmark.exit (by simpa using hp) h (-1))
  | select h' => exact .none
  | dispatch h' => exact .none
  | wakeup h' chan => exact .none

/-- A step leads from kernels that agree to kernels that agree, or neither can take it, or both
panic. -/
theorem step (hs : k.Sane) (hc : k.Each Priced) (hrec : RecyclesAlike k k' a) :
    Option.Rel (Sim Agree) (Kern.step b k a) (Kern.step b k' a) := by
  have hproc : Option.Rel (Sim Agree)
      ((k.cpu a.hart).proc.bind fun p => Kern.procStep b k a.hart p a)
      ((k'.cpu a.hart).proc.bind fun p => Kern.procStep b k' a.hart p a) := by
    rw [hk.cpu]
    cases hp : (k.cpu a.hart).proc with
    | none => exact .none
    | some p => exact hk.procStep (hs.running _ p hp) hrec
  cases a with
  | select h =>
    rw [Kern.step, Kern.step, hk.cpu]
    split
    · refine .some ((hk.select hc b).map ?_)
      rintro r r' ⟨hr, hsel⟩
      exact ⟨hr.proc, hr.mlfq, hr.ticks, hr.nextpid, hr.alpha, by rw [hr.cpu, hsel]⟩
    · exact .none
  | dispatch h =>
    rw [Kern.step, Kern.step, hk.cpu]
    cases (k.cpu h).sel with
    | none => exact .none
    | some p => exact .some (.ok (hk.dispatch h p))
  | timer h user =>
    cases user with
    | false => exact .some (.ok (hk.kerneltrap b h))
    | true => exact hproc
  | wakeup h chan =>
    rw [Kern.step, Kern.step, hk.cpu]
    exact .some (.ok (hk.wakeup _ _))
  | _ => exact hproc

theorem next {t t' : Kern} (hs : k.Sane) (hc : k.Each Priced)
    (hrec : RecyclesAlike k k' a) (hnext : Kern.next b k a = some t)
    (hnext' : Kern.next b k' a = some t') : Agree t t' := by
  obtain ⟨r, hr, hok⟩ := Option.bind_eq_some_iff.mp hnext
  obtain ⟨r', hr', hok'⟩ := Option.bind_eq_some_iff.mp hnext'
  rw [toOption_eq_some] at hok hok'
  have hstep := hk.step (b := b) hs hc hrec
  rw [hr, hr', hok, hok'] at hstep
  cases hstep with
  | some hsim =>
    cases hsim with
    | ok h => exact h

end Agree

/-! ## Runs -/

/-- The kernels differ only in what their unused slots hold. -/
structure SameLive (k k' : Kern) : Prop where
  unused_iff : ∀ i, (k'.proc i).state = .unused ↔ (k.proc i).state = .unused
  proc : ∀ i, (k.proc i).state ≠ .unused → k'.proc i = k.proc i
  mlfq : k'.mlfq = k.mlfq
  ticks : k'.ticks = k.ticks
  nextpid : k'.nextpid = k.nextpid
  alpha : k'.alpha = k.alpha
  cpu : ∀ h, k'.cpu h = k.cpu h

/-- The harts run and have selected the same processes, and every process in use has the same
state for the scheduler. -/
structure SameScheduling (k k' : Kern) : Prop where
  cpu : ∀ h, k'.cpu h = k.cpu h
  state : ∀ i, (k'.proc i).state = (k.proc i).state
  recycled : ∀ i, (k.proc i).state ≠ .unused →
    Kern.recycled (k'.proc i) = Kern.recycled (k.proc i)
  dynamicPriority : ∀ i, (k.proc i).state ≠ .unused →
    (k'.proc i).dynamicPriority = (k.proc i).dynamicPriority

theorem SameLive.agree (hk : SameLive k k') (hb : k.Blank) (hb' : k'.Blank) : Agree k k' := by
  refine ⟨fun i => ?_, hk.mlfq, hk.ticks, hk.nextpid, hk.alpha, funext hk.cpu⟩
  by_cases hi : (k.proc i).state = .unused
  · have hi' := (hk.unused_iff i).mpr hi
    exact .unused hi hi' ((hb' i hi').trans (hb i hi).symm)
  · rw [hk.proc i hi]; exact .refl _

theorem Agree.sameScheduling (hk : Agree k k') : SameScheduling k k' where
  cpu h := congrFun hk.cpu h
  state i := (hk.proc i).state
  recycled i hi := (hk.proc i).field hi fun _ _ _ _ => rfl
  dynamicPriority i hi := (hk.proc i).field hi fun _ _ _ _ => rfl

theorem fork_of_next {mem copy : Bool} (hnext : Kern.next b k (.fork h mem copy) = some k') :
    ∃ p, k' = (k.fork p mem copy).1 := by
  obtain ⟨r, hr, hok⟩ := Option.bind_eq_some_iff.mp hnext
  obtain ⟨p, -, hp⟩ := Option.bind_eq_some_iff.mp hr
  rw [toOption_eq_some] at hok
  subst hok
  cases hp
  exact ⟨p, rfl⟩

/-- If the children of a `fork` agree, so did the slots they were made in. -/
theorem recyclesAlike_of_sameScheduling {t t' : Kern} (hk : SameScheduling k k')
    (ht : SameScheduling t t') (hnext : Kern.next b k a = some t)
    (hnext' : Kern.next b k' a = some t') : RecyclesAlike k k' a := by
  cases a with
  | fork h mem copy =>
    rintro rfl rfl i hi
    have hi' : k'.freeSlot = some i := by
      rw [← hi]
      exact findProc_congr fun j => by rw [hk.state j]
    obtain ⟨p, rfl⟩ := fork_of_next hnext
    obtain ⟨p', rfl⟩ := fork_of_next hnext'
    have hrec := ht.recycled i
    rw [fork_eq, fork_eq, hi, hi'] at hrec
    dsimp only at hrec
    rw [proc_fill, proc_fill, if_pos rfl, if_pos rfl] at hrec
    exact hrec (by simp [childOf])
  | _ => trivial

/-- **When the reuse of slots shows.** Take two reachable kernels that differ only in what their
unused slots hold. In two runs from them by the same steps, the same processes are selected and
live processes have the same state for the scheduler throughout, exactly when every slot in
which a child is made holds the same in both runs when the child is made. -/
theorem sameScheduling_iff_recyclesAlike {k₁ k₂ : Kern} (h₁ : Reachable (Kern.next b) boot k₁)
    (h₂ : Reachable (Kern.next b) boot k₂) (hlive : SameLive k₁ k₂) {as : List Act}
    {e : Kern × Kern} (hrun : exec (paired (Kern.next b)) (k₁, k₂) as = some e) :
    (∀ s, Visits (paired (Kern.next b)) (k₁, k₂) as s → SameScheduling s.1 s.2) ↔
      ∀ s a, Takes (paired (Kern.next b)) (k₁, k₂) as s a → RecyclesAlike s.1 s.2 a := by
  constructor
  · intro hall s a hs
    obtain ⟨t, ht⟩ := hs.enabled hrun
    obtain ⟨hnext, hnext'⟩ := paired_eq_some.mp ht
    exact recyclesAlike_of_sameScheduling (hall s hs.visits_start) (hall t (hs.visits ht)) hnext
      hnext'
  · intro hrec s hs
    refine Agree.sameScheduling ?_
    refine Visits.induction (P := fun s => Agree s.1 s.2) ?_ (fun t a u ht hu hk => ?_) hs
    · exact hlive.agree (blank_of_reachable h₁) (blank_of_reachable h₂)
    · have hreach : Reachable (Kern.next b) boot t.1 := by
        obtain ⟨bs, -, hbs⟩ := ht.visits_start.fst
        exact h₁.exec (fun _ _ => trivial) hbs
      obtain ⟨hnext, hnext'⟩ := paired_eq_some.mp hu
      exact hk.next (sane_of_reachable hreach) (priced_of_reachable hreach) (hrec t a ht) hnext
        hnext'

deriving instance DecidableEq for Proc, Cpu

/-- Init makes a child and calls `kill`, which marks an unused slot if the pid is 0. -/
def markHistory (pid : Int32) : List Act :=
  [.select 0, .dispatch 0, .fork 0 true true, .kill 0 pid]

/-- The child exits, and its slot is used for another one. -/
def markRun : List Act :=
  [.select 1, .dispatch 1, .exit 1 0, .wait 0 true, .fork 0 true true, .select 1]

theorem sameScheduling_markRun : ∃ k k' e,
    exec (Kern.next .mlfq) boot (markHistory 0) = some k ∧
    exec (Kern.next .mlfq) boot (markHistory 99) = some k' ∧
    (k.proc 2).killed = true ∧ (k'.proc 2).killed = false ∧
    exec (paired (Kern.next .mlfq)) (k, k') markRun = some e ∧
    ∀ s, Visits (paired (Kern.next .mlfq)) (k, k') markRun s → SameScheduling s.1 s.2 := by
  obtain ⟨k, k', e, hk, hk', hmark, hmark', hlive, hrun⟩ : ∃ k k' e,
      exec (Kern.next .mlfq) boot (markHistory 0) = some k ∧
      exec (Kern.next .mlfq) boot (markHistory 99) = some k' ∧
      (k.proc 2).killed = true ∧ (k'.proc 2).killed = false ∧ SameLive k k' ∧
      exec (guarded (fun s a => RecyclesAlike s.1 s.2 a) (paired (Kern.next .mlfq))) (k, k')
        markRun = some e := by
    refine ⟨_, _, _, rfl, rfl, rfl, rfl, ⟨?_, ?_, rfl, rfl, rfl, rfl, fun _ => rfl⟩, rfl⟩
    · decide +kernel
    · decide +kernel
  obtain ⟨hexec, hok⟩ := exec_guarded hrun
  exact ⟨k, k', e, hk, hk', hmark, hmark', hexec, (sameScheduling_iff_recyclesAlike
    (Reach.refl.exec (fun _ _ => trivial) hk) (Reach.refl.exec (fun _ _ => trivial) hk') hlive
    hexec).mpr hok⟩

/-- Init makes two children, which run on harts 1 and 2 and exit. The timer of hart `h` makes
one of them run twice. -/
def reuseHistory (h : ℕ) : List Act :=
  [.select 0, .dispatch 0, .fork 0 true true, .fork 0 true true, .select 1, .dispatch 1, .select 2,
    .dispatch 2, .timer h false, .select h, .dispatch h, .exit 1 0, .exit 2 0, .wait 0 true,
    .wait 0 true]

/-- Init makes two children again, and hart 1 selects one of them. -/
def reuseRun : List Act := [.fork 0 true true, .fork 0 true true, .select 1]

/-- What the steps of other harts leave alone in a build without feedback queues. -/
def SameElsewhere (h : ℕ) (k k' : Kern) : Prop := k'.cpu h = k.cpu h ∧ k'.mlfq = k.mlfq

theorem SameElsewhere.trans {k'' : Kern} (h₁ : SameElsewhere h k k') (h₂ : SameElsewhere h k' k'') :
    SameElsewhere h k k'' := ⟨h₂.1.trans h₁.1, h₂.2.trans h₁.2⟩

theorem sameElsewhere_setCpu {m : Kern} {h' : ℕ} (hh : h ≠ h') (hk : SameElsewhere h k m)
    (c : Option Slot) :
    SameElsewhere h k (m.setCpu h' c) := ⟨by rw [cpu_setCpu, if_neg hh]; exact hk.1, hk.2⟩

theorem sameElsewhere_exit {h' : ℕ} (hh : h ≠ h') {status : Int32}
    (hexit : k.exit h' p status = .ok k') : SameElsewhere h k k' := by
  obtain ⟨-, k₁, hw, rfl⟩ := exit_ok hexit
  exact sameElsewhere_setCpu (m := k₁.modProc p _) hh ⟨congrFun hw.cpu h, hw.mlfq⟩ none

theorem sameElsewhere_actuallySetPriority (h : ℕ) (k : Kern) (v pid : Int32) :
    SameElsewhere h k (k.actuallySetPriority v pid).1 :=
  of_actuallySetPriority ⟨rfl, rfl⟩ fun _ _ => ⟨rfl, rfl⟩

theorem sameElsewhere_trapped {h' : ℕ} (hh : h ≠ h') {user : Bool}
    (ht : Trapped .pbs k h' user k') : SameElsewhere h k k' := by
  have hdev : SameElsewhere h k (k.devintr h') := ⟨by rw [cpu_devintr], mlfq_devintr k h'⟩
  cases ht with
  | none _ => exact hdev
  | exit _ _ _ hexit => exact hdev.trans (sameElsewhere_exit hh hexit)
  | @preempt p _ _ => exact sameElsewhere_setCpu (m := (k.devintr h').modProc p _) hh hdev none

theorem sameElsewhere_next (hs : k.Sane) (hnext : Kern.next .pbs k a = some k') (hh : h ≠ a.hart) :
    SameElsewhere h k k' := by
  cases moves_of_next hnext with
  | @select h' r _ _ hr => cases hr; exact ⟨Function.update_of_ne hh _ _, rfl⟩
  | @dispatch h' p _ =>
    rw [dispatch]
    split
    · exact sameElsewhere_setCpu
        (m := (k.actuallySetPriority (k.proc p).dynamicPriority (k.proc p).pid).1.modProc p _) hh
        (sameElsewhere_actuallySetPriority h k _ _) _
    · exact sameElsewhere_setCpu (m := k) hh ⟨rfl, rfl⟩ none
  | kerneltrap => exact sameElsewhere_trapped hh (trapped_of_next hs hnext)
  | usertrap _ _ => exact sameElsewhere_trapped hh (trapped_of_next hs hnext)
  | wakeup => exact ⟨rfl, rfl⟩
  | @sleep h' p _ _ => exact sameElsewhere_setCpu (m := k.modProc p _) hh ⟨rfl, rfl⟩ none
  | kill _ hkill => cases hkill <;> exact ⟨rfl, rfl⟩
  | fork _ hfork => cases hfork <;> exact ⟨rfl, rfl⟩
  | exit _ hexit => exact sameElsewhere_exit hh hexit
  | @wait h' p _ _ _ hwait =>
    cases hwait with
    | same => exact ⟨rfl, rfl⟩
    | reaped _ => exact ⟨rfl, rfl⟩
    | slept => exact sameElsewhere_setCpu (m := k.modProc p _) hh ⟨rfl, rfl⟩ none
  | setPriority _ =>
    exact of_sysSetPriority ⟨rfl, rfl⟩ fun _ _ => sameElsewhere_actuallySetPriority h k _ _
  | @fault h' p k' _ hexit =>
    have hmark : SameElsewhere h k (k.modProc p fun x => { x with killed := true }) := ⟨rfl, rfl⟩
    exact hmark.trans (sameElsewhere_exit hh hexit)

theorem sameElsewhere_exec (hs : k.Sane) {as : List Act} (hh : ∀ a ∈ as, h ≠ a.hart)
    (hrun : exec (Kern.next .pbs) k as = some k') : SameElsewhere h k k' := by
  induction as generalizing k with
  | nil => cases hrun; exact ⟨rfl, rfl⟩
  | cons a as ih =>
    obtain ⟨t, ht, hrest⟩ := Option.bind_eq_some_iff.mp hrun
    have hstep := sameElsewhere_next hs ht (hh a List.mem_cons_self)
    exact hstep.trans (ih (hs.next ht) (fun b hb => hh b (List.mem_cons_of_mem a hb)) hrest)

/-- What can be checked of the two kernels after the two histories. -/
def ReuseSplits (k k' : Kern) : Prop :=
  (∀ i, (k'.proc i).state = .unused ↔ (k.proc i).state = .unused) ∧
  (∀ i, (k.proc i).state ≠ .unused → k'.proc i = k.proc i) ∧ k'.ticks = k.ticks ∧
  k'.nextpid = k.nextpid ∧ k'.alpha = k.alpha ∧ (∀ h : Fin 3, k'.cpu h = k.cpu h) ∧
  (exec (Kern.next .pbs) k reuseRun).map (fun e => (e.cpu 1).sel) = some (some 2) ∧
  (exec (Kern.next .pbs) k' reuseRun).map (fun e => (e.cpu 1).sel) = some (some 1)

instance (k k' : Kern) : Decidable (ReuseSplits k k') := by unfold ReuseSplits; infer_instance

theorem reuseSplits : ∃ k k', exec (Kern.next .pbs) boot (reuseHistory 1) = some k ∧
    exec (Kern.next .pbs) boot (reuseHistory 2) = some k' ∧ ReuseSplits k k' := by
  have hcheck : ((exec (Kern.next .pbs) boot (reuseHistory 1)).bind fun k =>
      (exec (Kern.next .pbs) boot (reuseHistory 2)).map fun k' => decide (ReuseSplits k k')) =
        some true := by decide +kernel
  obtain ⟨k, hk, hrest⟩ := Option.bind_eq_some_iff.mp hcheck
  obtain ⟨k', hk', hok⟩ := Option.map_eq_some_iff.mp hrest
  exact ⟨k, k', hk, hk', of_decide_eq_true hok⟩

/-- Which of the two children is selected depends on the histories of the slots. -/
theorem reuseRun_leaks : ∃ k k' e e',
    exec (Kern.next .pbs) boot (reuseHistory 1) = some k ∧
    exec (Kern.next .pbs) boot (reuseHistory 2) = some k' ∧ SameLive k k' ∧
    exec (Kern.next .pbs) k reuseRun = some e ∧ exec (Kern.next .pbs) k' reuseRun = some e' ∧
    (e.cpu 1).sel = some 2 ∧ (e'.cpu 1).sel = some 1 ∧ ¬ SameScheduling e e' := by
  obtain ⟨k, k', hk, hk', hun, hlive, hticks, hpid, halpha, hcpu, he, he'⟩ := reuseSplits
  obtain ⟨e, he, hsel⟩ := Option.map_eq_some_iff.mp he
  obtain ⟨e', he', hsel'⟩ := Option.map_eq_some_iff.mp he'
  have hfar : ∀ h, 2 < h → k'.cpu h = k.cpu h ∧ k'.mlfq = k.mlfq := by
    intro h hh
    have hle : ∀ i ∈ [1, 2], ∀ a ∈ reuseHistory i, a.hart ≤ 2 := by decide
    have hother : ∀ i ∈ [1, 2], ∀ a ∈ reuseHistory i, h ≠ a.hart := fun i hi a ha heq => by
      have := hle i hi a ha
      omega
    have h₁ := sameElsewhere_exec sane_boot (hother 1 (by simp)) hk
    have h₂ := sameElsewhere_exec sane_boot (hother 2 (by simp)) hk'
    exact ⟨h₂.1.trans h₁.1.symm, h₂.2.trans h₁.2.symm⟩
  refine ⟨k, k', e, e', hk, hk', ⟨hun, hlive, (hfar 3 (by omega)).2, hticks, hpid, halpha, ?_⟩, he,
    he', hsel, hsel', fun hs => ?_⟩
  · intro h
    by_cases hh : h < 3
    · exact hcpu ⟨h, hh⟩
    · exact (hfar h (by omega)).1
  · have heq := congrArg Cpu.sel (hs.cpu 1)
    rw [hsel, hsel'] at heq
    exact absurd heq (by decide)

end Xv6.Kern
