import Xv6.Sched.Moves

/-!
# Who runs where, and who is who

Two invariants that every other result about the scheduler rests on: a process runs on exactly
one hart and only while it is `RUNNING`, and the pids of the slots in use are positive and
distinct. The second needs `nextpid` not to wrap around; the first needs nothing.
-/

namespace Xv6.Kern

open Lib
open Function (update update_apply)

variable {b : Build} {k k' : Kern} {a : Act} {h : ℕ} {p : Slot}

/-- The processes harts run are the `RUNNING` ones, each on one hart. -/
structure Sane (k : Kern) : Prop where
  running : ∀ h p, (k.cpu h).proc = some p → (k.proc p).state = .running
  unique : ∀ h h' p, (k.cpu h).proc = some p → (k.cpu h').proc = some p → h = h'
  placed : ∀ p, (k.proc p).state = .running → ∃ h, (k.cpu h).proc = some p
  idle : ∀ h p, (k.cpu h).sel = some p → (k.cpu h).proc = none

theorem sane_boot : boot.Sane where
  running := by intro h p hp; cases hp
  unique := by intro h h' p hp; cases hp
  placed := by
    intro p hp
    simp only [boot] at hp
    split at hp <;> cases hp
  idle := by intro h p hp; cases hp

/-- The invariant sees only who is `RUNNING` and what the harts run, and that a hart which has
selected a process runs none. -/
theorem Sane.select_congr (hk : k.Sane) (hrun : ∀ i, (k'.proc i).state = .running ↔
    (k.proc i).state = .running) (hproc : ∀ h, (k'.cpu h).proc = (k.cpu h).proc)
    (hidle : ∀ h p, (k'.cpu h).sel = some p → (k.cpu h).proc = none) : k'.Sane where
  running h p hp := (hrun p).mpr (hk.running h p (by rwa [hproc] at hp))
  unique h h' p hp hp' := hk.unique h h' p (by rwa [hproc] at hp) (by rwa [hproc] at hp')
  placed p hp := by simpa only [hproc] using hk.placed p ((hrun p).mp hp)
  idle h p hp := (hproc h).trans (hidle h p hp)

theorem Sane.congr (hk : k.Sane) (hrun : ∀ i, (k'.proc i).state = .running ↔
    (k.proc i).state = .running) (hcpu : k'.cpu = k.cpu) : k'.Sane :=
  hk.select_congr hrun (by simp [hcpu]) (by rw [hcpu]; exact hk.idle)

variable {f : Proc → Proc}

/-- A process leaves its hart for a state in which it does not run. -/
theorem Sane.stop (hk : k.Sane) (hp : (k.cpu h).proc = some p)
    (hf : ∀ x, (f x).state ≠ .running) : ((k.modProc p f).setCpu h none).Sane := by
  have hoff : ∀ h' q, (((k.modProc p f).setCpu h none).cpu h').proc = some q →
      h' ≠ h ∧ (k.cpu h').proc = some q := by
    intro h' q hq
    rw [cpu_setCpu] at hq
    split at hq
    · cases hq
    · exact ⟨‹_›, hq⟩
  constructor
  · intro h' q hq
    obtain ⟨hne, hq⟩ := hoff h' q hq
    have hqp : q ≠ p := fun heq => hne (hk.unique h' h p (heq ▸ hq) hp)
    rw [proc_setCpu, proc_modProc_of_ne _ _ hqp]
    exact hk.running h' q hq
  · intro h' h'' q hq hq'
    exact hk.unique h' h'' q (hoff h' q hq).2 (hoff h'' q hq').2
  · intro q hq
    rw [proc_setCpu, proc_modProc] at hq
    split at hq
    · exact absurd hq (hf _)
    · obtain ⟨h', hh'⟩ := hk.placed q hq
      refine ⟨h', ?_⟩
      rw [cpu_setCpu, if_neg]
      · exact hh'
      · rintro rfl
        rw [hp] at hh'
        exact absurd (Option.some.inj hh').symm ‹_›
  · intro h' q hq
    rw [cpu_setCpu] at hq ⊢
    split at hq
    · cases hq
    · rw [if_neg ‹_›]; exact hk.idle h' q hq

/-- A hart without a process takes one that does not run yet. -/
theorem Sane.start (hk : k.Sane) (hh : (k.cpu h).proc = none)
    (hp : (k.proc p).state ≠ .running) (hf : ∀ x, (f x).state = .running) :
    ((k.modProc p f).setCpu h (some p)).Sane := by
  have hold : ∀ h' q, (((k.modProc p f).setCpu h (some p)).cpu h').proc = some q →
      (h' = h ∧ q = p) ∨ (q ≠ p ∧ (k.cpu h').proc = some q) := by
    intro h' q hq
    rw [cpu_setCpu] at hq
    split at hq
    · exact .inl ⟨‹_›, (Option.some.inj hq).symm⟩
    · exact .inr ⟨fun heq => hp (heq ▸ hk.running h' q hq), hq⟩
  constructor
  · intro h' q hq
    rw [proc_setCpu, proc_modProc]
    split
    · exact hf _
    · exact hk.running h' q ((hold h' q hq).resolve_left fun hc => absurd hc.2 ‹_›).2
  · intro h' h'' q hq hq'
    rcases hold h' q hq with ⟨rfl, rfl⟩ | ⟨hne, hq⟩ <;>
      rcases hold h'' q hq' with ⟨rfl, h₂⟩ | ⟨hne', hq'⟩
    · rfl
    · exact absurd rfl hne'
    · exact absurd h₂ hne
    · exact hk.unique h' h'' q hq hq'
  · intro q hq
    by_cases hqp : q = p
    · exact ⟨h, by rw [cpu_setCpu, if_pos rfl, hqp]⟩
    · rw [proc_setCpu, proc_modProc_of_ne _ _ hqp] at hq
      obtain ⟨h', hh'⟩ := hk.placed q hq
      refine ⟨h', ?_⟩
      rw [cpu_setCpu, if_neg]
      · exact hh'
      · rintro rfl; rw [hh] at hh'; cases hh'
  · intro h' q hq
    rw [cpu_setCpu] at hq ⊢
    split at hq
    · cases hq
    · rw [if_neg ‹_›]; exact hk.idle h' q hq

/-! ## Waking -/

/-- Some sleeping processes were made runnable and some parents changed. -/
structure Woken (k k' : Kern) : Prop where
  proc : ∀ i, ∃ st par, k'.proc i = { k.proc i with state := st, parent := par } ∧
    (st = (k.proc i).state ∨ (k.proc i).state = .sleeping ∧ st = .runnable)
  orphan : ∀ i, (k.proc i).parent = none → (k'.proc i).parent = none
  mlfq : k'.mlfq = k.mlfq
  cpu : k'.cpu = k.cpu
  ticks : k'.ticks = k.ticks
  nextpid : k'.nextpid = k.nextpid

theorem Woken.trans {k'' : Kern} (h₁ : Woken k k') (h₂ : Woken k' k'') : Woken k k'' := by
  refine ⟨?_, fun i hi => h₂.orphan i (h₁.orphan i hi), h₂.mlfq.trans h₁.mlfq,
    h₂.cpu.trans h₁.cpu, h₂.ticks.trans h₁.ticks, h₂.nextpid.trans h₁.nextpid⟩
  intro i
  obtain ⟨st, par, hi, hst⟩ := h₁.proc i
  obtain ⟨st', par', hi', hst'⟩ := h₂.proc i
  refine ⟨st', par', by rw [hi', hi], ?_⟩
  rw [hi] at hst'
  rcases hst' with rfl | ⟨hs, rfl⟩
  · exact hst
  · rcases hst with rfl | ⟨hs', rfl⟩
    · exact .inr ⟨hs, rfl⟩
    · cases hs

theorem woken_wakeup (k : Kern) (me : Option Slot) (chan : Option Chan) :
    Woken k (k.wakeup me chan) := by
  refine ⟨fun i => ?_, fun i hi => ?_, rfl, rfl, rfl, rfl⟩ <;> simp only [wakeup, proc_mapProc]
  · split
    · rename_i hc
      exact ⟨.runnable, (k.proc i).parent, rfl, .inr ⟨hc.2.1, rfl⟩⟩
    · exact ⟨_, _, rfl, .inl rfl⟩
  · split <;> exact hi

theorem woken_reparent (k : Kern) (p : Slot) : Woken k (k.reparent p) := by
  have hmap : Woken k (k.mapProc fun _ x =>
      if x.parent = some p then { x with parent := some initproc } else x) := by
    refine ⟨fun i => ?_, fun i hi => ?_, rfl, rfl, rfl, rfl⟩ <;> rw [proc_mapProc]
    · split
      · exact ⟨_, some initproc, rfl, .inl rfl⟩
      · exact ⟨_, _, rfl, .inl rfl⟩
    · rw [if_neg (by simp [hi])]; exact hi
  rw [reparent]
  split
  · exact hmap.trans (woken_wakeup _ _ _)
  · exact hmap

theorem Woken.running_iff (hw : Woken k k') (i : Slot) :
    (k'.proc i).state = .running ↔ (k.proc i).state = .running := by
  obtain ⟨st, par, hi, rfl | ⟨hs, rfl⟩⟩ := hw.proc i
  · rw [hi]
  · simp [hi, hs]

theorem Woken.unused_iff (hw : Woken k k') (i : Slot) :
    (k'.proc i).state = .unused ↔ (k.proc i).state = .unused := by
  obtain ⟨st, par, hi, rfl | ⟨hs, rfl⟩⟩ := hw.proc i
  · rw [hi]
  · simp [hi, hs]

/-- A field that waking does not touch. -/
theorem Woken.frame {β : Type*} {π : Proc → β} (hπ : ∀ x st par,
    π { x with state := st, parent := par } = π x) (hw : Woken k k') (i : Slot) :
    π (k'.proc i) = π (k.proc i) := by
  obtain ⟨st, par, hi, -⟩ := hw.proc i
  rw [hi, hπ]

/-- Inversion of `exit`. -/
theorem exit_ok {status : Int32} (hk : k.exit h p status = .ok k') :
    p ≠ initproc ∧ ∃ k₁, Woken k k₁ ∧ k' = (k₁.modProc p fun x =>
      { x with xstate := status, state := .zombie, etime := k.ticks.toInt32 }).setCpu h none := by
  rw [exit] at hk
  split at hk
  · cases hk
  · cases hk
    exact ⟨‹_›, _, (woken_reparent k p).trans (woken_wakeup _ _ _), rfl⟩

/-! ## Traps -/

@[simp] theorem cpu_devintr (k : Kern) (h : ℕ) : (k.devintr h).cpu = k.cpu := by
  rw [devintr]; split <;> simp

@[simp] theorem mlfq_devintr (k : Kern) (h : ℕ) : (k.devintr h).mlfq = k.mlfq := by
  rw [devintr]; split <;> simp

@[simp] theorem nextpid_devintr (k : Kern) (h : ℕ) : (k.devintr h).nextpid = k.nextpid := by
  rw [devintr]; split <;> simp

theorem running_devintr (k : Kern) (h : ℕ) (i : Slot) :
    ((k.devintr h).proc i).state = .running ↔ (k.proc i).state = .running := by
  rw [devintr]
  split
  · exact running_clockintr k _ i
  · rfl

theorem unused_devintr (k : Kern) (h : ℕ) (i : Slot) :
    ((k.devintr h).proc i).state = .unused ↔ (k.proc i).state = .unused := by
  rw [devintr]
  split
  · rw [state_clockintr]
    split_ifs with hwake
    · simp [hwake.2.1]
    · rfl
  · rfl

/-- What a timer interrupt leaves alone on the way to the trap handlers. -/
theorem devintr_frame {β : Type*} {π : Proc → β} (hπ : ∀ x s sl rt ni dy cq q,
    π { x with state := s, sleepTime := sl, rtime := rt, niceness := ni, dynamicPriority := dy,
               changeQueue := cq, q := q } = π x)
    (k : Kern) (h : ℕ) (i : Slot) : π ((k.devintr h).proc i) = π (k.proc i) := by
  rw [devintr]
  split
  · exact clockintr_frame hπ k _ i
  · rfl

/-- What the trap handlers make of a timer interrupt on hart `h`: nothing more if it runs no
process, the end of a killed process interrupted in user mode, or preemption. -/
inductive Trapped (b : Build) (k : Kern) (h : ℕ) (user : Bool) : Kern → Prop
  | none (hh : (k.cpu h).proc = none) : Trapped b k h user (k.devintr h)
  | exit {p : Slot} {k' : Kern} (hp : (k.cpu h).proc = some p) (huser : user = true)
      (hkilled : (k.proc p).killed = true) (hk : (k.devintr h).exit h p (-1) = .ok k') :
      Trapped b k h user k'
  | preempt {p : Slot} (hp : (k.cpu h).proc = some p)
      (hlive : user = true → (k.proc p).killed = false) :
      Trapped b k h user (preempt b (k.devintr h) h p)

theorem killed_devintr (k : Kern) (h : ℕ) (i : Slot) :
    ((k.devintr h).proc i).killed = (k.proc i).killed :=
  devintr_frame (π := Proc.killed) (fun _ _ _ _ _ _ _ _ => rfl) k h i

theorem trapped_kerneltrap (hk : k.Sane) : Trapped b k h false (kerneltrap b k h) := by
  cases hp : (k.cpu h).proc with
  | none =>
    have heq : kerneltrap b k h = k.devintr h := by simp [kerneltrap, hp]
    rw [heq]
    exact .none hp
  | some p =>
    have hrun := (running_devintr k h p).mpr (hk.running h p hp)
    have heq : kerneltrap b k h = Kern.preempt b (k.devintr h) h p := by
      simp [kerneltrap, hp, hrun]
    rw [heq]
    exact .preempt hp (by simp)

theorem trapped_usertrap (hp : (k.cpu h).proc = some p) (hk : usertrap b k h p = .ok k') :
    Trapped b k h true k' := by
  rw [usertrap] at hk
  simp only [killed_devintr] at hk
  split at hk
  · exact .exit hp rfl ‹_› hk
  · cases hk
    exact .preempt hp fun _ => by simpa using ‹¬ (k.proc p).killed = true›

/-! ## The first invariant -/

section
variable (hk : k.Sane)
include hk

theorem Sane.modProc
    (hf : (f (k.proc p)).state = .running ↔ (k.proc p).state = .running) :
    (k.modProc p f).Sane := by
  refine hk.congr (fun i => ?_) rfl
  rw [proc_modProc]
  split
  · rename_i heq; rw [heq]; exact hf
  · rfl

theorem Sane.fill (hp : (k.proc p).state = .unused)
    (hf : ∀ x, (f x).state ≠ .running) : (k.fill p f).Sane := by
  refine hk.congr (fun i => ?_) rfl
  rw [proc_fill]
  split
  · rename_i heq; simp [heq, hp, hf]
  · rfl

theorem Sane.exit (hp : (k.cpu h).proc = some p) {status : Int32}
    (hexit : k.exit h p status = .ok k') : k'.Sane := by
  obtain ⟨-, k₁, hw, rfl⟩ := exit_ok hexit
  exact (hk.congr hw.running_iff hw.cpu).stop (by rwa [hw.cpu]) (by simp)

theorem Sane.devintr (h : ℕ) : (k.devintr h).Sane :=
  hk.congr (running_devintr k h) (cpu_devintr k h)

theorem Sane.preempt (hp : (k.cpu h).proc = some p) (b : Build) : (preempt b k h p).Sane := by
  cases b with
  | fcfs => exact hk
  | rr => exact hk.stop hp (by simp)
  | pbs => exact hk.stop hp (by simp)
  | mlfq =>
    simp only [Kern.preempt]
    split
    · exact (hk.modProc (f := Proc.demote) Iff.rfl).stop hp (by simp)
    · exact hk

theorem Sane.trapped {user : Bool} (ht : Trapped b k h user k') : k'.Sane := by
  cases ht with
  | none _ => exact hk.devintr h
  | exit hp _ _ hexit => exact (hk.devintr h).exit (by rwa [cpu_devintr]) hexit
  | preempt hp _ => exact (hk.devintr h).preempt (by rwa [cpu_devintr]) b

theorem Sane.actuallySetPriority (v pid : Int32) : (k.actuallySetPriority v pid).1.Sane :=
  of_actuallySetPriority hk fun _ _ => hk.modProc Iff.rfl

end

theorem cpu_actuallySetPriority (k : Kern) (v pid : Int32) :
    (k.actuallySetPriority v pid).1.cpu = k.cpu :=
  of_actuallySetPriority (P := fun k' => k'.cpu = k.cpu) rfl fun _ _ => rfl

theorem state_actuallySetPriority (k : Kern) (v pid : Int32) (i : Slot) :
    ((k.actuallySetPriority v pid).1.proc i).state = (k.proc i).state :=
  of_actuallySetPriority (P := fun k' => (k'.proc i).state = (k.proc i).state) rfl fun j _ =>
    modProc_frame (π := Proc.state) (by intro; rfl) k j i

theorem Sane.dispatch (hk : k.Sane) (hsel : (k.cpu h).sel = some p) : (k.dispatch h p).Sane := by
  have hidle := hk.idle h p hsel
  rw [Kern.dispatch]
  split
  · rename_i hrunnable
    refine (hk.actuallySetPriority _ _).start ?_ ?_ (by simp)
    · rwa [cpu_actuallySetPriority]
    · rw [state_actuallySetPriority, hrunnable]; simp
  · -- the selected process is no longer runnable: the hart goes back to select
    refine hk.select_congr (fun _ => Iff.rfl) (fun h' => ?_) fun h' q hq => ?_
    · rw [cpu_setCpu]
      split
      · rename_i heq; rw [heq, hidle]
      · rfl
    · rw [cpu_setCpu] at hq
      split at hq
      · cases hq
      · exact hk.idle h' q hq

theorem Sane.select (hk : k.Sane) (hproc : (k.cpu h).proc = none) {r : Kern × Option Slot}
    (hr : k.select b = .ok r) :
    Sane { r.1 with cpu := update r.1.cpu h { proc := none, sel := r.2 } } := by
  have hcore := sameCore_select hr
  refine hk.select_congr (fun i => by rw [← hcore.state i]) (fun h' => ?_) fun h' q hq => ?_
  · simp only [update_apply, hcore.cpu]
    split
    · rename_i heq; rw [heq, hproc]
    · rfl
  · simp only [update_apply, hcore.cpu] at hq
    split at hq
    · rename_i heq; rw [heq]; exact hproc
    · exact hk.idle h' q hq

/-- Every step keeps the first invariant. -/
theorem Sane.next (hk : k.Sane) (hnext : Kern.next b k a = some k') : k'.Sane := by
  cases moves_of_next hnext with
  | select hproc _ hr => exact hk.select hproc hr
  | dispatch hsel => exact hk.dispatch hsel
  | kerneltrap => exact hk.trapped (trapped_kerneltrap hk)
  | usertrap hp hk' => exact hk.trapped (trapped_usertrap hp hk')
  | @wakeup h chan =>
    have hw := woken_wakeup k (k.cpu h).proc (some chan)
    exact hk.congr hw.running_iff hw.cpu
  | sleep hp => exact hk.stop hp (by simp)
  | kill _ hkill =>
    cases hkill with
    | none => exact hk
    | marked _ =>
      refine hk.modProc ?_
      dsimp only
      split
      · rename_i hs; simp [hs]
      · rfl
  | fork _ hfork =>
    cases hfork with
    | full _ => exact hk
    | failed hi => exact hk.fill (unused_of_freeSlot hi) (by intro; simp [Proc.free])
    | child hi => exact hk.fill (unused_of_freeSlot hi) (by simp)
  | exit hp hexit => exact hk.exit hp hexit
  | wait hp hwait =>
    cases hwait with
    | same => exact hk
    | reaped hnp => exact hk.modProc (by simp [Proc.free, zombie_of_exitedChild hnp])
    | slept => exact hk.stop hp (by simp)
  | setPriority _ => exact of_sysSetPriority hk fun _ _ => hk.actuallySetPriority _ _
  | fault hp hexit =>
    exact (hk.modProc (f := fun x => { x with killed := true }) Iff.rfl).exit hp hexit

theorem sane_of_reachable (hk : Reachable (Kern.next b) boot k) : k.Sane :=
  hk.invariant sane_boot fun _ _ _ _ hnext hk => hk.next hnext

/-! ## The second invariant -/

/-- `allocpid` does not run over the end of `int`. -/
def NoWrap (k : Kern) : Act → Prop
  | .fork _ _ _ => k.nextpid ≠ Int32.maxValue
  | _ => True

instance (k : Kern) (a : Act) : Decidable (NoWrap k a) := by
  unfold NoWrap; split <;> infer_instance

/-- The slots in use carry distinct positive pids below `nextpid`, the others carry 0. -/
structure PidSane (k : Kern) : Prop where
  unused_iff : ∀ i, (k.proc i).state = .unused ↔ (k.proc i).pid = 0
  inj : ∀ i j, (k.proc i).pid = (k.proc j).pid → (k.proc i).pid ≠ 0 → i = j
  pos : 0 < k.nextpid.toInt
  lt : ∀ i, (k.proc i).pid.toInt < k.nextpid.toInt

theorem pidSane_boot : boot.PidSane where
  unused_iff := by decide
  inj := by decide
  pos := by decide
  lt := by decide

theorem PidSane.congr (hk : k.PidSane) (hpid : ∀ i, (k'.proc i).pid = (k.proc i).pid)
    (hun : ∀ i, (k'.proc i).state = .unused ↔ (k.proc i).state = .unused)
    (hnext : k'.nextpid = k.nextpid) : k'.PidSane where
  unused_iff i := by rw [hun, hpid]; exact hk.unused_iff i
  inj i j := by rw [hpid, hpid]; exact hk.inj i j
  pos := by rw [hnext]; exact hk.pos
  lt i := by rw [hpid, hnext]; exact hk.lt i

theorem PidSane.modProc (hk : k.PidSane) (hpid : (f (k.proc p)).pid = (k.proc p).pid)
    (hun : (f (k.proc p)).state = .unused ↔ (k.proc p).state = .unused) :
    (k.modProc p f).PidSane := by
  refine hk.congr (fun i => ?_) (fun i => ?_) rfl
  all_goals
    rw [proc_modProc]
    split
    · rename_i heq; rw [heq]; assumption
    · rfl

/-- Releasing a slot keeps the pids distinct. -/
theorem PidSane.free (hk : k.PidSane) (hpid : ∀ x, (f x).pid = 0)
    (hun : ∀ x, (f x).state = .unused) : (k.modProc p f).PidSane := by
  refine ⟨fun i => ?_, fun i j hij hne => ?_, hk.pos, fun i => ?_⟩
  · rw [proc_modProc]
    split
    · simp [hpid, hun]
    · exact hk.unused_iff i
  · simp only [proc_modProc] at hij hne
    split at hne
    · exact absurd (hpid _) hne
    · rw [if_neg ‹_›] at hij
      split at hij
      · exact absurd (hij.trans (hpid _)) hne
      · exact hk.inj i j hij hne
  · rw [proc_modProc]
    split
    · rw [hpid]; exact hk.pos
    · exact hk.lt i

theorem toInt_nextpid {n : Int32} (h : n ≠ Int32.maxValue) : (n + 1).toInt = n.toInt + 1 := by
  have hlt : n.toInt < 2 ^ 31 - 1 := by
    have hle := n.toInt_lt
    have hne : n.toInt ≠ 2 ^ 31 - 1 := fun heq => h (Int32.toInt_inj.mp (by rw [heq]; rfl))
    omega
  have hge := n.le_toInt
  rw [Int32.toInt_add, Int32.toInt_one, Int.bmod_eq_of_le] <;> omega

/-- Filling a slot with the next pid keeps the pids distinct. -/
theorem PidSane.fill (hk : k.PidSane) (hwrap : k.nextpid ≠ Int32.maxValue)
    (hf : ∀ x, ((f x).pid = k.nextpid ∧ (f x).state ≠ .unused) ∨
      ((f x).pid = 0 ∧ (f x).state = .unused)) : (k.fill p f).PidSane := by
  have hnext := toInt_nextpid hwrap
  have hpos := hk.pos
  have hzero : k.nextpid ≠ 0 := fun heq => by rw [heq] at hpos; exact absurd hpos (by decide)
  have hfresh : ∀ i, (k.proc i).pid ≠ k.nextpid := fun i heq => by
    have := hk.lt i
    rw [heq] at this
    omega
  refine ⟨fun i => ?_, fun i j hij hne => ?_, ?_, fun i => ?_⟩
  · rw [proc_fill]
    split
    · rcases hf (k.proc i) with ⟨h₁, h₂⟩ | ⟨h₁, h₂⟩ <;> simp [h₁, h₂, hzero]
    · exact hk.unused_iff i
  · rw [proc_fill] at hne
    rw [proc_fill, proc_fill] at hij
    by_cases hi : i = p <;> by_cases hj : j = p
    · rw [hi, hj]
    · rw [if_pos hi] at hne
      rw [if_pos hi, if_neg hj] at hij
      rcases hf (k.proc i) with ⟨h₁, -⟩ | ⟨h₁, -⟩
      · exact absurd (hij.symm.trans h₁) (hfresh j)
      · exact absurd h₁ hne
    · rw [if_neg hi] at hne
      rw [if_neg hi, if_pos hj] at hij
      rcases hf (k.proc j) with ⟨h₁, -⟩ | ⟨h₁, -⟩
      · exact absurd (hij.trans h₁) (hfresh i)
      · exact absurd (hij.trans h₁) hne
    · rw [if_neg hi] at hne
      rw [if_neg hi, if_neg hj] at hij
      exact hk.inj i j hij hne
  · rw [nextpid_fill, hnext]; omega
  · rw [proc_fill, nextpid_fill, hnext]
    split
    · rcases hf (k.proc i) with ⟨h₁, -⟩ | ⟨h₁, -⟩ <;> rw [h₁]
      · omega
      · have : (0 : Int32).toInt = 0 := rfl
        omega
    · have := hk.lt i
      omega

/-- Leaving or taking a hart does not concern the pids. -/
theorem PidSane.setCpu (hk : k.PidSane) (h : ℕ) (c : Option Slot) : (k.setCpu h c).PidSane :=
  hk.congr (fun _ => rfl) (fun _ => Iff.rfl) rfl

theorem Woken.pidSane (hw : Woken k k') (hk : k.PidSane) : k'.PidSane :=
  hk.congr (hw.frame (π := Proc.pid) fun _ _ _ => rfl) hw.unused_iff hw.nextpid

section
variable (hk : k.PidSane)
include hk

theorem PidSane.exit (hp : (k.proc p).state = .running) {status : Int32}
    (hexit : k.exit h p status = .ok k') : k'.PidSane := by
  obtain ⟨-, k₁, hw, rfl⟩ := exit_ok hexit
  have hp₁ := (hw.running_iff p).mpr hp
  exact ((hw.pidSane hk).modProc (by rfl) (by simp [hp₁])).setCpu h none

theorem PidSane.devintr (h : ℕ) : (k.devintr h).PidSane :=
  hk.congr (devintr_frame (π := Proc.pid) (fun _ _ _ _ _ _ _ _ => rfl) k h) (unused_devintr k h)
    (nextpid_devintr k h)

theorem PidSane.preempt (hp : (k.proc p).state = .running) (b : Build) :
    (preempt b k h p).PidSane := by
  have hyield : ∀ k : Kern, k.PidSane → (k.proc p).state = .running → (k.yield h p).PidSane :=
    fun k hk hp => (hk.modProc (by rfl) (by simp [hp])).setCpu h none
  cases b with
  | fcfs => exact hk
  | rr => exact hyield k hk hp
  | pbs => exact hyield k hk hp
  | mlfq =>
    simp only [Kern.preempt]
    split
    · exact hyield _ (hk.modProc (f := Proc.demote) rfl Iff.rfl) (by simpa [Proc.demote] using hp)
    · exact hk

theorem PidSane.trapped (hs : k.Sane) {user : Bool} (ht : Trapped b k h user k') : k'.PidSane := by
  have hrun : ∀ p, (k.cpu h).proc = some p → ((k.devintr h).proc p).state = .running :=
    fun p hp => (running_devintr k h p).mpr (hs.running h p hp)
  cases ht with
  | none _ => exact hk.devintr h
  | exit hp _ _ hexit => exact (hk.devintr h).exit (hrun _ hp) hexit
  | preempt hp _ => exact (hk.devintr h).preempt (hrun _ hp) b

theorem PidSane.actuallySetPriority (v pid : Int32) : (k.actuallySetPriority v pid).1.PidSane :=
  of_actuallySetPriority hk fun _ _ => hk.modProc rfl Iff.rfl

/-- Every step that does not wrap `nextpid` keeps the second invariant. -/
theorem PidSane.next (hs : k.Sane) (hwrap : NoWrap k a)
    (hnext : Kern.next b k a = some k') : k'.PidSane := by
  cases moves_of_next hnext with
  | select _ _ hr =>
    have hcore := sameCore_select hr
    exact hk.congr hcore.pid (fun i => by rw [← hcore.state i]) hcore.nextpid
  | @dispatch h p hsel =>
    rw [dispatch]
    split
    · rename_i hrunnable
      refine ((hk.actuallySetPriority _ _).modProc (by rfl) ?_).setCpu h (some p)
      rw [state_actuallySetPriority]
      simp [hrunnable]
    · exact hk.setCpu h none
  | kerneltrap => exact hk.trapped hs (trapped_kerneltrap hs)
  | usertrap hp hk' => exact hk.trapped hs (trapped_usertrap hp hk')
  | @wakeup h chan => exact (woken_wakeup k (k.cpu h).proc (some chan)).pidSane hk
  | @sleep h p chan hp => exact (hk.modProc (by rfl) (by simp [hs.running h p hp])).setCpu h none
  | kill _ hkill =>
    cases hkill with
    | none => exact hk
    | marked _ =>
      refine hk.modProc (by rfl) ?_
      dsimp only
      split
      · rename_i hsleep; simp [hsleep]
      · rfl
  | fork _ hfork =>
    cases hfork with
    | full _ => exact hk
    | failed _ => exact hk.fill hwrap fun _ => .inr ⟨rfl, rfl⟩
    | child _ => exact hk.fill hwrap fun _ => .inl ⟨rfl, by simp⟩
  | @exit h p status k' hp hexit => exact hk.exit (hs.running h p hp) hexit
  | @wait h p copy k' hp hwait =>
    cases hwait with
    | same => exact hk
    | reaped _ => exact hk.free (fun _ => rfl) fun _ => rfl
    | slept => exact (hk.modProc (by rfl) (by simp [hs.running h p hp])).setCpu h none
  | setPriority _ => exact of_sysSetPriority hk fun _ _ => hk.actuallySetPriority _ _
  | @fault h p k' hp hexit =>
    have hk₁ := hk.modProc (p := p) (f := fun x => { x with killed := true }) rfl Iff.rfl
    exact hk₁.exit (by simpa using hs.running h p hp) hexit

end

/-- In a run that does not wrap `nextpid` both invariants hold throughout. -/
theorem sane_of_visits {as : List Act} (hwrap : ∀ s a, Takes (Kern.next b) boot as s a → NoWrap s a)
    (hk : Visits (Kern.next b) boot as k) : k.Sane ∧ k.PidSane := by
  refine Visits.induction (P := fun k => k.Sane ∧ k.PidSane) ⟨sane_boot, pidSane_boot⟩ ?_ hk
  rintro s a t htakes hnext ⟨hs, hpid⟩
  exact ⟨hs.next hnext, hpid.next hs (hwrap s a htakes) hnext⟩

/-- In such a run, with every build, a process is `RUNNING` exactly if one hart runs it, and the
slots in use have pids of their own. -/
theorem table_of_visits {as : List Act} (hwrap : ∀ s a, Takes (Kern.next b) boot as s a → NoWrap s a)
    (hk : Visits (Kern.next b) boot as k) :
    (∀ p, (k.proc p).state = .running ↔ ∃! h, (k.cpu h).proc = some p) ∧
    ∀ p q, (k.proc p).state ≠ .unused → (k.proc p).pid = (k.proc q).pid → p = q := by
  obtain ⟨hs, hpid⟩ := sane_of_visits hwrap hk
  refine ⟨fun p => ⟨fun hp => ?_, fun ⟨h, hp, _⟩ => hs.running h p hp⟩,
    fun p q hp heq => hpid.inj p q heq (mt (hpid.unused_iff p).mpr hp)⟩
  obtain ⟨h, hh⟩ := hs.placed p hp
  exact ⟨h, hh, fun h' hh' => hs.unique h' h p hh' hh⟩

theorem table_fork : ∃ e, exec (Kern.next .fcfs) boot [.select 0, .dispatch 0, .fork 0 true true] =
    some e ∧ ∃! h, (e.cpu h).proc = some 0 := by
  obtain ⟨e, hrun, hstate⟩ : ∃ e, exec (guarded NoWrap (Kern.next .fcfs)) boot
    [.select 0, .dispatch 0, .fork 0 true true] = some e ∧ (e.proc 0).state = .running :=
    ⟨_, rfl, rfl⟩
  obtain ⟨hexec, hwrap⟩ := exec_guarded hrun
  exact ⟨e, hexec, ((table_of_visits hwrap (.last hexec)).1 0).mp hstate⟩

end Xv6.Kern
