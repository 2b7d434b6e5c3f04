import Xv6.Sched.Sane

/-!
# Lives of processes

A slot is used by one process after another. Over a step, a slot in use either keeps the
process it holds or receives a new child; these lemmas say which of its fields are then known.
-/

namespace Xv6.Kern

open Lib

variable {b : Build} {k k' k'' : Kern} {a : Act} {h : ℕ} {p : Slot} {β : Type*} {π : Proc → β}

/-- Over a step, every slot keeps its process, or stays unused, and keeps the field `π`. -/
structure Framed (π : Proc → β) (k k' : Kern) : Prop where
  unused_iff : ∀ i, (k'.proc i).state = .unused ↔ (k.proc i).state = .unused
  field : ∀ i, π (k'.proc i) = π (k.proc i)

theorem Framed.refl (π : Proc → β) (k : Kern) : Framed π k k := ⟨fun _ => Iff.rfl, fun _ => rfl⟩

theorem Framed.trans (h₁ : Framed π k k') (h₂ : Framed π k' k'') : Framed π k k'' :=
  ⟨fun i => (h₂.unused_iff i).trans (h₁.unused_iff i), fun i => (h₂.field i).trans (h₁.field i)⟩

theorem framed_modProc {f : Proc → Proc} (hf : ∀ x, π (f x) = π x)
    (hp : (f (k.proc p)).state = .unused ↔ (k.proc p).state = .unused) :
    Framed π k (k.modProc p f) := by
  refine ⟨fun i => ?_, modProc_frame hf k p⟩
  rw [proc_modProc]
  split
  · rename_i heq; rw [heq]; exact hp
  · rfl

theorem framed_setCpu (π : Proc → β) (k : Kern) (h : ℕ) (c : Option Slot) :
    Framed π k (k.setCpu h c) := ⟨fun _ => Iff.rfl, fun _ => rfl⟩

theorem Woken.framed (hπ : ∀ x st par, π { x with state := st, parent := par } = π x)
    (hw : Woken k k') : Framed π k k' := ⟨hw.unused_iff, hw.frame hπ⟩

theorem framed_exit (hπ : ∀ x st par xs et,
    π { x with state := st, parent := par, xstate := xs, etime := et } = π x)
    (hp : (k.proc p).state = .running) {status : Int32} (hexit : k.exit h p status = .ok k') :
    Framed π k k' := by
  obtain ⟨-, k₁, hw, rfl⟩ := exit_ok hexit
  have hp₁ := (hw.running_iff p).mpr hp
  refine ((hw.framed fun x st par => hπ x st par x.xstate x.etime).trans
    (framed_modProc (fun x => ?_) ?_)).trans (framed_setCpu π _ h none)
  · exact hπ x _ x.parent _ _
  · simp [hp₁]

theorem framed_stop {f : Proc → Proc} (hf : ∀ x, π (f x) = π x)
    (hused : ∀ x, (f x).state ≠ .unused) (hp : (k.proc p).state = .running) :
    Framed π k ((k.modProc p f).setCpu h none) :=
  (framed_modProc hf (by simp [hp, hused])).trans (framed_setCpu π _ h none)

/-- What a slot holds when `fork` has made a child in it. -/
def Born (k : Kern) (x y : Proc) : Prop :=
  x.state = .unused ∧
    ∃ par, y = { x.alloc k.nextpid k.ticks with parent := some par, state := .runnable }

/-- Over a step, a slot in use has kept its process and the field `π` of it, or it has received
a child. -/
def Kept (π : Proc → β) (k k' : Kern) : Prop :=
  ∀ i, (k'.proc i).state ≠ .unused →
    ((k.proc i).state ≠ .unused ∧ π (k'.proc i) = π (k.proc i)) ∨ Born k (k.proc i) (k'.proc i)

theorem Framed.kept (hf : Framed π k k') : Kept π k k' :=
  fun i hi => .inl ⟨fun hun => hi ((hf.unused_iff i).mpr hun), hf.field i⟩

theorem kept_free (π : Proc → β) (k : Kern) (p : Slot) : Kept π k (k.freeproc p) := by
  intro i hi
  by_cases hip : i = p
  · subst hip
    rw [freeproc, proc_modProc_self] at hi
    exact absurd rfl hi
  · rw [freeproc, proc_modProc_of_ne _ _ hip] at hi ⊢
    exact .inl ⟨hi, rfl⟩

theorem Forked.kept (π : Proc → β) (hf : Forked k p k') : Kept π k k' := by
  cases hf with
  | full _ => exact (Framed.refl π k).kept
  | @failed i _ =>
    intro j hj
    rw [proc_fill] at hj ⊢
    split at hj
    · exact absurd rfl hj
    · rw [if_neg ‹_›]; exact .inl ⟨hj, rfl⟩
  | @child i hfree =>
    intro j hj
    rw [proc_fill] at hj ⊢
    split
    · rename_i heq
      subst heq
      exact .inr ⟨unused_of_freeSlot hfree, p, rfl⟩
    · rw [if_neg ‹_›] at hj; exact .inl ⟨hj, rfl⟩

/-- The steps that only select, start, stop, make or release processes. -/
def Quiet : Act → Prop
  | .timer _ _ | .dispatch _ | .setPriority _ _ _ => False
  | _ => True

/-- Over a quiet step, a field that no such step writes is kept. -/
theorem kept_next (hπ : ∀ x st ch ki xs par et lv iq qe,
    π { x with state := st, chan := ch, killed := ki, xstate := xs, parent := par, etime := et,
               level := lv, inQueue := iq, qEnter := qe } = π x)
    (hs : k.Sane) (hquiet : Quiet a) (hnext : Kern.next b k a = some k') : Kept π k k' := by
  have hπ' : ∀ x st par xs et, π { x with state := st, parent := par, xstate := xs, etime := et } =
      π x := fun x st par xs et => hπ x st x.chan x.killed xs par et x.level x.inQueue x.qEnter
  have hsleep : ∀ chan h p, (k.cpu h).proc = some p → Framed π k (k.sleep h p chan) :=
    fun chan h p hp => framed_stop (fun x => hπ x _ _ x.killed x.xstate x.parent x.etime x.level
      x.inQueue x.qEnter) (by simp) (hs.running h p hp)
  cases moves_of_next hnext with
  | @select h r _ _ hr =>
    have hcore := sameCore_select hr
    have hcore' : ∀ x : Proc, π x.core = π x := fun x =>
      hπ x x.state x.chan x.killed x.xstate x.parent x.etime _ _ _
    refine Framed.kept ⟨fun i => by rw [← hcore.state i], fun i => ?_⟩
    rw [← hcore', hcore.core i, hcore']
  | dispatch _ => exact hquiet.elim
  | kerneltrap => exact hquiet.elim
  | usertrap _ _ => exact hquiet.elim
  | setPriority _ => exact hquiet.elim
  | wakeup => exact ((woken_wakeup k _ _).framed fun x st par => hπ' x st par x.xstate x.etime).kept
  | @sleep h p chan hp => exact (hsleep chan h p hp).kept
  | kill _ hkill =>
    cases hkill with
    | none => exact (Framed.refl π k).kept
    | @marked i _ =>
      refine (framed_modProc (fun x => ?_) ?_).kept
      · exact hπ x _ x.chan _ x.xstate x.parent x.etime x.level x.inQueue x.qEnter
      · dsimp only
        split
        · rename_i hs; simp [hs]
        · rfl
  | fork _ hfork => exact hfork.kept π
  | @exit h p status k' hp hexit => exact (framed_exit hπ' (hs.running h p hp) hexit).kept
  | @wait h p copy k' hp hwait =>
    cases hwait with
    | same => exact (Framed.refl π k).kept
    | reaped _ => exact kept_free π k _
    | slept => exact (hsleep (.proc p) h p hp).kept
  | @fault h p k' hp hexit =>
    have hmark : Framed π k (k.modProc p fun x => { x with killed := true }) :=
      framed_modProc (fun x => hπ x x.state x.chan _ x.xstate x.parent x.etime x.level x.inQueue
        x.qEnter) Iff.rfl
    exact (hmark.trans (framed_exit hπ' (by simpa using hs.running h p hp) hexit)).kept

/-! ## The other steps -/

theorem framed_actuallySetPriority (hπ : ∀ x sp ni sl,
    π { x with staticPriority := sp, niceness := ni, sleepTime := sl } = π x) (k : Kern)
    (v pid : Int32) : Framed π k (k.actuallySetPriority v pid).1 :=
  of_actuallySetPriority (.refl π k) fun _ _ => framed_modProc (fun x => hπ x _ _ _) Iff.rfl

theorem framed_sysSetPriority (hπ : ∀ x sp ni sl,
    π { x with staticPriority := sp, niceness := ni, sleepTime := sl } = π x) (b : Build) (k : Kern)
    (v pid : Int32) : Framed π k (sysSetPriority b k v pid).1 :=
  of_sysSetPriority (.refl π k) fun _ _ => framed_actuallySetPriority hπ k v pid

theorem framed_dispatch (hπ : ∀ x st ch sp ni sl cq nr qe q,
    π { x with state := st, chan := ch, staticPriority := sp, niceness := ni, sleepTime := sl,
               changeQueue := cq, nRun := nr, qEnter := qe, q := q } = π x) (k : Kern) (h : ℕ)
    (p : Slot) : Framed π k (k.dispatch h p) := by
  rw [dispatch]
  split
  · rename_i hp
    refine ((framed_actuallySetPriority (fun x sp ni sl => hπ x x.state x.chan sp ni sl
      x.changeQueue x.nRun x.qEnter x.q) k _ _).trans (framed_modProc (fun x => ?_) ?_)).trans
      (framed_setCpu π _ h (some p))
    · exact hπ x _ _ x.staticPriority x.niceness x.sleepTime _ _ _ _
    · rw [state_actuallySetPriority]; simp [hp]
  · exact framed_setCpu π k h none

theorem framed_devintr (hπ : ∀ x s sl rt ni dy cq q,
    π { x with state := s, sleepTime := sl, rtime := rt, niceness := ni, dynamicPriority := dy,
               changeQueue := cq, q := q } = π x) (k : Kern) (h : ℕ) : Framed π k (k.devintr h) :=
  ⟨unused_devintr k h, devintr_frame hπ k h⟩

theorem framed_preempt (hπ : ∀ x st lv, π { x with state := st, level := lv } = π x) (b : Build)
    (hp : (k.proc p).state = .running) : Framed π k (preempt b k h p) := by
  have hyield : ∀ k : Kern, (k.proc p).state = .running → Framed π k (k.yield h p) :=
    fun k hp => framed_stop (fun x => hπ x _ x.level) (by simp) hp
  cases b with
  | fcfs => exact .refl π k
  | rr => exact hyield k hp
  | pbs => exact hyield k hp
  | mlfq =>
    rw [preempt]
    split
    · exact (framed_modProc (f := Proc.demote) (fun x => hπ x x.state _) Iff.rfl).trans
        (hyield _ (by simpa [Proc.demote] using hp))
    · exact .refl π k

/-- What the trap handlers leave alone after `devintr`. -/
theorem Trapped.framed (hπ : ∀ x st par xs et lv,
    π { x with state := st, parent := par, xstate := xs, etime := et, level := lv } = π x)
    (hs : k.Sane) {user : Bool} (ht : Trapped b k h user k') : Framed π (k.devintr h) k' := by
  have hrun : ∀ p, (k.cpu h).proc = some p → ((k.devintr h).proc p).state = .running :=
    fun p hp => (running_devintr k h p).mpr (hs.running h p hp)
  cases ht with
  | none _ => exact .refl π _
  | exit hp _ _ hexit =>
    exact framed_exit (fun x st par xs et => hπ x st par xs et x.level) (hrun _ hp) hexit
  | preempt hp _ =>
    exact framed_preempt (fun x st lv => hπ x st x.parent x.xstate x.etime lv) b (hrun _ hp)

/-- A timer interrupt arrived on hart `h`. -/
theorem trapped_of_next (hs : k.Sane) {user : Bool}
    (hnext : Kern.next b k (.timer h user) = some k') : Trapped b k h user k' := by
  cases moves_of_next hnext with
  | kerneltrap => exact trapped_kerneltrap hs
  | usertrap hp hk' => exact trapped_usertrap hp hk'

/-! ## Time -/

/-- The clock ticks: a timer interrupt on hart 0. -/
def isTick : Act → Bool
  | .timer h _ => h = 0
  | _ => false

/-- Over a step that is not a tick, the fields that only the clock writes are kept. -/
theorem kept_of_not_tick (hπ : ∀ x st ch ki xs par et lv iq qe sp ni sl cq nr q,
    π { x with state := st, chan := ch, killed := ki, xstate := xs, parent := par, etime := et,
               level := lv, inQueue := iq, qEnter := qe, staticPriority := sp, niceness := ni,
               sleepTime := sl, changeQueue := cq, nRun := nr, q := q } = π x)
    (hs : k.Sane) (ha : isTick a = false) (hnext : Kern.next b k a = some k') : Kept π k k' := by
  cases a with
  | timer h user =>
    have hh : h ≠ 0 := by simpa [isTick] using ha
    have ht := (trapped_of_next hs hnext).framed (π := π) (fun x st par xs et lv =>
      hπ x st x.chan x.killed xs par et lv x.inQueue x.qEnter x.staticPriority x.niceness
        x.sleepTime x.changeQueue x.nRun x.q) hs
    rw [devintr, if_neg hh] at ht
    exact ht.kept
  | dispatch h =>
    cases moves_of_next hnext with
    | dispatch _ =>
      exact (framed_dispatch (fun x st ch sp ni sl cq nr qe q => hπ x st ch x.killed x.xstate
        x.parent x.etime x.level x.inQueue qe sp ni sl cq nr q) k h _).kept
  | setPriority h v pid =>
    cases moves_of_next hnext with
    | setPriority _ =>
      exact (framed_sysSetPriority (fun x sp ni sl => hπ x x.state x.chan x.killed x.xstate
        x.parent x.etime x.level x.inQueue x.qEnter sp ni sl x.changeQueue x.nRun x.q)
        b k v pid).kept
  | _ =>
    refine kept_next (fun x st ch ki xs par et lv iq qe => ?_) hs (by trivial) hnext
    exact hπ x st ch ki xs par et lv iq qe x.staticPriority x.niceness x.sleepTime
      x.changeQueue x.nRun x.q

theorem ticks_exit {status : Int32} (hexit : k.exit h p status = .ok k') : k'.ticks = k.ticks := by
  obtain ⟨-, k₁, hw, rfl⟩ := exit_ok hexit
  exact hw.ticks

theorem ticks_preempt (b : Build) (k : Kern) (h : ℕ) (p : Slot) :
    (preempt b k h p).ticks = k.ticks := by
  cases b <;> simp only [preempt]
  case mlfq => split <;> rfl
  all_goals rfl

theorem Trapped.ticks {user : Bool} (ht : Trapped b k h user k') :
    k'.ticks = (k.devintr h).ticks := by
  cases ht with
  | none _ => rfl
  | exit _ _ _ hexit => exact ticks_exit hexit
  | preempt _ _ => exact ticks_preempt b _ h _

theorem ticks_actuallySetPriority (k : Kern) (v pid : Int32) :
    (k.actuallySetPriority v pid).1.ticks = k.ticks :=
  of_actuallySetPriority (P := fun k' => k'.ticks = k.ticks) rfl fun _ _ => rfl

/-- Only the clock advances `ticks`. -/
theorem ticks_next (hs : k.Sane) (hnext : Kern.next b k a = some k') :
    k'.ticks = if isTick a then k.ticks + 1 else k.ticks := by
  have htimer : ∀ h user, Kern.next b k (.timer h user) = some k' →
      k'.ticks = if isTick (.timer h user) then k.ticks + 1 else k.ticks := by
    intro h user hnext
    rw [(trapped_of_next hs hnext).ticks, devintr]
    by_cases hh : h = 0 <;> simp [isTick, hh]
  cases moves_of_next hnext with
  | select _ _ hr => exact (sameCore_select hr).ticks
  | @dispatch h p _ =>
    simp only [isTick, dispatch]
    split
    · exact ticks_actuallySetPriority k _ _
    · rfl
  | kerneltrap => exact htimer _ _ hnext
  | usertrap _ _ => exact htimer _ _ hnext
  | wakeup => rfl
  | sleep _ => rfl
  | kill _ hkill => cases hkill <;> rfl
  | fork _ hfork => cases hfork <;> rfl
  | exit _ hexit => exact ticks_exit hexit
  | wait _ hwait => cases hwait <;> rfl
  | setPriority _ =>
    exact of_sysSetPriority (P := fun k' => k'.ticks = k.ticks) rfl fun _ _ =>
      ticks_actuallySetPriority k _ _
  | @fault h p k' _ hexit =>
    exact ticks_exit (k := k.modProc p fun x => { x with killed := true }) hexit

/-! ## The end of a life -/

/-- Every slot that holds an exited process held it before with the same time of exit, or the
process has exited just now. -/
def Ended (k k' : Kern) : Prop :=
  ∀ i, (k'.proc i).state = .zombie →
    ((k.proc i).state = .zombie ∧ (k'.proc i).etime = (k.proc i).etime) ∨
      ((k.proc i).state = .running ∧ (k'.proc i).etime = k'.ticks.toInt32)

theorem ended_of_frame (h : ∀ i, (k'.proc i).state = .zombie →
    (k.proc i).state = .zombie ∧ (k'.proc i).etime = (k.proc i).etime) : Ended k k' :=
  fun i hi => .inl (h i hi)

theorem ended_modProc {f : Proc → Proc} (hf : (f (k.proc p)).state = .zombie →
    (k.proc p).state = .zombie ∧ (f (k.proc p)).etime = (k.proc p).etime) :
    Ended k (k.modProc p f) := by
  refine ended_of_frame fun i hi => ?_
  rw [proc_modProc] at hi ⊢
  split at hi
  · rename_i heq; subst heq; simpa using hf hi
  · rw [if_neg ‹_›]; exact ⟨hi, rfl⟩

theorem Ended.withCpu (he : Ended k k') (c : ℕ → Cpu) (n : Int32) :
    Ended k { k' with cpu := c, nextpid := n } := he

theorem Woken.ended (hw : Woken k k') : Ended k k' := by
  refine ended_of_frame fun i hi => ?_
  obtain ⟨st, par, heq, rfl | ⟨-, rfl⟩⟩ := hw.proc i
  · rw [heq] at hi ⊢; exact ⟨hi, rfl⟩
  · rw [heq] at hi; cases hi

theorem ended_exit (hp : (k.proc p).state = .running) {status : Int32}
    (hexit : k.exit h p status = .ok k') : Ended k k' := by
  have hticks := ticks_exit hexit
  obtain ⟨-, k₁, hw, rfl⟩ := exit_ok hexit
  intro i hi
  rw [hticks]
  rw [proc_setCpu, proc_modProc] at hi ⊢
  split at hi
  · rename_i heq; subst heq; exact .inr ⟨hp, by simp⟩
  · rw [if_neg ‹_›]
    rcases hw.ended i hi with hz | ⟨hr, -⟩
    · exact .inl hz
    · rw [(hw.running_iff i).mpr hr] at hi; cases hi

/-- What happens before the last part of a step may wake sleepers, but ends no process. -/
theorem Ended.of_frame (hrun : ∀ i, (k'.proc i).state = .running → (k.proc i).state = .running)
    (hz : ∀ i, (k'.proc i).state = .zombie →
      (k.proc i).state = .zombie ∧ (k'.proc i).etime = (k.proc i).etime)
    (h : Ended k' k'') : Ended k k'' := by
  intro i hi
  rcases h i hi with ⟨h₁, h₂⟩ | ⟨h₁, h₂⟩
  · exact .inl ⟨(hz i h₁).1, h₂.trans (hz i h₁).2⟩
  · exact .inr ⟨hrun i h₁, h₂⟩

theorem ended_actuallySetPriority (k : Kern) (v pid : Int32) :
    Ended k (k.actuallySetPriority v pid).1 :=
  of_actuallySetPriority (ended_of_frame fun _ hi => ⟨hi, rfl⟩) fun _ _ =>
    ended_modProc fun hz => ⟨hz, rfl⟩

theorem ended_preempt (b : Build) (k : Kern) (h : ℕ) (p : Slot) : Ended k (preempt b k h p) := by
  have hyield : ∀ f : Proc → Proc, (∀ x, (f x).state = .runnable) →
      Ended k ((k.modProc p f).setCpu h none) := fun f hf =>
    (ended_modProc fun hz => absurd (hf _) (by rw [hz]; simp)).withCpu _ k.nextpid
  cases b with
  | fcfs => exact ended_of_frame fun i hi => ⟨hi, rfl⟩
  | rr => exact hyield _ fun _ => rfl
  | pbs => exact hyield _ fun _ => rfl
  | mlfq =>
    rw [preempt]
    split
    · rw [yield, modProc_modProc]; exact hyield _ fun _ => rfl
    · exact ended_of_frame fun i hi => ⟨hi, rfl⟩

theorem zombie_devintr (k : Kern) (h : ℕ) (i : Slot)
    (hi : ((k.devintr h).proc i).state = .zombie) :
    (k.proc i).state = .zombie ∧ ((k.devintr h).proc i).etime = (k.proc i).etime := by
  refine ⟨?_, devintr_frame (π := Proc.etime) (fun _ _ _ _ _ _ _ _ => rfl) k h i⟩
  rw [devintr] at hi
  split at hi
  · rw [state_clockintr] at hi
    split at hi
    · cases hi
    · exact hi
  · exact hi

theorem Trapped.ended (hs : k.Sane) {user : Bool} (ht : Trapped b k h user k') : Ended k k' := by
  refine Ended.of_frame (fun i => (running_devintr k h i).mp) (zombie_devintr k h) ?_
  cases ht with
  | none _ => exact ended_of_frame fun i hi => ⟨hi, rfl⟩
  | exit hp _ _ hexit =>
    exact ended_exit ((running_devintr k h _).mpr (hs.running h _ hp)) hexit
  | preempt _ _ => exact ended_preempt b _ h _

/-- No step ends a process but `exit`, which notes the time. -/
theorem ended_next (hs : k.Sane) (hnext : Kern.next b k a = some k') : Ended k k' := by
  cases moves_of_next hnext with
  | select _ _ hr =>
    have hcore := sameCore_select hr
    exact ended_of_frame fun i hi =>
      ⟨(hcore.state i).symm.trans hi, (congrArg Proc.etime (hcore.core i) :)⟩
  | @dispatch h p _ =>
    rw [dispatch]
    split
    · refine Ended.of_frame (fun i hi => ?_) (fun i hi => ?_) ((ended_modProc
        (k := (k.actuallySetPriority (k.proc p).dynamicPriority (k.proc p).pid).1) ?_).withCpu _ _)
      · rwa [state_actuallySetPriority] at hi
      · rcases ended_actuallySetPriority k _ _ i hi with hz | ⟨hr, -⟩
        · exact hz
        · rw [state_actuallySetPriority, hr] at hi; cases hi
      · intro hz; cases hz
    · exact ended_of_frame fun i hi => ⟨hi, rfl⟩
  | kerneltrap => exact (trapped_of_next hs hnext).ended hs
  | usertrap _ _ => exact (trapped_of_next hs hnext).ended hs
  | wakeup => exact (woken_wakeup k _ _).ended
  | sleep _ => exact (ended_modProc fun hz => by cases hz).withCpu _ k.nextpid
  | kill _ hkill =>
    cases hkill with
    | none => exact ended_of_frame fun i hi => ⟨hi, rfl⟩
    | @marked i _ =>
      refine ended_modProc fun hz => ?_
      dsimp only at hz
      split at hz
      · cases hz
      · exact ⟨hz, rfl⟩
  | fork _ hfork =>
    cases hfork with
    | full _ => exact ended_of_frame fun i hi => ⟨hi, rfl⟩
    | failed _ => exact (ended_modProc fun hz => by cases hz).withCpu k.cpu _
    | child _ => exact (ended_modProc fun hz => by cases hz).withCpu k.cpu _
  | @exit h p status k' hp hexit => exact ended_exit (hs.running h p hp) hexit
  | wait _ hwait =>
    cases hwait with
    | same => exact ended_of_frame fun i hi => ⟨hi, rfl⟩
    | reaped _ => exact ended_modProc fun hz => by cases hz
    | slept => exact (ended_modProc fun hz => by cases hz).withCpu _ k.nextpid
  | setPriority _ =>
    exact of_sysSetPriority (ended_of_frame fun _ hi => ⟨hi, rfl⟩) fun _ _ =>
      ended_actuallySetPriority k _ _
  | @fault h p k' hp hexit =>
    have hmark : ∀ i, _ := modProc_frame (π := fun x => (x.state, x.etime))
      (f := fun x => { x with killed := true }) (fun _ => rfl) k p
    simp only [Prod.mk.injEq] at hmark
    refine Ended.of_frame (fun i hi => (hmark i).1 ▸ hi)
      (fun i hi => ⟨(hmark i).1 ▸ hi, (hmark i).2⟩)
      (ended_exit (by simpa using hs.running h p hp) hexit)

end Xv6.Kern
