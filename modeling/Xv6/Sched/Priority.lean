import Xv6.Sched.Life

/-!
# Static priorities

In the priority based build, a process should keep the static priority it was created with or
was last given by `set_priority`. But `scheduler` calls `actually_set_priority` with the dynamic
priority at every dispatch. A run is recorded together with the priorities asked for; the table
agrees with the record exactly as long as every process is dispatched while its dynamic priority
is its static one.
-/

namespace Xv6.Kern

open Lib

variable {k k' : Kern} {a : Act} {h : ℕ} {p i : Slot}

/-- The priorities that were asked for, after a step: 60 at creation, and then the value of the
last successful call for the pid of the process. -/
def askPriority (k : Kern) (a : Act) (g : Slot → Int32) (i : Slot) : Int32 :=
  if (k.proc i).state = .unused then 60
  else match a with
    | .setPriority _ v pid => if 0 ≤ v ∧ v ≤ 100 ∧ (k.proc i).pid = pid then v else g i
    | _ => g i

/-- The kernel built with `PBS`, with the record of the priorities asked for. -/
abbrev asked : Kern × (Slot → Int32) → Act → Option (Kern × (Slot → Int32)) :=
  recorded (Kern.next .pbs) askPriority

/-- The booted kernel, in which no priority has been asked for. -/
def askedBoot : Kern × (Slot → Int32) := (boot, fun _ => 60)

/-- Every process has the static priority that was asked for. -/
def StaticAsked (k : Kern) (g : Slot → Int32) : Prop :=
  ∀ i, (k.proc i).state ≠ .unused → (k.proc i).staticPriority = g i

/-- A process that is dispatched has its static priority as its dynamic one. -/
def DispatchesStatic (k : Kern) : Act → Prop
  | .dispatch h => match (k.cpu h).sel with
    | some p => (k.proc p).state = .runnable →
        (k.proc p).dynamicPriority = (k.proc p).staticPriority
    | none => True
  | _ => True

instance (k : Kern) (a : Act) : Decidable (DispatchesStatic k a) := by
  unfold DispatchesStatic
  split
  · split <;> infer_instance
  · infer_instance

variable {g : Slot → Int32}

theorem askPriority_unused (hi : (k.proc i).state = .unused) : askPriority k a g i = 60 := if_pos hi

theorem askPriority_of_ne (hi : (k.proc i).state ≠ .unused)
    (ha : ∀ h v pid, a ≠ .setPriority h v pid) : askPriority k a g i = g i := by
  unfold askPriority
  rw [if_neg hi]
  split
  · exact absurd rfl (ha _ _ _)
  · rfl

theorem askPriority_setPriority (hi : (k.proc i).state ≠ .unused)
    (h : ℕ) (v pid : Int32) : askPriority k (.setPriority h v pid) g i =
      if 0 ≤ v ∧ v ≤ 100 ∧ (k.proc i).pid = pid then v else g i := by
  rw [askPriority, if_neg hi]

/-- The process with the given pid, and no other, gets the new priority. -/
theorem staticPriority_actuallySetPriority (hk : k.PidSane) (v pid : Int32)
    (hi : (k.proc i).state ≠ .unused) :
    ((k.actuallySetPriority v pid).1.proc i).staticPriority =
      if (k.proc i).pid = pid then v else (k.proc i).staticPriority := by
  have hpid : (k.proc i).pid ≠ 0 := fun h => hi ((hk.unused_iff i).mpr h)
  rw [actuallySetPriority]
  split
  · rename_i hfind
    have hne := findProc_none hfind i
    rw [if_neg (by simpa using hne)]
  · rename_i j hfind
    have hj : (k.proc j).pid = pid := by simpa using findProc_some hfind
    rw [proc_modProc]
    by_cases hij : i = j
    · subst hij; rw [if_pos rfl, if_pos hj]
    · rw [if_neg hij, if_neg fun heq => hij (hk.inj i j (heq.trans hj.symm) hpid)]

/-! ## One step -/

/-- A step that keeps static priorities and asks for none keeps the agreement. -/
theorem StaticAsked.kept (hk : StaticAsked k g)
    (hkept : Kept Proc.staticPriority k k') (ha : ∀ h v pid, a ≠ .setPriority h v pid) :
    StaticAsked k' (askPriority k a g) := by
  intro i hi
  rcases hkept i hi with ⟨hlive, heq⟩ | ⟨hfree, par, hborn⟩
  · rw [askPriority_of_ne hlive ha, heq]; exact hk i hlive
  · rw [askPriority_unused hfree, hborn]; rfl

theorem StaticAsked.setPriority (hpid : k.PidSane) (hk : StaticAsked k g) (h : ℕ) (v pid : Int32) :
    StaticAsked (sysSetPriority .pbs k v pid).1 (askPriority k (.setPriority h v pid) g) := by
  have hunused := (framed_sysSetPriority (π := Proc.pid) (fun _ _ _ _ => rfl) .pbs k v pid).unused_iff
  intro i hi
  have hlive : (k.proc i).state ≠ .unused := fun hun => hi ((hunused i).mpr hun)
  rw [askPriority_setPriority hlive]
  by_cases hv : 0 ≤ v ∧ v ≤ 100
  · have hset : sysSetPriority .pbs k v pid = k.actuallySetPriority v pid := by
      simp [sysSetPriority, Int32.not_lt.mpr hv.1, Int32.not_lt.mpr hv.2]
    rw [hset, staticPriority_actuallySetPriority hpid v pid hlive, hk i hlive]
    simp [hv]
  · rw [if_neg fun h => hv ⟨h.1, h.2.1⟩]
    exact of_sysSetPriority (P := fun k' => (k'.proc i).staticPriority = g i) (hk i hlive)
      fun h₀ h₁ => absurd ⟨h₀, h₁⟩ hv

/-- A dispatch makes the dynamic priority the static one. -/
theorem staticPriority_dispatch (hpid : k.PidSane) (hp : (k.proc p).state = .runnable)
    (hi : (k.proc i).state ≠ .unused) : ((k.dispatch h p).proc i).staticPriority =
      if i = p then (k.proc p).dynamicPriority else (k.proc i).staticPriority := by
  have hne : (k.proc i).pid ≠ 0 := fun h => hi ((hpid.unused_iff i).mpr h)
  rw [dispatch, if_pos hp, run, proc_setCpu, modProc_frame (π := Proc.staticPriority) (by intro; rfl),
    staticPriority_actuallySetPriority hpid _ _ hi]
  by_cases hip : i = p
  · rw [if_pos hip, if_pos (by rw [hip])]
  · rw [if_neg hip, if_neg fun heq => hip (hpid.inj i p heq hne)]

theorem staticAsked_dispatch_iff (hpid : k.PidSane) (hk : StaticAsked k g)
    (hsel : (k.cpu h).sel = some p) :
    StaticAsked (k.dispatch h p) (askPriority k (.dispatch h) g) ↔
      k.DispatchesStatic (.dispatch h) := by
  have hframe := framed_dispatch (π := Proc.pid) (fun _ _ _ _ _ _ _ _ _ _ => rfl) k h p
  have hask : ∀ i, (k.proc i).state ≠ .unused → askPriority k (.dispatch h) g i = g i :=
    fun i hi => askPriority_of_ne hi (by simp)
  simp only [DispatchesStatic, hsel]
  by_cases hp : (k.proc p).state = .runnable
  · have hlive : (k.proc p).state ≠ .unused := by rw [hp]; simp
    constructor
    · intro hafter _
      have hp' := hafter p fun hun => hlive ((hframe.unused_iff p).mp hun)
      rwa [staticPriority_dispatch hpid hp hlive, if_pos rfl, hask p hlive, ← hk p hlive] at hp'
    · intro heq i hi
      have hi' : (k.proc i).state ≠ .unused := fun hun => hi ((hframe.unused_iff i).mpr hun)
      rw [staticPriority_dispatch hpid hp hi', hask i hi', ← hk i hi']
      split
      · rename_i hip; rw [heq hp, hip]
      · rfl
  · simp only [hp, false_implies, iff_true]
    refine hk.kept ?_ (by simp)
    rw [dispatch, if_neg hp]
    exact (framed_setCpu _ k h none).kept

theorem kept_staticPriority_timer {user : Bool} (hs : k.Sane)
    (hnext : Kern.next .pbs k (.timer h user) = some k') : Kept Proc.staticPriority k k' :=
  ((framed_devintr (fun _ _ _ _ _ _ _ _ => rfl) k h).trans
    ((trapped_of_next hs hnext).framed (fun _ _ _ _ _ _ => rfl) hs)).kept

/-- From agreement, a step leads to agreement exactly if it does not dispatch a process whose
dynamic priority is another than its static one. -/
theorem staticAsked_next_iff (hs : k.Sane) (hpid : k.PidSane)
    (hk : StaticAsked k g) (hnext : Kern.next .pbs k a = some k') :
    StaticAsked k' (askPriority k a g) ↔ k.DispatchesStatic a := by
  cases a with
  | dispatch h =>
    cases moves_of_next hnext with
    | dispatch hsel => exact staticAsked_dispatch_iff hpid hk hsel
  | setPriority h v pid =>
    cases moves_of_next hnext with
    | setPriority _ => simpa only [DispatchesStatic, iff_true] using hk.setPriority hpid h v pid
  | timer h user =>
    simpa only [DispatchesStatic, iff_true] using
      hk.kept (kept_staticPriority_timer hs hnext) (by simp)
  | _ =>
    simp only [DispatchesStatic, iff_true]
    exact hk.kept (kept_next (fun _ _ _ _ _ _ _ _ _ _ => rfl) hs (by trivial) hnext) (by simp)

/-! ## Runs -/

/-- **When static priorities change only by `set_priority`.** In a run of the priority based
build on any number of harts in which pids do not wrap around, every process has the static
priority that was asked for in every state exactly when every process is dispatched with its
static priority as its dynamic one. -/
theorem staticAsked_iff_dispatchesStatic {as : List Act} {e : Kern × (Slot → Int32)}
    (hrun : exec asked askedBoot as = some e)
    (hwrap : ∀ s a, Takes asked askedBoot as s a → NoWrap s.1 a) :
    (∀ s, Visits asked askedBoot as s → StaticAsked s.1 s.2) ↔
      ∀ s a, Takes asked askedBoot as s a → s.1.DispatchesStatic a := by
  have hsane : ∀ s, Visits asked askedBoot as s → s.1.Sane ∧ s.1.PidSane := by
    intro s hs
    refine Visits.induction (P := fun s => s.1.Sane ∧ s.1.PidSane) ⟨sane_boot, pidSane_boot⟩ ?_ hs
    rintro s a t htakes hnext ⟨hs, hpid⟩
    have hstep := (recorded_eq_some.mp hnext).1
    exact ⟨hs.next hstep, hpid.next hs (hwrap s a htakes) hstep⟩
  refine visits_all_iff_takes_all (P := fun s => StaticAsked s.1 s.2) ?_ hrun ?_
  · change StaticAsked boot fun _ => 60
    unfold StaticAsked
    decide
  · intro s a t htakes hnext hk
    obtain ⟨hs, hpid⟩ := hsane s htakes.visits_start
    obtain ⟨hstep, hnote⟩ := recorded_eq_some.mp hnext
    rw [hnote]
    exact staticAsked_next_iff hs hpid hk hstep

/-- Init is dispatched before any tick, and then sets its own priority. -/
def askRun : List Act :=
  [.select 0, .select 1, .dispatch 0, .setPriority 0 40 1, .sleep 0 .ticks, .timer 0 false]

theorem staticAsked_askRun : ∃ e, exec asked askedBoot askRun = some e ∧
    ∀ s, Visits asked askedBoot askRun s → StaticAsked s.1 s.2 := by
  obtain ⟨e, hrun⟩ : ∃ e, exec (guarded (fun s a => NoWrap s.1 a ∧ DispatchesStatic s.1 a) asked)
      askedBoot askRun = some e := ⟨_, rfl⟩
  obtain ⟨hexec, hok⟩ := exec_guarded hrun
  exact ⟨e, hexec, (staticAsked_iff_dispatchesStatic hexec fun s a hs => (hok s a hs).1).mpr
    fun s a hs => (hok s a hs).2⟩

/-- Init runs for one tick, yields and is dispatched again. -/
def driftRun : List Act := [.select 0, .dispatch 0, .timer 0 true, .select 0, .dispatch 0]

/-- Nobody has called `set_priority`, but init runs with static priority 65. -/
theorem driftRun_drifts : ∃ e, exec asked askedBoot driftRun = some e ∧
    (e.1.proc 0).state = .running ∧ e.2 0 = 60 ∧ (e.1.proc 0).staticPriority = 65 ∧
    ¬ StaticAsked e.1 e.2 := by
  obtain ⟨e, hrun, hstate, hask, hstatic⟩ : ∃ e, exec asked askedBoot driftRun = some e ∧
      (e.1.proc 0).state = .running ∧ e.2 0 = 60 ∧ (e.1.proc 0).staticPriority = 65 :=
    ⟨_, rfl, rfl, rfl, rfl⟩
  refine ⟨e, hrun, hstate, hask, hstatic, fun hk => ?_⟩
  have heq := hk 0 (by rw [hstate]; simp)
  rw [hask, hstatic] at heq
  exact absurd heq (by decide)

end Xv6.Kern
