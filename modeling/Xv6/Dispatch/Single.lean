import Xv6.Dispatch.Steps

/-!
# One hart for each running process

The selection of a process is not protected by any lock: any process may be selected by any number
of harts, in any state. A process is running all the same exactly when one hart has it as
`c->proc`, outside the switch from it, or is inside the switch to it.
-/

namespace Xv6.Dispatch

open Lib

/-- The call of `sched` at the end of `yield`, `sleep` and `exit`. -/
def Frame.atSched : Frame → Bool
  | .yield .marked | .sleep _ .marked | .exit .marked => true
  | _ => false

/-- A table in which the process `p` alone can run. -/
def tableFor (p : Slot) : Kern where
  proc q := { Proc.zero with state := if q = p then .runnable else .unused }
  mlfq _ := Queue.empty
  ticks := 0
  nextpid := 2
  alpha := p - 1
  cpu _ := { proc := none, sel := none }

namespace Kernel

variable {H : Type} {s : Kernel H} {h k : H} {p : Slot}

/-- A hart holds the lock of the process, and is between `p->state = RUNNING` and `swtch`. -/
def SwitchesTo (s : Kernel H) (h : H) (p : Slot) : Prop :=
  s.lock p = some h ∧ (s.stack (.hart h)).head? = some (.scheduler p .set)

/-- A hart holds the lock of its process, and is at the call of `sched`, or back in `scheduler` and
before `c->proc = 0`. -/
def SwitchesFrom (s : Kernel H) (h : H) (p : Slot) : Prop :=
  s.lock p = some h ∧ s.proc h = some p ∧
    (s.on h = some p ∧ (s.stack (.proc p)).head?.any Frame.atSched ∨
      s.on h = none ∧ (s.stack (.hart h)).head? = some (.scheduler p .back))

/-- A hart has the process as `c->proc`, or switches to it. -/
def Engaged (s : Kernel H) (h : H) (p : Slot) : Prop :=
  s.proc h = some p ∨ s.SwitchesTo h p

/-- A hart has the process, and does not switch from it. -/
def Runs (s : Kernel H) (h : H) (p : Slot) : Prop :=
  s.Engaged h p ∧ ¬ s.SwitchesFrom h p

/-! ## The view of a switch -/

theorem hmode_setting {q : Slot} :
    s.view.hmode h = .setting q ↔ (s.stack (.hart h)).head? = some (.scheduler q .set) := by
  change hmodeOf (s.stack (.hart h)) = _ ↔ _
  cases s.stack (.hart h) with
  | nil => simp [hmodeOf]
  | cons f fs =>
    cases f with
    | scheduler r pc => cases pc <;> simp [hmodeOf, Frame.hmode]
    | _ => simp [hmodeOf, Frame.hmode]

theorem hmode_backing {q : Slot} :
    s.view.hmode h = .backing q ↔ (s.stack (.hart h)).head? = some (.scheduler q .back) := by
  change hmodeOf (s.stack (.hart h)) = _ ↔ _
  cases s.stack (.hart h) with
  | nil => simp [hmodeOf]
  | cons f fs =>
    cases f with
    | scheduler r pc => cases pc <;> simp [hmodeOf, Frame.hmode]
    | _ => simp [hmodeOf, Frame.hmode]

theorem pmode_leaving :
    (∃ st, s.view.pmode p = .leaving st) ↔ (s.stack (.proc p)).head?.any Frame.atSched := by
  change (∃ st, pmodeOf p (s.stack (.proc p)) = _) ↔ _
  cases s.stack (.proc p) with
  | nil => simp [pmodeOf]
  | cons f fs =>
    cases f with
    | yield pc => cases pc <;> simp [pmodeOf, Frame.pmode, Frame.atSched]
    | sleep chan pc => cases pc <;> simp [pmodeOf, Frame.pmode, Frame.atSched]
    | fork pc => cases pc <;> simp [pmodeOf, Frame.pmode, Frame.atSched]
    | exit pc => cases pc <;> simp [pmodeOf, Frame.pmode, Frame.atSched]
    | _ => simp [pmodeOf, Frame.pmode, Frame.atSched]

section Inv
variable (hinv : s.view.Inv)
include hinv

theorem switchesTo_iff : s.SwitchesTo h p ↔ s.view.hmode h = .setting p := by
  rw [SwitchesTo, ← hmode_setting]
  exact ⟨fun hs => hs.2, fun hs => ⟨hinv.setting h p hs, hs⟩⟩

/-- Off its process, a hart that has one is back in `scheduler`. -/
theorem switchesFrom_of_none (hon : s.on h = none) (hproc : s.proc h = some p) :
    s.SwitchesFrom h p := by
  have hmode := (hinv.proc h p).mp hproc
  exact ⟨hinv.backing h p hon hmode, hproc, .inr ⟨hon, hmode_backing.mp hmode⟩⟩

theorem on_or_switchesFrom (hproc : s.proc h = some p) :
    s.on h = some p ∨ s.on h = none ∧ s.SwitchesFrom h p := by
  cases hon : s.on h with
  | none => exact .inr ⟨rfl, switchesFrom_of_none hinv hon hproc⟩
  | some q =>
    have hq : s.proc h = some q := hinv.on h q hon
    rw [hproc] at hq
    exact .inl hq.symm

theorem running_of_runs (hr : s.Runs h p) : s.state p = .running := by
  obtain ⟨hproc | hto, hnot⟩ := hr
  · obtain hon | ⟨-, hfrom⟩ := on_or_switchesFrom hinv hproc
    · by_contra hne
      have hmode := hinv.running h p hon hne
      have hlock := (hinv.leaving h p _ hon hmode).1
      exact hnot ⟨hlock, hproc, .inl ⟨hon, pmode_leaving.mp ⟨_, hmode⟩⟩⟩
    · exact absurd hfrom hnot
  · exact (hinv.started h p ((switchesTo_iff hinv).mp hto)).1

theorem not_running_of_switchesFrom (hfrom : s.SwitchesFrom h p) : s.state p ≠ .running := by
  obtain ⟨-, hproc, ⟨hon, hsched⟩ | ⟨hon, -⟩⟩ := hfrom
  · obtain ⟨st, hmode⟩ := pmode_leaving.mpr hsched
    obtain ⟨-, hst, hor⟩ := hinv.leaving h p st hon hmode
    change s.state p = st at hst
    rw [hst]
    rcases hor with rfl | rfl | rfl <;> simp
  · exact hinv.gone h p hon hproc

theorem runs_of_running (hp : s.state p = .running) : ∃ h, s.Runs h p := by
  obtain ⟨h, hon | hmode⟩ := hinv.runs p hp
  · exact ⟨h, .inl (hinv.on h p hon), fun hfrom => not_running_of_switchesFrom hinv hfrom hp⟩
  · exact ⟨h, .inr ((switchesTo_iff hinv).mpr hmode),
      fun hfrom => not_running_of_switchesFrom hinv hfrom hp⟩

/-- No two harts are engaged with one process. -/
theorem engaged_unique (hh : s.Engaged h p) (hk : s.Engaged k p) : h = k := by
  have hlock : ∀ {h k : H}, s.lock p = some h → s.lock p = some k → h = k := by
    intro h k hh hk
    rw [hh] at hk
    exact Option.some.inj hk
  -- A hart that has the process is on its stack, or holds its lock.
  have hcases : ∀ {h k : H}, s.proc h = some p → s.proc k = some p → s.on h = some p → h = k := by
    intro h k hh hk hon
    obtain hon' | ⟨hoff, hfrom⟩ := on_or_switchesFrom hinv hk
    · exact hinv.unique h k p hon hon'
    · have hne := not_running_of_switchesFrom hinv hfrom
      exact hlock (hinv.leaving h p _ hon (hinv.running h p hon hne)).1 hfrom.1
  have hto : ∀ {h k : H}, s.SwitchesTo h p → s.proc k = some p → h = k := by
    intro h k hh hk
    obtain ⟨hrun, hfree, -⟩ := hinv.started h p ((switchesTo_iff hinv).mp hh)
    obtain hon | ⟨-, hfrom⟩ := on_or_switchesFrom hinv hk
    · exact absurd hon (hfree k)
    · exact absurd hrun (not_running_of_switchesFrom hinv hfrom)
  rcases hh with hh | hh <;> rcases hk with hk | hk
  · obtain hon | ⟨-, hfrom⟩ := on_or_switchesFrom hinv hh
    · exact hcases hh hk hon
    · obtain hon | ⟨-, hfrom'⟩ := on_or_switchesFrom hinv hk
      · exact (hcases hk hh hon).symm
      · exact hlock hfrom.1 hfrom'.1
  · exact (hto hk hh).symm
  · exact hto hh hk
  · exact hlock hh.1 hk.1

end Inv

variable [DecidableEq H]

/-- In every state of a run, a process is running exactly when one hart runs it; no other hart has
it or switches to it, also while a hart switches from it; and the state of a process moves along
the edges only. -/
theorem single_dispatch {acts : List (Act H)} (hvisit : Visits step boot acts s) :
    (∀ p, (s.state p = .running ↔ ∃! h, s.Runs h p) ∧
      ∀ h k, s.Engaged h p → s.Engaged k p → h = k) ∧
    ∀ a t, s.step a = some t →
      ∀ p, t.state p = s.state p ∨ View.Edge (s.state p) (t.state p) := by
  obtain ⟨hshape, hinv⟩ := inv_of_visits hvisit
  refine ⟨fun p => ⟨⟨?_, ?_⟩, fun h k => engaged_unique hinv⟩, ?_⟩
  · intro hp
    obtain ⟨h, hr⟩ := runs_of_running hinv hp
    exact ⟨h, hr, fun k hk => engaged_unique hinv hk.1 hr.1⟩
  · rintro ⟨h, hr, -⟩
    exact running_of_runs hinv hr
  · intro a t hstep p
    obtain ⟨⟨h, hmove⟩, -⟩ := sim_step hshape hinv hstep
    exact View.edge_of_move hinv hmove p

/-- Both harts select the first process, and one of them starts it. -/
def twoHarts : List (Act Bool) :=
  [.select true .rr (tableFor initproc), .select false .fcfs (tableFor initproc),
    .run true true, .run true true, .run true true, .run true true, .run false true]

theorem single_dispatch_twoHarts :
    ∃ s : Kernel Bool, Visits step boot twoHarts s ∧ s.state initproc = .running ∧
      s.lock initproc = some false ∧ ∃! h, s.Runs h initproc := by
  have hrun : (exec step (boot : Kernel Bool) twoHarts).any (fun s =>
      s.state initproc = .running ∧ s.lock initproc = some false) = true := by decide +kernel
  obtain ⟨s, hs, hp⟩ := (Option.any_eq_true _ _).mp hrun
  obtain ⟨hstate, hlock⟩ := of_decide_eq_true hp
  have hvisit := Visits.last hs
  exact ⟨s, hvisit, hstate, hlock, ((single_dispatch hvisit).1 initproc).1.mp hstate⟩

end Kernel

end Xv6.Dispatch
