import Xv6.Sched.Life

/-!
# Kill

`kill` compares its argument with the `pid` of every slot, in use or not, and a free slot
carries the pid 0. So it does what it should for every pid but 0, and `kill(0)` marks a free
slot, if there is one; `freeproc` cleared the mark, but `allocproc` does not, and the next child
`fork` puts there is killed before it has run.
-/

namespace Xv6.Kern

open Lib

variable {b : Build} {k k' : Kern} {a : Act} {i : Slot} {pid : Int32}

/-- What a caller of `kill` relies on: it finds the process with the pid, if there is one, and
marks and wakes this process only; otherwise it fails and changes nothing. -/
structure KillExact (k : Kern) (pid : Int32) : Prop where
  found_iff : (k.kill pid).2 = 0 ↔ ∃ i, (k.proc i).state ≠ .unused ∧ (k.proc i).pid = pid
  marks : ∀ i, (k.proc i).state ≠ .unused → (k.proc i).pid = pid → (k.kill pid).1 =
    k.modProc i fun x =>
      { x with killed := true, state := if x.state = .sleeping then .runnable else x.state }
  fails : (k.kill pid).2 ≠ 0 → k.kill pid = (k, -1)

/-- The pid is the one that a free slot carries. -/
def Stray (k : Kern) (pid : Int32) : Prop := pid = 0 ∧ ∃ i, (k.proc i).state = .unused

instance (k : Kern) (pid : Int32) : Decidable (k.Stray pid) := by unfold Stray; infer_instance

theorem kill_of_find (h : k.findProc (fun x => x.pid = pid) = some i) : k.kill pid =
    (k.modProc i fun x =>
      { x with killed := true, state := if x.state = .sleeping then .runnable else x.state }, 0) := by
  rw [kill, h]

theorem kill_of_find_none (h : k.findProc (fun x => x.pid = pid) = none) :
    k.kill pid = (k, -1) := by
  rw [kill, h]

/-- In a state with distinct pids, `kill` is exact but for the pid of the free slots. -/
theorem killExact_iff_not_stray (hk : k.PidSane) : k.KillExact pid ↔ ¬ k.Stray pid := by
  constructor
  · rintro hexact ⟨rfl, i, hi⟩
    -- a free slot is found, so `kill` succeeds; but no process has the pid 0
    have hsome : (k.kill 0).2 = 0 := by
      cases hfind : k.findProc fun x => x.pid = 0 with
      | none => simpa [(hk.unused_iff i).mp hi] using findProc_none hfind i
      | some j => rw [kill_of_find hfind]
    obtain ⟨j, hused, hj⟩ := hexact.found_iff.mp hsome
    exact hused ((hk.unused_iff j).mpr hj)
  · intro hstray
    have hused : ∀ i, (k.proc i).pid = pid → (k.proc i).state ≠ .unused := by
      rintro i rfl hi
      exact hstray ⟨(hk.unused_iff i).mp hi, i, hi⟩
    cases hfind : k.findProc fun x => x.pid = pid with
    | none =>
      have hno : ∀ i, (k.proc i).pid ≠ pid := fun i => by simpa using findProc_none hfind i
      have heq := kill_of_find_none hfind
      refine ⟨?_, fun i _ hi => absurd hi (hno i), fun _ => heq⟩
      rw [heq]
      exact ⟨fun h => absurd h (show (-1 : Int32) ≠ 0 by decide),
        fun ⟨i, _, hi⟩ => absurd hi (hno i)⟩
    | some j =>
      have hj : (k.proc j).pid = pid := by simpa using findProc_some hfind
      have heq := kill_of_find hfind
      refine ⟨?_, fun i hi hpid => ?_, fun h => absurd (by rw [heq]) h⟩
      · rw [heq]
        exact ⟨fun _ => ⟨j, hused j hj, hj⟩, fun _ => rfl⟩
      · have hne : (k.proc i).pid ≠ 0 := fun h0 => hi ((hk.unused_iff i).mpr h0)
        rw [heq, hk.inj i j (hpid.trans hj.symm) hne]

/-! ## What sets the mark -/

/-- The step is a `kill` of the pid, or a fault of the process in slot `i`. -/
def Hits (i : Slot) (pid : Int32) (k : Kern) : Act → Prop
  | .kill _ q => q = pid
  | .fault h => (k.cpu h).proc = some i
  | _ => False

/-- What a step can do to the pid and the mark of a slot. -/
inductive SlotStep (i : Slot) (k : Kern) (a : Act) (k' : Kern) : Prop
  | kept (hpid : (k'.proc i).pid = (k.proc i).pid)
      (hkilled : (k'.proc i).killed = true → (k.proc i).killed = true ∨ Hits i (k.proc i).pid k a)
  | freed (hpid : (k'.proc i).pid = 0) (hkilled : (k'.proc i).killed = false)
  | born (hfree : (k.proc i).state = .unused) (hpid : (k'.proc i).pid = k.nextpid)
      (hkilled : (k'.proc i).killed = (k.proc i).killed)

/-- The pid and the mark. -/
def tag (x : Proc) : Int32 × Bool := (x.pid, x.killed)

theorem SlotStep.of_tag (h : tag (k'.proc i) = tag (k.proc i)) : SlotStep i k a k' := by
  obtain ⟨hpid, hkilled⟩ := Prod.ext_iff.mp h
  exact .kept hpid fun hset => .inl (hkilled.symm.trans hset)

/-- Only `kill`, `fault`, `fork` and `wait` touch the pid or the mark of any slot. -/
theorem slotStep_next (hs : k.Sane) (hnext : Kern.next b k a = some k') (i : Slot) :
    SlotStep i k a k' := by
  have hsleep : ∀ chan h p, (k.cpu h).proc = some p → Framed tag k (k.sleep h p chan) :=
    fun chan h p hp => framed_stop (fun _ => rfl) (by simp) (hs.running h p hp)
  have htrap : ∀ h user, Trapped b k h user k' → Framed tag k k' := fun h user ht =>
    (framed_devintr (fun _ _ _ _ _ _ _ _ => rfl) k h).trans
      (ht.framed (fun _ _ _ _ _ _ => rfl) hs)
  cases moves_of_next hnext with
  | select _ _ hr =>
    have hcore := (sameCore_select hr).core i
    exact .of_tag (congrArg tag hcore :)
  | dispatch _ => exact .of_tag ((framed_dispatch (fun _ _ _ _ _ _ _ _ _ _ => rfl) k _ _).field i)
  | kerneltrap => exact .of_tag ((htrap _ _ (trapped_kerneltrap hs)).field i)
  | usertrap hp hk => exact .of_tag ((htrap _ _ (trapped_usertrap hp hk)).field i)
  | wakeup => exact .of_tag ((woken_wakeup k _ _).framed (fun _ _ _ => rfl) |>.field i)
  | @sleep h p chan hp => exact .of_tag ((hsleep chan h p hp).field i)
  | kill _ hkill =>
    cases hkill with
    | none => exact .of_tag rfl
    | @marked j hj =>
      refine .kept (modProc_frame (π := Proc.pid) (by intro; rfl) k j i) fun hset => ?_
      rw [proc_modProc] at hset
      split at hset
      · rename_i heq
        subst heq
        exact .inr (by simpa [Hits, eq_comm] using findProc_some hj)
      · exact .inl hset
  | fork _ hfork =>
    cases hfork with
    | full _ => exact .of_tag rfl
    | @failed j hj =>
      by_cases hij : i = j
      · subst hij; exact .freed (by simp [proc_fill, Proc.free]) (by simp [proc_fill, Proc.free])
      · exact .of_tag (by rw [proc_fill, if_neg hij])
    | @child j hj =>
      by_cases hij : i = j
      · subst hij
        exact .born (unused_of_freeSlot hj) (by simp [proc_fill, Proc.alloc])
          (by simp [proc_fill, Proc.alloc])
      · exact .of_tag (by rw [proc_fill, if_neg hij])
  | @exit h p status k' hp hexit =>
    exact .of_tag ((framed_exit (fun _ _ _ _ _ => rfl) (hs.running h p hp) hexit).field i)
  | @wait h p copy k' hp hwait =>
    cases hwait with
    | same => exact .of_tag rfl
    | slept => exact .of_tag ((hsleep (.proc p) h p hp).field i)
    | @reaped j hj =>
      by_cases hij : i = j
      · subst hij; exact .freed (by simp [freeproc, Proc.free]) (by simp [freeproc, Proc.free])
      · exact .of_tag (by rw [freeproc, proc_modProc_of_ne _ _ hij])
  | setPriority _ =>
    exact .of_tag ((framed_sysSetPriority (fun _ _ _ _ => rfl) b k _ _).field i)
  | @fault h p k' hp hexit =>
    have hrest := (framed_exit (π := tag) (fun _ _ _ _ _ => rfl)
      (by simpa using hs.running h p hp) hexit).field i
    obtain ⟨hpid, hkilled⟩ := Prod.ext_iff.mp hrest
    refine .kept (hpid.trans (modProc_frame (π := Proc.pid) (by intro; rfl) k p i)) fun hset => ?_
    by_cases hip : i = p
    · exact .inr (hip ▸ hp)
    · have hset' := hkilled.symm.trans hset
      simp only [tag, proc_modProc_of_ne _ _ hip] at hset'
      exact .inl hset'

/-! ## The pids in use -/

theorem nextpid_exit {h : ℕ} {p : Slot} {status : Int32} (hexit : k.exit h p status = .ok k') :
    k'.nextpid = k.nextpid := by
  obtain ⟨-, k₁, hw, rfl⟩ := exit_ok hexit
  exact hw.nextpid

theorem nextpid_preempt (b : Build) (k : Kern) (h : ℕ) (p : Slot) :
    (preempt b k h p).nextpid = k.nextpid := by
  cases b <;> simp only [preempt]
  case mlfq => split <;> rfl
  all_goals rfl

theorem Trapped.nextpid {h : ℕ} {user : Bool} (ht : Trapped b k h user k') :
    k'.nextpid = k.nextpid := by
  cases ht with
  | none _ => exact nextpid_devintr k h
  | exit _ _ _ hexit => exact (nextpid_exit hexit).trans (nextpid_devintr k h)
  | preempt _ _ => exact (nextpid_preempt b _ h _).trans (nextpid_devintr k h)

theorem nextpid_actuallySetPriority (k : Kern) (v pid : Int32) :
    (k.actuallySetPriority v pid).1.nextpid = k.nextpid :=
  of_actuallySetPriority (P := fun k' => k'.nextpid = k.nextpid) rfl fun _ _ => rfl

/-- Pids are handed out in order. -/
theorem le_nextpid_next (hs : k.Sane) (hwrap : NoWrap k a) (hnext : Kern.next b k a = some k') :
    k.nextpid.toInt ≤ k'.nextpid.toInt := by
  cases moves_of_next hnext with
  | select _ _ hr => exact (congrArg Int32.toInt (sameCore_select hr).nextpid).ge
  | @dispatch h p _ =>
    refine (congrArg Int32.toInt ?_).ge
    rw [dispatch]
    split
    · exact nextpid_actuallySetPriority k _ _
    · rfl
  | kerneltrap => exact (congrArg Int32.toInt (trapped_kerneltrap hs).nextpid).ge
  | usertrap hp hk => exact (congrArg Int32.toInt (trapped_usertrap hp hk).nextpid).ge
  | wakeup => rfl
  | sleep _ => rfl
  | kill _ hkill => cases hkill <;> rfl
  | fork _ hfork =>
    have hsucc := toInt_nextpid hwrap
    cases hfork with
    | full _ => rfl
    | failed _ => rw [nextpid_fill, hsucc]; omega
    | child _ => rw [nextpid_fill, hsucc]; omega
  | exit _ hexit => exact (congrArg Int32.toInt (nextpid_exit hexit)).ge
  | wait _ hwait => cases hwait <;> rfl
  | setPriority _ =>
    exact of_sysSetPriority (P := fun k' => k.nextpid.toInt ≤ k'.nextpid.toInt) le_rfl fun _ _ =>
      (congrArg Int32.toInt (nextpid_actuallySetPriority k _ _)).ge
  | @fault h p k' _ hexit => exact (congrArg Int32.toInt (nextpid_exit hexit)).ge

/-! ## Children -/

/-- No free slot is marked. -/
def FreeUnmarked (k : Kern) : Prop := ∀ i, (k.proc i).state = .unused → (k.proc i).killed = false

/-- The step is a `kill` of the pid that a free slot carries. -/
def KillsStray (k : Kern) : Act → Prop
  | .kill _ pid => k.Stray pid
  | _ => False

instance (k : Kern) (a : Act) : Decidable (KillsStray k a) := by
  unfold KillsStray; split <;> infer_instance

theorem FreeUnmarked.next (hf : k.FreeUnmarked) (hs : k.Sane) (hpid : k.PidSane)
    (hpid' : k'.PidSane) (hstray : ¬ KillsStray k a) (hnext : Kern.next b k a = some k') :
    k'.FreeUnmarked := by
  intro i hi
  have hzero := (hpid'.unused_iff i).mp hi
  cases slotStep_next hs hnext i with
  | freed _ hkilled => exact hkilled
  | born hfree _ hkilled => rw [hkilled]; exact hf i hfree
  | kept hsame hkilled =>
    have hfree := (hpid.unused_iff i).mpr (hsame.symm.trans hzero)
    refine Bool.eq_false_iff.mpr fun hset => ?_
    obtain hold | hhit := hkilled hset
    · exact absurd hold (by simp [hf i hfree])
    · -- a free slot is hit only by `kill(0)`: no hart runs it
      cases a with
      | kill h q =>
        have hq : q = 0 := hhit.trans ((hpid.unused_iff i).mp hfree)
        exact hstray ⟨hq, i, hfree⟩
      | fault h =>
        have hrun := hs.running h i hhit
        rw [hfree] at hrun
        cases hrun
      | _ => exact hhit

/-- In the run `as` from the boot, every child that a `fork` makes stays unmarked for as long as
there is no `kill` of its pid and no fault of its own. -/
def ChildrenSpared (b : Build) (as : List Act) : Prop :=
  ∀ bs h mem copy cs t u v i, bs ++ .fork h mem copy :: cs <+: as →
    exec (Kern.next b) boot bs = some t → Kern.next b t (.fork h mem copy) = some u →
    (t.proc i).state = .unused → (u.proc i).state ≠ .unused →
    exec (Kern.next b) u cs = some v → (v.proc i).pid = (u.proc i).pid →
    (∀ w a, Takes (Kern.next b) u cs w a → ¬ Hits i (u.proc i).pid w a) →
    (v.proc i).killed = false

/-- What is known of the process that got the pid `pid` in the slot `i`, until it is hit. -/
structure Unhit (i : Slot) (pid : Int32) (k : Kern) : Prop where
  sane : k.Sane
  pids : k.PidSane
  given : pid.toInt < k.nextpid.toInt
  unmarked : (k.proc i).pid = pid → (k.proc i).killed = false

theorem Unhit.next (hu : Unhit i pid k) (hwrap : NoWrap k a)
    (hhit : ¬ Hits i pid k a) (hnext : Kern.next b k a = some k') : Unhit i pid k' := by
  refine ⟨hu.sane.next hnext, hu.pids.next hu.sane hwrap hnext,
    hu.given.trans_le (le_nextpid_next hu.sane hwrap hnext), fun hpid => ?_⟩
  cases slotStep_next hu.sane hnext i with
  | freed _ hkilled => exact hkilled
  | born _ hnew _ =>
    have hlt := hu.given
    rw [← hpid, hnew] at hlt
    exact absurd hlt (lt_irrefl _)
  | kept hsame hkilled =>
    have hold := hsame.symm.trans hpid
    refine Bool.eq_false_iff.mpr fun hset => ?_
    obtain hwas | hhits := hkilled hset
    · exact absurd hwas (by simp [hu.unmarked hold])
    · exact hhit (hold ▸ hhits)

/-- A new child in a state in which no free slot is marked. -/
theorem unhit_of_fork {h : ℕ} {mem copy : Bool} (hs : k.Sane) (hp : k.PidSane)
    (hf : k.FreeUnmarked) (hwrap : NoWrap k (.fork h mem copy))
    (hnext : Kern.next b k (.fork h mem copy) = some k') (hfree : (k.proc i).state = .unused)
    (hused : (k'.proc i).state ≠ .unused) : Unhit i (k'.proc i).pid k' := by
  have hp' := hp.next hs hwrap hnext
  refine ⟨hs.next hnext, hp', hp'.lt i, fun _ => ?_⟩
  cases slotStep_next hs hnext i with
  | freed _ hkilled => exact hkilled
  | born _ _ hkilled => rw [hkilled]; exact hf i hfree
  | kept hsame _ =>
    exact absurd ((hp'.unused_iff i).mpr (hsame.trans ((hp.unused_iff i).mp hfree))) hused

/-- **Kill.** In every run that does not run out of pids: a `kill` is exact in a state visited
exactly if its argument is not the pid of a free slot; and every `kill` of the run is exact and
every child spared exactly if no `kill` of the run is given the pid of a free slot. -/
theorem kill_exact_iff_not_stray {as : List Act}
    (hwrap : ∀ s a, Takes (Kern.next b) boot as s a → NoWrap s a) :
    (∀ t, Visits (Kern.next b) boot as t → ∀ pid, t.KillExact pid ↔ ¬ t.Stray pid) ∧
    (((∀ t h pid, Takes (Kern.next b) boot as t (.kill h pid) → t.KillExact pid) ∧
        ChildrenSpared b as) ↔
      ∀ t h pid, Takes (Kern.next b) boot as t (.kill h pid) → ¬ t.Stray pid) := by
  have hexact : ∀ t, Visits (Kern.next b) boot as t → ∀ pid, t.KillExact pid ↔ ¬ t.Stray pid :=
    fun t ht pid => killExact_iff_not_stray (sane_of_visits hwrap ht).2
  refine ⟨hexact, fun h t hart pid ht => (hexact t ht.visits_start pid).mp (h.1 t hart pid ht),
    fun hno => ⟨fun t h pid ht => (hexact t ht.visits_start pid).mpr (hno t h pid ht), ?_⟩⟩
  have hfree : ∀ t, Visits (Kern.next b) boot as t → t.FreeUnmarked := by
    intro t ht
    refine Visits.induction (P := FreeUnmarked) (fun i _ => ?_) ?_ ht
    · rw [boot]; dsimp only; split <;> rfl
    · intro s a u hs hu hf
      obtain ⟨hsane, hpid⟩ := sane_of_visits hwrap hs.visits_start
      refine hf.next hsane hpid (sane_of_visits hwrap (hs.visits hu)).2 ?_ hu
      cases a with
      | kill h pid => exact hno s h pid hs
      | _ => exact fun h => h
  rintro bs h mem copy cs t u v i hpre ht hu hunused hused hv hsame hspared
  have hbs : Takes (Kern.next b) boot as t (.fork h mem copy) := by
    refine ⟨bs, ?_, ht⟩
    have hcons : bs ++ .fork h mem copy :: cs = (bs ++ [.fork h mem copy]) ++ cs := by simp
    exact (List.prefix_append _ cs).trans (hcons ▸ hpre)
  obtain ⟨hsane, hpid⟩ := sane_of_visits hwrap hbs.visits_start
  have hborn := unhit_of_fork hsane hpid (hfree t hbs.visits_start) (hwrap _ _ hbs) hu hunused hused
  -- the rest of the run starts in `u`, and keeps what is known of the child
  have hlater : ∀ w a, Takes (Kern.next b) u cs w a → NoWrap w a := by
    intro w a hw
    have hpre' : (bs ++ [.fork h mem copy]) ++ cs <+: as := by simpa using hpre
    exact hwrap w a (Takes.after hpre' (exec_concat.mpr ⟨t, ht, hu⟩) hw)
  have hend : Unhit i (u.proc i).pid v :=
    Visits.induction (P := Unhit i (u.proc i).pid) hborn
      (fun w a w' hw hw' hunhit => hunhit.next (hlater w a hw) (hspared w a hw) hw')
      (Visits.last hv)
  exact hend.unmarked hsame

/-- `init` runs and forks a child, and kills it. -/
def killChild : List Act := [.select 0, .dispatch 0, .fork 0 true true, .kill 0 2]

theorem kill_exact_killChild :
    (∀ t, Visits (Kern.next .fcfs) boot killChild t → ∀ pid, t.KillExact pid ↔ ¬ t.Stray pid) ∧
    (((∀ t h pid, Takes (Kern.next .fcfs) boot killChild t (.kill h pid) → t.KillExact pid) ∧
        ChildrenSpared .fcfs killChild) ↔
      ∀ t h pid, Takes (Kern.next .fcfs) boot killChild t (.kill h pid) → ¬ t.Stray pid) := by
  have hrun : (exec (guarded NoWrap (Kern.next .fcfs)) boot killChild).isSome = true := by
    decide +kernel
  obtain ⟨e, he⟩ := Option.isSome_iff_exists.mp hrun
  exact kill_exact_iff_not_stray (exec_guarded he).2

/-- `init` runs, calls `kill(0)` and forks. -/
def killFree : List Act := [.select 0, .dispatch 0, .kill 0 0, .fork 0 true true]

/-- `kill(0)` succeeds although there is no process with the pid 0, and the child that `init`
forks next is killed from the start. -/
theorem killFree_marks_child : ∃ t u v,
    exec (Kern.next .fcfs) boot (killFree.take 2) = some t ∧ (t.kill 0).2 = 0 ∧
    (∀ i, (t.proc i).state ≠ .unused → (t.proc i).pid ≠ 0) ∧
    Kern.next .fcfs t (.kill 0 0) = some u ∧ (u.proc 1).state = .unused ∧
    Kern.next .fcfs u (.fork 0 true true) = some v ∧ (v.proc 1).state = .runnable ∧
    (v.proc 1).pid = 2 ∧ (v.proc 1).killed = true := by
  have hcheck : ((exec (Kern.next .fcfs) boot (killFree.take 2)).bind fun t =>
      (Kern.next .fcfs t (.kill 0 0)).bind fun u =>
        (Kern.next .fcfs u (.fork 0 true true)).map fun v =>
          decide ((t.kill 0).2 = 0 ∧ (∀ i, (t.proc i).state ≠ .unused → (t.proc i).pid ≠ 0) ∧
            (u.proc 1).state = .unused ∧ (v.proc 1).state = .runnable ∧ (v.proc 1).pid = 2 ∧
            (v.proc 1).killed = true)) = some true := by decide +kernel
  obtain ⟨t, ht, hrest⟩ := Option.bind_eq_some_iff.mp hcheck
  obtain ⟨u, hu, hrest⟩ := Option.bind_eq_some_iff.mp hrest
  obtain ⟨v, hv, hok⟩ := Option.map_eq_some_iff.mp hrest
  obtain ⟨hret, hnone, hfree, hstate, hpid, hkilled⟩ := of_decide_eq_true hok
  exact ⟨t, u, v, ht, hret, hnone, hu, hfree, hv, hstate, hpid, hkilled⟩

end Xv6.Kern
