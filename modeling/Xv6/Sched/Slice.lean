import Xv6.Sched.Life

/-!
# Time slices

A process dispatched at level `L` of the feedback queues gets `change_queue = 1 << L`, and the
trap handlers make it yield when `change_queue` is used up. Only the clock counts it down, for
the process on hart 0: there slices end as they should, on the other harts they never end.
-/

namespace Xv6.Kern

open Lib

variable {k k' k'' : Kern} {a : Act} {h h' : ℕ} {p q : Slot} {f : Proc → Proc}

/-- What decides how long a process may keep its hart, and where it goes then. -/
def slice (x : Proc) : Fin NMLFQ × Int32 := (x.level, x.changeQueue)

/-- Hart `h` and the slice of the process `p` are as before. -/
structure SameSlice (h : ℕ) (p : Slot) (k k' : Kern) : Prop where
  cpu : k'.cpu h = k.cpu h
  slice : slice (k'.proc p) = slice (k.proc p)

namespace SameSlice

theorem refl (h : ℕ) (p : Slot) (k : Kern) : SameSlice h p k k := ⟨rfl, rfl⟩

theorem trans (h₁ : SameSlice h p k k') (h₂ : SameSlice h p k' k'') : SameSlice h p k k'' :=
  ⟨h₂.cpu.trans h₁.cpu, h₂.slice.trans h₁.slice⟩

end SameSlice

theorem sameSlice_modProc (hf : ∀ x, slice (f x) = slice x) (h : ℕ) (p : Slot) (k : Kern)
    (q : Slot) : SameSlice h p k (k.modProc q f) := ⟨rfl, modProc_frame hf k q p⟩

theorem sameSlice_modProc_of_ne (hq : q ≠ p) : SameSlice h p k (k.modProc q f) :=
  ⟨rfl, by rw [proc_modProc_of_ne _ _ hq.symm]⟩

theorem sameSlice_setCpu (hh : h' ≠ h) (c : Option Slot) : SameSlice h p k (k.setCpu h' c) :=
  ⟨by rw [cpu_setCpu, if_neg hh.symm], rfl⟩

/-- Another hart puts down or takes up another process. -/
theorem sameSlice_other (hh : h' ≠ h) (hq : q ≠ p) (c : Option Slot) :
    SameSlice h p k ((k.modProc q f).setCpu h' c) :=
  (sameSlice_modProc_of_ne hq).trans (sameSlice_setCpu hh c)

theorem Woken.sameSlice (hw : Woken k k') (h : ℕ) (p : Slot) : SameSlice h p k k' :=
  ⟨congrFun hw.cpu h, hw.frame (fun _ _ _ => rfl) p⟩

theorem sameSlice_exit (hh : h' ≠ h) (hq : q ≠ p) {status : Int32}
    (hexit : k.exit h' q status = .ok k') : SameSlice h p k k' := by
  obtain ⟨-, k₁, hw, rfl⟩ := exit_ok hexit
  exact (hw.sameSlice h p).trans (sameSlice_other hh hq none)

theorem sameSlice_preempt (hh : h' ≠ h) (hq : q ≠ p) : SameSlice h p k (preempt .mlfq k h' q) := by
  rw [preempt]
  split
  · exact (sameSlice_modProc_of_ne hq).trans (sameSlice_other hh hq none)
  · exact .refl h p k

theorem sameSlice_actuallySetPriority (h : ℕ) (p : Slot) (k : Kern) (v pid : Int32) :
    SameSlice h p k (k.actuallySetPriority v pid).1 :=
  of_actuallySetPriority (.refl h p k) fun i _ => sameSlice_modProc (by intro; rfl) h p k i

/-- The clock counts down the slice of the process on hart 0 only. -/
theorem sameSlice_devintr (hp : h' = 0 → (k.cpu 0).proc ≠ some p) :
    SameSlice h p k (k.devintr h') := by
  rw [devintr]
  split
  · have hlevel := clockintr_frame (π := Proc.level) (fun _ _ _ _ _ _ _ _ => rfl) k
      (k.cpu 0).proc p
    refine ⟨by rw [cpu_clockintr], ?_⟩
    rw [slice, slice, hlevel, changeQueue_clockintr, if_neg (hp ‹_›)]
  · exact .refl h p k

/-! ## One step -/

/-- Two harts that run processes are one hart with one process, or differ in both. -/
theorem Sane.same_or_other (hs : k.Sane) (hp : (k.cpu h).proc = some p)
    (hq : (k.cpu h').proc = some q) : (h' = h ∧ q = p) ∨ (h' ≠ h ∧ q ≠ p) := by
  by_cases hh : h' = h
  · subst hh
    exact .inl ⟨rfl, Option.some.inj (hq.symm.trans hp)⟩
  · exact .inr ⟨hh, fun heq => hh (hs.unique h' h p (heq ▸ hq) hp)⟩

theorem state_exit_self {status : Int32} (hexit : k.exit h p status = .ok k') :
    (k'.proc p).state = .zombie := by
  obtain ⟨-, k₁, -, rfl⟩ := exit_ok hexit
  rw [proc_setCpu, proc_modProc_self]

section
variable (hs : k.Sane) (hp : (k.cpu h).proc = some p)
include hs hp

theorem sameSlice_dispatch
    (hsel : (k.cpu h').sel = some q) : SameSlice h p k (k.dispatch h' q) := by
  have hh : h' ≠ h := by
    rintro rfl
    rw [hs.idle h' q hsel] at hp
    cases hp
  rw [dispatch]
  split
  · rename_i hq
    have hqp : q ≠ p := by
      rintro rfl
      rw [hs.running h q hp] at hq
      cases hq
    exact (sameSlice_actuallySetPriority h p k _ _).trans (sameSlice_other hh hqp (some q))
  · exact sameSlice_setCpu hh none

theorem Trapped.sameSlice (hh : h' ≠ h) {user : Bool}
    (ht : Trapped .mlfq k h' user k') : SameSlice h p k k' := by
  have hdev : SameSlice h p k (k.devintr h') := sameSlice_devintr fun h0 hp₀ =>
    hh (h0.trans (hs.unique 0 h p hp₀ hp))
  cases ht with
  | none _ => exact hdev
  | exit hq _ _ hexit =>
    have hqp := ((hs.same_or_other hp hq).resolve_left fun h => hh h.1).2
    exact hdev.trans (sameSlice_exit hh hqp hexit)
  | preempt hq _ =>
    have hqp := ((hs.same_or_other hp hq).resolve_left fun h => hh h.1).2
    exact hdev.trans (sameSlice_preempt hh hqp)

/-- A process that does not stop by itself keeps its hart and its slice over every step but a
timer interrupt of its hart. -/
theorem sameSlice_next (ha : ∀ user, a ≠ .timer h user) (hnext : Kern.next .mlfq k a = some k')
    (hawake : (k'.proc p).state ≠ .sleeping) (halive : (k'.proc p).state ≠ .zombie) :
    SameSlice h p k k' := by
  have hrun := hs.running h p hp
  have hsleep : ∀ h' q chan, (k.cpu h').proc = some q → k' = k.sleep h' q chan →
      SameSlice h p k k' := by
    rintro h' q chan hq rfl
    rcases hs.same_or_other hp hq with ⟨rfl, rfl⟩ | ⟨hh, hqp⟩
    · rw [sleep, proc_setCpu, proc_modProc_self] at hawake
      exact absurd rfl hawake
    · exact sameSlice_other hh hqp none
  have htimer : ∀ h' user, Kern.next .mlfq k (.timer h' user) = some k' → h' ≠ h →
      SameSlice h p k k' := fun h' user hnext hh => (trapped_of_next hs hnext).sameSlice hs hp hh
  cases moves_of_next hnext with
  | @select h' r hproc _ hr =>
    have hh : h ≠ h' := by
      rintro rfl
      rw [hp] at hproc
      cases hproc
    have hpass := (selects_passes p).mlfqScheduler hr
    have hcq : (r.1.proc p).changeQueue = (k.proc p).changeQueue :=
      (congrArg Proc.changeQueue (hpass.core p) :)
    refine ⟨(Function.update_of_ne hh _ _).trans (congrFun hpass.cpu h), ?_⟩
    rw [slice, slice, hpass.level (by simp [hrun]), hcq]
  | dispatch hsel => exact sameSlice_dispatch hs hp hsel
  | @kerneltrap h' => exact htimer h' _ hnext fun hh => ha false (by rw [hh])
  | @usertrap h' _ _ _ _ => exact htimer h' _ hnext fun hh => ha true (by rw [hh])
  | wakeup => exact (woken_wakeup k _ _).sameSlice h p
  | @sleep h' q chan hq => exact hsleep h' q chan hq rfl
  | kill _ hkill =>
    cases hkill with
    | none => exact .refl h p k
    | @marked i _ => exact sameSlice_modProc (by intro; rfl) h p k i
  | fork _ hfork =>
    have hfill : ∀ i, k.freeSlot = some i → i ≠ p := by
      rintro i hfree rfl
      rw [unused_of_freeSlot hfree] at hrun
      cases hrun
    cases hfork with
    | full _ => exact .refl h p k
    | failed hfree => exact ⟨rfl, by rw [proc_fill, if_neg (hfill _ hfree).symm]⟩
    | child hfree => exact ⟨rfl, by rw [proc_fill, if_neg (hfill _ hfree).symm]⟩
  | @exit h' q status k' hq hexit =>
    rcases hs.same_or_other hp hq with ⟨rfl, rfl⟩ | ⟨hh, hqp⟩
    · exact absurd (state_exit_self hexit) halive
    · exact sameSlice_exit hh hqp hexit
  | @wait h' q copy k' hq hwait =>
    cases hwait with
    | same => exact .refl h p k
    | @reaped i hi =>
      refine sameSlice_modProc_of_ne ?_
      rintro rfl
      rw [zombie_of_exitedChild hi] at hrun
      cases hrun
    | slept => exact hsleep h' q _ hq rfl
  | setPriority _ =>
    exact of_sysSetPriority (.refl h p k) fun _ _ => sameSlice_actuallySetPriority h p k _ _
  | @fault h' q k' hq hexit =>
    rcases hs.same_or_other hp hq with ⟨rfl, rfl⟩ | ⟨hh, hqp⟩
    · exact absurd (state_exit_self hexit) halive
    · exact (sameSlice_modProc_of_ne hqp).trans (sameSlice_exit hh hqp hexit)

end

/-! ## The length of a slice -/

/-- A timer interrupt of hart `h`. -/
def isTimerOn (h : ℕ) : Act → Bool
  | .timer h' _ => h' = h
  | _ => false

/-- The process `p`, which hart `h` has just started at level `L`, gets its slice: in every run
in which it neither sleeps nor exits it keeps the hart until the `2 ^ L`-th timer interrupt of
the hart, and yields there for the next lower level. -/
def SliceEnforced (k : Kern) (h : ℕ) (p : Slot) (L : Fin NMLFQ) : Prop :=
  ∀ as e, exec (Kern.next .mlfq) k as = some e →
    (∀ s, Visits (Kern.next .mlfq) k as s →
      (s.proc p).state ≠ .sleeping ∧ (s.proc p).state ≠ .zombie) →
    (as.countP (isTimerOn h) < 2 ^ L.val → (e.cpu h).proc = some p) ∧
    ∀ bs user, as = bs ++ [.timer h user] → as.countP (isTimerOn h) = 2 ^ L.val →
      (e.cpu h).proc = none ∧ (e.proc p).state = .runnable ∧
        (e.proc p).level.val = min (L.val + 1) (NMLFQ - 1)

theorem level_demote (x : Proc) :
    (Proc.demote x).level.val = min (x.level.val + 1) (NMLFQ - 1) := by
  unfold Proc.demote
  dsimp only
  generalize x.level = l
  revert l
  decide

/-- What a timer interrupt does to the slice of the process on hart 0. -/
theorem slice_trapped (hp : (k.cpu 0).proc = some p) {user : Bool}
    (ht : Trapped .mlfq k 0 user k') (halive : (k'.proc p).state ≠ .zombie) :
    if (k.proc p).changeQueue - 1 ≤ 0 then
      (k'.cpu 0).proc = none ∧ (k'.proc p).state = .runnable ∧
        (k'.proc p).level.val = min ((k.proc p).level.val + 1) (NMLFQ - 1)
    else (k'.cpu 0).proc = some p ∧
      slice (k'.proc p) = ((k.proc p).level, (k.proc p).changeQueue - 1) := by
  have hlevel : ((k.devintr 0).proc p).level = (k.proc p).level :=
    devintr_frame (π := Proc.level) (fun _ _ _ _ _ _ _ _ => rfl) k 0 p
  have hcq : ((k.devintr 0).proc p).changeQueue = (k.proc p).changeQueue - 1 := by
    rw [devintr, if_pos rfl, changeQueue_clockintr, if_pos hp]
  have hcpu : (k.devintr 0).cpu = k.cpu := by rw [devintr, if_pos rfl, cpu_clockintr]
  cases ht with
  | none hh => rw [hp] at hh; cases hh
  | exit hq _ _ hexit =>
    cases hp.symm.trans hq
    exact absurd (state_exit_self hexit) halive
  | preempt hq _ =>
    cases hp.symm.trans hq
    rw [preempt, hcq]
    split
    · rw [yield, modProc_modProc, cpu_setCpu, if_pos rfl, proc_setCpu,
        proc_modProc_self]
      exact ⟨rfl, rfl, (level_demote _).trans (by rw [hlevel])⟩
    · rw [hcpu, slice, hlevel, hcq]
      exact ⟨hp, rfl⟩

/-- `n` interrupts have come in the slice of `2 ^ L` that the process on hart 0 has. -/
def Slicing (p : Slot) (L : Fin NMLFQ) (n : ℕ) (k : Kern) : Prop :=
  (k.cpu 0).proc = some p ∧ slice (k.proc p) = (L, Int32.ofNat (2 ^ L.val - n))

variable {L : Fin NMLFQ}

theorem changeQueue_sub_one {n : ℕ} (hn : n < 2 ^ L.val) :
    Int32.ofNat (2 ^ L.val - n) - 1 = Int32.ofNat (2 ^ L.val - (n + 1)) := by
  revert n
  revert L
  decide

theorem changeQueue_le_zero_iff {n : ℕ} (hn : n ≤ 2 ^ L.val) :
    Int32.ofNat (2 ^ L.val - n) ≤ 0 ↔ n = 2 ^ L.val := by
  revert n
  revert L
  decide

/-- One interrupt of a slice on hart 0. -/
theorem Slicing.timer {n : ℕ} (hk : Slicing p L n k) (hn : n < 2 ^ L.val)
    {user : Bool} (ht : Trapped .mlfq k 0 user k') (halive : (k'.proc p).state ≠ .zombie) :
    if n + 1 = 2 ^ L.val then
      (k'.cpu 0).proc = none ∧ (k'.proc p).state = .runnable ∧
        (k'.proc p).level.val = min (L.val + 1) (NMLFQ - 1)
    else Slicing p L (n + 1) k' := by
  obtain ⟨hp, hslice⟩ := hk
  obtain ⟨hlevel, hcq⟩ := Prod.mk.inj hslice
  have hstep := slice_trapped hp ht halive
  rw [hlevel, hcq, changeQueue_sub_one hn] at hstep
  have hle := changeQueue_le_zero_iff (L := L) (n := n + 1) hn
  by_cases hend : n + 1 = 2 ^ L.val
  · rw [if_pos (hle.mpr hend)] at hstep
    rwa [if_pos hend]
  · rw [if_neg fun h => hend (hle.mp h)] at hstep
    rwa [if_neg hend]

/-- Before its end, a slice on hart 0 goes on. -/
theorem slicing_of_exec (hs : k.Sane) (hk : Slicing p L 0 k) {as : List Act}
    {e : Kern} (hrun : exec (Kern.next .mlfq) k as = some e)
    (hstay : ∀ s, Visits (Kern.next .mlfq) k as s →
      (s.proc p).state ≠ .sleeping ∧ (s.proc p).state ≠ .zombie)
    (hn : as.countP (isTimerOn 0) < 2 ^ L.val) :
    e.Sane ∧ Slicing p L (as.countP (isTimerOn 0)) e := by
  induction as using List.reverseRecOn generalizing e with
  | nil => cases hrun; exact ⟨hs, hk⟩
  | append_singleton as a ih =>
    obtain ⟨t, ht, hnext⟩ := exec_concat.mp hrun
    rw [List.countP_append, List.countP_singleton] at hn ⊢
    obtain ⟨hst, hslicing⟩ := ih ht (fun s hs => hstay s hs.mono) (by omega)
    refine ⟨hst.next hnext, ?_⟩
    obtain ⟨hawake, halive⟩ := hstay e (.last hrun)
    by_cases ha : isTimerOn 0 a = true
    · cases a with
      | timer h user =>
        have hh : h = 0 := by simpa [isTimerOn] using ha
        subst hh
        rw [if_pos ha] at hn ⊢
        have hstep := hslicing.timer (by omega) (trapped_of_next hst hnext) halive
        rwa [if_neg (by omega)] at hstep
      | _ => simp [isTimerOn] at ha
    · have hsame := sameSlice_next hst hslicing.1 (by rintro user rfl; simp [isTimerOn] at ha)
        hnext hawake halive
      rw [if_neg ha]
      exact ⟨by rw [hsame.cpu, hslicing.1], hsame.slice.trans hslicing.2⟩

/-- A dispatch starts a slice. -/
theorem dispatch_starts (hp : (k.proc p).state = .runnable) :
    ((k.dispatch h p).cpu h).proc = some p ∧ ((k.dispatch h p).proc p).state = .running ∧
      slice ((k.dispatch h p).proc p) =
        ((k.proc p).level, Int32.ofNat (2 ^ (k.proc p).level.val)) := by
  have hlevel := (Prod.mk.inj
    (sameSlice_actuallySetPriority h p k (k.proc p).dynamicPriority (k.proc p).pid).slice).1
  rw [dispatch, if_pos hp, run, cpu_setCpu, if_pos rfl, proc_setCpu, proc_modProc_self, ← hlevel,
    ← Nat.one_shiftLeft]
  exact ⟨rfl, rfl, rfl⟩

theorem sliceEnforced_zero (hs : k.Sane) (hsel : (k.cpu 0).sel = some p)
    (hp : (k.proc p).state = .runnable) :
    SliceEnforced (k.dispatch 0 p) 0 p (k.proc p).level := by
  intro as e hrun hstay
  obtain ⟨hcpu, -, hslice⟩ := dispatch_starts (h := 0) hp
  have hslicing : Slicing p (k.proc p).level 0 (k.dispatch 0 p) := ⟨hcpu, hslice⟩
  have hs' := hs.dispatch hsel
  refine ⟨fun hn => (slicing_of_exec hs' hslicing hrun hstay hn).2.1, ?_⟩
  rintro bs user rfl hn
  obtain ⟨t, ht, hnext⟩ := exec_concat.mp hrun
  have hcount : (bs ++ [Act.timer 0 user]).countP (isTimerOn 0) = bs.countP (isTimerOn 0) + 1 := by
    simp [isTimerOn]
  rw [hcount] at hn
  obtain ⟨hst, hbefore⟩ :=
    slicing_of_exec hs' hslicing ht (fun s hs => hstay s hs.mono) (by omega)
  have hstep := hbefore.timer (by omega) (trapped_of_next hst hnext) (hstay e (.last hrun)).2
  rwa [if_pos hn] at hstep

/-- On another hart, timer interrupts leave the process running. -/
theorem exec_timers (hh : h ≠ 0) (hp : (k.cpu h).proc = some p)
    (hrun : (k.proc p).state = .running) (hcq : ¬ (k.proc p).changeQueue ≤ 0) (n : ℕ) :
    exec (Kern.next .mlfq) k (List.replicate n (.timer h false)) = some k := by
  have hstep : Kern.next .mlfq k (.timer h false) = some k := by
    simp [next, step, kerneltrap, devintr, hh, hp, hrun, preempt, hcq, Except.toOption]
  induction n with
  | zero => rfl
  | succ n ih => rw [List.replicate_succ, exec_cons, hstep]; exact ih

/-- **Time slices are enforced on hart 0 and nowhere else.** -/
theorem sliceEnforced_iff (hk : Reachable (Kern.next .mlfq) boot k)
    (hsel : (k.cpu h).sel = some p) (hp : (k.proc p).state = .runnable) :
    SliceEnforced (k.dispatch h p) h p (k.proc p).level ↔ h = 0 := by
  constructor
  · intro henf
    by_contra hh
    obtain ⟨hcpu, hrun, hslice⟩ := dispatch_starts (h := h) hp
    have hcq : ¬ ((k.dispatch h p).proc p).changeQueue ≤ 0 := by
      rw [(Prod.mk.inj hslice).2]
      generalize (k.proc p).level = l
      revert l
      decide
    have hexec := exec_timers hh hcpu hrun hcq
    obtain ⟨n, hn⟩ : ∃ n, 2 ^ (k.proc p).level.val = n + 1 :=
      Nat.exists_eq_add_one_of_ne_zero (by positivity)
    have hyield := (henf _ _ (hexec (n + 1)) ?_).2 (List.replicate n (.timer h false)) false
      List.replicate_succ' (by simp [isTimerOn, List.countP_replicate, hn])
    · rw [hcpu] at hyield
      cases hyield.1
    · rintro s ⟨bs, hbs, he⟩
      obtain ⟨m, rfl⟩ : ∃ m, bs = List.replicate m (.timer h false) :=
        ⟨bs.length, (List.prefix_replicate_iff.mp hbs).2⟩
      cases (hexec m).symm.trans he
      simp [hrun]
  · rintro rfl
    exact sliceEnforced_zero (sane_of_reachable hk) hsel hp

/-- Hart 0 has selected init and is about to start it. -/
theorem sliceEnforced_init : ∃ k, exec (Kern.next .mlfq) boot [.select 0] = some k ∧
    (k.cpu 0).sel = some 0 ∧ (k.proc 0).state = .runnable ∧
    SliceEnforced (k.dispatch 0 0) 0 0 (k.proc 0).level := by
  obtain ⟨k, hrun, hsel, hp⟩ : ∃ k, exec (Kern.next .mlfq) boot [.select 0] = some k ∧
      (k.cpu 0).sel = some 0 ∧ (k.proc 0).state = .runnable := ⟨_, rfl, rfl, rfl⟩
  exact ⟨k, hrun, hsel, hp,
    (sliceEnforced_iff (Reach.refl.exec (fun _ _ => trivial) hrun) hsel hp).mpr rfl⟩

/-- Hart 1 has started init at level 0, and init is still running there after one timer
interrupt. -/
theorem hartOne_not_sliced : ∃ k e, exec (Kern.next .mlfq) boot [.select 1, .dispatch 1] = some k ∧
    exec (Kern.next .mlfq) k [.timer 1 true] = some e ∧ (k.proc 0).level = 0 ∧
    (e.cpu 1).proc = some 0 ∧ (e.proc 0).level = 0 ∧ ¬ SliceEnforced k 1 0 0 := by
  obtain ⟨k, e, hk, he, hlevel, hcpu, hlevel', hstate, hstate'⟩ : ∃ k e,
      exec (Kern.next .mlfq) boot [.select 1, .dispatch 1] = some k ∧
      exec (Kern.next .mlfq) k [.timer 1 true] = some e ∧ (k.proc 0).level = 0 ∧
      (e.cpu 1).proc = some 0 ∧ (e.proc 0).level = 0 ∧ (k.proc 0).state = .running ∧
      (e.proc 0).state = .running := ⟨_, _, rfl, rfl, rfl, rfl, rfl, rfl, rfl⟩
  refine ⟨k, e, hk, he, hlevel, hcpu, hlevel', fun henf => ?_⟩
  have hyield := ((henf _ _ he ?_).2 [] true rfl rfl).1
  · rw [hcpu] at hyield
    cases hyield
  · rintro s ⟨bs, hbs, hs⟩
    rcases List.prefix_cons_iff.mp hbs with rfl | ⟨cs, rfl, hcs⟩
    · cases hs; simp [hstate]
    · rw [List.prefix_nil.mp hcs, he] at hs
      cases hs
      simp [hstate']

end Xv6.Kern
