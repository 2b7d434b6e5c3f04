import Xv6.Sleep.Kernel
import Mathlib.Data.Finset.Card

/-!
# Who holds which lock at which line

The invariant of the kernel of `Xv6.Sleep.Kernel`. Between its `acquire(&p->lock)` and its
`release(&p->lock)` a frame is in a section of `p`; the lock is then held by the hart that is on
the frame's stack, and `sched` hands the section over to the scheduler of that hart. A process
that no hart is on has a frame on top that has called `swtch`.
-/

namespace Xv6.Sleep

open Function (update update_apply update_of_ne update_self)

variable {n : ℕ} {H L C : Type*}

namespace Frame

/-- The process whose lock protects the line, for a frame on the stack of `me`. -/
@[simp] def sect (me : Option (Fin n)) : Frame n L C → Option (Fin n)
  | .lock _ | .unlock _ => none
  | .sleep _ _ .enter | .sleep _ _ .relock => none
  | .sleep .. => me
  | .wakeup _ (p :: _) .test | .wakeup _ (p :: _) .unlock => some p
  | .wakeup .. => none
  | .kill _ (p :: _) .test | .kill _ (p :: _) .unlock => some p
  | .kill .. => none
  | .yield .enter => none
  | .yield _ => me
  | .forkret => me
  | .scheduler _ .enter => none
  | .scheduler p _ => some p

/-- At the call of `sched`. -/
@[simp] def atSched : Frame n L C → Bool
  | .sleep _ _ .asleep | .yield .marked => true
  | _ => false

/-- Where a process is while no hart is on its stack. -/
@[simp] def off : Frame n L C → Bool
  | .sleep _ _ .resumed | .yield .resumed | .forkret => true
  | _ => false

/-- A frame of other code than the loop of a scheduler. -/
@[simp] def called : Frame n L C → Bool
  | .scheduler .. => false
  | _ => true

theorem sect_of_off {f : Frame n L C} (h : f.off = true) (me : Option (Fin n)) :
    f.sect me = me := by
  cases f with
  | sleep chan lk pc => cases pc <;> first | rfl | cases h
  | yield pc => cases pc <;> first | rfl | cases h
  | forkret => rfl
  | _ => cases h

theorem sect_of_atSched {f : Frame n L C} (h : f.atSched = true) (me : Option (Fin n)) :
    f.sect me = me := by
  cases f with
  | sleep chan lk pc => cases pc <;> first | rfl | cases h
  | yield pc => cases pc <;> first | rfl | cases h
  | _ => cases h

end Frame

/-- A call starts in no section. -/
theorem Call.sect_frame (c : Call L C) (me : Option (Fin n)) :
    (c.frame : Frame n L C).sect me = none := by
  cases c with
  | wakeup chan => rw [Call.frame]; cases List.finRange n <;> rfl
  | kill pid => rw [Call.frame]; cases List.finRange n <;> rfl
  | _ => rfl

/-- The process whose stack it is. -/
def Thread.me : Thread n H → Option (Fin n)
  | .proc p => some p
  | .hart _ => none

/-- The section of the top frame. -/
@[simp] def sectOf (me : Option (Fin n)) : List (Frame n L C) → Option (Fin n)
  | [] => none
  | f :: _ => f.sect me

/-- `chan` has been assigned and not yet cleared. -/
def SleepAt.chanSet : SleepAt → Bool
  | .marked | .asleep | .resumed => true
  | _ => false

/-- Past `release(lk)` and not yet in `swtch`. -/
def SleepAt.drowsy : SleepAt → Bool
  | .unlocked | .marked | .asleep => true
  | _ => false

/-- How the effect of a line fits the section it is in and the one it leads to. -/
@[simp] def Effect.Fits (s : Kernel n H L C) (me : Option (Fin n)) (f : Frame n L C)
    (gs : List (Frame n L C)) : Effect n L C → Prop
  | .skip | .acquire (.other _) | .release (.other _) => sectOf me gs = f.sect me
  | .acquire (.proc q) => f.sect me = none ∧ sectOf me gs = some q
  | .release (.proc q) => f.sect me = some q ∧ sectOf me gs = none
  | .chan q _ => me = some q ∧ f.sect me = some q ∧ sectOf me gs = some q
  | .state q st =>
    me = some q ∧ f.sect me = some q ∧ st ≠ .running ∧ ∃ g, gs = [g] ∧ g.atSched = true
  | .wake q _ | .kill q => f.sect me = some q ∧ sectOf me gs = some q
  | .sched q => me = some q ∧ f.atSched = true ∧ ∃ g, gs = [g] ∧ g.off = true
  | .dispatch q => f = .scheduler q .test ∧ s.state q = .runnable ∧ gs = [.scheduler q .back]
  | .idle => ∃ q, f = .scheduler q .back ∧ gs = [.scheduler q .unlock]

/-- All that the proofs below need to know of a line. -/
structure Line (s : Kernel n H L C) (me : Option (Fin n)) (f : Frame n L C) (e : Effect n L C)
    (gs : List (Frame n L C)) : Prop where
  fits : e.Fits s me f gs
  /-- A frame is replaced by at most one, of the same kind. -/
  length_le : gs.length ≤ 1
  called : f.called = true → ∀ g ∈ gs, g.called = true
  sched : f.atSched = true → ∃ q, e = .sched q
  /-- Where a frame of `sleep` comes from. -/
  sleep : ∀ c l pc fs, gs = .sleep c l pc :: fs → ∃ p, me = some p ∧ ∃ pc', f = .sleep c l pc' ∧
    (pc.chanSet = true → e = .chan p (some c) ∨ pc'.chanSet = true ∧ ∀ q d, e ≠ .chan q d) ∧
    (pc.drowsy = true ∨ pc = .resumed → pc'.drowsy = true ∨ e = .release (.other l))

/-- The lines of all functions. -/
theorem line_of_next {s : Kernel n H L C} {me my : Option (Fin n)} {f : Frame n L C}
    {e : Effect n L C} {gs : List (Frame n L C)} (h : f.next s me my = some (e, gs)) :
    Line s me f e gs := by
  cases f with
  | lock l => cases h; constructor <;> simp
  | unlock l => cases h; constructor <;> simp
  | sleep chan lk pc =>
    obtain ⟨p, rfl, hp⟩ := Option.map_eq_some_iff.mp h
    have hfrom : ∀ c l pc' fs, gs = .sleep c l pc' :: fs → ∃ p', some p = some p' ∧
        ∃ pc'', Frame.sleep chan lk pc = (.sleep c l pc'' : Frame n L C) ∧
          (pc'.chanSet = true →
            e = .chan p' (some c) ∨ pc''.chanSet = true ∧ ∀ q d, e ≠ .chan q d) ∧
          (pc'.drowsy = true ∨ pc' = .resumed → pc''.drowsy = true ∨ e = .release (.other l)) := by
      intro c l pc' fs hgs
      cases pc <;> cases hp <;> cases hgs <;> simp [SleepAt.chanSet, SleepAt.drowsy]
    refine ⟨?_, ?_, ?_, ?_, hfrom⟩ <;> cases pc <;> cases hp <;> simp
  | wakeup chan ps pc =>
    cases ps with
    | nil => cases h; constructor <;> simp
    | cons p ps =>
      cases pc <;> simp only [Frame.next] at h
      · split at h <;> cases h <;> constructor <;> simp
      · cases h
        constructor <;> simp
      · cases h
        constructor <;> simp
  | kill pid ps pc =>
    cases ps with
    | nil => cases h; constructor <;> simp
    | cons p ps =>
      cases pc <;> simp only [Frame.next] at h
      · cases h
        constructor <;> simp
      · split at h <;> cases h <;> constructor <;> simp
      · cases h
        constructor <;> simp
  | yield pc =>
    obtain ⟨p, rfl, hp⟩ := Option.map_eq_some_iff.mp h
    cases pc <;> cases hp <;> constructor <;> simp
  | forkret =>
    obtain ⟨p, rfl, hp⟩ := Option.map_eq_some_iff.mp h
    cases hp
    constructor <;> simp
  | scheduler p pc =>
    cases pc <;> simp only [Frame.next] at h
    · cases h
      constructor <;> simp
    · split at h <;> cases h <;> constructor <;> simp_all
    · cases h
      constructor <;> simp
    · cases h
      constructor <;> simp

/-! ## The invariant -/

namespace Kernel

/-- The invariant. -/
structure Inv (s : Kernel n H L C) : Prop where
  locks : ∀ h, ∃ S : Finset (Lock n L), S.card = s.noff h ∧ ∀ l, s.cpu l = some h ↔ l ∈ S
  /-- No two harts are on one stack. -/
  unique : ∀ {h h' p}, s.on h = some p → s.on h' = some p → h = h'
  proc : ∀ {h p}, s.on h = some p → s.proc h = some p
  /-- A hart holds the lock of the section it is in. -/
  own : ∀ {h q}, sectOf (s.on h) (s.stack (s.thread h)) = some q → s.cpu (.proc q) = some h
  running : ∀ {h p}, s.on h = some p →
    s.state p = .running ∨ ∃ f fs, s.stack (.proc p) = f :: fs ∧ f.atSched = true
  off : ∀ {p}, (∀ h, s.on h ≠ some p) → ∃ f fs, s.stack (.proc p) = f :: fs ∧ f.off = true
  /-- While `c->proc` is set, the scheduler of the hart is at the line that clears it. -/
  away : ∀ {h p}, s.proc h = some p → ∃ fs, s.stack (.hart h) = .scheduler p .back :: fs
  /-- A frame that is not on top is in no section. -/
  resting : ∀ T, ∀ f ∈ (s.stack T).tail, f.sect T.me = none
  called : ∀ p, ∀ f ∈ s.stack (.proc p), f.called = true
  chan : ∀ {p c l pc fs}, s.stack (.proc p) = .sleep c l pc :: fs → pc.chanSet = true →
    s.chan p = some c

variable {s t u : Kernel n H L C} {h h' : H} {p q : Fin n}

@[simp] theorem thread_of_some (hon : s.on h = some p) : s.thread h = .proc p := by
  simp [thread, hon]

@[simp] theorem thread_of_none (hon : s.on h = none) : s.thread h = .hart h := by
  simp [thread, hon]

@[simp] theorem thread_me (s : Kernel n H L C) (h : H) : (s.thread h).me = s.on h := by
  cases hon : s.on h <;> simp [thread, hon, Thread.me]

theorem thread_eq_proc : s.thread h = .proc p ↔ s.on h = some p := by
  cases hon : s.on h <;> simp [thread, hon]

theorem thread_eq_hart {k : H} : s.thread h = .hart k ↔ s.on h = none ∧ h = k := by
  cases hon : s.on h <;> simp [thread, hon]

theorem thread_congr (hon : u.on h = s.on h) : u.thread h = s.thread h := by
  simp [thread, hon]

theorem Inv.thread_ne (hs : s.Inv) (hne : h' ≠ h) : s.thread h' ≠ s.thread h := by
  cases h₁ : s.on h' with
  | none =>
    cases h₂ : s.on h with
    | none => simpa [h₁, h₂] using hne
    | some p => simp [h₁, h₂]
  | some p =>
    cases h₂ : s.on h with
    | none => simp [h₁, h₂]
    | some q =>
      rw [thread_of_some h₁, thread_of_some h₂]
      rintro heq
      cases heq
      exact hne (hs.unique h₁ h₂)

/-- A hart that holds a lock cannot be interrupted. -/
theorem Inv.noff_pos (hs : s.Inv) {l : Lock n L} (hl : s.cpu l = some h) : s.noff h ≠ 0 := by
  obtain ⟨S, hcard, hS⟩ := hs.locks h
  rw [← hcard]
  exact Finset.card_ne_zero_of_mem ((hS l).mp hl)

variable {fs : List (Frame n L C)}

theorem Inv.own_cons (hs : s.Inv) {f : Frame n L C}
    (hst : s.stack (s.thread h) = f :: fs) (hf : f.sect (s.on h) = some q) :
    s.cpu (.proc q) = some h := hs.own (by rw [hst]; exact hf)

/-- Frames of a scheduler are on the stack of a scheduler. -/
theorem Inv.on_eq_none (hs : s.Inv) {f : Frame n L C}
    (hst : s.stack (s.thread h) = f :: fs) (hf : f.called = false) : s.on h = none := by
  cases hon : s.on h with
  | none => rfl
  | some p =>
    rw [thread_of_some hon] at hst
    have hc := hs.called p f (by rw [hst]; exact List.mem_cons_self)
    rw [hf] at hc
    cases hc

theorem inv_boot (pid : Fin n → ℤ) (killed : Fin n → Bool) :
    (boot pid killed : Kernel n H L C).Inv where
  locks h := ⟨∅, rfl, fun l => by simp [boot]⟩
  unique hon := by cases hon
  proc hon := by cases hon
  own hq := by cases hq
  running hon := by cases hon
  off _ := ⟨.forkret, [], rfl, rfl⟩
  away hon := by cases hon
  resting T f hf := by cases T <;> cases hf
  called p f hf := by simp_all [boot]
  chan hst := by cases hst

section Push
variable [DecidableEq H]

/-- Frames in no section are put on a stack whose frames are in no section. -/
theorem Inv.setStack (hs : s.Inv) (hold : sectOf (s.on h) (s.stack (s.thread h)) = none)
    (hnew : ∀ f ∈ fs, f.sect (s.on h) = none)
    (hcalled : ∀ p, s.on h = some p → ∀ f ∈ fs, f.called = true) :
    (s.setStack (s.thread h) fs).Inv where
  locks := hs.locks
  unique := hs.unique
  proc := hs.proc
  own {k q} hq := by
    by_cases hk : k = h
    · subst hk
      have hq : sectOf (s.on k) ((s.setStack (s.thread k) fs).stack (s.thread k)) = some q := hq
      rw [setStack_stack_self] at hq
      cases fs with
      | nil => cases hq
      | cons f fs =>
        rw [sectOf, hnew f List.mem_cons_self] at hq
        cases hq
    · have hst : (s.setStack (s.thread h) fs).stack (s.thread k) = s.stack (s.thread k) :=
        setStack_stack_of_ne (hs.thread_ne hk)
      exact hs.own (hst ▸ hq)
  running {k p} hp := by
    obtain hrun | ⟨g, gs, hst, hg⟩ := hs.running hp
    · exact .inl hrun
    · refine .inr ⟨g, gs, ?_, hg⟩
      rw [setStack_stack_of_ne, hst]
      intro heq
      have hon := thread_eq_proc.mp heq.symm
      rw [← heq, hst, hon, sectOf, Frame.sect_of_atSched hg] at hold
      cases hold
  off {p} hp := by
    have hne : Thread.proc p ≠ s.thread h := fun heq =>
      hp h (show s.on h = some p from thread_eq_proc.mp heq.symm)
    rw [setStack_stack_of_ne hne]
    exact hs.off hp
  away {k p} hp := by
    obtain ⟨fs', hfs'⟩ := hs.away hp
    refine ⟨fs', ?_⟩
    rw [setStack_stack_of_ne, hfs']
    intro heq
    rw [← heq, hfs'] at hold
    cases hold
  resting T f hf := by
    by_cases hT : T = s.thread h
    · subst hT
      rw [setStack_stack_self] at hf
      rw [thread_me]
      exact hnew f (List.mem_of_mem_tail hf)
    · rw [setStack_stack_of_ne hT] at hf
      exact hs.resting T f hf
  called p f hf := by
    by_cases hT : Thread.proc p = s.thread h
    · rw [hT, setStack_stack_self] at hf
      exact hcalled p (thread_eq_proc.mp hT.symm) f hf
    · rw [setStack_stack_of_ne hT] at hf
      exact hs.called p f hf
  chan {p c l pc fs'} hst hpc := by
    by_cases hT : Thread.proc p = s.thread h
    · rw [hT, setStack_stack_self] at hst
      have hsect := hnew (.sleep c l pc) (by rw [hst]; exact List.mem_cons_self)
      rw [thread_eq_proc.mp hT.symm] at hsect
      cases pc <;> simp [Frame.sect, SleepAt.chanSet] at hpc hsect
    · rw [setStack_stack_of_ne hT] at hst
      exact hs.chan hst hpc

end Push

section Apply
variable [DecidableEq H] [DecidableEq L] [DecidableEq C] {e : Effect n L C}

section
variable (hu : s.apply h e = some u)
include hu

theorem stack_of_apply : u.stack = s.stack := by
  cases e with
  | acquire l | release l | sched p =>
    obtain ⟨-, rfl⟩ := Lib.of_guard hu
    rfl
  | _ => cases hu; rfl

/-- Most effects leave every hart on its stack. -/
theorem on_of_apply :
    (u.on = s.on ∧ (∀ p, e ≠ .sched p) ∧ ∀ k, e = .idle ∧ k = h ∨ u.proc k = s.proc k) ∨
    (∃ p, e = .sched p ∧ s.cpu (.proc p) = some h ∧ u.on = update s.on h none ∧
      u.proc = s.proc ∧ u.cpu = s.cpu) ∨
    ∃ p, e = .dispatch p ∧ u.on = update s.on h (some p) ∧
      u.proc = update s.proc h (some p) ∧ u.cpu = s.cpu := by
  cases e with
  | sched p =>
    obtain ⟨hok, rfl⟩ := Lib.of_guard hu
    exact .inr (.inl ⟨p, rfl, hok.1, rfl, rfl, rfl⟩)
  | dispatch p => cases hu; exact .inr (.inr ⟨p, rfl, rfl, rfl, rfl⟩)
  | acquire l | release l =>
    obtain ⟨-, rfl⟩ := Lib.of_guard hu
    exact .inl ⟨rfl, by simp, fun k => .inr rfl⟩
  | idle =>
    cases hu
    refine .inl ⟨rfl, by simp, fun k => ?_⟩
    by_cases hk : k = h
    · exact .inl ⟨rfl, hk⟩
    · exact .inr (update_of_ne hk ..)
  | _ => cases hu; exact .inl ⟨rfl, by simp, fun k => .inr rfl⟩

theorem on_of_apply_of_ne (hne : h' ≠ h) : u.on h' = s.on h' := by
  obtain ⟨hon, -⟩ | ⟨p, -, -, hon, -⟩ | ⟨p, -, hon, -⟩ := on_of_apply hu
  · rw [hon]
  · rw [hon, update_of_ne hne]
  · rw [hon, update_of_ne hne]

/-- The locks a hart holds are its own. -/
theorem cpu_of_apply_of_ne (hne : h' ≠ h) (l : Lock n L) :
    u.cpu l = some h' ↔ s.cpu l = some h' := by
  cases e with
  | acquire k | release k =>
    obtain ⟨hk, rfl⟩ := Lib.of_guard hu
    by_cases hl : l = k
    · subst hl
      simp [hk, hne.symm]
    · simp only [update_of_ne hl]
  | sched p =>
    obtain ⟨-, rfl⟩ := Lib.of_guard hu
    rfl
  | _ => cases hu; rfl

theorem locks_of_apply
    (hs : ∀ h, ∃ S : Finset (Lock n L), S.card = s.noff h ∧ ∀ l, s.cpu l = some h ↔ l ∈ S) :
    ∀ h, ∃ S : Finset (Lock n L), S.card = u.noff h ∧ ∀ l, u.cpu l = some h ↔ l ∈ S := by
  intro k
  obtain ⟨S, hcard, hS⟩ := hs k
  by_cases hk : k = h
  · subst hk
    cases e with
    | acquire l =>
      obtain ⟨hfree, rfl⟩ := Lib.of_guard hu
      have hmem : l ∉ S := fun hl => by rw [(hS l).mpr hl] at hfree; cases hfree
      refine ⟨insert l S, by simp [hmem, hcard], fun l' => ?_⟩
      by_cases hl : l' = l
      · simp [hl]
      · simp [hl, hS l']
    | release l =>
      obtain ⟨hheld, rfl⟩ := Lib.of_guard hu
      have hmem : l ∈ S := (hS l).mp hheld
      refine ⟨S.erase l, by simp [Finset.card_erase_of_mem hmem, hcard], fun l' => ?_⟩
      by_cases hl : l' = l
      · simp [hl]
      · simp [hl, hS l']
    | sched p =>
      obtain ⟨-, rfl⟩ := Lib.of_guard hu
      exact ⟨S, hcard, hS⟩
    | _ => cases hu; exact ⟨S, hcard, hS⟩
  · have hnoff : u.noff k = s.noff k := by
      cases e with
      | acquire l | release l =>
        obtain ⟨-, rfl⟩ := Lib.of_guard hu
        exact update_of_ne hk ..
      | sched p =>
        obtain ⟨-, rfl⟩ := Lib.of_guard hu
        rfl
      | _ => cases hu; rfl
    exact ⟨S, by rw [hcard, hnoff], fun l => by rw [cpu_of_apply_of_ne hu hk, hS]⟩

theorem chan_of_apply : u.chan = s.chan ∨ ∃ q c, e = .chan q c ∧ u.chan = update s.chan q c := by
  cases e with
  | chan q c => cases hu; exact .inr ⟨q, c, rfl, rfl⟩
  | acquire l | release l | sched q =>
    obtain ⟨-, rfl⟩ := Lib.of_guard hu
    exact .inl rfl
  | _ => cases hu; exact .inl rfl

/-- Only the process itself leaves the state `RUNNING`. -/
theorem running_of_apply (hp : s.state p = .running) :
    u.state p = .running ∨ ∃ st, e = .state p st := by
  cases e with
  | state q st =>
    by_cases hq : p = q
    · exact .inr ⟨st, by rw [hq]⟩
    · cases hu
      exact .inl ((update_of_ne hq ..).trans hp)
  | wake q c | kill q =>
    cases hu
    refine .inl ?_
    by_cases hq : p = q
    · subst hq
      simp [wakeIf, setState, setKilled, hp]
    · exact (update_of_ne hq ..).trans hp
  | dispatch q =>
    cases hu
    refine .inl ?_
    by_cases hq : p = q
    · rw [hq]
      exact update_self ..
    · exact (update_of_ne hq ..).trans hp
  | acquire l | release l | sched q =>
    obtain ⟨-, rfl⟩ := Lib.of_guard hu
    exact .inl hp
  | _ => cases hu; exact .inl hp

end

/-- A hart carries out a line: its top frame `f` with the effect `e`, which leaves `u`, and `gs`
of the frame. -/
structure Turn (s : Kernel n H L C) (h : H) (f : Frame n L C) (fs : List (Frame n L C))
    (e : Effect n L C) (gs : List (Frame n L C)) (u : Kernel n H L C) : Prop where
  stack : s.stack (s.thread h) = f :: fs
  next : f.next s (s.on h) (s.proc h) = some (e, gs)
  line : Line s (s.on h) f e gs
  apply : s.apply h e = some u

theorem turn_of_run (hrun : s.run h = some t) :
    ∃ f fs e gs u, Turn s h f fs e gs u ∧ t = u.setStack (s.thread h) (gs ++ fs) := by
  rw [run] at hrun
  split at hrun
  · cases hrun
  · rename_i f fs hst
    obtain ⟨⟨e, gs⟩, hnext, hrun⟩ := Option.bind_eq_some_iff.mp hrun
    obtain ⟨u, hu, rfl⟩ := Option.map_eq_some_iff.mp hrun
    exact ⟨f, fs, e, gs, u, ⟨hst, hnext, line_of_next hnext, hu⟩, rfl⟩

namespace Turn

variable {f : Frame n L C} {fs gs : List (Frame n L C)}

theorem stack_of_ne (ht : Turn s h f fs e gs u) {T : Thread n H} (hT : T ≠ s.thread h) :
    (u.setStack (s.thread h) (gs ++ fs)).stack T = s.stack T := by
  rw [setStack_stack_of_ne hT, stack_of_apply ht.apply]

/-- The process a hart is about to run is on no hart. -/
theorem dispatch_free (hs : s.Inv) (ht : Turn s h f fs (.dispatch q) gs u) (h' : H) :
    s.on h' ≠ some q := by
  obtain ⟨rfl, hstate, -⟩ := ht.line.fits
  intro hon
  obtain hrun | ⟨g, gs', hst, hg⟩ := hs.running hon
  · rw [hstate] at hrun
    cases hrun
  · have hown : s.cpu (.proc q) = some h' := by
      refine hs.own_cons (by rw [thread_of_some hon]; exact hst) ?_
      rw [Frame.sect_of_atSched hg, hon]
    have heq : h' = h := by
      rw [hs.own_cons ht.stack rfl] at hown
      exact (Option.some.inj hown).symm
    have hnone := hs.on_eq_none ht.stack rfl
    rw [← heq, hon] at hnone
    cases hnone

section Inv
variable (hs : s.Inv) (ht : Turn s h f fs e gs u)
include hs ht

theorem unique {h₁ h₂ : H} (h₁' : u.on h₁ = some p) (h₂' : u.on h₂ = some p) : h₁ = h₂ := by
  obtain ⟨heq, -⟩ | ⟨q, -, -, heq, -⟩ | ⟨q, rfl, heq, -⟩ := on_of_apply ht.apply
  · rw [heq] at h₁' h₂'
    exact hs.unique h₁' h₂'
  · rw [heq, update_apply] at h₁' h₂'
    split at h₁' <;> split at h₂'
    all_goals first | cases h₁' | cases h₂' | exact hs.unique h₁' h₂'
  · have hfree := ht.dispatch_free hs
    rw [heq, update_apply] at h₁' h₂'
    split at h₁' <;> split at h₂'
    · simp_all
    · cases h₁'
      exact absurd h₂' (hfree h₂)
    · cases h₂'
      exact absurd h₁' (hfree h₁)
    · exact hs.unique h₁' h₂'

/-- The top frame of what a line leaves is in the section the line leads to. -/
theorem sectOf_append : sectOf (s.on h) (gs ++ fs) = sectOf (s.on h) gs := by
  cases gs with
  | cons g gs => rfl
  | nil =>
    cases fs with
    | nil => rfl
    | cons g fs =>
      rw [← thread_me]
      exact hs.resting _ g (by rw [ht.stack]; exact List.mem_cons_self)

/-- A hart that stays on its stack holds the lock of the section it is in. -/
theorem own_stay (hsched : ∀ p, e ≠ .sched p)
    (hq : sectOf (s.on h) gs = some q) : u.cpu (.proc q) = some h := by
  have hfits := ht.line.fits
  have hu := ht.apply
  have hkeep : f.sect (s.on h) = some q → s.cpu (.proc q) = some h := hs.own_cons ht.stack
  cases e with
  | skip => cases hu; exact hkeep (hfits ▸ hq)
  | acquire l =>
    obtain ⟨hfree, rfl⟩ := Lib.of_guard hu
    cases l with
    | proc q' =>
      rw [hfits.2] at hq
      cases hq
      exact update_self ..
    | other l => simpa using hkeep (hfits ▸ hq)
  | release l =>
    obtain ⟨-, rfl⟩ := Lib.of_guard hu
    cases l with
    | proc q' =>
      rw [hfits.2] at hq
      cases hq
    | other l => simpa using hkeep (hfits ▸ hq)
  | chan q' c => cases hu; exact hkeep (by rw [hfits.2.1, ← hq, hfits.2.2])
  | state q' st =>
    cases hu
    obtain ⟨hme, hsect, -, g, rfl, hg⟩ := hfits
    rw [sectOf, Frame.sect_of_atSched hg, hme] at hq
    exact hkeep (by rw [hsect, hq])
  | wake q' c => cases hu; exact hkeep (by rw [hfits.1, ← hq, hfits.2])
  | kill q' => cases hu; exact hkeep (by rw [hfits.1, ← hq, hfits.2])
  | sched q' => exact absurd rfl (hsched q')
  | dispatch q' =>
    obtain ⟨rfl, -, rfl⟩ := hfits
    cases hu
    exact hkeep (by rw [← hq]; rfl)
  | idle =>
    obtain ⟨q', rfl, rfl⟩ := hfits
    cases hu
    exact hkeep (by rw [← hq]; rfl)

theorem own {k : H}
    (hq : sectOf (u.on k) ((u.setStack (s.thread h) (gs ++ fs)).stack (u.thread k)) = some q) :
    u.cpu (.proc q) = some k := by
  by_cases hk : k = h
  · subst hk
    obtain ⟨hon, hsched, -⟩ | ⟨q', rfl, hcpu, hon, -, hsame⟩ | ⟨q', rfl, hon, -, hsame⟩ :=
      on_of_apply ht.apply
    · rw [hon, thread_congr (congrFun hon k), setStack_stack_self, ht.sectOf_append hs] at hq
      exact ht.own_stay hs hsched hq
    · obtain ⟨hme, -⟩ := ht.line.fits
      obtain ⟨fs', hfs'⟩ := hs.away (hs.proc hme)
      have hself : u.on k = none := by rw [hon, update_self]
      rw [thread_of_none hself, ht.stack_of_ne (by simp [hme]), hfs'] at hq
      cases hq
      rw [hsame, hcpu]
    · obtain ⟨rfl, -, -⟩ := ht.line.fits
      have hnone := hs.on_eq_none ht.stack rfl
      have hself : u.on k = some q' := by rw [hon, update_self]
      obtain ⟨g, gs', hst, hg⟩ := hs.off (ht.dispatch_free hs)
      rw [thread_of_some hself, ht.stack_of_ne (by simp [hnone]), hst, hself, sectOf,
        Frame.sect_of_off hg] at hq
      cases hq
      rw [hsame]
      exact hs.own_cons ht.stack rfl
  · have hon := on_of_apply_of_ne ht.apply hk
    rw [hon, thread_congr hon, ht.stack_of_ne (hs.thread_ne hk)] at hq
    exact (cpu_of_apply_of_ne ht.apply hk _).mpr (hs.own hq)

theorem proc {k : H} (hp : u.on k = some p) : u.proc k = some p := by
  obtain ⟨hon, -, hproc⟩ | ⟨q, rfl, -, hon, hproc, -⟩ | ⟨q, rfl, hon, hproc, -⟩ :=
    on_of_apply ht.apply
  · rw [hon] at hp
    obtain ⟨rfl, rfl⟩ | heq := hproc k
    · obtain ⟨q, rfl, -⟩ := ht.line.fits
      rw [hs.on_eq_none ht.stack rfl] at hp
      cases hp
    · rw [heq, hs.proc hp]
  · rw [hon, update_apply] at hp
    obtain ⟨-, hp⟩ := Option.ite_none_left_eq_some.mp hp
    rw [hproc, hs.proc hp]
  · rw [hon, update_apply] at hp
    rw [hproc, update_apply]
    split at hp
    · rw [if_pos ‹_›, hp]
    · rw [if_neg ‹_›, hs.proc hp]

/-- A process that a hart is on runs, or is about to call `swtch`. -/
theorem running {k : H} (hp : u.on k = some p) :
    u.state p = .running ∨
      ∃ g gs', (u.setStack (s.thread h) (gs ++ fs)).stack (.proc p) = g :: gs' ∧
        g.atSched = true := by
  by_cases hk : k = h
  · subst hk
    obtain ⟨hon, hsched, -⟩ | ⟨q, rfl, -, hon, -⟩ | ⟨q, rfl, hon, -⟩ := on_of_apply ht.apply
    · rw [hon] at hp
      have hT := thread_of_some hp
      have hrun : s.state p = .running := by
        obtain hrun | ⟨g, gs', hst, hg⟩ := hs.running hp
        · exact hrun
        · have heq := ht.stack
          rw [hT, hst] at heq
          cases heq
          obtain ⟨q, hq⟩ := ht.line.sched hg
          exact absurd hq (hsched q)
      obtain hrun | ⟨st, rfl⟩ := running_of_apply ht.apply hrun
      · exact .inl hrun
      · obtain ⟨-, -, -, g, rfl, hg⟩ := ht.line.fits
        exact .inr ⟨g, fs, by rw [hT, setStack_stack_self]; rfl, hg⟩
    · rw [hon, update_self] at hp
      cases hp
    · rw [hon, update_self] at hp
      cases hp
      have hu := ht.apply
      cases hu
      exact .inl (update_self ..)
  · rw [on_of_apply_of_ne ht.apply hk] at hp
    obtain hrun | ⟨g, gs', hst, hg⟩ := hs.running hp
    · obtain hrun | ⟨st, rfl⟩ := running_of_apply ht.apply hrun
      · exact .inl hrun
      · exact absurd (hs.unique hp ht.line.fits.1) hk
    · refine .inr ⟨g, gs', ?_, hg⟩
      have hne := hs.thread_ne hk
      rw [thread_of_some hp] at hne
      rw [ht.stack_of_ne hne, hst]

theorem off (hp : ∀ k, u.on k ≠ some p) :
    ∃ g gs', (u.setStack (s.thread h) (gs ++ fs)).stack (.proc p) = g :: gs' ∧ g.off = true := by
  by_cases hon : s.on h = some p
  · obtain ⟨heq, -⟩ | ⟨q, rfl, -, heq, -⟩ | ⟨q, rfl, heq, -⟩ := on_of_apply ht.apply
    · exact absurd hon (heq ▸ hp h)
    · obtain ⟨-, -, g, rfl, hg⟩ := ht.line.fits
      exact ⟨g, fs, by rw [thread_of_some hon, setStack_stack_self]; rfl, hg⟩
    · obtain ⟨rfl, -, -⟩ := ht.line.fits
      rw [hs.on_eq_none ht.stack rfl] at hon
      cases hon
  · have hne : Thread.proc p ≠ s.thread h := fun heq => hon (thread_eq_proc.mp heq.symm)
    rw [ht.stack_of_ne hne]
    refine hs.off fun k => ?_
    by_cases hk : k = h
    · rw [hk]
      exact hon
    · rw [← on_of_apply_of_ne ht.apply hk]
      exact hp k

theorem away {k : H} (hp : u.proc k = some p) :
    ∃ fs', (u.setStack (s.thread h) (gs ++ fs)).stack (.hart k) = .scheduler p .back :: fs' := by
  have hstay : s.proc k = some p → s.thread h ≠ .hart k →
      ∃ fs', (u.setStack (s.thread h) (gs ++ fs)).stack (.hart k) = .scheduler p .back :: fs' := by
    intro hproc hne
    obtain ⟨fs', hfs'⟩ := hs.away hproc
    exact ⟨fs', by rw [ht.stack_of_ne hne.symm, hfs']⟩
  obtain ⟨-, -, hproc⟩ | ⟨q, rfl, -, -, hproc, -⟩ | ⟨q, rfl, -, hproc, -⟩ := on_of_apply ht.apply
  · obtain ⟨rfl, rfl⟩ | hsame := hproc k
    · have hu := ht.apply
      cases hu
      simp at hp
    · rw [hsame] at hp
      refine hstay hp fun hT => ?_
      -- a scheduler at that line clears `c->proc`
      obtain ⟨-, rfl⟩ := thread_eq_hart.mp hT
      obtain ⟨fs', hfs'⟩ := hs.away hp
      have heq := ht.stack
      rw [hT, hfs'] at heq
      cases heq
      have hnext := ht.next
      cases hnext
      have hu := ht.apply
      cases hu
      simp [hp] at hsame
  · rw [hproc] at hp
    refine hstay hp ?_
    rw [thread_of_some ht.line.fits.1]
    simp
  · obtain ⟨rfl, -, rfl⟩ := ht.line.fits
    have hT := thread_of_none (hs.on_eq_none ht.stack rfl)
    rw [hproc, update_apply] at hp
    split at hp
    · rename_i hk
      cases hp
      rw [hk, ← hT, setStack_stack_self]
      exact ⟨fs, rfl⟩
    · rename_i hk
      refine hstay hp ?_
      rw [hT]
      exact fun heq => hk (Thread.hart.inj heq).symm

theorem resting (T : Thread n H) :
    ∀ g ∈ ((u.setStack (s.thread h) (gs ++ fs)).stack T).tail, g.sect T.me = none := by
  have hfs : ∀ g ∈ fs, g.sect (s.thread h).me = none := by
    intro g hg
    exact hs.resting (s.thread h) g (by rw [ht.stack]; exact hg)
  by_cases hT : T = s.thread h
  · rw [hT, setStack_stack_self]
    intro g hg
    have hlen := ht.line.length_le
    match gs, hlen with
    | [], _ => exact hfs g (List.mem_of_mem_tail hg)
    | [_], _ => exact hfs g hg
  · rw [ht.stack_of_ne hT]
    exact hs.resting T

theorem called (p : Fin n) :
    ∀ g ∈ (u.setStack (s.thread h) (gs ++ fs)).stack (.proc p), g.called = true := by
  by_cases hT : Thread.proc p = s.thread h
  · have hold := hs.called p
    rw [hT, ht.stack] at hold
    rw [hT, setStack_stack_self]
    intro g hg
    obtain hg | hg := List.mem_append.mp hg
    · exact ht.line.called (hold f List.mem_cons_self) g hg
    · exact hold g (List.mem_cons_of_mem f hg)
  · rw [ht.stack_of_ne hT]
    exact hs.called p

theorem chan {c : C} {l : L} {pc : SleepAt}
    {fs' : List (Frame n L C)}
    (hst : (u.setStack (s.thread h) (gs ++ fs)).stack (.proc p) = .sleep c l pc :: fs')
    (hpc : pc.chanSet = true) : u.chan p = some c := by
  by_cases hT : Thread.proc p = s.thread h
  · rw [hT, setStack_stack_self] at hst
    have hon : s.on h = some p := thread_eq_proc.mp hT.symm
    cases gs with
    | nil =>
      -- a frame that another was put on is in no section
      rw [List.nil_append] at hst
      have hrest := hs.resting (s.thread h) (.sleep c l pc)
        (by rw [ht.stack, hst]; exact List.mem_cons_self)
      rw [thread_me, hon] at hrest
      cases pc <;> simp [Frame.sect, SleepAt.chanSet] at hpc hrest
    | cons g gs =>
      cases hst
      obtain ⟨q, hq, pc', rfl, hchan, -⟩ := ht.line.sleep c l pc gs rfl
      rw [hon] at hq
      cases hq
      obtain rfl | ⟨hpc', hno⟩ := hchan hpc
      · have hu := ht.apply
        cases hu
        exact update_self ..
      · have hold := hs.chan (by rw [hT]; exact ht.stack) hpc'
        obtain heq | ⟨q, d, rfl, -⟩ := chan_of_apply ht.apply
        · rw [heq, hold]
        · exact absurd rfl (hno q d)
  · rw [ht.stack_of_ne hT] at hst
    have hold := hs.chan hst hpc
    obtain heq | ⟨q, d, rfl, heq⟩ := chan_of_apply ht.apply
    · rw [heq, hold]
    · have hne : p ≠ q := by
        rintro rfl
        exact hT (thread_of_some ht.line.fits.1).symm
      rw [heq, update_of_ne hne, hold]

theorem inv : (u.setStack (s.thread h) (gs ++ fs)).Inv where
  locks := locks_of_apply (u := u) ht.apply hs.locks
  unique := ht.unique hs
  proc := ht.proc hs
  own := ht.own hs
  running := ht.running hs
  off := ht.off hs
  away := ht.away hs
  resting := ht.resting hs
  called := ht.called hs
  chan := ht.chan hs

end Inv

end Turn

theorem Inv.step {a : Act n H L C} (hs : s.Inv) (hstep : s.step a = some t) : t.Inv := by
  cases a with
  | run h =>
    obtain ⟨f, fs, e, gs, u, ht, rfl⟩ := turn_of_run hstep
    exact ht.inv hs
  | pick h p =>
    obtain ⟨hok, rfl⟩ := Lib.of_guard hstep
    rw [← thread_of_none hok.1]
    refine hs.setStack ?_ ?_ ?_
    · rw [thread_of_none hok.1, hok.2]
      rfl
    · simp [Frame.sect]
    · intro p hp
      rw [hok.1] at hp
      cases hp
  | call h calls =>
    obtain ⟨hok, rfl⟩ := Lib.of_guard hstep
    -- a hart in a section holds a lock and is not interrupted
    have hold : sectOf (s.on h) (s.stack (s.thread h)) = none := by
      obtain hempty | hnoff := hok
      · rw [hempty]
        rfl
      · cases hsect : sectOf (s.on h) (s.stack (s.thread h)) with
        | none => rfl
        | some q => exact absurd hnoff (hs.noff_pos (hs.own hsect))
    refine hs.setStack hold ?_ ?_
    · intro f hf
      obtain hf | hf := List.mem_append.mp hf
      · obtain ⟨c, -, rfl⟩ := List.mem_map.mp hf
        exact Call.sect_frame c _
      · cases hst : s.stack (s.thread h) with
        | nil => rw [hst] at hf; cases hf
        | cons g gs =>
          rw [hst] at hold hf
          obtain rfl | hf := List.mem_cons.mp hf
          · exact hold
          · rw [← thread_me]
            exact hs.resting _ f (by rw [hst]; exact hf)
    · intro p hp f hf
      obtain hf | hf := List.mem_append.mp hf
      · obtain ⟨c, -, rfl⟩ := List.mem_map.mp hf
        cases c <;> rfl
      · rw [thread_of_some hp] at hf
        exact hs.called p f hf

end Apply

end Kernel

end Xv6.Sleep
