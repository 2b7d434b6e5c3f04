import Xv6.Sleep.Invariant

/-!
# No wakeup is lost

`sleep(chan, lk)` takes the lock of its process before it gives up `lk`, and the process keeps its
lock until it is `SLEEPING` and off its hart. So a `wakeup(chan)` under `lk`, which takes the lock
of every other process in turn, finds a process that has called `sleep(chan, lk)` asleep, and no
process can enter `sleep(chan, lk)` behind its back.
-/

namespace Xv6.Sleep

open Lib
open Function (update_of_ne update_self)

variable {n : ℕ} {H L C : Type*}

namespace Kernel

variable {s t u : Kernel n H L C} {h : H} {p : Fin n} {c : C} {l : L}

/-- A process in a call `sleep(c, l)` that has given up `l` and has not been woken. -/
def Dozes (s : Kernel n H L C) (p : Fin n) (c : C) (l : L) : Prop :=
  ∃ pc fs, s.stack (.proc p) = .sleep c l pc :: fs ∧
    (pc.drowsy = true ∨ pc = .resumed ∧ s.state p = .sleeping)

/-- A process that is `SLEEPING` on `c` from a call `sleep(c, l)`. -/
def SleepsFrom (s : Kernel n H L C) (p : Fin n) (c : C) (l : L) : Prop :=
  s.state p = .sleeping ∧ s.chan p = some c ∧ ∃ pc fs, s.stack (.proc p) = .sleep c l pc :: fs

theorem Inv.dozes (hs : s.Inv) (h : s.SleepsFrom p c l) : s.Dozes p c l := by
  obtain ⟨hstate, -, pc, fs, hst⟩ := h
  refine ⟨pc, fs, hst, ?_⟩
  by_cases hon : ∃ k, s.on k = some p
  · obtain ⟨k, hk⟩ := hon
    obtain hrun | ⟨g, gs, hst', hg⟩ := hs.running hk
    · rw [hstate] at hrun
      cases hrun
    · rw [hst] at hst'
      cases hst'
      refine .inl ?_
      cases pc <;> simp [Frame.atSched] at hg
      rfl
  · obtain ⟨g, gs, hst', hg⟩ := hs.off fun k hk => hon ⟨k, hk⟩
    rw [hst] at hst'
    cases hst'
    refine .inr ⟨?_, hstate⟩
    cases pc <;> simp [Frame.off] at hg
    rfl

/-- A frame of `sleep` that dozes is in the section of its process. -/
theorem sect_of_drowsy {pc : SleepAt} (h : pc.drowsy = true ∨ pc = .resumed)
    (me : Option (Fin n)) : (Frame.sleep c l pc : Frame n L C).sect me = me := by
  cases pc <;> simp [SleepAt.drowsy] at h <;> rfl

/-- The processes a `wakeup` has not yet looked at. -/
def pending (ps : List (Fin n)) : ScanAt → List (Fin n)
  | .head | .test => ps
  | .unlock => ps.tail

/-- The hart `h` is in a call `wakeup(c)` and holds `l`; of the processes the call has passed,
none dozes. -/
structure Scans (s : Kernel n H L C) (h : H) (T : Thread n H) (c : C) (l : L)
    (fs : List (Frame n L C)) (ps : List (Fin n)) (pc : ScanAt) : Prop where
  thread : s.thread h = T
  stack : s.stack T = .wakeup c ps pc :: fs
  held : s.cpu (.other l) = some h
  passed : ∀ p, T ≠ .proc p → p ∉ pending ps pc → ¬ s.Dozes p c l

section Stacks
variable [DecidableEq H] {T : Thread n H} {fs : List (Frame n L C)} {ps : List (Fin n)}
  {pc : ScanAt}

/-- A stack that is set to frames none of which dozes leaves no more processes dozing. -/
theorem Dozes.of_setStack {T' : Thread n H} {gs' : List (Frame n L C)}
    (hnew : ∀ f fs', gs' = f :: fs' → (∃ c l, f = .sleep c l .enter) ∨
      (∀ c l pc, f ≠ .sleep c l pc) ∨ s.stack T' = gs')
    (hd : (s.setStack T' gs').Dozes p c l) : s.Dozes p c l := by
  obtain ⟨pc, fs', hst, hpc⟩ := hd
  by_cases hT : Thread.proc p = T'
  · rw [hT, setStack_stack_self] at hst
    obtain ⟨c', l', heq⟩ | hno | hsame := hnew _ _ hst
    · cases heq
      simp [SleepAt.drowsy] at hpc
    · exact absurd rfl (hno c l pc)
    · exact ⟨pc, fs', by rw [hT, hsame, hst], hpc⟩
  · rw [setStack_stack_of_ne hT] at hst
    exact ⟨pc, fs', hst, hpc⟩

/-- Another hart takes a step. -/
theorem Scans.other (hs : s.Inv) (hscan : s.Scans h T c l fs ps pc) {k : H} (hk : k ≠ h)
    {u : Kernel n H L C} {gs' : List (Frame n L C)} (hon : u.on h = s.on h)
    (hcpu : u.cpu (.other l) = some h) (hstack : u.stack = s.stack)
    (hd : ∀ p, (u.setStack (s.thread k) gs').Dozes p c l → s.Dozes p c l) :
    (u.setStack (s.thread k) gs').Scans h T c l fs ps pc where
  thread := (thread_congr (u := u.setStack (s.thread k) gs') hon).trans hscan.thread
  stack := by
    have hne : T ≠ s.thread k := by
      rw [← hscan.thread]
      exact hs.thread_ne hk.symm
    rw [setStack_stack_of_ne hne, hstack, hscan.stack]
  held := hcpu
  passed p hp hpend hdoze := hscan.passed p hp hpend (hd p hdoze)

end Stacks

section Steps
variable [DecidableEq H] [DecidableEq L] [DecidableEq C] {e : Effect n L C} {f : Frame n L C}
  {fs gs : List (Frame n L C)}

theorem sleeping_of_apply (hu : s.apply h e = some u) (hp : u.state p = .sleeping) :
    s.state p = .sleeping ∨ ∃ st, e = .state p st := by
  cases e with
  | state q st =>
    by_cases hq : p = q
    · exact .inr ⟨st, by rw [hq]⟩
    · cases hu
      exact .inl ((update_of_ne hq ..).symm.trans hp)
  | wake q c | kill q =>
    cases hu
    refine .inl ?_
    by_cases hq : p = q
    · subst hq
      simp only [wakeIf, setState, update_self] at hp
      split at hp
      · cases hp
      · exact hp
    · exact (update_of_ne hq ..).symm.trans hp
  | dispatch q =>
    cases hu
    refine .inl ?_
    by_cases hq : p = q
    · subst hq
      simp [setState] at hp
    · exact (update_of_ne hq ..).symm.trans hp
  | acquire l | release l | sched q =>
    obtain ⟨-, rfl⟩ := Lib.of_guard hu
    exact .inl hp
  | _ => cases hu; exact .inl hp

/-- Unless it gives up `l`, a line makes no process doze. -/
theorem Turn.dozes (hs : s.Inv) (ht : Turn s h f fs e gs u) (he : e ≠ .release (.other l))
    (hd : (u.setStack (s.thread h) (gs ++ fs)).Dozes p c l) : s.Dozes p c l := by
  obtain ⟨pc, fs', hst, hpc⟩ := hd
  by_cases hT : Thread.proc p = s.thread h
  · have hon : s.on h = some p := thread_eq_proc.mp hT.symm
    have hpc' : pc.drowsy = true ∨ pc = .resumed := hpc.imp_right And.left
    rw [hT, setStack_stack_self] at hst
    cases gs with
    | nil =>
      rw [List.nil_append] at hst
      have hrest := hs.resting (s.thread h) (.sleep c l pc)
        (by rw [ht.stack, hst]; exact List.mem_cons_self)
      rw [thread_me, hon, sect_of_drowsy hpc'] at hrest
      cases hrest
    | cons g gs =>
      cases hst
      obtain ⟨q, -, pc', rfl, -, hfrom⟩ := ht.line.sleep c l pc gs rfl
      refine ⟨pc', fs, by rw [hT]; exact ht.stack, .inl ?_⟩
      exact (hfrom hpc').resolve_right he
  · rw [ht.stack_of_ne hT] at hst
    refine ⟨pc, fs', hst, hpc.imp_right fun hres => ⟨hres.1, ?_⟩⟩
    obtain hp | ⟨st, rfl⟩ := sleeping_of_apply ht.apply hres.2
    · exact hp
    · exact absurd (thread_of_some ht.line.fits.1).symm hT

variable {T : Thread n H} {ps : List (Fin n)} {pc : ScanAt}

/-- The hart in `wakeup` carries out a line that touches no more than the locks of processes and
the state of the process at hand. -/
theorem Scans.own (hs : s.Inv) (hscan : s.Scans h T c l fs ps pc) {ps' : List (Fin n)}
    {pc' : ScanAt} (ht : Turn s h f fs e gs u) (hon : u.on = s.on)
    (hcpu : u.cpu (.other l) = s.cpu (.other l)) (he : e ≠ .release (.other l))
    (hgs : gs = [.wakeup c ps' pc'])
    (hnew : ∀ p, T ≠ .proc p → p ∉ pending ps' pc' → p ∈ pending ps pc →
      ¬ (u.setStack (s.thread h) (gs ++ fs)).Dozes p c l) :
    (u.setStack (s.thread h) (gs ++ fs)).Scans h T c l fs ps' pc' where
  thread := (thread_congr (u := u.setStack (s.thread h) (gs ++ fs)) (congrFun hon h)).trans
    hscan.thread
  stack := by
    rw [← hscan.thread, setStack_stack_self, hgs]
    rfl
  held := hcpu.trans hscan.held
  passed p hp hpend hdoze := by
    by_cases hold : p ∈ pending ps pc
    · exact hnew p hp hpend hold hdoze
    · exact hscan.passed p hp hold (ht.dozes hs he hdoze)

/-- The line at which `wakeup` looks at a process leaves it awake. The process keeps its own lock
as long as it is on a hart and dozes, so it has called `swtch`. -/
theorem Scans.not_dozes_test (hs : s.Inv) {q : Fin n} (hscan : s.Scans h T c l fs (q :: ps) .test)
    (hT : T ≠ .proc q) (ht : Turn s h f fs (.wake q c) gs u) :
    ¬ (u.setStack (s.thread h) (gs ++ fs)).Dozes q c l := by
  rintro ⟨pc, fs', hst, hpc⟩
  have hown : s.cpu (.proc q) = some h := by
    refine hs.own ?_
    rw [hscan.thread, hscan.stack]
    rfl
  rw [ht.stack_of_ne (by rw [hscan.thread]; exact hT.symm)] at hst
  have hu := ht.apply
  cases hu
  obtain hdrowsy | ⟨rfl, hstate⟩ := hpc
  · have hon : ∃ k, s.on k = some q := by
      by_contra hno
      obtain ⟨g, gs', hst', hg⟩ := hs.off fun k hk => hno ⟨k, hk⟩
      rw [hst] at hst'
      cases hst'
      cases pc <;> simp [SleepAt.drowsy, Frame.off] at hdrowsy hg
    obtain ⟨k, hk⟩ := hon
    have hown' : s.cpu (.proc q) = some k := by
      refine hs.own ?_
      rw [thread_of_some hk, hst, sectOf, sect_of_drowsy (.inl hdrowsy), hk]
    rw [hown] at hown'
    cases hown'
    rw [← hscan.thread, thread_of_some hk] at hT
    exact hT rfl
  · have hchan : s.chan q = some c := hs.chan hst rfl
    have hstate : (s.wakeIf q (s.state q = .sleeping ∧ s.chan q = some c)).state q = .sleeping :=
      hstate
    simp only [wakeIf, setState, update_self, hchan, and_true, decide_eq_true_eq] at hstate
    split at hstate
    · cases hstate
    · exact absurd hstate ‹_›

/-- The hart in `wakeup` goes on: it is still in the call, or it has returned. -/
theorem Scans.run_self (hs : s.Inv) (hscan : s.Scans h T c l fs ps pc) (hrun : s.run h = some t) :
    (∃ ps' pc', t.Scans h T c l fs ps' pc') ∨
      t.stack T = fs ∧ ∀ p, T ≠ .proc p → ¬ t.Dozes p c l := by
  obtain ⟨f, fs₁, e, gs, u, ht, rfl⟩ := turn_of_run hrun
  have hst := ht.stack
  rw [hscan.thread, hscan.stack] at hst
  cases hst
  have hnext := ht.next
  cases ps with
  | nil =>
    cases hnext
    have hu := ht.apply
    cases hu
    refine .inr ⟨by rw [← hscan.thread, setStack_stack_self]; rfl, fun p hp hd => ?_⟩
    refine hscan.passed p hp ?_ (ht.dozes hs (by simp) hd)
    cases pc <;> simp [pending]
  | cons q ps =>
    refine .inl ?_
    cases pc with
    | head =>
      simp only [Frame.next] at hnext
      split at hnext
      · rename_i hme
        cases hnext
        have hu := ht.apply
        cases hu
        refine ⟨ps, .head, hscan.own hs ht rfl rfl (by simp) rfl ?_⟩
        -- the process passed over is the one that calls `wakeup`
        intro p hp hnot hmem
        obtain rfl := (List.mem_cons.mp hmem).resolve_right hnot
        cases hon : s.on h with
        | some q' =>
          rw [hs.proc hon] at hme
          cases hme
          rw [← hscan.thread, thread_of_some hon] at hp
          exact absurd rfl hp
        | none =>
          obtain ⟨fs', hfs'⟩ := hs.away hme.symm
          have hst := hscan.stack
          rw [← hscan.thread, thread_of_none hon, hfs'] at hst
          cases hst
      · cases hnext
        have hu := ht.apply
        obtain ⟨-, rfl⟩ := Lib.of_guard hu
        refine ⟨q :: ps, .test, hscan.own hs ht rfl (by simp) (by simp) rfl ?_⟩
        exact fun p _ hnot hmem => absurd hmem hnot
    | test =>
      cases hnext
      have hu := ht.apply
      cases hu
      refine ⟨q :: ps, .unlock, hscan.own hs ht rfl rfl (by simp) rfl ?_⟩
      intro p hp hnot hmem
      obtain rfl := (List.mem_cons.mp hmem).resolve_right hnot
      exact hscan.not_dozes_test hs hp ht
    | unlock =>
      cases hnext
      have hu := ht.apply
      obtain ⟨-, rfl⟩ := Lib.of_guard hu
      refine ⟨ps, .head, hscan.own hs ht rfl (by simp) (by simp) rfl ?_⟩
      exact fun p _ hnot hmem => absurd hmem hnot

/-- A step of any hart while the hart `h` is in `wakeup` and holds `l`. -/
theorem Scans.step (hs : s.Inv) (hscan : s.Scans h T c l fs ps pc) {a : Act n H L C}
    (hstep : s.step a = some t) :
    (∃ ps' pc', t.Scans h T c l fs ps' pc') ∨
      t.stack T = fs ∧ ∀ p, T ≠ .proc p → ¬ t.Dozes p c l := by
  cases a with
  | run k =>
    by_cases hk : k = h
    · subst hk
      exact hscan.run_self hs hstep
    · obtain ⟨f, fs₁, e, gs, u, ht, rfl⟩ := turn_of_run hstep
      have hcpu := (cpu_of_apply_of_ne ht.apply (Ne.symm hk) _).mpr hscan.held
      have he : e ≠ .release (.other l) := by
        rintro rfl
        have hu := ht.apply
        simp only [Kernel.apply, hscan.held, Option.some.injEq, Ne.symm hk, if_false] at hu
        cases hu
      exact .inl ⟨ps, pc, hscan.other hs hk (on_of_apply_of_ne ht.apply (Ne.symm hk)) hcpu
        (stack_of_apply ht.apply) fun p => ht.dozes hs he⟩
  | pick k q =>
    obtain ⟨hidle, rfl⟩ := Lib.of_guard hstep
    have hT := thread_of_none hidle.1
    have hk : k ≠ h := by
      rintro rfl
      have hst := hscan.stack
      rw [← hscan.thread, hT, hidle.2] at hst
      cases hst
    rw [← hT]
    refine .inl ⟨ps, pc, hscan.other hs hk rfl hscan.held rfl fun p => .of_setStack ?_⟩
    rintro f fs' heq
    cases heq
    exact .inr (.inl (by simp))
  | call k calls =>
    obtain ⟨hok, rfl⟩ := Lib.of_guard hstep
    have hk : k ≠ h := by
      rintro rfl
      rw [hscan.thread, hscan.stack] at hok
      exact hs.noff_pos hscan.held (hok.resolve_left (by simp))
    refine .inl ⟨ps, pc, hscan.other hs hk rfl hscan.held rfl fun p => .of_setStack ?_⟩
    intro f fs' heq
    cases calls with
    | nil => exact .inr (.inr rfl)
    | cons a calls =>
      cases heq
      cases a with
      | sleep chan lk => exact .inl ⟨chan, lk, rfl⟩
      | _ => exact .inr (.inl (by simp [Call.frame]))

/-- The frames `fs` are left on the stack `T` for the first time. -/
def Returns (s : Kernel n H L C) (T : Thread n H) (fs : List (Frame n L C))
    (as : List (Act n H L C)) (t : Kernel n H L C) : Prop :=
  exec step s as = some t ∧ t.stack T = fs ∧
    ∀ bs u, bs <+: as → bs ≠ as → exec step s bs = some u → u.stack T ≠ fs

theorem inv_of_exec {pid : Fin n → ℤ} {killed : Fin n → Bool} {as : List (Act n H L C)}
    (hs : exec step (boot pid killed) as = some s) : s.Inv :=
  Visits.induction (inv_boot pid killed) (fun _ _ _ _ hstep hs => hs.step hstep) (Visits.last hs)

/-- **No wakeup is lost.** Let a hart call `wakeup(c)` while it holds the lock `l`, in any state
the kernel can be in. When that call returns, whatever all harts have done in the meantime, no
process but the caller is `SLEEPING` on `c` from a call of `sleep(c, l)`, at whatever line of it
the process was when `wakeup` was called. -/
theorem not_sleepsFrom_of_wakeup {pid : Fin n → ℤ} {killed : Fin n → Bool}
    {as bs : List (Act n H L C)} (hs : exec step (boot pid killed) as = some s)
    (hcall : s.stack (s.thread h) = .wakeup c (List.finRange n) .head :: fs)
    (hheld : s.cpu (.other l) = some h) (hret : s.Returns (s.thread h) fs bs t)
    (hp : s.thread h ≠ .proc p) : ¬ t.SleepsFrom p c l := by
  have hinv := inv_of_exec hs
  obtain ⟨hexec, hend, hfirst⟩ := hret
  have hstart : s.Scans h (s.thread h) c l fs (List.finRange n) .head :=
    ⟨rfl, hcall, hheld, fun q _ hq => absurd (List.mem_finRange q) hq⟩
  -- up to the return the hart is in the call
  have hscan : ∀ ds u, ds <+: bs → ds ≠ bs → exec step s ds = some u →
      u.Inv ∧ ∃ ps pc, u.Scans h (s.thread h) c l fs ps pc := by
    intro ds
    induction ds using List.reverseRecOn with
    | nil =>
      intro u _ _ hu
      cases hu
      exact ⟨hinv, _, _, hstart⟩
    | append_singleton ds a ih =>
      intro u hds hne hu
      obtain ⟨v, hv, hstep⟩ := exec_concat.mp hu
      have hds' : ds <+: bs := (List.prefix_append ds [a]).trans hds
      have hne' : ds ≠ bs := by
        rintro rfl
        simpa using hds.length_le
      obtain ⟨hvinv, ps, pc, hvscan⟩ := ih v hds' hne' hv
      refine ⟨hvinv.step hstep, (hvscan.step hvinv hstep).resolve_right fun hdone => ?_⟩
      exact hfirst _ u hds hne hu hdone.1
  cases bs using List.reverseRecOn with
  | nil =>
    cases hexec
    rw [hcall] at hend
    simpa using congrArg List.length hend
  | append_singleton bs a =>
    obtain ⟨v, hv, hstep⟩ := exec_concat.mp hexec
    obtain ⟨hvinv, ps, pc, hvscan⟩ :=
      hscan bs v (List.prefix_append bs [a]) (by simp) hv
    obtain ⟨ps', pc', hstill⟩ | ⟨-, hdone⟩ := hvscan.step hvinv hstep
    · have hst := hstill.stack
      rw [hend] at hst
      simpa using congrArg List.length hst
    · exact fun hsleep => hdone p hp ((hvinv.step hstep).dozes hsleep)

end Steps

/-- Process 0 goes to sleep on hart 0, and process 1 on hart 1 takes the lock and calls
`wakeup`. -/
def sleepRun : List (Act 2 (Fin 2) Unit Unit) :=
  [.pick 0 0, .run 0, .run 0, .run 0, .call 0 [.lock (), .sleep () ()]] ++
    List.replicate 8 (.run 0) ++
    [.pick 1 1, .run 1, .run 1, .run 1, .call 1 [.lock (), .wakeup ()], .run 1]

/-- The call of `wakeup`. -/
def wakeupRun : List (Act 2 (Fin 2) Unit Unit) := List.replicate 5 (.run 1)

theorem not_sleepsFrom_wakeupRun :
    ∃ s t, exec step (boot (fun _ => 0) fun _ => false) sleepRun = some s ∧ s.SleepsFrom 0 () () ∧
      exec step s wakeupRun = some t ∧ ¬ t.SleepsFrom 0 () () := by
  have hrun : (exec step (boot (fun _ => 0) fun _ => false) sleepRun).any (fun s =>
      (s.state 0 = .sleeping ∧ s.chan 0 = some () ∧
        s.stack (.proc 0) = [.sleep () () .resumed]) ∧
      s.thread 1 = .proc 1 ∧
      s.stack (.proc 1) = [.wakeup () (List.finRange 2) .head] ∧ s.cpu (.other ()) = some 1 ∧
      (exec step s wakeupRun).any (fun t => t.stack (.proc 1) = []) ∧
      ∀ bs ∈ wakeupRun.inits, bs ≠ wakeupRun →
        (exec step s bs).all fun u => u.stack (.proc 1) ≠ []) = true := by
    decide +kernel
  obtain ⟨s, hs, hfacts⟩ := (Option.any_eq_true _ _).mp hrun
  simp only [decide_eq_true_eq] at hfacts
  obtain ⟨⟨hstate, hchan, hstack⟩, hT, hcall, hheld, hend, hfirst⟩ := hfacts
  obtain ⟨t, ht, hdone⟩ := (Option.any_eq_true _ _).mp hend
  refine ⟨s, t, hs, ⟨hstate, hchan, .resumed, [], hstack⟩, ht, ?_⟩
  refine not_sleepsFrom_of_wakeup hs (by rw [hT]; exact hcall) hheld
    ⟨ht, by rw [hT]; exact of_decide_eq_true hdone, ?_⟩ (by rw [hT]; decide)
  intro bs u hbs hne hu
  have hall := hfirst bs (List.mem_inits _ _ |>.mpr hbs) hne
  rw [hu, Option.all_some] at hall
  rw [hT]
  exact of_decide_eq_true hall

end Kernel

end Xv6.Sleep
