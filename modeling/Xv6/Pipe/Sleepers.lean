import Xv6.Pipe.Model
import Mathlib.Data.Fintype.Card

/-!
# Who sleeps at a pipe

A reader should sleep only on an empty pipe that still has a writer, and a writer only on a full
one that still has a reader. Every way out of `pipewrite` and `piperead` wakes the other side
for what it has changed, except one: `pipewrite` of a process that is killed between two turns
of its loop returns at once, without the `wakeup` for the bytes it has stored.
-/

namespace Xv6.Pipes

open Lib

/-- At the head of the loop of `pipewrite`, with bytes left to store. -/
def Stage.storing : Stage → Bool
  | .writing i n => i < n
  | _ => false

namespace PipeSys

variable {P : Type*}

attribute [local simp] Stage.chan

/-- Some process sleeps on the channel. -/
def SleepsOn (s : PipeSys P) (chan : Chan) : Prop := ∃ q, (s.stage q).chan = some chan

instance [Fintype P] (s : PipeSys P) (chan : Chan) : Decidable (s.SleepsOn chan) :=
  inferInstanceAs (Decidable (∃ _, _))

/-- Readers sleep for a reason. -/
def ReadersWait (s : PipeSys P) : Prop :=
  s.SleepsOn .nread → s.pipe.empty ∧ s.pipe.writeopen = true

/-- Writers sleep for a reason. -/
def WritersWait (s : PipeSys P) : Prop :=
  s.SleepsOn .nwrite → s.pipe.full ∧ s.pipe.readopen = true

/-- No process sleeps without a reason while `pi->lock` is free. -/
def NoneStranded (s : PipeSys P) : Prop := s.holder = none → s.ReadersWait ∧ s.WritersWait

/-- The condition on a step: if a writer finds itself killed while a reader sleeps, then the pipe
is empty. -/
def EmptyWhenKilled (s : PipeSys P) : PipeAct P → Prop
  | .run pr _ =>
    (s.stage pr).storing = true → s.killed pr = true → s.SleepsOn .nread → s.pipe.empty
  | _ => True

instance [Fintype P] (s : PipeSys P) : (a : PipeAct P) → Decidable (s.EmptyWhenKilled a)
  | .run .. => inferInstanceAs (Decidable (_ → _ → _ → _))
  | .write .. | .read .. | .close .. | .kill _ => instDecidableTrue

/-! ## Who sleeps after a step -/

section Sleeps
variable [DecidableEq P] {s : PipeSys P} {pr : P} {c d : Chan} {st : Stage}

/-- A process that goes elsewhere leaves the others asleep, and no more than those. -/
theorem SleepsOn.of_goto (hst : st.chan ≠ some c) (h : (s.goto pr st).SleepsOn c) :
    s.SleepsOn c := by
  obtain ⟨q, hq⟩ := h
  by_cases heq : q = pr
  · rw [heq, goto_stage_self] at hq
    exact absurd hq hst
  · rw [goto_stage_of_ne heq] at hq
    exact ⟨q, hq⟩

theorem SleepsOn.goto (hpr : (s.stage pr).chan ≠ some c) (h : s.SleepsOn c) :
    (s.goto pr st).SleepsOn c := by
  obtain ⟨q, hq⟩ := h
  have hne : q ≠ pr := fun heq => hpr (heq ▸ hq)
  exact ⟨q, by rw [goto_stage_of_ne hne]; exact hq⟩

theorem SleepsOn.of_wakeup (h : (s.wakeup pr d).SleepsOn c) : s.SleepsOn c := by
  obtain ⟨q, hq⟩ := h
  refine ⟨q, ?_⟩
  simp only [wakeup] at hq
  split at hq
  · cases hst : s.stage q <;> rw [hst] at hq <;> simp [Stage.wake] at hq
  · exact hq

theorem not_sleepsOn_wakeup (hpr : (s.stage pr).chan = none) : ¬ (s.wakeup pr c).SleepsOn c := by
  rintro ⟨q, hq⟩
  simp only [wakeup] at hq
  split at hq
  · cases hst : s.stage q <;> rw [hst] at hq <;> simp [Stage.wake] at hq
  · rename_i hnot
    refine hnot ⟨?_, hq⟩
    rintro rfl
    rw [hpr] at hq
    cases hq

theorem ReadersWait.goto (hst : st.chan ≠ some .nread) (h : s.ReadersWait) :
    (s.goto pr st).ReadersWait := fun hsl => h (hsl.of_goto hst)

theorem WritersWait.goto (hst : st.chan ≠ some .nwrite) (h : s.WritersWait) :
    (s.goto pr st).WritersWait := fun hsl => h (hsl.of_goto hst)

theorem WritersWait.wakeup (h : s.WritersWait) : (s.wakeup pr c).WritersWait :=
  fun hsl => h hsl.of_wakeup

end Sleeps

/-! ## The invariant -/

/-- What the holder of the lock has kept, by where it is. -/
def Inside (s : PipeSys P) : Stage → Prop
  | .writing .. =>
    s.WritersWait ∧
      (s.SleepsOn .nread → s.pipe.writeopen = true ∧ (s.pipe.empty ∨ s.pipe.readopen = true))
  | .written _ => s.WritersWait
  | .waiting _ => s.ReadersWait ∧ s.WritersWait
  | .reading .. | .finished _ => ¬ s.SleepsOn .nread
  | _ => True

/-- No process but `pr` is in a section that `pi->lock` protects. -/
def Alone (s : PipeSys P) (pr : P) : Prop := ∀ q, q ≠ pr → (s.stage q).locked = false

/-- The invariant: who is in a locked section holds the lock and has kept its share. -/
structure Ok (s : PipeSys P) : Prop where
  held : ∀ q, (s.stage q).locked = true → s.holder = some q
  free : s.NoneStranded
  inside : ∀ q, (s.stage q).locked = true → s.Inside (s.stage q)

variable {s t : PipeSys P} {pr : P}

theorem ok_boot (data : Fin PIPESIZE → UInt8) (killed : P → Bool) : (boot data killed).Ok := by
  refine ⟨fun q hq => ?_, fun _ => ⟨?_, ?_⟩, fun q hq => ?_⟩
  · cases hq
  · rintro ⟨q, hq⟩
    cases hq
  · rintro ⟨q, hq⟩
    cases hq
  · cases hq

theorem Ok.alone (hs : s.Ok) (hpr : (s.stage pr).locked = true) : s.Alone pr := by
  intro q hne
  by_contra hq
  have hq := hs.held q (Bool.eq_true_of_not_eq_false hq)
  rw [hs.held pr hpr] at hq
  exact hne (Option.some.inj hq).symm

/-- The holder goes on to a place in the locked section. -/
theorem Alone.ok_of_inside (h : t.Alone pr) (hholder : t.holder = some pr)
    (hin : t.Inside (t.stage pr)) : t.Ok := by
  have hlocked : ∀ q, (t.stage q).locked = true → q = pr := by
    intro q hq
    by_contra hne
    rw [h q hne] at hq
    cases hq
  refine ⟨fun q hq => by rw [hlocked q hq, hholder], fun hfree => ?_, fun q hq => ?_⟩
  · rw [hholder] at hfree
    cases hfree
  · rw [hlocked q hq]
    exact hin

/-- The lock is free and everyone sleeps for a reason. -/
theorem Alone.ok_of_free (h : t.Alone pr) (hpr : (t.stage pr).locked = false)
    (hr : t.ReadersWait) (hw : t.WritersWait) : t.Ok := by
  have hnone : ∀ q, (t.stage q).locked = false := by
    intro q
    by_cases hq : q = pr
    · rw [hq, hpr]
    · exact h q hq
  refine ⟨fun q hq => ?_, fun _ => ⟨hr, hw⟩, fun q hq => ?_⟩
  all_goals
    rw [hnone q] at hq
    cases hq

/-- A step that touches neither the pipe nor its lock, and after which no more processes sleep. -/
theorem Ok.of_stages (hs : s.Ok) (hpipe : t.pipe = s.pipe) (hholder : t.holder = s.holder)
    (hsleep : ∀ c, t.SleepsOn c → s.SleepsOn c)
    (hst : ∀ q, (t.stage q).locked = true → t.stage q = s.stage q) : t.Ok := by
  have hr : s.ReadersWait → t.ReadersWait := fun h hsl => hpipe ▸ h (hsleep _ hsl)
  have hw : s.WritersWait → t.WritersWait := fun h hsl => hpipe ▸ h (hsleep _ hsl)
  refine ⟨fun q hq => ?_, fun hfree => ?_, fun q hq => ?_⟩
  · rw [hholder]
    exact hs.held q (hst q hq ▸ hq)
  · obtain ⟨h₁, h₂⟩ := hs.free (hholder ▸ hfree)
    exact ⟨hr h₁, hw h₂⟩
  · have hin := hs.inside q (hst q hq ▸ hq)
    rw [hst q hq]
    cases hq' : s.stage q with
    | writing i n =>
      rw [hq'] at hin
      exact ⟨hw hin.1, fun hsl => hpipe ▸ hin.2 (hsleep _ hsl)⟩
    | written i => rw [hq'] at hin; exact hw hin
    | waiting n => rw [hq'] at hin; exact ⟨hr hin.1, hw hin.2⟩
    | reading i n => rw [hq'] at hin; exact fun hsl => hin (hsleep _ hsl)
    | finished i => rw [hq'] at hin; exact fun hsl => hin (hsleep _ hsl)
    | out ret => trivial
    | acquiring call => trivial
    | sleeping chan call => trivial

/-! ## Steps -/

section Steps
variable [DecidableEq P] {st : Stage}

theorem Alone.goto (h : s.Alone pr) : (s.goto pr st).Alone pr := by
  intro q hne
  rw [goto_stage_of_ne hne]
  exact h q hne

theorem Alone.wakeup {c : Chan} (h : s.Alone pr) : (s.wakeup pr c).Alone pr := by
  intro q hne
  have hq := h q hne
  simp only [PipeSys.wakeup]
  split
  · cases hst : s.stage q <;> simp_all [Stage.wake, Stage.locked]
  · exact hq

section
variable (hs : s.Ok)
include hs

theorem Ok.begin {call : Call} (h : s.begin pr call = some t) : t.Ok := by
  rw [PipeSys.begin] at h
  split at h
  · cases h
    refine hs.of_stages rfl rfl (fun c => SleepsOn.of_goto (by simp)) ?_
    intro q hq
    by_cases heq : q = pr
    · rw [heq, goto_stage_self] at hq
      cases hq
    · exact goto_stage_of_ne heq
  · cases h

theorem Ok.kill (pid : P) : (s.kill pid).Ok := by
  have hwake : ∀ c, (s.stage pid).wake.chan ≠ some c := by
    intro c
    cases s.stage pid <;> simp [Stage.wake]
  refine hs.of_stages rfl rfl (fun c => SleepsOn.of_goto (hwake c)) ?_
  intro q hq
  by_cases heq : q = pid
  · subst heq
    rw [PipeSys.kill, goto_stage_self] at hq ⊢
    cases hst : s.stage q <;> rw [hst] at hq <;> first | rfl | cases hq
  · exact goto_stage_of_ne heq

theorem Ok.acquire {call : Call} (hst : s.stage pr = .acquiring call)
    (hfree : s.holder = none) : ({ s with holder := some pr }.goto pr call.resume).Ok := by
  obtain ⟨hr, hw⟩ := hs.free hfree
  have halone : s.Alone pr := by
    intro q _
    by_contra hq
    have hheld := hs.held q (Bool.eq_true_of_not_eq_false hq)
    rw [hfree] at hheld
    cases hheld
  refine (Alone.goto (s := { s with holder := some pr }) halone).ok_of_inside rfl ?_
  rw [goto_stage_self]
  have hr' : ({ s with holder := some pr }.goto pr call.resume).ReadersWait :=
    ReadersWait.goto (by cases call <;> simp [Call.resume]) hr
  have hw' : ({ s with holder := some pr }.goto pr call.resume).WritersWait :=
    WritersWait.goto (by cases call <;> simp [Call.resume]) hw
  cases call with
  | write i n =>
    refine ⟨hw', fun hsl => ?_⟩
    obtain ⟨hempty, hopen⟩ := hr' hsl
    exact ⟨hopen, .inl hempty⟩
  | read n => exact ⟨hr', hw'⟩

/-- A turn of `pipewrite`, unless it is the one that leaves bytes unannounced. -/
theorem Ok.pipewrite {i n : ℤ} (hst : s.stage pr = .writing i n)
    (hkilled : i < n → s.killed pr = true → s.SleepsOn .nread → s.pipe.empty)
    (copyin : Option UInt8) : (s.pipewrite pr i n copyin).Ok := by
  have hlocked : (s.stage pr).locked = true := by rw [hst]; rfl
  have halone := hs.alone hlocked
  have hholder := hs.held pr hlocked
  have hin := hs.inside pr hlocked
  rw [hst] at hin
  obtain ⟨hw, hr⟩ := hin
  have hwritten : (s.goto pr (.written i)).Ok := by
    refine halone.goto.ok_of_inside hholder ?_
    rw [goto_stage_self]
    exact hw.goto (by simp)
  unfold PipeSys.pipewrite
  split
  · rename_i hlt
    split
    · rename_i hexit
      refine (Alone.goto (s := s.release) halone).ok_of_free (by rw [goto_stage_self]; rfl) ?_ ?_
      · refine ReadersWait.goto (by simp) fun hsl => ?_
        obtain ⟨hopen, hor⟩ := hr hsl
        refine ⟨?_, hopen⟩
        cases hexit with
        | inl hclosed => exact hor.resolve_right (by simp [hclosed])
        | inr hk => exact hkilled hlt hk hsl
      · exact WritersWait.goto (s := s.release) (by simp) hw
    · rename_i hstay
      have hopen : s.pipe.readopen = true := by
        simpa using fun hclosed => hstay (.inl hclosed)
      split
      · rename_i hfull
        refine (Alone.goto (s := (s.wakeup pr .nread).release) halone.wakeup).ok_of_free
          (by rw [goto_stage_self]; rfl) ?_ ?_
        · refine ReadersWait.goto (by simp) fun hsl => ?_
          exact absurd hsl (not_sleepsOn_wakeup (by rw [hst]; rfl))
        · exact fun _ => ⟨hfull, hopen⟩
      · rename_i hfull
        split
        · exact hwritten
        · rename_i ch
          have hquiet : ¬ s.SleepsOn .nwrite := fun hsl => hfull (hw hsl).1
          refine (Alone.goto (s := s.put ch) halone).ok_of_inside hholder ?_
          rw [goto_stage_self]
          refine ⟨fun hsl => ?_, fun hsl => ?_⟩
          · exact absurd (SleepsOn.of_goto (s := s.put ch) (by simp) hsl) hquiet
          · have hsl' := SleepsOn.of_goto (s := s.put ch) (by simp) hsl
            exact ⟨(hr hsl').1, .inr hopen⟩
  · exact hwritten

/-- The end of `pipewrite`, with its `wakeup`. -/
theorem Ok.written {i : ℤ} (hst : s.stage pr = .written i) :
    ((s.wakeup pr .nread).release.goto pr (.out i)).Ok := by
  have hlocked : (s.stage pr).locked = true := by rw [hst]; rfl
  have hw := hs.inside pr hlocked
  rw [hst] at hw
  refine (Alone.goto (s := (s.wakeup pr .nread).release) (hs.alone hlocked).wakeup).ok_of_free
    (by rw [goto_stage_self]; rfl) ?_ ?_
  · refine ReadersWait.goto (by simp) fun hsl => ?_
    exact absurd hsl (not_sleepsOn_wakeup (by rw [hst]; rfl))
  · exact WritersWait.goto (s := (s.wakeup pr .nread).release) (by simp)
      (WritersWait.wakeup hw)

theorem Ok.pipereadWait {n : ℤ} (hst : s.stage pr = .waiting n) : (s.pipereadWait pr n).Ok := by
  have hlocked : (s.stage pr).locked = true := by rw [hst]; rfl
  have halone := hs.alone hlocked
  have hin := hs.inside pr hlocked
  rw [hst] at hin
  obtain ⟨hr, hw⟩ := hin
  rw [PipeSys.pipereadWait]
  split
  · rename_i hwait
    split
    · exact (Alone.goto (s := s.release) halone).ok_of_free (by rw [goto_stage_self]; rfl)
        (ReadersWait.goto (s := s.release) (by simp) hr)
        (WritersWait.goto (s := s.release) (by simp) hw)
    · exact (Alone.goto (s := s.release) halone).ok_of_free (by rw [goto_stage_self]; rfl)
        (fun _ => hwait) (WritersWait.goto (s := s.release) (by simp) hw)
  · rename_i hgo
    refine halone.goto.ok_of_inside (hs.held pr hlocked) ?_
    rw [goto_stage_self]
    intro hsl
    exact hgo (hr (hsl.of_goto (by simp)))

theorem Ok.pipereadCopy {i n : ℤ} (hst : s.stage pr = .reading i n)
    (copyout : Bool) : (s.pipereadCopy pr i n copyout).Ok := by
  have hlocked : (s.stage pr).locked = true := by rw [hst]; rfl
  have halone := hs.alone hlocked
  have hholder := hs.held pr hlocked
  have hquiet := hs.inside pr hlocked
  rw [hst] at hquiet
  have hfinished : (s.goto pr (.finished i)).Ok := by
    refine halone.goto.ok_of_inside hholder ?_
    rw [goto_stage_self]
    exact fun hsl => hquiet (hsl.of_goto (by simp))
  -- the other side is told about the bytes taken on the way out
  have htake : ∀ st : Stage, st.chan = none → (∀ u : PipeSys P, u.Inside st = ¬ u.SleepsOn .nread) →
      (s.take.goto pr st).Ok := by
    intro st hchan hin
    refine (Alone.goto (s := s.take) halone).ok_of_inside hholder ?_
    rw [goto_stage_self, hin]
    exact fun hsl => hquiet (SleepsOn.of_goto (s := s.take) (hchan ▸ nofun) hsl)
  rw [PipeSys.pipereadCopy]
  split
  · split
    · exact hfinished
    · split
      · exact htake _ rfl fun _ => rfl
      · exact htake _ rfl fun _ => rfl
  · exact hfinished

/-- The end of `piperead`, with its `wakeup`. -/
theorem Ok.finished {i : ℤ} (hst : s.stage pr = .finished i) :
    ((s.wakeup pr .nwrite).release.goto pr (.out i)).Ok := by
  have hlocked : (s.stage pr).locked = true := by rw [hst]; rfl
  have hquiet := hs.inside pr hlocked
  rw [hst] at hquiet
  refine (Alone.goto (s := (s.wakeup pr .nwrite).release) (hs.alone hlocked).wakeup).ok_of_free
    (by rw [goto_stage_self]; rfl) ?_ ?_
  · refine ReadersWait.goto (by simp) fun hsl => ?_
    exact absurd (SleepsOn.of_wakeup hsl) hquiet
  · refine WritersWait.goto (by simp) fun hsl => ?_
    exact absurd hsl (not_sleepsOn_wakeup (by rw [hst]; rfl))

theorem Ok.pipeclose {ret : ℤ} (hst : s.stage pr = .out ret) (hfree : s.holder = none)
    (writable : Bool) : (s.pipeclose pr writable).Ok := by
  obtain ⟨hr, hw⟩ := hs.free hfree
  have hchan : (s.stage pr).chan = none := by rw [hst]; rfl
  have halone : s.Alone pr := by
    intro q _
    by_contra hq
    have hheld := hs.held q (Bool.eq_true_of_not_eq_false hq)
    rw [hfree] at hheld
    cases hheld
  have hpr : ∀ c, ((s.wakeup pr c).stage pr).locked = false := by
    intro c
    simp [PipeSys.wakeup, hst, Stage.locked]
  cases writable with
  | true =>
    refine Alone.ok_of_free (Alone.wakeup (c := .nread) halone) (hpr .nread) ?_ ?_
    · exact fun hsl => absurd hsl (not_sleepsOn_wakeup hchan)
    · exact fun hsl => hw (SleepsOn.of_wakeup hsl)
  | false =>
    refine Alone.ok_of_free (Alone.wakeup (c := .nwrite) halone) (hpr .nwrite) ?_ ?_
    · exact fun hsl => hr (SleepsOn.of_wakeup hsl)
    · exact fun hsl => absurd hsl (not_sleepsOn_wakeup hchan)

theorem Ok.run {copied : Option UInt8} (hok : s.EmptyWhenKilled (.run pr copied))
    (h : s.run pr copied = some t) : t.Ok := by
  rw [PipeSys.run] at h
  cases hst : s.stage pr with
  | out ret => rw [hst] at h; cases h
  | sleeping chan call => rw [hst] at h; cases h
  | acquiring call =>
    simp only [hst] at h
    split at h
    · rename_i hfree
      cases h
      exact hs.acquire hst hfree.1
    · cases h
  | writing i n =>
    simp only [hst, Option.some.injEq] at h
    refine h ▸ hs.pipewrite hst (fun hlt => hok ?_) copied
    simpa [hst, Stage.storing] using hlt
  | written i =>
    simp only [hst, Option.some.injEq] at h
    exact h ▸ hs.written hst
  | waiting n =>
    simp only [hst, Option.some.injEq] at h
    exact h ▸ hs.pipereadWait hst
  | reading i n =>
    simp only [hst, Option.some.injEq] at h
    exact h ▸ hs.pipereadCopy hst _
  | finished i =>
    simp only [hst, Option.some.injEq] at h
    exact h ▸ hs.finished hst

/-- The invariant is kept by every step that meets the condition. -/
theorem Ok.step {a : PipeAct P} (hok : s.EmptyWhenKilled a) (h : s.step a = some t) : t.Ok := by
  cases a with
  | write pr n => exact hs.begin h
  | read pr n => exact hs.begin h
  | run pr copied => exact hs.run hok h
  | close pr writable =>
    rw [PipeSys.step] at h
    split at h
    · rename_i hst
      obtain ⟨hfree, rfl⟩ := Lib.of_guard h
      exact hs.pipeclose hst hfree.1 writable
    · cases h
  | kill pid => cases h; exact hs.kill pid

end

/-- A step that does not meet the condition strands a reader. -/
theorem emptyWhenKilled_of_noneStranded {a : PipeAct P} (h : s.step a = some t)
    (ht : t.NoneStranded) : s.EmptyWhenKilled a := by
  cases a with
  | write pr n => trivial
  | read pr n => trivial
  | close pr writable => trivial
  | kill pid => trivial
  | run pr copied =>
    intro hstoring hkilled hsl
    cases hst : s.stage pr with
    | writing i n =>
      have hlt : i < n := by simpa [hst, Stage.storing] using hstoring
      simp only [PipeSys.step, PipeSys.run, hst, PipeSys.pipewrite, if_pos hlt, hkilled,
        or_true, if_true, Option.some.injEq] at h
      subst h
      have hstill : (s.release.goto pr (.out (-1))).SleepsOn .nread := by
        refine SleepsOn.goto (s := s.release) ?_ hsl
        change (s.stage pr).chan ≠ _
        simp [hst]
      exact ((ht rfl).1 hstill).1
    | _ => simp [hst, Stage.storing] at hstoring

/-- **When no sleeper is stranded.** A run of a new pipe never strands a sleeper exactly when no
writer, at the head of its loop with bytes left to write, finds itself killed while the pipe
holds bytes and a reader sleeps. -/
theorem noneStranded_iff_emptyWhenKilled {data : Fin PIPESIZE → UInt8} {killed : P → Bool}
    {as : List (PipeAct P)} {e : PipeSys P} (hrun : exec step (boot data killed) as = some e) :
    (∀ s, Visits step (boot data killed) as s → s.NoneStranded) ↔
      ∀ s a, Takes step (boot data killed) as s a → s.EmptyWhenKilled a :=
  visits_all_iff_of_invariant (J := Ok) (ok_boot data killed) (fun _ hs => hs.free) hrun
    (fun _ _ _ _ hstep hs hok => hs.step hok hstep)
    (fun _ _ _ _ hstep _ ht => emptyWhenKilled_of_noneStranded hstep ht)

end Steps

section Runs

/-- A writer is killed after its first byte, but the reader has not gone to sleep. -/
def killedEarly : List (PipeAct (Fin 2)) :=
  [.write 0 2, .run 0 none, .run 0 (some 7), .kill 0, .run 0 none, .read 1 1, .run 1 none,
    .run 1 none, .run 1 (some 0), .run 1 none, .run 1 none]

theorem noneStranded_killedEarly :
    ∃ e, exec step (boot (fun _ => 0) fun _ => false) killedEarly = some e ∧ e.taken = [7] ∧
    ∀ s, Visits step (boot (fun _ => 0) fun _ => false) killedEarly s → s.NoneStranded := by
  have hrun : (exec (guarded EmptyWhenKilled step) (boot (fun _ => 0) fun _ => false)
      killedEarly).any (fun e => e.taken = [7]) = true := by decide +kernel
  obtain ⟨e, he, htaken⟩ := (Option.any_eq_true _ _).mp hrun
  obtain ⟨hexec, hok⟩ := exec_guarded he
  exact ⟨e, hexec, of_decide_eq_true htaken, (noneStranded_iff_emptyWhenKilled hexec).mpr hok⟩

/-- A reader goes to sleep; a writer stores a byte and is killed before its second turn. -/
def killedLate : List (PipeAct (Fin 2)) :=
  [.read 1 1, .run 1 none, .run 1 none, .write 0 2, .run 0 none, .run 0 (some 7), .kill 0,
    .run 0 none]

/-- **A stranded reader.** At the end of `killedLate` the lock is free and both ends are open,
and the reader sleeps on `&pi->nread` though there is a byte to read. -/
theorem killedLate_strands : (exec step (boot (fun _ => 0) fun _ => false) killedLate).any
    (fun e => e.holder = none ∧ e.stage 1 = .sleeping .nread (.read 1) ∧
      e.pipe.nread ≠ e.pipe.nwrite ∧ e.pipe.readopen ∧ e.pipe.writeopen) = true := by
  decide +kernel

end Runs

end PipeSys

end Xv6.Pipes
