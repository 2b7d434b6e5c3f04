import Xv6.Sched.Mlfq

/-!
# When the feedback queues agree with the processes

Between the selection of a process on one hart and its dispatch there, another hart's call of
`mlfq_scheduler` finds it runnable and out of any queue, and queues it again: it then runs while
it is queued, and its demotion leaves it in the queue of the level it had. Every other step keeps
the queues and the processes in agreement, whatever the number of harts.
-/

namespace Xv6.Kern

open Lib

variable {b : Build} {k k' : Kern} {a : Act} {h : ℕ} {p : Slot} {xs : Fin NMLFQ → List Slot}

/-- The queues and the processes agree: a process is marked as queued exactly if it is in some
queue, and then it is there once, in the queue of its level; and the count of each queue is the
distance of its indices. -/
structure WellQueued (k : Kern) : Prop where
  inQueue_iff : ∀ p, (k.proc p).inQueue = true ↔ ∃ l, some p ∈ (k.mlfq l).toList
  once : ∀ p l, some p ∈ (k.mlfq l).toList →
    l = (k.proc p).level ∧ (k.mlfq l).toList.count (some p) = 1
  size : ∀ l, 0 ≤ (k.mlfq l).size ∧ (k.mlfq l).size ≤ NPROC ∧
    (k.mlfq l).size = (((k.mlfq l).tail - (k.mlfq l).head : Fin (NPROC + 1)).val : ℤ)
  entries : ∀ l, none ∉ (k.mlfq l).toList

theorem Queued.wellQueued (hk : k.Queued xs) : k.WellQueued := by
  have hmem : ∀ p l, some p ∈ (k.mlfq l).toList ↔ p ∈ xs l := by
    intro p l; rw [(hk.holds l).toList]; simp
  refine ⟨fun p => ?_, fun p l hp => ?_, fun l => ?_, fun l => ?_⟩
  · simp only [hmem, hk.mem_iff]
    exact ⟨fun hq => ⟨_, hq, rfl⟩, fun ⟨_, hq, _⟩ => hq⟩
  · rw [hmem] at hp
    refine ⟨((hk.mem_iff p l).mp hp).2.symm, ?_⟩
    rw [(hk.holds l).toList, List.count_map_of_injective _ _ (Option.some_injective _)]
    exact List.count_eq_one_of_mem (hk.nodup l) hp
  · have hlen : (((k.mlfq l).tail - (k.mlfq l).head : Fin (NPROC + 1)).val) = (xs l).length :=
      (hk.holds l).length
    have hle := (hk.holds l).length_le
    rw [hlen, (hk.holds l).size]
    omega
  · rw [(hk.holds l).toList]; simp

theorem WellQueued.queued (hk : k.WellQueued) : ∃ xs, k.Queued xs := by
  have hlist : ∀ l, ∃ xs : List Slot, (k.mlfq l).toList = xs.map some := by
    intro l
    refine ⟨(k.mlfq l).toList.filterMap id, ?_⟩
    have hall : ∀ e ∈ (k.mlfq l).toList, e ≠ none := fun e he heq => hk.entries l (heq ▸ he)
    generalize (k.mlfq l).toList = es at hall
    induction es with
    | nil => rfl
    | cons e es ih =>
      obtain ⟨he, hes⟩ := List.forall_mem_cons.mp hall
      obtain ⟨p, rfl⟩ := Option.ne_none_iff_exists'.mp he
      exact congrArg (some p :: ·) (ih hes)
  choose xs hxs using hlist
  have hmem : ∀ p l, some p ∈ (k.mlfq l).toList ↔ p ∈ xs l := by
    intro p l; rw [hxs l]; simp
  refine ⟨xs, fun l => ⟨hxs l, ?_⟩, fun l => ?_, fun p l => ?_⟩
  · have hlen := congrArg List.length (hxs l)
    rw [Ring.length_toList, List.length_map] at hlen
    rw [(hk.size l).2.2, ← hlen]
    rfl
  · rw [List.nodup_iff_count_le_one]
    intro p
    by_cases hp : p ∈ xs l
    · have hone := (hk.once p l ((hmem p l).mpr hp)).2
      rw [hxs l, List.count_map_of_injective _ _ (Option.some_injective _)] at hone
      exact hone.le
    · rw [List.count_eq_zero_of_not_mem hp]; exact Nat.zero_le 1
  · rw [← hmem]
    constructor
    · intro hp
      exact ⟨(hk.inQueue_iff p).mpr ⟨l, hp⟩, (hk.once p l hp).1.symm⟩
    · rintro ⟨hq, rfl⟩
      obtain ⟨l, hl⟩ := (hk.inQueue_iff p).mp hq
      exact (hk.once p l hl).1 ▸ hl

theorem wellQueued_iff : k.WellQueued ↔ ∃ xs, k.Queued xs :=
  ⟨WellQueued.queued, fun ⟨_, hk⟩ => hk.wellQueued⟩

/-! ## The other steps -/

/-- Where a process is queued, if it is. -/
def place (x : Proc) : Bool × Fin NMLFQ := (x.inQueue, x.level)

/-- Neither the queues nor the places of the processes differ. -/
structure SamePlaces (k k' : Kern) : Prop where
  mlfq : k'.mlfq = k.mlfq
  place : ∀ i, place (k'.proc i) = place (k.proc i)

theorem SamePlaces.trans {k'' : Kern} (h₁ : SamePlaces k k') (h₂ : SamePlaces k' k'') :
    SamePlaces k k'' :=
  ⟨h₂.mlfq.trans h₁.mlfq, fun i => (h₂.place i).trans (h₁.place i)⟩

theorem SamePlaces.queued (h : SamePlaces k k') (hk : k.Queued xs) : k'.Queued xs := by
  refine hk.congr h.mlfq fun i => ?_
  have := h.place i
  simp only [Kern.place, Prod.mk.injEq] at this
  exact ⟨this.1, fun _ => this.2⟩

theorem samePlaces_modProc {f : Proc → Proc} (hf : ∀ x, place (f x) = place x) (k : Kern) (p : Slot) :
    SamePlaces k (k.modProc p f) := ⟨rfl, modProc_frame hf k p⟩

theorem samePlaces_setCpu (k : Kern) (h : ℕ) (c : Option Slot) : SamePlaces k (k.setCpu h c) :=
  ⟨rfl, fun _ => rfl⟩

theorem Woken.samePlaces (hw : Woken k k') : SamePlaces k k' :=
  ⟨hw.mlfq, hw.frame fun _ _ _ => rfl⟩

theorem samePlaces_actuallySetPriority (k : Kern) (v pid : Int32) :
    SamePlaces k (k.actuallySetPriority v pid).1 :=
  of_actuallySetPriority ⟨rfl, fun _ => rfl⟩ fun i _ => samePlaces_modProc (by intro; rfl) k i

theorem samePlaces_fill {f : Proc → Proc} (hf : ∀ x, place (f x) = place x) (k : Kern) (p : Slot) :
    SamePlaces k (k.fill p f) := ⟨rfl, modProc_frame hf k p⟩

theorem samePlaces_exit {status : Int32} (hk : k.exit h p status = .ok k') : SamePlaces k k' := by
  obtain ⟨-, k₁, hw, rfl⟩ := exit_ok hk
  exact (hw.samePlaces.trans (samePlaces_modProc (by intro; rfl) k₁ p)).trans
    (samePlaces_setCpu _ h none)

theorem samePlaces_devintr (k : Kern) (h : ℕ) : SamePlaces k (k.devintr h) :=
  ⟨mlfq_devintr k h, devintr_frame (fun _ _ _ _ _ _ _ _ => rfl) k h⟩

theorem samePlaces_dispatch (k : Kern) (h : ℕ) (p : Slot) : SamePlaces k (k.dispatch h p) := by
  rw [dispatch]
  split
  · exact ((samePlaces_actuallySetPriority k _ _).trans
      (samePlaces_modProc (by intro; rfl) _ p)).trans (samePlaces_setCpu _ h (some p))
  · exact samePlaces_setCpu k h none

/-- No system call, wakeup or dispatch touches the queues. -/
theorem samePlaces_next (hnext : Kern.next b k a = some k') (hsel : ∀ h, a ≠ .select h)
    (htimer : ∀ h user, a ≠ .timer h user) : SamePlaces k k' := by
  cases moves_of_next hnext with
  | select _ _ _ => exact absurd rfl (hsel _)
  | kerneltrap => exact absurd rfl (htimer _ _)
  | usertrap _ _ => exact absurd rfl (htimer _ _)
  | dispatch _ => exact samePlaces_dispatch k _ _
  | wakeup => exact (woken_wakeup k _ _).samePlaces
  | @sleep h p chan _ =>
    exact (samePlaces_modProc (by intro; rfl) k p).trans (samePlaces_setCpu _ h none)
  | kill _ hkill =>
    cases hkill with
    | none => exact ⟨rfl, fun _ => rfl⟩
    | marked _ => exact samePlaces_modProc (by intro; rfl) k _
  | fork _ hfork =>
    cases hfork with
    | full _ => exact ⟨rfl, fun _ => rfl⟩
    | failed _ => exact samePlaces_fill (by intro; rfl) k _
    | child _ => exact samePlaces_fill (by intro; rfl) k _
  | exit _ hexit => exact samePlaces_exit hexit
  | @wait h p copy k' _ hwait =>
    cases hwait with
    | same => exact ⟨rfl, fun _ => rfl⟩
    | reaped _ => exact samePlaces_modProc (f := Proc.free) (fun _ => rfl) k _
    | slept => exact (samePlaces_modProc (by intro; rfl) k p).trans (samePlaces_setCpu _ h none)
  | setPriority _ =>
    exact of_sysSetPriority ⟨rfl, fun _ => rfl⟩ fun _ _ => samePlaces_actuallySetPriority k _ _
  | @fault h p k' _ hexit =>
    exact (samePlaces_modProc (f := fun x => { x with killed := true }) (fun _ => rfl) k p).trans
      (samePlaces_exit hexit)

/-! ## Demotion -/

/-- If a timer interrupt demotes the process it interrupts, that process is in no queue. -/
def DemotesUnqueued (k : Kern) : Act → Prop
  | .timer h user => match (k.cpu h).proc with
    | some p => (user = true → (k.proc p).killed = false) →
        ((k.devintr h).proc p).changeQueue ≤ 0 → (k.proc p).level.val + 1 ≠ NMLFQ →
        (k.proc p).inQueue = false
    | none => True
  | _ => True

instance (k : Kern) (a : Act) : Decidable (DemotesUnqueued k a) := by
  unfold DemotesUnqueued
  split
  · split <;> infer_instance
  · infer_instance

/-- Demotion keeps the queues in agreement exactly if the process is in none or has no lower
level to go to. -/
theorem queued_demote_iff (hk : k.Queued xs) :
    (k.modProc p Proc.demote).WellQueued ↔
      ((k.proc p).level.val + 1 ≠ NMLFQ → (k.proc p).inQueue = false) := by
  have hlevel : ((k.modProc p Proc.demote).proc p).level =
      if (k.proc p).level.val + 1 = NMLFQ then (k.proc p).level else (k.proc p).level + 1 := by
    rw [proc_modProc_self]; rfl
  constructor
  · intro hwell hlast
    by_contra hq
    have hmem : p ∈ xs (k.proc p).level := (hk.mem_iff p _).mpr ⟨by simpa using hq, rfl⟩
    have hmem : some p ∈ (k.mlfq (k.proc p).level).toList := by
      rw [(hk.holds _).toList]; exact List.mem_map_of_mem hmem
    have heq := (hwell.once p _ hmem).1
    rw [hlevel, if_neg hlast] at heq
    revert heq
    generalize (k.proc p).level = l
    revert l
    decide
  · intro hor
    suffices hq : (k.modProc p Proc.demote).Queued xs from hq.wellQueued
    refine hk.congr rfl fun i => ?_
    rw [proc_modProc]
    split
    · rename_i heq
      subst heq
      refine ⟨rfl, fun hq => ?_⟩
      by_cases hlast : (k.proc i).level.val + 1 = NMLFQ
      · simp [Proc.demote, hlast]
      · rw [hor hlast] at hq; cases hq
    · exact ⟨rfl, fun _ => rfl⟩

theorem wellQueued_congr (h : SamePlaces k k') : k'.WellQueued ↔ k.WellQueued := by
  have hback : SamePlaces k' k := ⟨h.mlfq.symm, fun i => (h.place i).symm⟩
  simp only [wellQueued_iff]
  exact ⟨fun ⟨xs, hx⟩ => ⟨xs, hback.queued hx⟩, fun ⟨xs, hx⟩ => ⟨xs, h.queued hx⟩⟩

theorem wellQueued_trapped_iff {user : Bool} (hk : k.Queued xs)
    (ht : Trapped .mlfq k h user k') : k'.WellQueued ↔ k.DemotesUnqueued (.timer h user) := by
  have hdev := samePlaces_devintr k h
  cases ht with
  | none hh =>
    simp only [DemotesUnqueued, hh, iff_true]
    exact (hdev.queued hk).wellQueued
  | @exit p k' hp huser hkilled hexit =>
    simp only [DemotesUnqueued, hp, hkilled, huser]
    simpa using ((hdev.trans (samePlaces_exit hexit)).queued hk).wellQueued
  | @preempt p hp hlive =>
    have hplace := hdev.place p
    simp only [place, Prod.mk.injEq] at hplace
    have hguard : k.DemotesUnqueued (.timer h user) ↔
        (((k.devintr h).proc p).changeQueue ≤ 0 → (k.proc p).level.val + 1 ≠ NMLFQ →
          (k.proc p).inQueue = false) := by
      simp only [DemotesUnqueued, hp]
      exact ⟨fun hd => hd hlive, fun hd _ => hd⟩
    rw [hguard, Kern.preempt]
    split
    · rename_i hcq
      have hyield : SamePlaces ((k.devintr h).modProc p Proc.demote)
          (((k.devintr h).modProc p Proc.demote).yield h p) :=
        (samePlaces_modProc (by intro; rfl) _ p).trans (samePlaces_setCpu _ h none)
      rw [wellQueued_congr hyield, queued_demote_iff (hdev.queued hk), hplace.1, hplace.2]
      simp [hcq]
    · rename_i hcq
      simp only [hcq, false_implies, iff_true]
      exact (hdev.queued hk).wellQueued

/-- From queues in agreement, a step leads to queues in agreement exactly if it does not demote
a queued process. -/
theorem wellQueued_next_iff (hs : k.Sane) (hd : k.Distinct) (hk : k.WellQueued)
    (hnext : Kern.next .mlfq k a = some k') : k'.WellQueued ↔ k.DemotesUnqueued a := by
  obtain ⟨xs, hq⟩ := hk.queued
  cases a with
  | select h =>
    cases moves_of_next hnext with
    | @select _ r _ _ hr =>
      obtain ⟨r', ys, hr', hq', -⟩ := mlfqScheduler_ok hq hd
      have heq : r' = r := Except.ok.inj (hr'.symm.trans hr)
      subst heq
      simp only [DemotesUnqueued, iff_true]
      refine (wellQueued_congr (k := r'.1) ?_).mpr hq'.wellQueued
      exact ⟨rfl, fun _ => rfl⟩
  | timer h user =>
    cases moves_of_next hnext with
    | kerneltrap => exact wellQueued_trapped_iff hq (trapped_kerneltrap hs)
    | usertrap hp hk' => exact wellQueued_trapped_iff hq (trapped_usertrap hp hk')
  | _ =>
    simp only [DemotesUnqueued, iff_true]
    exact ((samePlaces_next hnext (by simp) (by simp)).queued hq).wellQueued

/-- Wherever `ageing` is about to erase a process from the queue of its level, the process is
in that queue. -/
def ErasesQueued (k : Kern) : Prop :=
  ∀ is p rest k', slots = is ++ p :: rest → is.foldlM ageingAt k = .ok k' →
    (k'.proc p).inQueue = true → some p ∈ (k'.mlfq (k'.proc p).level).toList

theorem WellQueued.erasesQueued (hk : k.WellQueued) (hd : k.Distinct) : k.ErasesQueued := by
  intro is p rest k' _ hrun hq
  obtain ⟨⟨xs, hxs⟩, -⟩ := foldlM_rule (P := Good) ⟨hk.queued, hd⟩
    (fun _ _ _ _ hstep hgood => hgood.ageingAt hstep) hrun
  rw [(hxs.holds _).toList]
  exact List.mem_map_of_mem ((hxs.mem_iff p _).mpr ⟨hq, rfl⟩)

theorem wellQueued_boot : boot.WellQueued := by
  have hq : boot.Queued fun _ => [] := by
    refine ⟨fun _ => Queue.holds_empty, fun _ => List.nodup_nil, fun p l => ?_⟩
    have hp : (boot.proc p).inQueue = false := by revert p; decide
    simp [hp]
  exact hq.wellQueued

/-- **When the feedback queues stay in agreement with the processes.** In a run of any number
of harts in which pids do not wrap around, the queues agree with the processes in every state,
and `ageing` erases processes only from queues they are in, exactly when every process demoted
by a timer interrupt is in no queue at that moment. -/
theorem wellQueued_iff_demotesUnqueued {as : List Act} {e : Kern}
    (hrun : exec (Kern.next .mlfq) boot as = some e)
    (hwrap : ∀ s a, Takes (Kern.next .mlfq) boot as s a → NoWrap s a) :
    (∀ s, Visits (Kern.next .mlfq) boot as s → s.WellQueued ∧ s.ErasesQueued) ↔
      ∀ s a, Takes (Kern.next .mlfq) boot as s a → s.DemotesUnqueued a := by
  have hsane := fun s (hs : Visits (Kern.next .mlfq) boot as s) => sane_of_visits hwrap hs
  rw [← visits_all_iff_takes_all (P := WellQueued) wellQueued_boot hrun]
  · refine forall₂_congr fun s hs => and_iff_left_of_imp fun hk => ?_
    exact hk.erasesQueued (hsane s hs).2.distinct
  · intro s a t htakes hnext hk
    obtain ⟨hs, hpid⟩ := hsane s htakes.visits_start
    exact wellQueued_next_iff hs hpid.distinct hk hnext

/-- One hart: init is selected, forks, is preempted and demoted. -/
def oneHartRun : List Act :=
  [.select 0, .dispatch 0, .fork 0 true true, .timer 0 true, .select 0]

theorem wellQueued_oneHartRun : ∃ e, exec (Kern.next .mlfq) boot oneHartRun = some e ∧
    ∀ s, Visits (Kern.next .mlfq) boot oneHartRun s → s.WellQueued ∧ s.ErasesQueued := by
  obtain ⟨e, hrun⟩ : ∃ e, exec (guarded (fun k a => DemotesUnqueued k a ∧ NoWrap k a)
      (Kern.next .mlfq)) boot oneHartRun = some e := ⟨_, rfl⟩
  obtain ⟨hexec, hok⟩ := exec_guarded hrun
  exact ⟨e, hexec, (wellQueued_iff_demotesUnqueued hexec fun s a hs => (hok s a hs).2).mpr
    fun s a hs => (hok s a hs).1⟩

/-- Three harts: hart 0 selects the child in slot 1, hart 2 queues it again before hart 0
dispatches it, and the timer of hart 0 demotes it. -/
def requeueRun : List Act :=
  [.select 1, .dispatch 1, .fork 1 true true, .fork 1 true true, .select 0, .select 2, .dispatch 0,
    .timer 0 true]

/-- The child of slot 1 ends at level 1 in the queue of level 0. -/
theorem requeueRun_splits : ∃ e, exec (Kern.next .mlfq) boot requeueRun = some e ∧
    (e.proc 1).inQueue = true ∧ (e.proc 1).level = 1 ∧ (e.mlfq 0).toList = [some 1] ∧
    (e.mlfq 1).toList = [] ∧ ¬ e.WellQueued := by
  obtain ⟨e, hrun, hq, hlevel, h₀, h₁⟩ : ∃ e, exec (Kern.next .mlfq) boot requeueRun = some e ∧
      (e.proc 1).inQueue = true ∧ (e.proc 1).level = 1 ∧ (e.mlfq 0).toList = [some 1] ∧
      (e.mlfq 1).toList = [] := ⟨_, rfl, rfl, rfl, rfl, rfl⟩
  refine ⟨e, hrun, hq, hlevel, h₀, h₁, fun hwell => ?_⟩
  have heq := (hwell.once 1 0 (by rw [h₀]; simp)).1
  rw [hlevel] at heq
  exact absurd heq (by decide)

end Xv6.Kern
