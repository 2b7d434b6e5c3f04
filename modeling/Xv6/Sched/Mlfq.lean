import Xv6.Sched.Sane
import Mathlib.Data.Fintype.Card

/-!
# The feedback queues

`in_queue` and `level` of a process say where it is queued, and the queues say who is queued:
`Queued` is the statement that the two agree. This module proves that selecting a process keeps
them in agreement and never panics.
-/

namespace Xv6.Kern

open Lib
open Function (update update_eq_self update_idem update_of_ne update_self)

variable {k k' : Kern} {p : Slot} {xs : Fin NMLFQ → List Slot}

/-- The queues hold the processes `xs`, each once, and these are the processes marked as queued,
each at its level. -/
structure Queued (k : Kern) (xs : Fin NMLFQ → List Slot) : Prop where
  holds : ∀ l, (k.mlfq l).Holds (xs l)
  nodup : ∀ l, (xs l).Nodup
  mem_iff : ∀ p l, p ∈ xs l ↔ (k.proc p).inQueue = true ∧ (k.proc p).level = l

section
variable (hk : k.Queued xs)
include hk

theorem Queued.congr (hmlfq : k'.mlfq = k.mlfq)
    (hproc : ∀ i, (k'.proc i).inQueue = (k.proc i).inQueue ∧
      ((k.proc i).inQueue = true → (k'.proc i).level = (k.proc i).level)) : k'.Queued xs where
  holds l := by rw [hmlfq]; exact hk.holds l
  nodup := hk.nodup
  mem_iff q l := by
    rw [hk.mem_iff, (hproc q).1]
    exact and_congr_right fun hq => by rw [(hproc q).2 hq]

theorem Queued.notMem (hp : (k.proc p).inQueue = false) (l : Fin NMLFQ) : p ∉ xs l := by
  intro hmem
  have hin := ((hk.mem_iff p l).mp hmem).1
  rw [hp] at hin
  cases hin

theorem Queued.inQueue_iff : (k.proc p).inQueue = true ↔ ∃ l, p ∈ xs l :=
  ⟨fun hp => ⟨_, (hk.mem_iff p _).mpr ⟨hp, rfl⟩⟩, fun ⟨l, hl⟩ => ((hk.mem_iff p l).mp hl).1⟩

/-- Take a process out of the queue it is in. -/
theorem Queued.remove {l : Fin NMLFQ} {ws zs : List Slot} {q : Queue}
    (hl : xs l = ws ++ p :: zs) (hq : q.Holds (ws ++ zs)) {f : Proc → Proc}
    (hf : ∀ x, (f x).inQueue = false) :
    ((k.setMlfq l q).modProc p f).Queued (update xs l (ws ++ zs)) := by
  have hnodup := hk.nodup l
  rw [hl] at hnodup
  have hp : p ∉ ws ++ zs := (List.nodup_middle.mp hnodup).notMem
  have hplevel : (k.proc p).level = l := ((hk.mem_iff p l).mp (by rw [hl]; simp)).2
  refine ⟨fun l' => ?_, fun l' => ?_, fun r l' => ?_⟩
  · by_cases hl' : l' = l
    · subst hl'; simpa [setMlfq] using hq
    · simpa [setMlfq, hl'] using hk.holds l'
  · by_cases hl' : l' = l
    · subst hl'; simpa using (List.nodup_middle.mp hnodup).of_cons
    · simpa [hl'] using hk.nodup l'
  · by_cases hr : r = p
    · subst hr
      simp only [proc_modProc_self, hf, Bool.false_eq_true, false_and, iff_false]
      by_cases hl' : l' = l
      · subst hl'; simpa using hp
      · rw [update_of_ne hl', hk.mem_iff, hplevel]
        exact fun hc => hl' hc.2.symm
    · rw [proc_modProc_of_ne _ _ hr]
      change _ ↔ (k.proc r).inQueue = true ∧ (k.proc r).level = l'
      rw [← hk.mem_iff]
      by_cases hl' : l' = l
      · subst hl'; simp [hl, hr]
      · simp [hl']

/-- Put a process that is in no queue at the tail of the queue of its level. -/
theorem Queued.insert (hp : (k.proc p).inQueue = false) {q : Queue}
    (hq : q.Holds (xs (k.proc p).level ++ [p])) {f : Proc → Proc}
    (hf : ∀ x, (f x).inQueue = true ∧ (f x).level = x.level) :
    ((k.setMlfq (k.proc p).level q).modProc p f).Queued
      (update xs (k.proc p).level (xs (k.proc p).level ++ [p])) := by
  have hnot := hk.notMem hp
  refine ⟨fun l' => ?_, fun l' => ?_, fun r l' => ?_⟩
  · by_cases hl' : l' = (k.proc p).level
    · subst hl'; simpa [setMlfq] using hq
    · simpa [setMlfq, hl'] using hk.holds l'
  · by_cases hl' : l' = (k.proc p).level
    · subst hl'
      simpa [List.concat_eq_append] using (hk.nodup _).concat (hnot _)
    · simpa [hl'] using hk.nodup l'
  · by_cases hr : r = p
    · subst hr
      change _ ↔ ((k.modProc r f).proc r).inQueue = true ∧ ((k.modProc r f).proc r).level = l'
      simp only [proc_modProc_self, hf, true_and]
      by_cases hl' : l' = (k.proc r).level
      · subst hl'; simp
      · rw [update_of_ne hl']
        exact ⟨fun hmem => absurd hmem (hnot l'), fun heq => absurd heq.symm hl'⟩
    · rw [proc_modProc_of_ne _ _ hr]
      change _ ↔ (k.proc r).inQueue = true ∧ (k.proc r).level = l'
      rw [← hk.mem_iff]
      by_cases hl' : l' = (k.proc p).level
      · subst hl'; simp [hr]
      · simp [hl']

end

/-- No other slot carries the pid of a runnable process. -/
def Distinct (k : Kern) : Prop :=
  ∀ p i, (k.proc p).state = .runnable → (k.proc i).pid = (k.proc p).pid → i = p

theorem PidSane.distinct (hk : k.PidSane) : k.Distinct := by
  intro p i hp hpid
  refine hk.inj i p hpid fun hzero => ?_
  rw [(hk.unused_iff p).mpr (hpid ▸ hzero)] at hp
  cases hp

theorem SameCore.distinct (h : SameCore k k') (hk : k.Distinct) : k'.Distinct := by
  intro p i hp hpid
  rw [h.state] at hp
  rw [h.pid, h.pid] at hpid
  exact hk p i hp hpid

/-- What the loops of `mlfq_scheduler` rely on and keep. -/
def Good (k : Kern) : Prop := (∃ xs, k.Queued xs) ∧ k.Distinct

/-! ## The loops of the scheduler -/

/-- A runnable process is taken out of its queue if it is in one. -/
theorem unqueue_ok (hk : k.Queued xs) (hd : k.Distinct) (hp : (k.proc p).state = .runnable) :
    ∃ k', k.unqueue p = .ok k' ∧ k'.Queued (fun l => (xs l).filter (· ≠ p)) ∧
      k'.proc = (k.modProc p fun x => { x with inQueue := false }).proc := by
  rw [unqueue]
  cases hq : (k.proc p).inQueue with
  | true =>
    obtain ⟨ws, zs, hl⟩ := List.append_of_mem ((hk.mem_iff p (k.proc p).level).mpr ⟨hq, rfl⟩)
    have hnodup := hk.nodup (k.proc p).level
    rw [hl] at hnodup
    have hnot : p ∉ ws ++ zs := (List.nodup_middle.mp hnodup).notMem
    have hpids : ∀ r ∈ ws ++ zs, (fun i => (k.proc i).pid) r ≠ (fun i => (k.proc i).pid) p :=
      fun r hr hpid => hnot (hd p r hp hpid ▸ hr)
    obtain ⟨q', hq', hholds⟩ := (hl ▸ hk.holds (k.proc p).level).qerase hpids
    have hremove := hk.remove hl hholds (f := fun x => { x with inQueue := false }) fun _ => rfl
    refine ⟨(k.setMlfq (k.proc p).level q').modProc p fun x => { x with inQueue := false },
      by rw [if_pos rfl, hq']; rfl, ?_, rfl⟩
    convert hremove using 1
    -- the queues of the other levels do not hold the process
    funext l
    by_cases hlevel : l = (k.proc p).level
    · subst hlevel
      rw [update_self, hl, List.filter_append, List.filter_cons_of_neg (by simp),
        ← List.filter_append, List.filter_eq_self]
      intro r hr
      simpa using fun heq : r = p => hnot (heq ▸ hr)
    · rw [update_of_ne hlevel, List.filter_eq_self]
      intro r hr
      have hr' := ((hk.mem_iff r l).mp hr).2
      simpa using fun heq : r = p => hlevel (by rw [← hr', heq])
  | false =>
    refine ⟨k, by simp, ?_, ?_⟩
    · convert hk using 1
      funext l
      rw [List.filter_eq_self]
      intro r hr
      simpa using fun heq : r = p => hk.notMem hq l (heq ▸ hr)
    · funext i
      rw [proc_modProc]
      split
      · rename_i heq; subst heq; rw [← hq]
      · rfl

/-- The loop body of `ageing` takes an aged process out of its queue. -/
theorem ageingAt_lists (hq : k.Queued xs) (hd : k.Distinct) (p : Slot) :
    ∃ k', k.ageingAt p = .ok k' ∧
      k'.Queued (fun l => (xs l).filter fun q => !(k.aged p && q = p)) ∧ k'.Distinct ∧
      k'.proc = if k.aged p then
        (k.modProc p fun x => climb k.ticks { x with inQueue := false }).proc else k.proc := by
  rw [ageingAt]
  split
  · rename_i haged
    have hp : (k.proc p).state = .runnable := (of_decide_eq_true haged).1
    obtain ⟨k₁, hk₁, hq₁, hproc⟩ := unqueue_ok hq hd hp
    have hcore := (selects_sameCore.unqueue hk₁).trans
      (sameCore_modProc (f := climb k.ticks) (fun _ => rfl) k₁ p)
    have hnot : (k₁.proc p).inQueue = false := by rw [hproc, proc_modProc_self]
    have hq₂ : (k₁.modProc p (climb k.ticks)).Queued _ := hq₁.congr rfl fun i => by
      rw [proc_modProc]
      split
      · rename_i heq; simp [heq, hnot, climb]
      · simp
    refine ⟨_, congrArg _ hk₁, by simpa [haged] using hq₂, hcore.distinct hd, ?_⟩
    funext i
    simp only [proc_modProc, hproc]
    split <;> rfl
  · rename_i haged
    exact ⟨k, rfl, by simpa [haged] using hq, hd, rfl⟩

theorem ageingAt_ok (hk : k.Good) (p : Slot) : ∃ k', k.ageingAt p = .ok k' ∧ k'.Good ∧
    k'.proc = if k.aged p then
      (k.modProc p fun x => climb k.ticks { x with inQueue := false }).proc else k.proc := by
  obtain ⟨⟨xs, hq⟩, hd⟩ := hk
  obtain ⟨k', hk', hq', hd', hproc⟩ := ageingAt_lists hq hd p
  exact ⟨k', hk', ⟨⟨_, hq'⟩, hd'⟩, hproc⟩

theorem Good.ageingAt (hk : k.Good) (h : k.ageingAt p = .ok k') : k'.Good := by
  obtain ⟨k₁, hk₁, hgood, -⟩ := ageingAt_ok hk p
  rw [hk₁] at h
  cases h
  exact hgood

/-- A runnable process that is in no queue is put into the queue of its level. -/
theorem enqueueAt_ok (hk : k.Queued xs) (p : Slot) :
    ∃ k' ys, k.enqueueAt p = .ok k' ∧ k'.Queued ys ∧
    if (k.proc p).state = .runnable ∧ (k.proc p).inQueue = false then
      ys = update xs (k.proc p).level (xs (k.proc p).level ++ [p]) ∧
        k'.proc = (k.modProc p fun x => { x with inQueue := true }).proc
    else ys = xs ∧ k' = k := by
  rw [enqueueAt]
  split
  · rename_i hp
    have hnot := hk.notMem hp.2 (k.proc p).level
    have hlen : (xs (k.proc p).level).length < NPROC := by
      have := (List.nodup_cons.mpr ⟨hnot, hk.nodup (k.proc p).level⟩).length_le_card
      rw [List.length_cons, Fintype.card_fin] at this
      exact this
    obtain ⟨q, hq, hholds⟩ := (hk.holds (k.proc p).level).push hlen p
    exact ⟨_, _, congrArg _ hq, hk.insert hp.2 hholds fun _ => ⟨rfl, rfl⟩, rfl, rfl⟩
  · exact ⟨k, xs, rfl, hk, rfl, rfl⟩

/-- The process may run. -/
def ready (k : Kern) (p : Slot) : Bool := (k.proc p).state = .runnable

theorem SameCore.ready (h : SameCore k k') : k'.ready = k.ready := by
  funext p
  simp only [Kern.ready, h.state]

/-- Taking processes off a queue returns the first one that may run, and leaves those behind it. -/
theorem takeLevel_ok (hk : k.Queued xs) {l : Fin NMLFQ} {fuel : ℕ} (hfuel : (xs l).length < fuel) :
    ∃ r, takeLevel l fuel k = .ok r ∧ r.2 = (xs l).find? k.ready ∧
      r.1.Queued (update xs l ((xs l).dropWhile (!k.ready ·)).tail) := by
  induction fuel generalizing k xs with
  | zero => omega
  | succ fuel ih =>
    rw [takeLevel]
    cases hxs : xs l with
    | nil =>
      have hsize : (k.mlfq l).size = 0 := by rw [(hk.holds l).size, hxs]; rfl
      refine ⟨(k, none), by rw [if_pos hsize], rfl, ?_⟩
      rwa [List.dropWhile_nil, List.tail_nil, ← hxs, update_eq_self]
    | cons p rest =>
      have hsize : (k.mlfq l).size ≠ 0 := by rw [(hk.holds l).size, hxs]; simp; omega
      obtain ⟨hfront, q, hpop, hq⟩ := (hxs ▸ hk.holds l).pop
      have hk₁ : ((k.setMlfq l q).modProc p fun x => { x with inQueue := false }).Queued
          (update xs l rest) :=
        hk.remove (show xs l = [] ++ p :: rest from hxs) (show q.Holds ([] ++ rest) from hq)
          fun _ => rfl
      rw [if_neg hsize, hpop, hfront]
      simp only [bind, Except.bind]
      split
      · rename_i hp
        have hready : k.ready p = true := by simpa [ready, setMlfq] using hp
        refine ⟨_, rfl, by rw [List.find?_cons_of_pos hready], ?_⟩
        rw [List.dropWhile_cons_of_neg (by simp [hready]), List.tail_cons]
        refine hk₁.congr rfl fun i => ?_
        rw [proc_modProc (p := p)]
        split <;> simp
      · rename_i hp
        have hready : k.ready p = false := by simpa [ready, setMlfq] using hp
        have hsame : ((k.setMlfq l q).modProc p fun x => { x with inQueue := false }).ready =
            k.ready := by
          funext i
          simp only [ready, proc_modProc]
          split <;> rfl
        have hrest : update xs l rest l = rest := update_self l rest xs
        obtain ⟨r, hr, hfind, hqueued⟩ := ih hk₁ (by rw [hxs] at hfuel; simpa using hfuel)
        rw [hrest, hsame] at hfind hqueued
        refine ⟨r, hr, by rw [hfind, List.find?_cons_of_neg (by simp [hready])], ?_⟩
        rw [List.dropWhile_cons_of_pos (by simp [hready])]
        rwa [update_idem] at hqueued

/-- What one queue gives to the levels: the process that is returned is in no queue any more, and
the others that may run still are. -/
theorem takeLevel_inQueue (hk : k.Queued xs) {l : Fin NMLFQ} {r : Kern × Option Slot}
    (hfind : r.2 = (xs l).find? k.ready)
    (hqueued : r.1.Queued (update xs l ((xs l).dropWhile (!k.ready ·)).tail)) :
    (∀ p, r.2 = some p → (r.1.proc p).inQueue = false) ∧
      ∀ q, k.ready q = true → (k.proc q).inQueue = true → r.2 ≠ some q →
        (r.1.proc q).inQueue = true := by
  have hother : ∀ q m, m ≠ l → (q ∈ xs m ↔
      q ∈ update xs l ((xs l).dropWhile (!k.ready ·)).tail m) := fun q m hm => by
    rw [update_of_ne hm]
  have hself := update_self l ((xs l).dropWhile (!k.ready ·)).tail xs
  cases hr : r.2 with
  | none =>
    rw [hr] at hfind
    refine ⟨(fun p hp => by cases hp), fun q hq hin _ => ?_⟩
    obtain ⟨m, hm⟩ := hk.inQueue_iff.mp hin
    have hml : m ≠ l := by
      rintro rfl
      exact absurd hq (List.find?_eq_none.mp hfind.symm q hm)
    exact hqueued.inQueue_iff.mpr ⟨m, (hother q m hml).mp hm⟩
  | some p =>
    rw [hr] at hfind
    obtain ⟨hp, as, bs, hxs, has⟩ := List.find?_eq_some_iff_append.mp hfind.symm
    have hdrop : (xs l).dropWhile (!k.ready ·) = p :: bs := by
      rw [hxs, List.dropWhile_append_of_pos has, List.dropWhile_cons_of_neg (by simp [hp])]
    rw [hdrop, List.tail_cons] at hself hother hqueued
    have hnodup := hk.nodup l
    rw [hxs] at hnodup
    constructor
    · rintro p' hp'
      cases hp'
      by_contra hin
      obtain ⟨m, hm⟩ := hqueued.inQueue_iff.mp (by simpa using hin)
      by_cases hml : m = l
      · subst hml
        rw [hself] at hm
        exact (List.nodup_middle.mp hnodup).notMem (List.mem_append_right as hm)
      · have hmem := (hk.mem_iff p m).mp ((hother p m hml).mpr hm)
        have hmem' := (hk.mem_iff p l).mp (by rw [hxs]; simp)
        exact hml (hmem.2.symm.trans hmem'.2)
    · intro q hq hin hne
      obtain ⟨m, hm⟩ := hk.inQueue_iff.mp hin
      refine hqueued.inQueue_iff.mpr ⟨m, ?_⟩
      by_cases hml : m = l
      · subst hml
        rw [hself]
        rw [hxs, List.mem_append, List.mem_cons] at hm
        rcases hm with hm | rfl | hm
        · have hnot := has q hm
          rw [hq] at hnot
          cases hnot
        · exact absurd rfl hne
        · exact hm
      · exact (hother q m hml).mp hm

/-- The loop over the levels returns the first process that may run, in the order of the levels. -/
theorem takeLevels_ok (hk : k.Queued xs) {levels : List (Fin NMLFQ)} (hnodup : levels.Nodup) :
    ∃ r ys, k.takeLevels levels = .ok r ∧ r.2 = (levels.flatMap xs).find? k.ready ∧
      r.1.Queued ys ∧ (∀ p, r.2 = some p → (r.1.proc p).inQueue = false) ∧
      ∀ q, k.ready q = true → (k.proc q).inQueue = true → r.2 ≠ some q →
        (r.1.proc q).inQueue = true := by
  induction levels generalizing k xs with
  | nil => exact ⟨(k, none), xs, rfl, rfl, hk, by simp, fun _ _ hin _ => hin⟩
  | cons l levels ih =>
    obtain ⟨hl, hnodup⟩ := List.nodup_cons.mp hnodup
    have hfuel : (xs l).length < NPROC + 2 := by have := (hk.holds l).length_le; omega
    obtain ⟨r, hr, hfind, hq⟩ := takeLevel_ok hk hfuel
    obtain ⟨hout, hin⟩ := takeLevel_inQueue hk hfind hq
    rw [takeLevels, hr]
    simp only [bind, Except.bind, List.flatMap_cons, List.find?_append]
    cases hr₂ : r.2 with
    | some p =>
      rw [hr₂] at hfind hout hin
      exact ⟨_, _, rfl, by rw [← hfind]; rfl, hq, hout, hin⟩
    | none =>
      rw [hr₂] at hfind hin
      have hsame := (selects_sameCore.takeLevel hr).ready
      obtain ⟨r', ys, hr', hfind', hq', hout', hin'⟩ := ih hq hnodup
      -- a queue that has been emptied is not visited again
      have hrest : levels.flatMap (update xs l ((xs l).dropWhile (!k.ready ·)).tail) =
          levels.flatMap xs := by
        refine List.flatMap_congr fun m hm => update_of_ne ?_ _ _
        rintro rfl
        exact hl hm
      rw [hsame, hrest] at hfind'
      refine ⟨r', ys, hr', by rw [← hfind, hfind']; rfl, hq', hout', fun q hready hqin hne => ?_⟩
      exact hin' q (by rw [hsame]; exact hready) (hin q hready hqin (by simp)) hne

theorem ageing_ok (hk : k.Good) : ∃ k', k.ageing = .ok k' ∧ k'.Good :=
  foldlM_total hk fun k p _ hk => by
    obtain ⟨k', hk', hgood, -⟩ := ageingAt_ok hk p
    exact ⟨k', hk', hgood⟩

theorem enqueue_ok (hk : k.Queued xs) :
    ∃ k', slots.foldlM enqueueAt k = .ok k' ∧ ∃ ys, k'.Queued ys :=
  foldlM_total ⟨xs, hk⟩ fun k p _ hk => by
    obtain ⟨xs, hq⟩ := hk
    obtain ⟨k', ys, hk', hq', -⟩ := enqueueAt_ok hq p
    exact ⟨k', hk', ys, hq'⟩

/-- From queues in agreement with the processes, selecting succeeds, keeps the agreement, and
returns a runnable process that is in no queue, or none. -/
theorem mlfqScheduler_ok (hk : k.Queued xs) (hd : k.Distinct) :
    ∃ r ys, k.mlfqScheduler = .ok r ∧ r.1.Queued ys ∧
      ∀ p, r.2 = some p → (r.1.proc p).state = .runnable ∧ (r.1.proc p).inQueue = false := by
  obtain ⟨k₁, hk₁, ⟨ys, hq₁⟩, -⟩ := ageing_ok ⟨⟨xs, hk⟩, hd⟩
  obtain ⟨k₂, hk₂, zs, hq₂⟩ := enqueue_ok hq₁
  obtain ⟨r, ws, hr, hfind, hq, hout, -⟩ := takeLevels_ok hq₂ (List.nodup_finRange NMLFQ)
  refine ⟨r, ws, ?_, hq, fun p hp => ⟨?_, hout p hp⟩⟩
  · rw [mlfqScheduler, hk₁]
    simp only [bind, Except.bind, hk₂, hr]
  · rw [hfind] at hp
    have hready := List.find?_some hp
    rw [← (selects_sameCore.takeLevels hr).ready] at hready
    simpa [ready] using hready

end Xv6.Kern
