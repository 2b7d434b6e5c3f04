import Xv6.Sched.IoRule

/-!
# One call of the feedback scheduler

What `mlfq_scheduler` returns, in terms of the queues it finds: `ageing` takes the aged processes
out of their queues, the first loop puts every runnable process that is in no queue at the end of
the queue of its level, in the order of the table, and the second loop returns the first runnable
process in the order of the levels.
-/

namespace Xv6.Kern

open Lib

variable {k k' : Kern} {p q : Slot} {xs : Fin NMLFQ → List Slot}

/-- The queues after `ageing`. -/
def stayed (k : Kern) (xs : Fin NMLFQ → List Slot) (l : Fin NMLFQ) : List Slot :=
  (xs l).filter fun q => !k.aged q

/-- The queues that are served: after `ageing`, and with the runnable processes that are in no
queue then. -/
def served (k : Kern) (xs : Fin NMLFQ → List Slot) (l : Fin NMLFQ) : List Slot :=
  k.stayed xs l ++ slots.filter fun q =>
    k.ready q && (!(k.proc q).inQueue || k.aged q) && k.nextLevel q = l

/-- What `ageing` makes of a slot. -/
def agedProc (k : Kern) (i : Slot) : Proc :=
  if k.aged i then climb k.ticks { k.proc i with inQueue := false } else k.proc i

/-- The loop of `ageing`, up to some slot. -/
theorem ageing_prefix {is : List Slot} (hnodup : is.Nodup) (hk : k.Queued xs) (hd : k.Distinct) :
    ∃ k', is.foldlM ageingAt k = .ok k' ∧
      k'.Queued (fun l => (xs l).filter fun q => !(k.aged q && q ∈ is)) ∧
      ∀ i, k'.proc i = if i ∈ is then k.agedProc i else k.proc i := by
  induction is generalizing k xs with
  | nil => exact ⟨k, rfl, by simpa using hk, by simp⟩
  | cons j is ih =>
    obtain ⟨hj, hnodup⟩ := List.nodup_cons.mp hnodup
    obtain ⟨k₁, hk₁, hq₁, hd₁, hproc⟩ := ageingAt_lists hk hd j
    have hticks : k₁.ticks = k.ticks := (selects_sameCore.ageingAt hk₁).ticks
    have hother : ∀ i, i ≠ j → k₁.proc i = k.proc i := by
      intro i hi
      rw [hproc]
      split
      · exact proc_modProc_of_ne _ _ hi
      · rfl
    have hself : k₁.proc j = k.agedProc j := by
      rw [hproc, agedProc]
      split
      · exact proc_modProc_self ..
      · rfl
    have haged : ∀ i, i ≠ j → k₁.aged i = k.aged i := by
      intro i hi
      rw [aged, aged, hother i hi, hticks]
    obtain ⟨k', hk', hq', hproc'⟩ := ih hnodup hq₁ hd₁
    refine ⟨k', foldlM_cons_ok.mpr ⟨k₁, hk₁, hk'⟩, ?_, fun i => ?_⟩
    · convert hq' using 1
      funext l
      rw [List.filter_filter]
      refine List.filter_congr fun q _ => ?_
      by_cases hqj : q = j
      · subst hqj; simp [hj]
      · simp [hqj, haged q hqj]
    · rw [hproc']
      by_cases hij : i = j
      · subst hij; simp [hj, hself]
      · simp [hij, hother i hij, agedProc, haged i hij, hticks]

theorem ageing_lists (hk : k.Queued xs) (hd : k.Distinct) :
    ∃ k', k.ageing = .ok k' ∧ k'.Queued (k.stayed xs) ∧ k'.proc = k.agedProc := by
  obtain ⟨k', hk', hq, hproc⟩ := ageing_prefix (List.nodup_finRange NPROC) hk hd
  refine ⟨k', hk', ?_, funext fun i => by simpa using hproc i⟩
  simp only [List.mem_finRange, decide_true, Bool.and_true] at hq
  exact hq

/-- The first loop of `mlfq_scheduler`, up to some slot. -/
theorem enqueue_prefix {is : List Slot} (hnodup : is.Nodup) (hk : k.Queued xs) :
    ∃ k', is.foldlM enqueueAt k = .ok k' ∧
      k'.Queued (fun l => xs l ++ is.filter fun q =>
        k.ready q && !(k.proc q).inQueue && (k.proc q).level = l) ∧
      ∀ i, k'.proc i =
        if i ∈ is ∧ k.ready i then { k.proc i with inQueue := true } else k.proc i := by
  induction is generalizing k xs with
  | nil => exact ⟨k, rfl, by simpa using hk, by simp⟩
  | cons j is ih =>
    obtain ⟨hj, hnodup⟩ := List.nodup_cons.mp hnodup
    obtain ⟨k₁, ys, hk₁, hq₁, hcase⟩ := enqueueAt_ok hk j
    have hother : ∀ i, i ≠ j → k₁.proc i = k.proc i := by
      intro i hi
      split at hcase
      · rw [hcase.2]; exact proc_modProc_of_ne _ _ hi
      · rw [hcase.2]
    have hself : k₁.proc j = if k.ready j then { k.proc j with inQueue := true } else k.proc j := by
      split at hcase
      · rename_i hpush
        rw [hcase.2, proc_modProc_self, if_pos (by simp [ready, hpush.1])]
      · rename_i hpush
        rw [hcase.2]
        split
        · rename_i hready
          have hin : (k.proc j).inQueue = true := by
            by_contra hnot
            exact hpush ⟨by simpa [ready] using hready, by simpa using hnot⟩
          rw [← hin]
        · rfl
    have hys : ∀ l, ys l = xs l ++ [j].filter fun q =>
        k.ready q && !(k.proc q).inQueue && (k.proc q).level = l := by
      intro l
      split at hcase
      · rename_i hpush
        rw [hcase.1]
        by_cases hl : l = (k.proc j).level
        · subst hl; simp [ready, hpush.1, hpush.2]
        · simp [hl, Ne.symm hl]
      · rename_i hpush
        rw [hcase.1, List.filter_cons_of_neg (by simp [ready]; tauto)]
        simp
    obtain ⟨k', hk', hq', hproc'⟩ := ih hnodup hq₁
    have hne : ∀ q ∈ is, q ≠ j := fun q hq heq => hj (heq ▸ hq)
    refine ⟨k', foldlM_cons_ok.mpr ⟨k₁, hk₁, hk'⟩, ?_, fun i => ?_⟩
    · convert hq' using 1
      funext l
      rw [hys, List.append_assoc, ← List.singleton_append, List.filter_append]
      congr 2
      refine List.filter_congr fun q hq => ?_
      rw [ready, ready, hother q (hne q hq)]
    · rw [hproc']
      by_cases hij : i = j
      · subst hij; simp [hj, hself]
      · simp [hij, ready, hother i hij]

/-- The queues when the second loop starts. -/
theorem served_lists (hk : k.Queued xs) (hd : k.Distinct) :
    ∃ k₁ k₂, k.ageing = .ok k₁ ∧ slots.foldlM enqueueAt k₁ = .ok k₂ ∧
      k₂.Queued (k.served xs) ∧ k₂.ready = k.ready ∧
      ∀ q, k.ready q = true → (k₂.proc q).inQueue = true := by
  obtain ⟨k₁, hk₁, hq₁, hproc₁⟩ := ageing_lists hk hd
  obtain ⟨k₂, hk₂, hq₂, hproc₂⟩ := enqueue_prefix (List.nodup_finRange NPROC) hq₁
  have hready : k₁.ready = k.ready :=
    SameCore.ready (selects_sameCore.foldlM selects_sameCore.ageingAt hk₁)
  refine ⟨k₁, k₂, hk₁, hk₂, ?_, ?_, fun q hq => ?_⟩
  · convert hq₂ using 1
    funext l
    rw [served]
    congr 1
    refine List.filter_congr fun q _ => ?_
    rw [hready, hproc₁, agedProc, nextLevel]
    cases k.aged q <;> simp [climb]
  · rw [← hready]
    exact SameCore.ready (selects_sameCore.foldlM selects_sameCore.enqueueAt hk₂)
  · rw [hproc₂, if_pos ⟨List.mem_finRange q, by rw [hready]; exact hq⟩]

/-- **One call of the scheduler.** It returns the first runnable process in the order in which the
queues are served, and nothing exactly if there is none. The queues still agree with the processes;
the process returned is in none of them, and every other runnable process is in one. -/
theorem mlfqScheduler_serves (hk : k.Queued xs) (hd : k.Distinct) :
    ∃ k' r ys, k.mlfqScheduler = .ok (k', r) ∧
      (r = none ↔ ∀ p, (k.proc p).state ≠ .runnable) ∧
      r = ((List.finRange NMLFQ).flatMap (k.served xs)).find?
        (fun p => (k.proc p).state = .runnable) ∧
      k'.Queued ys ∧
      (∀ p, r = some p → (k'.proc p).inQueue = false) ∧
      ∀ q, (k.proc q).state = .runnable → r ≠ some q → (k'.proc q).inQueue = true := by
  obtain ⟨k₁, k₂, hk₁, hk₂, hq₂, hready, hin⟩ := served_lists hk hd
  obtain ⟨⟨k', r⟩, ys, hr, hfind, hq, hout, hstill⟩ :=
    takeLevels_ok hq₂ (List.nodup_finRange NMLFQ)
  dsimp only at hfind hout hstill
  rw [hready] at hfind hstill
  refine ⟨k', r, ys, ?_, ?_, hfind, hq, hout, fun q hrun hne => ?_⟩
  · rw [mlfqScheduler, hk₁]
    simp only [bind, Except.bind, hk₂, hr]
  · rw [hfind, List.find?_eq_none]
    constructor
    · intro hnone p hp
      have hp' : k.ready p = true := by simpa [ready] using hp
      obtain ⟨l, hl⟩ := hq₂.inQueue_iff.mp (hin p hp')
      exact hnone p (List.mem_flatMap.mpr ⟨l, List.mem_finRange l, hl⟩) hp'
    · intro hnone p _ hp
      exact hnone p (by simpa [ready] using hp)
  · have hrun' : k.ready q = true := by simpa [ready] using hrun
    exact hstill q hrun' (hin q hrun') hne

/-! ## Ageing and the order of service -/

/-- `p` is served before `q`: its level is lower, or it is ahead in the same queue. -/
def Ahead (xs : Fin NMLFQ → List Slot) (p q : Slot) : Prop :=
  ∃ l m, p ∈ xs l ∧ q ∈ xs m ∧ (l < m ∨ l = m ∧ [p, q].Sublist (xs l))

theorem Queued.level_eq (hk : k.Queued xs) {l : Fin NMLFQ} (hp : p ∈ xs l) :
    (k.proc p).level = l := ((hk.mem_iff p l).mp hp).2

/-- In a list without duplicates two elements come in one order only. -/
theorem not_sublist_swap {ys : List Slot} (hnodup : ys.Nodup) (hpq : [p, q].Sublist ys)
    (hqp : [q, p].Sublist ys) : False := by
  induction ys with
  | nil => cases hpq
  | cons a ys ih =>
    obtain ⟨ha, hnodup⟩ := List.nodup_cons.mp hnodup
    rcases List.cons_sublist_cons'.mp hpq with htail | ⟨rfl, -⟩
    · rcases List.cons_sublist_cons'.mp hqp with htail' | ⟨rfl, -⟩
      · exact ih hnodup htail htail'
      · exact ha (htail.subset (List.mem_cons_of_mem p List.mem_cons_self))
    · rcases List.cons_sublist_cons'.mp hqp with htail' | ⟨rfl, hp⟩
      · exact ha (htail'.subset (List.mem_cons_of_mem q List.mem_cons_self))
      · exact ha (hp.subset List.mem_cons_self)

/-- An aged process is served at the end of the queue of its next level. -/
theorem mem_served_of_aged (hp : k.aged p = true) : p ∈ k.served xs (k.nextLevel p) := by
  have hready : k.ready p = true := by
    rw [aged, decide_eq_true_eq] at hp
    simpa [ready] using hp.1
  rw [served, List.mem_append]
  exact .inr (List.mem_filter.mpr ⟨List.mem_finRange p, by simp [hready, hp]⟩)

/-- A queued process that is not aged keeps its place. -/
theorem mem_served_of_stayed {l : Fin NMLFQ} (hq : q ∈ xs l) (hnot : k.aged q = false) :
    q ∈ k.served xs l := by
  rw [served, List.mem_append]
  exact .inl (List.mem_filter.mpr ⟨hq, by simp [hnot]⟩)

/-- In one queue, a process that has aged is served behind one that has not. -/
theorem sublist_served {l : Fin NMLFQ} (hp : k.aged p = true) (hl : k.nextLevel p = l)
    (hq : q ∈ xs l) (hnot : k.aged q = false) : [q, p].Sublist (k.served xs l) := by
  have hready : k.ready p = true := by
    rw [aged, decide_eq_true_eq] at hp
    simpa [ready] using hp.1
  have hq' : [q].Sublist (k.stayed xs l) :=
    List.singleton_sublist.mpr (List.mem_filter.mpr ⟨hq, by simp [hnot]⟩)
  have hp' : [p].Sublist (slots.filter fun q =>
      k.ready q && (!(k.proc q).inQueue || k.aged q) && k.nextLevel q = l) :=
    List.singleton_sublist.mpr (List.mem_filter.mpr ⟨List.mem_finRange p, by simp [hready, hp, hl]⟩)
  exact hq'.append hp'

theorem nextLevel_of_aged (hp : k.aged p = true) :
    k.nextLevel p = if (k.proc p).level = 0 then 0 else (k.proc p).level - 1 := by
  rw [nextLevel, if_pos hp, climb]

theorem climb_lt : ∀ l m : Fin NMLFQ, l ≤ m → ¬ (l = 0 ∧ m = 0) →
    (if l = 0 then 0 else l - 1) < m := by
  decide

/-- Before and after ageing, the order of an aged process and one that is not. -/
theorem ahead_served_iff {k₂ : Kern} (hk : k.Queued xs) (hk₂ : k₂.Queued (k.served xs))
    (hahead : Ahead xs p q) (hp : k.aged p = true) (hq : k.aged q = false) :
    Ahead (k.served xs) p q ↔ ¬ ((k.proc p).level = 0 ∧ (k.proc q).level = 0) := by
  obtain ⟨l, m, hpl, hqm, horder⟩ := hahead
  have hlevel := hk.level_eq hpl
  have hlevel' := hk.level_eq hqm
  have hnext := nextLevel_of_aged hp
  have hserved : p ∈ k.served xs (k.nextLevel p) := mem_served_of_aged hp
  have hstayed := mem_served_of_stayed hqm hq
  rw [hlevel, hlevel']
  constructor
  · rintro hafter ⟨rfl, rfl⟩
    rw [hlevel, if_pos rfl] at hnext
    -- `q` has kept its place and `p` is behind it
    have hbehind := sublist_served hp hnext hqm hq
    obtain ⟨l', m', hp', hq', hlt | ⟨-, hsub⟩⟩ := hafter
    · have h₁ := (hk₂.level_eq hp').symm.trans (hk₂.level_eq (hnext ▸ hserved))
      have h₂ := (hk₂.level_eq hq').symm.trans (hk₂.level_eq hstayed)
      rw [h₁, h₂] at hlt
      exact absurd hlt (lt_irrefl _)
    · rw [(hk₂.level_eq hp').symm.trans (hk₂.level_eq (hnext ▸ hserved))] at hsub
      exact not_sublist_swap (hk₂.nodup 0) hsub hbehind
  · intro hnot
    refine ⟨k.nextLevel p, m, hserved, hstayed, .inl ?_⟩
    rw [hnext, hlevel]
    exact climb_lt l m (horder.elim le_of_lt fun heq => heq.1.le) hnot

/-- **Ageing and the order of service.** After ageing and the push pass, an aged process is still
ahead of one that is not unless both are at the top level. -/
theorem ahead_iff_not_top (hk : k.Queued xs) (hd : k.Distinct) (hahead : Ahead xs p q)
    (hp : k.aged p = true) (hq : k.aged q = false) :
    ∃ k₁ k₂ ys, k.ageing = .ok k₁ ∧ slots.foldlM enqueueAt k₁ = .ok k₂ ∧ k₂.Queued ys ∧
      (Ahead ys p q ↔ ¬ ((k.proc p).level = 0 ∧ (k.proc q).level = 0)) := by
  obtain ⟨k₁, k₂, hk₁, hk₂, hq₂, -, -⟩ := served_lists hk hd
  exact ⟨k₁, k₂, _, hk₁, hk₂, hq₂, ahead_served_iff hk hq₂ hahead hp hq⟩

/-- Two runnable processes in the queue of one level, the first of which has waited for long. -/
def twoQueued (level : Fin NMLFQ) : Kern :=
  { boot with
    proc := fun i =>
      if i = 0 then
        { Proc.zero with state := .runnable, pid := 1, inQueue := true, level }
      else if i = 1 then
        { Proc.zero with state := .runnable, pid := 2, inQueue := true, level, qEnter := 200 }
      else Proc.zero
    mlfq := fun l =>
      if l = level then
        { head := 0, tail := 2, size := 2,
          array := fun c => if c = 0 then some 0 else if c = 1 then some 1 else none }
      else Queue.empty
    ticks := 200 }

theorem queued_twoQueued (level : Fin NMLFQ) :
    (twoQueued level).Queued fun l => if l = level then [0, 1] else [] where
  holds l := by
    constructor
    · revert l level; decide +kernel
    · revert l level; decide +kernel
  nodup l := by split <;> decide
  mem_iff := by revert level; decide +kernel

theorem distinct_twoQueued (level : Fin NMLFQ) : (twoQueued level).Distinct := by
  have hpid : ∀ i, ((twoQueued level).proc i).pid = if i = 0 then 1 else if i = 1 then 2 else 0 := by
    intro i
    simp only [twoQueued]
    split_ifs <;> rfl
  intro p i hp heq
  have hp' : p = 0 ∨ p = 1 := by
    by_contra hnot
    rw [not_or] at hnot
    simp [twoQueued, hnot.1, hnot.2, Proc.zero] at hp
  rw [hpid, hpid] at heq
  have hne : (1 : Slot) ≠ 0 := by decide
  rcases hp' with rfl | rfl <;> grind

theorem ahead_twoQueued (level : Fin NMLFQ) :
    Ahead (fun l => if l = level then [0, 1] else []) 0 1 :=
  ⟨level, level, by simp, by simp, .inr ⟨rfl, by simp⟩⟩

/-- At the top level the process that has waited for long loses its place. -/
theorem twoQueued_swapped : ∃ k₁ k₂ ys, (twoQueued 0).aged 0 = true ∧ (twoQueued 0).aged 1 = false ∧
    (twoQueued 0).ageing = .ok k₁ ∧ slots.foldlM enqueueAt k₁ = .ok k₂ ∧ k₂.Queued ys ∧
    Ahead (fun l => if l = 0 then [0, 1] else []) 0 1 ∧ ¬ Ahead ys 0 1 := by
  obtain ⟨k₁, k₂, hk₁, hk₂, hq₂, -, -⟩ := served_lists (queued_twoQueued 0) (distinct_twoQueued 0)
  have hp : (twoQueued 0).aged 0 = true := by decide
  have hq : (twoQueued 0).aged 1 = false := by decide
  refine ⟨k₁, k₂, _, hp, hq, hk₁, hk₂, hq₂, ahead_twoQueued 0, ?_⟩
  rw [ahead_served_iff (queued_twoQueued 0) hq₂ (ahead_twoQueued 0) hp hq]
  decide

/-- One level below it does not. -/
theorem ahead_iff_not_top_twoQueued :
    ∃ k₁ k₂ ys, (twoQueued 1).ageing = .ok k₁ ∧ slots.foldlM enqueueAt k₁ = .ok k₂ ∧
      k₂.Queued ys ∧ Ahead ys 0 1 := by
  obtain ⟨k₁, k₂, ys, hk₁, hk₂, hys, hiff⟩ := ahead_iff_not_top (queued_twoQueued 1)
    (distinct_twoQueued 1) (ahead_twoQueued 1) (by decide) (by decide)
  exact ⟨k₁, k₂, ys, hk₁, hk₂, hys, hiff.mpr (by decide)⟩

/-- The process in front is returned. -/
theorem mlfqScheduler_serves_twoQueued :
    ∃ k' r ys, (twoQueued 1).mlfqScheduler = .ok (k', r) ∧ r = some 0 ∧ k'.Queued ys ∧
      (k'.proc 0).inQueue = false ∧ (k'.proc 1).inQueue = true := by
  obtain ⟨k', r, ys, hr, -, hfind, hq, hout, hin⟩ :=
    mlfqScheduler_serves (queued_twoQueued 1) (distinct_twoQueued 1)
  have hzero : r = some 0 := by rw [hfind]; decide +kernel
  exact ⟨k', r, ys, hr, hzero, hq, hout 0 hzero, hin 1 (by decide) (by rw [hzero]; decide)⟩

end Xv6.Kern
