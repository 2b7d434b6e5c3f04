import Mathlib.Order.Fin.Basic
import Xv6.Lib.Least
import Xv6.Sched.Account

/-!
# What the first-come scheduler selects

`fcfs` compares creation times, which count ticks, and moves on to a later slot also when the
times are equal. Among the processes created in the earliest tick it selects the one in the
highest slot, which need not be the one created first.
-/

namespace Xv6.Kern

open Lib

variable {b : Build} {k k' : Kern} {a : Act}

/-! ## The order of creation -/

/-- A process with a smaller pid was created no later. -/
def Seniority (k : Kern) : Prop :=
  ∀ i j, (k.proc i).state ≠ .unused → (k.proc j).state ≠ .unused →
    (k.proc i).pid.toInt < (k.proc j).pid.toInt → (k.proc i).ctime.toInt ≤ (k.proc j).ctime.toInt

/-- The pid and the time of creation are written at creation only. -/
theorem kept_birth (hs : k.Sane) (hnext : Kern.next b k a = some k') :
    Kept (fun x => (x.pid, x.ctime)) k k' := by
  cases ha : isTick a with
  | false => exact kept_of_not_tick (fun _ _ _ _ _ _ _ _ _ _ _ _ _ _ _ _ => rfl) hs ha hnext
  | true =>
    cases a with
    | timer h user =>
      exact ((framed_devintr (fun _ _ _ _ _ _ _ _ => rfl) k h).trans
        ((trapped_of_next hs hnext).framed (fun _ _ _ _ _ _ => rfl) hs)).kept
    | _ => simp [isTick] at ha

theorem Seniority.next (hs : k.Sane) (hpid : k.PidSane) (ht : k.Timely) (hk : k.Seniority)
    (hnext : Kern.next b k a = some k') : k'.Seniority := by
  have hborn : ∀ {i}, Born k (k.proc i) (k'.proc i) →
      (k'.proc i).pid = k.nextpid ∧ (k'.proc i).ctime.toInt = k.ticks.toNat := by
    rintro i ⟨-, par, heq⟩
    rw [heq]
    exact ⟨rfl, toInt_toInt32 ht.ticks⟩
  intro i j hi hj hlt
  rcases kept_birth hs hnext i hi with ⟨hlive, hkept⟩ | hnew
  · obtain ⟨hpi, hci⟩ := Prod.mk.inj hkept
    rw [hpi] at hlt
    rw [hci]
    rcases kept_birth hs hnext j hj with ⟨hlive', hkept'⟩ | hnew'
    · obtain ⟨hpj, hcj⟩ := Prod.mk.inj hkept'
      rw [hpj] at hlt
      rw [hcj]
      exact hk i j hlive hlive' hlt
    · rw [(hborn hnew').2]
      exact (ht.created i hlive).2
  · -- the child has the largest pid, so none is larger
    exfalso
    rw [(hborn hnew).1] at hlt
    rcases kept_birth hs hnext j hj with ⟨-, hkept'⟩ | hnew'
    · obtain ⟨hpj, -⟩ := Prod.mk.inj hkept'
      have hlt' := hpid.lt j
      rw [hpj] at hlt
      omega
    · rw [(hborn hnew').1] at hlt
      exact lt_irrefl _ hlt

/-- The steps over which neither the clock nor the pids wrap around. -/
def Bounded (k : Kern) (a : Act) : Prop := UptimeFits k a ∧ NoWrap k a

instance (k : Kern) (a : Act) : Decidable (Bounded k a) := by unfold Bounded; infer_instance

theorem seniority_of_reach (hk : Reach (Kern.next b) Bounded boot k) :
    k.PidSane ∧ k.Timely ∧ k.Seniority := by
  refine (hk.invariant (P := fun k => k.Sane ∧ k.PidSane ∧ k.Timely ∧ k.Seniority)
    ⟨sane_boot, pidSane_boot, timely_boot, ?_⟩ ?_).2
  · intro i j hi hj hlt
    have hzero : ∀ i, (boot.proc i).ctime = 0 := by decide
    rw [hzero, hzero]
  · rintro s a t ⟨hfits, hwrap⟩ hnext ⟨hs, hpid, ht, hsen⟩
    exact ⟨hs.next hnext, hpid.next hs hwrap hnext, ht.next hs hfits hnext,
      hsen.next hs hpid ht hnext⟩

/-! ## The pass -/

/-- What `fcfs` orders processes by: the time of creation, then the slot from the highest down. -/
def age (k : Kern) (i : Slot) : ℤ ×ₗ Slotᵒᵈ := toLex ((k.proc i).ctime.toInt, OrderDual.toDual i)

theorem age_lt_age {i j : Slot} (hji : j < i) :
    k.age i < k.age j ↔ (k.proc i).ctime ≤ (k.proc j).ctime := by
  rw [age, age, Prod.Lex.toLex_lt_toLex, Int32.le_iff_toInt_le, le_iff_lt_or_eq]
  simp only [OrderDual.toDual_lt_toDual, hji, and_true]

/-- While no process was created later than now, the pass ends with the last of the runnable
processes of the earliest time. -/
theorem fcfs_cases (hk : ∀ i, (k.proc i).state = .runnable → (k.proc i).ctime ≤ k.ticks.toInt32) :
    (∀ q, (k.proc q).state ≠ .runnable) ∨ (k.proc k.fcfs).state = .runnable ∧
      ∀ q, (k.proc q).state = .runnable → k.age k.fcfs ≤ k.age q := by
  have hpass := least_of_pass (f := k.age) (c := fun i => (k.proc i).state = .runnable)
    (fun is j => k.fcfsLoop is j (k.proc j).ctime)
    (fun is => k.fcfsLoop is 0 k.ticks.toInt32) (fun _ => rfl)
    (fun {j i is} hlt => ?_) rfl (fun i is => ?_) (List.pairwise_lt_finRange NPROC)
  · simp only [List.mem_finRange, forall_const, decide_eq_false_iff_not, decide_eq_true_eq] at hpass
    exact hpass.imp_left And.left
  · have hage := age_lt_age (k := k) hlt
    rw [fcfsLoop]
    split_ifs <;> simp_all
  · rw [fcfsLoop]
    by_cases hi : (k.proc i).state = .runnable
    · simp [hi, hk i hi]
    · simp [hi]

/-- **First come, first served.** In a run in which neither the clock nor the pids wrap around,
`fcfs` selects the runnable process that was created first exactly if none of the runnable
processes created in the same tick is in a higher slot. -/
theorem fcfs_first_iff (hk : Reach (Kern.next .fcfs) Bounded boot k) {q : Slot}
    (hq : (k.proc q).state = .runnable)
    (hfirst : ∀ j, (k.proc j).state = .runnable → (k.proc q).pid ≤ (k.proc j).pid) :
    k.fcfs = q ↔
      ∀ j, (k.proc j).state = .runnable → (k.proc j).ctime = (k.proc q).ctime → j ≤ q := by
  obtain ⟨hpid, ht, hsen⟩ := seniority_of_reach hk
  have hlive : ∀ {i}, (k.proc i).state = .runnable → (k.proc i).state ≠ .unused := by
    intro i hi
    rw [hi]
    simp
  have hnow : ∀ i, (k.proc i).state = .runnable → (k.proc i).ctime ≤ k.ticks.toInt32 := by
    intro i hi
    rw [Int32.le_iff_toInt_le, toInt_toInt32 ht.ticks]
    exact (ht.created i (hlive hi)).2
  rcases fcfs_cases hnow with hnone | ⟨hrun, hleast⟩
  · exact absurd hq (hnone q)
  · constructor
    · rintro rfl j hj heq
      have hle := hleast j hj
      rw [age, age, heq, Prod.Lex.toLex_le_toLex] at hle
      simpa using hle
    · intro hhigh
      have hle := hleast q hq
      rw [age, age, Prod.Lex.toLex_le_toLex] at hle
      -- the first process is not younger than the selected one
      have hold : (k.proc q).ctime.toInt ≤ (k.proc k.fcfs).ctime.toInt := by
        rcases eq_or_lt_of_le (Int32.le_iff_toInt_le.mp (hfirst k.fcfs hrun)) with heq | hlt
        · have hsame : q = k.fcfs := hpid.inj q k.fcfs (Int32.toInt_inj.mp heq) fun hzero =>
            hlive hq ((hpid.unused_iff q).mpr hzero)
          rw [← hsame]
        · exact hsen q k.fcfs (hlive hq) (hlive hrun) hlt
      rcases hle with hlt | ⟨heq, hge⟩
      · exact absurd hold (not_le.mpr hlt)
      · exact le_antisymm (hhigh k.fcfs hrun (Int32.toInt_inj.mp heq)) (by simpa using hge)

/-- Init makes two children, in two ticks if `tick` holds, and waits for them. -/
def twoChildren (tick : Bool) : List Act :=
  [.select 0, .dispatch 0, .fork 0 true true] ++ (if tick then [.timer 0 true] else []) ++
    [.fork 0 true true, .wait 0 true]

/-- Two children made in different ticks are taken in order. -/
theorem fcfs_first_twoChildren : ∃ e, Reach (Kern.next .fcfs) Bounded boot e ∧
    (e.proc 1).pid = 2 ∧ (e.proc 2).pid = 3 ∧ e.fcfs = 1 := by
  obtain ⟨e, hrun, hrest⟩ : ∃ e,
      exec (guarded Bounded (Kern.next .fcfs)) boot (twoChildren true) = some e ∧
        (e.proc 1).pid = 2 ∧ (e.proc 2).pid = 3 ∧ (e.proc 1).state = .runnable ∧
        (∀ j, (e.proc j).state = .runnable → (e.proc 1).pid ≤ (e.proc j).pid) ∧
        ∀ j, (e.proc j).state = .runnable → (e.proc j).ctime = (e.proc 1).ctime → j ≤ 1 :=
    ⟨_, rfl, by decide +kernel⟩
  obtain ⟨h₁, h₂, hq, hfirst, hhigh⟩ := hrest
  exact ⟨e, reach_of_guarded hrun, h₁, h₂,
    (fcfs_first_iff (reach_of_guarded hrun) hq hfirst).mpr hhigh⟩

/-- Two children made in the same tick: the second is taken first. -/
theorem fcfs_takes_second : ∃ e, Reach (Kern.next .fcfs) Bounded boot e ∧
    (e.proc 1).state = .runnable ∧ (e.proc 1).pid = 2 ∧ (e.proc 2).pid = 3 ∧ e.fcfs = 2 := by
  obtain ⟨e, hrun, hrest⟩ : ∃ e,
      exec (guarded Bounded (Kern.next .fcfs)) boot (twoChildren false) = some e ∧
        (e.proc 1).state = .runnable ∧ (e.proc 1).pid = 2 ∧ (e.proc 2).pid = 3 ∧ e.fcfs = 2 :=
    ⟨_, rfl, by decide +kernel⟩
  exact ⟨e, reach_of_guarded hrun, hrest⟩

end Xv6.Kern
