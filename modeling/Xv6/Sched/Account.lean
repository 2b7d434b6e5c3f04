import Xv6.Sched.Life

/-!
# Accounting of CPU time

`rtime` is meant to count the clock ticks at which a process was running, and `waitx` reports
`etime - ctime - rtime` as the time it waited. A run is recorded together with the true counts.
A tick charges a running process twice, and the one on hart 0 three times, so the accounts agree
with the counts only as long as no tick finds a process running.
-/

namespace Xv6.Kern

open Lib

variable {b : Build} {k k' : Kern} {a : Act}

/-- What is recorded of the process in a slot: the clock ticks since its creation that found it
running, and those of them that found it on hart 0. -/
structure Meter where
  ran : ℕ
  front : ℕ

/-- The record after a step. -/
def countTicks (k : Kern) (a : Act) (g : Slot → Meter) (i : Slot) : Meter :=
  if (k.proc i).state = .unused then ⟨0, 0⟩
  else if isTick a ∧ (k.proc i).state = .running then
    ⟨(g i).ran + 1, (g i).front + if (k.cpu 0).proc = some i then 1 else 0⟩
  else g i

variable {g : Slot → Meter}

theorem countTicks_unused {i : Slot} (hi : (k.proc i).state = .unused) :
    countTicks k a g i = ⟨0, 0⟩ := if_pos hi

theorem countTicks_running {i : Slot} (ha : isTick a = true)
    (hi : (k.proc i).state = .running) : countTicks k a g i =
      ⟨(g i).ran + 1, (g i).front + if (k.cpu 0).proc = some i then 1 else 0⟩ := by
  rw [countTicks, if_neg (by simp [hi]), if_pos ⟨ha, hi⟩]

theorem countTicks_idle {i : Slot} (hi : (k.proc i).state ≠ .unused)
    (hidle : ¬ (isTick a = true ∧ (k.proc i).state = .running)) : countTicks k a g i = g i := by
  rw [countTicks, if_neg hi, if_neg hidle]

/-- The kernel with the record of its ticks. -/
abbrev metered (b : Build) : Kern × (Slot → Meter) → Act → Option (Kern × (Slot → Meter)) :=
  recorded (Kern.next b) countTicks

/-- The booted kernel, with nothing recorded. -/
def meteredBoot : Kern × (Slot → Meter) := (boot, fun _ => ⟨0, 0⟩)

/-- The accounts of the process table are those of the record: `rtime` is the number of ticks
the process ran for, an exited process ran for no longer than it lived, and the wait time
`waitx` reports for it is the difference of the two. -/
structure Accounted (s : Kern × (Slot → Meter)) : Prop where
  rtime : ∀ i, (s.1.proc i).state ≠ .unused → (s.1.proc i).rtime.toInt = (s.2 i).ran
  lived : ∀ i, (s.1.proc i).state = .zombie → 0 ≤ (s.1.proc i).rtime.toInt ∧
    (s.1.proc i).rtime.toInt ≤ ((s.1.proc i).etime - (s.1.proc i).ctime).toInt
  waited : ∀ i, (s.1.proc i).state = .zombie → ((s.1.proc i).times.2.toNat : ℤ) =
    (s.1.proc i).etime.toInt - (s.1.proc i).ctime.toInt - (s.1.proc i).rtime.toInt

/-- No clock tick finds a process running. -/
def IdleTick (k : Kern) (a : Act) : Prop := isTick a → ∀ i, (k.proc i).state ≠ .running

/-- The clock stays below the largest `int`. -/
def UptimeFits (k : Kern) (a : Act) : Prop := isTick a → k.ticks.toNat + 1 < 2 ^ 31

instance (k : Kern) (a : Act) : Decidable (IdleTick k a) := by unfold IdleTick; infer_instance
instance (k : Kern) (a : Act) : Decidable (UptimeFits k a) := by unfold UptimeFits; infer_instance

/-- What a tick does to `rtime`. -/
theorem rtime_tick (hs : k.Sane) (ha : isTick a = true) (hnext : Kern.next b k a = some k')
    (i : Slot) : ((k'.proc i).state = .unused ↔ (k.proc i).state = .unused) ∧
      (k'.proc i).rtime = (k.proc i).rtime + (if (k.proc i).state = .running then 2 else 0) +
        if (k.cpu 0).proc = some i then 1 else 0 := by
  cases a with
  | timer h user =>
    have hh : h = 0 := by simpa [isTick] using ha
    subst hh
    have ht := (trapped_of_next hs hnext).framed (π := Proc.rtime) (fun _ _ _ _ _ _ => rfl) hs
    refine ⟨(ht.unused_iff i).trans (unused_devintr k 0 i), (ht.field i).trans ?_⟩
    rw [devintr, if_pos rfl, rtime_clockintr]
  | _ => simp [isTick] at ha

/-- `rtime` holds two for every tick the process ran for, and one more for those on hart 0. -/
def Charged (s : Kern × (Slot → Meter)) : Prop :=
  ∀ i, (s.1.proc i).state ≠ .unused →
    (s.1.proc i).rtime = Int32.ofNat (2 * (s.2 i).ran + (s.2 i).front)

variable {s t : Kern × (Slot → Meter)}

theorem Charged.next (hs : s.1.Sane) (hc : Charged s)
    (hnext : metered b s a = some t) : Charged t := by
  obtain ⟨hstep, hnote⟩ := recorded_eq_some.mp hnext
  intro i hi
  rw [hnote]
  cases ha : isTick a with
  | false =>
    rcases kept_of_not_tick (π := Proc.rtime) (fun _ _ _ _ _ _ _ _ _ _ _ _ _ _ _ _ => rfl) hs ha
      hstep i hi with ⟨hlive, hkept⟩ | ⟨hfree, par, hborn⟩
    · rw [countTicks_idle hlive (by simp [ha]), ← hc i hlive, hkept]
    · rw [countTicks_unused hfree, hborn]; rfl
  | true =>
    obtain ⟨hunused, hrtime⟩ := rtime_tick hs ha hstep i
    have hlive : (s.1.proc i).state ≠ .unused := fun hun => hi (hunused.mpr hun)
    rw [hrtime, hc i hlive]
    by_cases hrun : (s.1.proc i).state = .running
    · rw [countTicks_running ha hrun, if_pos hrun]
      dsimp only
      split
      · rw [show 2 * ((s.2 i).ran + 1) + ((s.2 i).front + 1) =
          2 * (s.2 i).ran + (s.2 i).front + 2 + 1 by omega, Int32.ofNat_add _ 1,
          Int32.ofNat_add _ 2]
        rfl
      · rw [show 2 * ((s.2 i).ran + 1) + ((s.2 i).front + 0) =
          2 * (s.2 i).ran + (s.2 i).front + 2 by omega, Int32.ofNat_add _ 2, Int32.add_zero]
        rfl
    · have hcpu : (s.1.cpu 0).proc ≠ some i := fun hp => hrun (hs.running 0 i hp)
      rw [countTicks_idle hlive (by simp [hrun]), if_neg hrun, if_neg hcpu]
      simp

/-- **What `rtime` counts.** In every state of every run, `rtime` is twice the number of ticks
the process ran for plus the number of those on hart 0. -/
theorem charged_of_visits {as : List Act} {s : Kern × (Slot → Meter)}
    (hs : Visits (metered b) meteredBoot as s) : Charged s := by
  refine Visits.induction ?_ (fun t a u ht hu hc => ?_) hs
  · intro i _
    have : (boot.proc i).rtime = 0 := by revert i; decide
    simpa [meteredBoot] using this
  · exact hc.next (sane_of_reachable ht.visits_start.forget.reachable) hu

/-! ## Lifetimes -/

theorem toInt_toInt32 {t : UInt32} (ht : t.toNat < 2 ^ 31) : t.toInt32.toInt = t.toNat := by
  have ht' : 2 * t.toBitVec.toNat < 2 ^ 32 := by rw [UInt32.toNat_toBitVec]; omega
  exact BitVec.toInt_eq_toNat_of_lt ht'

theorem toInt_sub_of_le {x y : Int32} (hy : 0 ≤ y.toInt) (hxy : y.toInt ≤ x.toInt) :
    (x - y).toInt = x.toInt - y.toInt := by
  have hx := x.toInt_lt
  rw [Int32.toInt_sub]
  exact Int.bmod_eq_of_le (by omega) (by omega)

theorem toNat_toUInt32_of_nonneg {x : Int32} (hx : 0 ≤ x.toInt) :
    (x.toUInt32.toNat : ℤ) = x.toInt := by
  have hcond : x.toInt = _ := BitVec.toInt_eq_toNat_cond x.toBitVec
  have hlt := x.toBitVec.isLt
  change (x.toBitVec.toNat : ℤ) = x.toInt
  split at hcond <;> omega

/-- No process was created or has exited later than now. -/
structure Timely (k : Kern) : Prop where
  ticks : k.ticks.toNat < 2 ^ 31
  created : ∀ i, (k.proc i).state ≠ .unused →
    0 ≤ (k.proc i).ctime.toInt ∧ (k.proc i).ctime.toInt ≤ k.ticks.toNat
  exited : ∀ i, (k.proc i).state = .zombie → (k.proc i).ctime.toInt ≤ (k.proc i).etime.toInt

theorem timely_boot : boot.Timely := by
  refine ⟨by decide, ?_, ?_⟩ <;> decide

/-- The time of creation is written at creation only. -/
theorem kept_ctime (hs : k.Sane) (hnext : Kern.next b k a = some k') : Kept Proc.ctime k k' := by
  cases ha : isTick a with
  | false =>
    exact kept_of_not_tick (fun _ _ _ _ _ _ _ _ _ _ _ _ _ _ _ _ => rfl) hs ha hnext
  | true =>
    cases a with
    | timer h user =>
      exact ((framed_devintr (fun _ _ _ _ _ _ _ _ => rfl) k h).trans
        ((trapped_of_next hs hnext).framed (fun _ _ _ _ _ _ => rfl) hs)).kept
    | _ => simp [isTick] at ha

theorem Timely.next (hs : k.Sane) (ht : k.Timely) (hfits : UptimeFits k a)
    (hnext : Kern.next b k a = some k') : k'.Timely := by
  have hticks := ticks_next hs hnext
  have hle : k'.ticks.toNat < 2 ^ 31 ∧ k.ticks.toNat ≤ k'.ticks.toNat := by
    rw [hticks]
    split
    · have hlt : k.ticks.toNat + 1 < 2 ^ 31 := hfits ‹_›
      rw [UInt32.toNat_add, UInt32.toNat_one]
      omega
    · exact ⟨ht.ticks, le_rfl⟩
  have hcreated : ∀ i, (k'.proc i).state ≠ .unused →
      0 ≤ (k'.proc i).ctime.toInt ∧ (k'.proc i).ctime.toInt ≤ k'.ticks.toNat := by
    intro i hi
    rcases kept_ctime hs hnext i hi with ⟨hlive, hkept⟩ | ⟨-, par, hborn⟩
    · have := ht.created i hlive
      rw [hkept]; omega
    · have hctime : (k'.proc i).ctime = k.ticks.toInt32 := by rw [hborn]; rfl
      rw [hctime, toInt_toInt32 ht.ticks]; omega
  refine ⟨hle.1, hcreated, fun i hi => ?_⟩
  have hlive : (k'.proc i).state ≠ .unused := by rw [hi]; simp
  rcases ended_next hs hnext i hi with ⟨hz, hetime⟩ | ⟨-, hetime⟩
  · rcases kept_ctime hs hnext i hlive with ⟨-, hkept⟩ | ⟨hfree, -⟩
    · rw [hkept, hetime]; exact ht.exited i hz
    · rw [hz] at hfree; cases hfree
  · rw [hetime, toInt_toInt32 hle.1]; exact (hcreated i hlive).2

/-- Nothing has been charged to a process yet. -/
def Unmetered (s : Kern × (Slot → Meter)) : Prop :=
  ∀ i, (s.1.proc i).state ≠ .unused → s.2 i = ⟨0, 0⟩

theorem Unmetered.next (hu : Unmetered s)
    (hidle : IdleTick s.1 a) (hnext : metered b s a = some t) : Unmetered t := by
  obtain ⟨hstep, hnote⟩ := recorded_eq_some.mp hnext
  intro i hi
  rw [hnote]
  by_cases hfree : (s.1.proc i).state = .unused
  · exact countTicks_unused hfree
  · rw [countTicks_idle hfree fun h => hidle h.1 i h.2]
    exact hu i hfree

/-- If no tick has been charged and the clock has not wrapped around, the accounts agree. -/
theorem Unmetered.accounted {s : Kern × (Slot → Meter)} (hu : Unmetered s) (hc : Charged s)
    (ht : s.1.Timely) : Accounted s := by
  have hzero : ∀ i, (s.1.proc i).state ≠ .unused → (s.1.proc i).rtime = 0 := fun i hi => by
    rw [hc i hi, hu i hi]; rfl
  have hlife : ∀ i, (s.1.proc i).state = .zombie →
      (s.1.proc i).rtime = 0 ∧ 0 ≤ (s.1.proc i).ctime.toInt ∧
        (s.1.proc i).ctime.toInt ≤ (s.1.proc i).etime.toInt := fun i hi =>
    have hlive : (s.1.proc i).state ≠ .unused := by rw [hi]; simp
    ⟨hzero i hlive, (ht.created i hlive).1, ht.exited i hi⟩
  refine ⟨fun i hi => ?_, fun i hi => ?_, fun i hi => ?_⟩
  · rw [hzero i hi, hu i hi]; rfl
  · obtain ⟨hr, h₀, h₁⟩ := hlife i hi
    rw [toInt_sub_of_le h₀ h₁, hr, Int32.toInt_zero]
    omega
  · obtain ⟨hr, h₀, h₁⟩ := hlife i hi
    have hsub := toInt_sub_of_le h₀ h₁
    have hwait : (s.1.proc i).times.2 = ((s.1.proc i).etime - (s.1.proc i).ctime).toUInt32 := by
      rw [Proc.times, hr, Int32.sub_zero]
    rw [hwait, toNat_toUInt32_of_nonneg (by omega), hsub, hr, Int32.toInt_zero, sub_zero]

/-! ## The accounts of a run -/

theorem toInt_add_ne {x c : Int32} (hc : c ≠ 1) : (x + c).toInt ≠ x.toInt + 1 := by
  intro heq
  have hone : x + c = x + 1 := by
    rw [← Int32.ofInt_toInt (x + c), heq, Int32.ofInt_add, Int32.ofInt_toInt]
    rfl
  exact hc (Int32.add_right_inj x |>.mp hone)

/-- A tick that finds a process running puts its account wrong. -/
theorem idleTick_of_accounted (hs : s.1.Sane) (h₀ : Accounted s)
    (h₁ : Accounted t) (hnext : metered b s a = some t) : IdleTick s.1 a := by
  obtain ⟨hstep, hnote⟩ := recorded_eq_some.mp hnext
  intro ha i hrun
  have hlive : (s.1.proc i).state ≠ .unused := by rw [hrun]; simp
  obtain ⟨hunused, hrtime⟩ := rtime_tick hs ha hstep i
  have hbefore := h₀.rtime i hlive
  have hafter := h₁.rtime i fun hun => hlive (hunused.mp hun)
  rw [hnote, countTicks_running ha hrun, hrtime, if_pos hrun] at hafter
  push_cast at hafter
  rw [← hbefore, Int32.add_assoc] at hafter
  split at hafter
  · exact toInt_add_ne (by decide) hafter
  · exact toInt_add_ne (by decide) hafter

/-- **When the accounts are right.** In a run of any build and any number of harts in which the
clock stays below the largest `int`, the accounts of all processes are right in every state
exactly when no clock tick finds a process running. -/
theorem accounted_iff_idleTick {as : List Act} {e : Kern × (Slot → Meter)}
    (hrun : exec (metered b) meteredBoot as = some e)
    (hfits : ∀ s a, Takes (metered b) meteredBoot as s a → UptimeFits s.1 a) :
    (∀ s, Visits (metered b) meteredBoot as s → Accounted s) ↔
      ∀ s a, Takes (metered b) meteredBoot as s a → IdleTick s.1 a := by
  have hsane : ∀ s, Visits (metered b) meteredBoot as s → s.1.Sane :=
    fun s hs => sane_of_reachable hs.forget.reachable
  constructor
  · intro hall s a hs
    obtain ⟨t, ht⟩ := hs.enabled hrun
    exact idleTick_of_accounted (hsane s hs.visits_start) (hall s hs.visits_start)
      (hall t (hs.visits ht)) ht
  · intro hidle s hs
    have hgood : s.1.Timely ∧ Unmetered s := by
      refine Visits.induction (P := fun s => s.1.Timely ∧ Unmetered s)
        ⟨timely_boot, fun _ _ => rfl⟩ (fun t a u ht hu hgood => ?_) hs
      have hsane := hsane t ht.visits_start
      exact ⟨hgood.1.next hsane (hfits t a ht) (recorded_eq_some.mp hu).1,
        hgood.2.next (hidle t a ht) hu⟩
    exact hgood.2.accounted (charged_of_visits hs) hgood.1

/-- All ticks come while init waits for its child or before it runs. -/
def idleRun : List Act :=
  [.timer 0 false, .select 0, .dispatch 0, .fork 0 true true, .wait 0 true, .timer 0 false,
    .select 0, .dispatch 0, .exit 0 0, .timer 0 false]

theorem accounted_idleRun : ∃ e, exec (metered .mlfq) meteredBoot idleRun = some e ∧
    ∀ s, Visits (metered .mlfq) meteredBoot idleRun s → Accounted s := by
  obtain ⟨e, hrun⟩ : ∃ e, exec (guarded (fun s a => UptimeFits s.1 a ∧ IdleTick s.1 a)
      (metered .mlfq)) meteredBoot idleRun = some e := ⟨_, rfl⟩
  obtain ⟨hexec, hok⟩ := exec_guarded hrun
  exact ⟨e, hexec, (accounted_iff_idleTick hexec fun s a hs => (hok s a hs).1).mpr
    fun s a hs => (hok s a hs).2⟩

/-- Two harts: a child runs on hart 1 for one tick and exits. -/
def chargedRun : List Act :=
  [.select 0, .dispatch 0, .fork 0 true true, .select 1, .dispatch 1, .timer 0 false, .exit 1 0]

/-- The child has lived for one tick and run for one, but its `rtime` is two, and the wait time
reported for it underflows. -/
theorem chargedRun_underflows : ∃ e, exec (metered .mlfq) meteredBoot chargedRun = some e ∧
    (e.1.proc 1).state = .zombie ∧ (e.2 1).ran = 1 ∧ (e.1.proc 1).rtime = 2 ∧
    (e.1.proc 1).etime - (e.1.proc 1).ctime = 1 ∧ (e.1.proc 1).times.2 = 4294967295 ∧
    ¬ Accounted e := by
  obtain ⟨e, hrun, hz, hran, hrtime, hlife, htimes⟩ :
      ∃ e, exec (metered .mlfq) meteredBoot chargedRun = some e ∧
        (e.1.proc 1).state = .zombie ∧ (e.2 1).ran = 1 ∧ (e.1.proc 1).rtime = 2 ∧
        (e.1.proc 1).etime - (e.1.proc 1).ctime = 1 ∧ (e.1.proc 1).times.2 = 4294967295 :=
    ⟨_, rfl, rfl, rfl, rfl, rfl, rfl⟩
  refine ⟨e, hrun, hz, hran, hrtime, hlife, htimes, fun hacc => ?_⟩
  have heq := hacc.rtime 1 (by rw [hz]; simp)
  rw [hran, hrtime] at heq
  exact absurd heq (by decide)

end Xv6.Kern
