import Xv6.Sched.Slots
import Xv6.Sched.Account

/-!
# The arithmetic of the clock

At every tick `clockintr` divides, for each slot of the process table, the time the process slept
by the sum of that and the time it ran. This module settles when that arithmetic is defined, and
when its result is the share of the time that was spent sleeping.
-/

namespace Xv6

/-- An `int` can be incremented. -/
def Increments (n : Int32) : Prop := n.toInt + 1 < 2 ^ 31

instance (n : Int32) : Decidable (Increments n) := by unfold Increments; infer_instance

/-- The loop body of `clockintr` is defined on a slot: neither increment nor the sum overflows,
and the divisor is not zero. -/
structure Proc.ClockDefined (x : Proc) : Prop where
  sleepTime : x.state = .sleeping → Increments x.sleepTime
  rtime : x.state = .running → Increments x.rtime
  sum : -2 ^ 31 ≤ x.clock.sleepTime.toInt + x.clock.rtime.toInt ∧
    x.clock.sleepTime.toInt + x.clock.rtime.toInt < 2 ^ 31
  divisor : x.clock.sleepTime + x.clock.rtime ≠ 0

theorem Proc.sleepTime_clock (x : Proc) :
    x.clock.sleepTime = x.sleepTime + if x.state = .sleeping then 1 else 0 := by
  rw [Proc.clock_eq]

theorem Proc.rtime_clock (x : Proc) :
    x.clock.rtime = x.rtime + if x.state = .running then 1 else 0 := by
  rw [Proc.clock_eq]

namespace Kern

open Lib

variable {b : Build} {k k' : Kern} {a : Act}

/-- A tick of the clock is defined: the increments of `update_time`, that of the interrupted
process, and the loop over the table. -/
structure ClockDefined (k : Kern) : Prop where
  updateTime : ∀ i, (k.proc i).state = .running → Increments (k.proc i).rtime
  charge : ∀ p, (k.cpu 0).proc = some p → Increments (k.updateTime.proc p).rtime
  body : ∀ i, (tickProc (k.cpu 0).proc i (k.proc i)).ClockDefined

/-- The process in a slot sleeps and the tick does not wake it. -/
def SleepsOn (x : Proc) : Prop := x.state = .sleeping ∧ x.chan ≠ some .ticks

instance (x : Proc) : Decidable (SleepsOn x) := by unfold SleepsOn; infer_instance

/-- What a tick adds to `rtime` before the loop of `clockintr` comes to the slot. -/
def charged (k : Kern) (i : Slot) : ℕ :=
  (if (k.proc i).state = .running then 1 else 0) + if (k.cpu 0).proc = some i then 1 else 0

/-- What a tick adds to the counters of a slot. -/
def gain (k : Kern) (i : Slot) : ℕ :=
  k.charged i + (if SleepsOn (k.proc i) then 1 else 0) +
    if (k.proc i).state = .running then 1 else 0

/-- A tick finds every slot, used or not, running or asleep or with a counter that is not zero,
and the counters of each stay below the largest `int`. -/
structure Counted (k : Kern) : Prop where
  started : ∀ i, (k.proc i).state = .running ∨ SleepsOn (k.proc i) ∨
    (k.proc i).sleepTime ≠ 0 ∨ (k.proc i).rtime ≠ 0
  fits : ∀ i, (k.proc i).sleepTime.toInt + (k.proc i).rtime.toInt + k.gain i < 2 ^ 31

/-- The counters of a slot are not negative. -/
def Tallied (x : Proc) : Prop := 0 ≤ x.sleepTime.toInt ∧ 0 ≤ x.rtime.toInt

/-! ## Counting -/

theorem toInt_add_of_lt {x y : Int32} (hx : 0 ≤ x.toInt) (hy : 0 ≤ y.toInt)
    (h : x.toInt + y.toInt < 2 ^ 31) : (x + y).toInt = x.toInt + y.toInt := by
  rw [Int32.toInt_add]
  exact Int.bmod_eq_of_le (by omega) (by omega)

theorem sleepTime_tickProc (me : Option Slot) (i : Slot) (x : Proc) :
    (tickProc me i x).sleepTime = x.sleepTime := by
  unfold tickProc
  dsimp only [Proc.countLevel]
  split_ifs <;> rfl

/-- A slot of the table stays asleep over a tick. -/
theorem Sane.sleeping_tickProc (hs : k.Sane) (i : Slot) :
    (tickProc (k.cpu 0).proc i (k.proc i)).state = .sleeping ↔ SleepsOn (k.proc i) := by
  have hme : (k.proc i).state = .sleeping → some i ≠ (k.cpu 0).proc := by
    intro hi heq
    have := hs.running 0 i heq.symm
    rw [hi] at this
    cases this
  rw [state_tickProc, SleepsOn]
  by_cases hi : (k.proc i).state = .sleeping
  · by_cases hc : (k.proc i).chan = some .ticks <;> simp [hi, hc, hme hi]
  · simp [hi]

theorem running_tickProc (me : Option Slot) (i : Slot) (x : Proc) :
    (tickProc me i x).state = .running ↔ x.state = .running := by
  rw [state_tickProc]
  split_ifs with hwake
  · simp [hwake.2.1]
  · rfl

theorem add_ne_zero_iff {x y : Int32} (hx : 0 ≤ x.toInt) (hy : 0 ≤ y.toInt)
    (h : x.toInt + y.toInt < 2 ^ 31) : x + y ≠ 0 ↔ 0 < x.toInt + y.toInt := by
  have hsum := toInt_add_of_lt hx hy h
  rw [Ne, ← Int32.toInt_inj, hsum, Int32.toInt_zero]
  omega

/-- What the loop body needs of two counters. -/
theorem sum_defined_iff {x y : Int32} (hx : 0 ≤ x.toInt) (hy : 0 ≤ y.toInt) :
    (-2 ^ 31 ≤ x.toInt + y.toInt ∧ x.toInt + y.toInt < 2 ^ 31) ∧ x + y ≠ 0 ↔
      0 < x.toInt + y.toInt ∧ x.toInt + y.toInt < 2 ^ 31 := by
  constructor
  · rintro ⟨⟨-, hlt⟩, hne⟩
    exact ⟨(add_ne_zero_iff hx hy hlt).mp hne, hlt⟩
  · rintro ⟨hpos, hlt⟩
    exact ⟨⟨by omega, hlt⟩, (add_ne_zero_iff hx hy hlt).mpr hpos⟩

/-- Where its increments are defined, the loop body counts. -/
theorem toInt_clock {x : Proc} (hx : Tallied x)
    (hs : x.state = .sleeping → Increments x.sleepTime)
    (hr : x.state = .running → Increments x.rtime) :
    x.clock.sleepTime.toInt = x.sleepTime.toInt + (if x.state = .sleeping then 1 else 0) ∧
      x.clock.rtime.toInt = x.rtime.toInt + if x.state = .running then 1 else 0 := by
  have hone : (1 : Int32).toInt = 1 := rfl
  rw [Proc.sleepTime_clock, Proc.rtime_clock]
  constructor
  · split
    · exact toInt_add_of_lt hx.1 (by omega) (hs ‹_›)
    · simp
  · split
    · exact toInt_add_of_lt hx.2 (by omega) (hr ‹_›)
    · simp

theorem tallied_clock {x : Proc} (hx : Tallied x) (hdef : x.ClockDefined) : Tallied x.clock := by
  obtain ⟨hse, hre⟩ := toInt_clock hx hdef.sleepTime hdef.rtime
  obtain ⟨h₀, h₁⟩ := hx
  constructor
  · rw [hse]
    split <;> omega
  · rw [hre]
    split <;> omega

/-- The loop body on a slot whose counters are not negative. -/
theorem clockDefined_iff {x : Proc} (hx : Tallied x) : x.ClockDefined ↔
    (x.state = .sleeping → Increments x.sleepTime) ∧ (x.state = .running → Increments x.rtime) ∧
      0 < x.sleepTime.toInt + x.rtime.toInt + (if x.state = .sleeping then 1 else 0) +
        (if x.state = .running then 1 else 0) ∧
      x.sleepTime.toInt + x.rtime.toInt + (if x.state = .sleeping then 1 else 0) +
        (if x.state = .running then 1 else 0) < 2 ^ 31 := by
  have hsum : ∀ hs : x.state = .sleeping → Increments x.sleepTime,
      ∀ hr : x.state = .running → Increments x.rtime,
      0 ≤ x.clock.sleepTime.toInt ∧ 0 ≤ x.clock.rtime.toInt ∧
        x.clock.sleepTime.toInt + x.clock.rtime.toInt = x.sleepTime.toInt + x.rtime.toInt +
          (if x.state = .sleeping then 1 else 0) + if x.state = .running then 1 else 0 := by
    intro hs hr
    obtain ⟨hse, hre⟩ := toInt_clock hx hs hr
    obtain ⟨h₀, h₁⟩ := hx
    rw [hse, hre]
    split_ifs <;> omega
  constructor
  · rintro ⟨hs, hr, hrange, hdiv⟩
    obtain ⟨h₀, h₁, heq⟩ := hsum hs hr
    rw [← heq]
    exact ⟨hs, hr, (sum_defined_iff h₀ h₁).mp ⟨hrange, hdiv⟩⟩
  · rintro ⟨hs, hr, hpos⟩
    obtain ⟨h₀, h₁, heq⟩ := hsum hs hr
    rw [← heq] at hpos
    obtain ⟨hrange, hdiv⟩ := (sum_defined_iff h₀ h₁).mpr hpos
    exact ⟨hs, hr, hrange, hdiv⟩

/-! ## A tick -/

section Tick

variable (hs : k.Sane) {i : Slot}

theorem rtime_updateTime (k : Kern) (i : Slot) : (k.updateTime.proc i).rtime =
    (k.proc i).rtime + if (k.proc i).state = .running then 1 else 0 := by
  change (if (k.proc i).state = .running then _ else k.proc i).rtime = _
  split <;> simp

include hs

/-- The increments before the loop are defined exactly if their sum is, and then that is what
the loop finds. -/
theorem charged_iff (hi : Tallied (k.proc i)) :
    (((k.proc i).state = .running → Increments (k.proc i).rtime) ∧
      ((k.cpu 0).proc = some i → Increments (k.updateTime.proc i).rtime) ↔
        (k.proc i).rtime.toInt + k.charged i < 2 ^ 31) ∧
    ((k.proc i).rtime.toInt + k.charged i < 2 ^ 31 →
      (tickProc (k.cpu 0).proc i (k.proc i)).rtime.toInt =
        (k.proc i).rtime.toInt + k.charged i) := by
  obtain ⟨-, hi⟩ := hi
  have hlt := (k.proc i).rtime.toInt_lt
  have hone : (1 : Int32).toInt = 1 := rfl
  rw [rtime_updateTime, rtime_tickProc, charged]
  by_cases hrun : (k.proc i).state = .running
  · have hfst : (k.proc i).rtime.toInt + 1 < 2 ^ 31 →
        ((k.proc i).rtime + 1).toInt = (k.proc i).rtime.toInt + 1 :=
      fun h => toInt_add_of_lt hi (by omega) h
    by_cases hme : (k.cpu 0).proc = some i
    · simp only [hrun, hme, if_true, forall_const, Increments]
      refine ⟨⟨fun h => ?_, fun h => ?_⟩, fun h => ?_⟩
      · have heq := hfst h.1
        omega
      · have heq := hfst (by omega)
        omega
      · have heq := hfst (by omega)
        rw [toInt_add_of_lt (by omega) (by omega) (by omega), heq, hone]
        omega
    · simp only [hrun, hme, if_true, if_false, forall_const, false_imp_iff, and_true, Increments,
        Int32.add_zero]
      exact ⟨Iff.rfl, hfst⟩
  · have hme : (k.cpu 0).proc ≠ some i := fun hme => hrun (hs.running 0 i hme)
    simp only [hrun, hme, if_false, false_imp_iff, and_true, Int32.add_zero, true_iff]
    exact ⟨by omega, fun _ => by omega⟩

/-- On a slot whose counters are not negative, a tick is defined exactly if the counters stay
below the largest `int` and do not stay zero. -/
theorem tick_iff (hi : Tallied (k.proc i)) :
    (((k.proc i).state = .running → Increments (k.proc i).rtime) ∧
      ((k.cpu 0).proc = some i → Increments (k.updateTime.proc i).rtime)) ∧
      (tickProc (k.cpu 0).proc i (k.proc i)).ClockDefined ↔
    ((k.proc i).state = .running ∨ SleepsOn (k.proc i) ∨
      (k.proc i).sleepTime ≠ 0 ∨ (k.proc i).rtime ≠ 0) ∧
      (k.proc i).sleepTime.toInt + (k.proc i).rtime.toInt + k.gain i < 2 ^ 31 := by
  obtain ⟨hiff, hrtime⟩ := charged_iff hs hi
  have hsleep := sleepTime_tickProc (k.cpu 0).proc i (k.proc i)
  have hbody : (k.proc i).rtime.toInt + k.charged i < 2 ^ 31 →
      ((tickProc (k.cpu 0).proc i (k.proc i)).ClockDefined ↔
        (SleepsOn (k.proc i) → (k.proc i).sleepTime.toInt + 1 < 2 ^ 31) ∧
        ((k.proc i).state = .running → (k.proc i).rtime.toInt + k.charged i + 1 < 2 ^ 31) ∧
        0 < (k.proc i).sleepTime.toInt + (k.proc i).rtime.toInt + k.gain i ∧
        (k.proc i).sleepTime.toInt + (k.proc i).rtime.toInt + k.gain i < 2 ^ 31) := by
    intro hlt
    have htally : Tallied (tickProc (k.cpu 0).proc i (k.proc i)) :=
      ⟨by rw [hsleep]; exact hi.1, by have := hi.2; rw [hrtime hlt]; omega⟩
    rw [clockDefined_iff htally]
    simp only [hs.sleeping_tickProc i, running_tickProc, hsleep, Increments, hrtime hlt, gain]
    push_cast
    simp only [add_assoc]
  have hzero : ∀ {x : Int32}, x ≠ 0 ↔ x.toInt ≠ 0 := by
    intro x
    rw [Ne, ← Int32.toInt_inj, Int32.toInt_zero]
  obtain ⟨h₀, h₁⟩ := hi
  have hgain : (k.gain i : ℤ) = k.charged i + (if SleepsOn (k.proc i) then 1 else 0) +
      if (k.proc i).state = .running then 1 else 0 := by
    rw [gain]
    push_cast
    rfl
  have hcharged : (k.proc i).state ≠ .running → k.charged i = 0 := by
    intro hrun
    rw [charged, if_neg hrun, if_neg fun hme => hrun (hs.running 0 i hme)]
  rw [hiff, hzero, hzero]
  constructor
  · rintro ⟨hlt, hdef⟩
    obtain ⟨-, -, hpos, hfit⟩ := (hbody hlt).mp hdef
    refine ⟨?_, hfit⟩
    by_contra hnot
    simp only [not_or, not_not] at hnot
    obtain ⟨hrun, hsl, hse, hre⟩ := hnot
    rw [hgain, if_neg hrun, if_neg hsl, hcharged hrun, hse, hre] at hpos
    exact absurd hpos (by decide)
  · rintro ⟨hstart, hfit⟩
    have hlt : (k.proc i).rtime.toInt + k.charged i < 2 ^ 31 := by
      split_ifs at hgain <;> omega
    refine ⟨hlt, (hbody hlt).mpr ⟨fun hsl => ?_, fun hrun => ?_, ?_, hfit⟩⟩
    · rw [if_pos hsl] at hgain
      split at hgain <;> omega
    · rw [if_pos hrun] at hgain
      split at hgain <;> omega
    · rcases hstart with hrun | hsl | hse | hre
      · rw [if_pos hrun] at hgain
        split at hgain <;> omega
      · rw [if_pos hsl] at hgain
        split at hgain <;> omega
      · omega
      · omega

variable (hk : k.Each Tallied)
include hk

/-- A tick on counters that are not negative is defined exactly if it finds them started and
they fit. -/
theorem clockDefined_iff_counted : k.ClockDefined ↔ k.Counted := by
  constructor
  · intro hdef
    have hall := fun i => (tick_iff hs (hk i)).mp
      ⟨⟨hdef.updateTime i, hdef.charge i⟩, hdef.body i⟩
    exact ⟨fun i => (hall i).1, fun i => (hall i).2⟩
  · intro hc
    have hall := fun i => (tick_iff hs (hk i)).mpr ⟨hc.started i, hc.fits i⟩
    exact ⟨fun i => (hall i).1.1, fun i => (hall i).1.2, fun i => (hall i).2⟩

theorem tallied_clockintr (hdef : k.ClockDefined) : (k.clockintr (k.cpu 0).proc).Each Tallied := by
  intro i
  obtain ⟨hiff, hrtime⟩ := charged_iff hs (hk i)
  have hlt := hiff.mp ⟨hdef.updateTime i, hdef.charge i⟩
  rw [proc_clockintr]
  refine tallied_clock ⟨?_, ?_⟩ (hdef.body i)
  · rw [sleepTime_tickProc]
    exact (hk i).1
  · have hnonneg := (hk i).2
    rw [hrtime hlt]
    omega

end Tick

/-! ## Runs -/

theorem lasting_tallied : Lasting Tallied fun _ => True where
  frame := by
    intro x y heq hx
    simp only [Proc.account, Prod.mk.injEq] at heq
    rw [Tallied, heq.1, heq.2.1]
    exact hx
  alloc x pid t hx := ⟨hx.1, le_rfl⟩
  range := fun _ _ _ => trivial
  priority x v _ hx := ⟨le_rfl, hx.2⟩
  dynamic := fun _ _ => trivial

theorem tallied_boot : boot.Each Tallied := by
  unfold Each Tallied
  decide

/-- **When the clock's arithmetic is defined.** In a run of any build and any number of harts,
every tick is defined exactly if every tick finds every slot of the table running, asleep or
with a counter that is not zero, and the counters fit. -/
theorem clockDefined_iff_of_run (b : Build) (as : List Act) :
    (∀ s a, Takes (Kern.next b) boot as s a → isTick a = true → s.ClockDefined) ↔
      ∀ s a, Takes (Kern.next b) boot as s a → isTick a = true → s.Counted := by
  have hsane : ∀ s, Visits (Kern.next b) boot as s → s.Sane :=
    fun s hs => sane_of_reachable hs.reachable
  have htally : (∀ s a, Takes (Kern.next b) boot as s a → isTick a = true → s.Each Tallied →
      s.ClockDefined) → ∀ s, Visits (Kern.next b) boot as s → s.Each Tallied := by
    intro hall s hs
    refine Visits.induction tallied_boot (fun t a u ht hu hk => ?_) hs
    have htsane := hsane t ht.visits_start
    exact lasting_tallied.next htsane hk
      (fun ha => tallied_clockintr htsane hk (hall t a ht ha hk)) hu
  constructor
  · intro hall s a hs ha
    have hk := htally (fun s a hs ha _ => hall s a hs ha) s hs.visits_start
    exact (clockDefined_iff_counted (hsane s hs.visits_start) hk).mp (hall s a hs ha)
  · intro hall s a hs ha
    have hmpr := fun s a hs ha hk =>
      (clockDefined_iff_counted (hsane s (hs : Takes (Kern.next b) boot as s a).visits_start)
        hk).mpr (hall s a hs ha)
    exact hmpr s a hs ha (htally hmpr s hs.visits_start)

/-- At the first tick no process has slept or run yet, and the clock divides by zero. -/
theorem boot_divides_by_zero :
    Takes (Kern.next .rr) boot [.timer 0 false] boot (.timer 0 false) ∧
      (tickProc (boot.cpu 0).proc initproc (boot.proc initproc)).clock.sleepTime +
        (tickProc (boot.cpu 0).proc initproc (boot.proc initproc)).clock.rtime = 0 ∧
      ¬ boot.ClockDefined := by
  have hzero : (tickProc (boot.cpu 0).proc initproc (boot.proc initproc)).clock.sleepTime +
      (tickProc (boot.cpu 0).proc initproc (boot.proc initproc)).clock.rtime = 0 := rfl
  exact ⟨⟨[], by simp, rfl⟩, hzero, fun hdef => (hdef.body initproc).divisor hzero⟩

/-- Two harts: init fills the table with children, each of which goes to sleep on hart 1; then the
clock ticks twice. -/
def crowdedRun : List Act :=
  [.select 0, .dispatch 0] ++ List.replicate 63 (.fork 0 true true) ++
    (List.replicate 63 [.select 1, .dispatch 1, .sleep 1 (.addr 1)]).flatten ++
      [.timer 0 false, .timer 0 true]

instance (k : Kern) : Decidable k.Counted :=
  decidable_of_iff (_ ∧ _) ⟨fun h => ⟨h.1, h.2⟩, fun h => ⟨h.1, h.2⟩⟩

theorem crowdedRun_defined : ∃ e, exec (Kern.next .fcfs) boot crowdedRun = some e ∧
    ∀ s a, Takes (Kern.next .fcfs) boot crowdedRun s a → isTick a = true → s.ClockDefined := by
  have hsome : (exec (guarded (fun s a => isTick a = true → s.Counted) (Kern.next .fcfs)) boot
      crowdedRun).isSome = true := by
    decide +kernel
  obtain ⟨e, hrun⟩ := Option.isSome_iff_exists.mp hsome
  obtain ⟨hexec, hok⟩ := exec_guarded hrun
  exact ⟨e, hexec, (clockDefined_iff_of_run .fcfs crowdedRun).mpr hok⟩

end Kern

end Xv6
