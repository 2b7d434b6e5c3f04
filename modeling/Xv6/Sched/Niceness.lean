import Xv6.Sched.Pbs
import Xv6.Sched.Clock

/-!
# What niceness measures

The loop of `clockintr` divides before it multiplies by ten, so the niceness it computes is ten
for a process that never ran and zero for any other. It is the number of tenths of its time
that the process slept only at the two ends of the scale.
-/

namespace Xv6

namespace Proc

variable {x y : Proc}

/-- The tenths of its time that a process slept. -/
def share (x : Proc) : ℤ := 10 * x.sleepTime.toInt / (x.sleepTime.toInt + x.rtime.toInt)

/-- The counters that a tick divides are not negative, and their sum is positive. -/
structure Timed (x : Proc) : Prop where
  sleepTime : 0 ≤ x.clock.sleepTime
  rtime : 0 ≤ x.clock.rtime
  sum : 0 < x.clock.sleepTime + x.clock.rtime

/-- The priority of a process before it is clamped. -/
def rawPriority (x : Proc) : ℤ := x.staticPriority.toInt - x.niceness.toInt + 5

/-- No clamp applies to the priority of a process. -/
def Unclamped (x : Proc) : Prop := 0 ≤ x.rawPriority ∧ x.rawPriority ≤ 100

/-- What the niceness that a tick computes is to measure, for one process. -/
structure Measured (x : Proc) : Prop where
  niceness : x.clock.niceness.toInt = x.clock.share
  nonneg : 0 ≤ x.clock.niceness.toInt
  le_ten : x.clock.niceness.toInt ≤ 10
  priority : x.clock.dynamicPriority.toInt = max 0 (min x.clock.rawPriority 100)

/-- The niceness and the priority that a tick computes order two processes of one static
priority: by how long they slept and ran, and by the tenths of their time that they slept. -/
structure Ordered (x y : Proc) : Prop where
  mono : x.clock.sleepTime ≤ y.clock.sleepTime → y.clock.rtime ≤ x.clock.rtime →
    x.clock.niceness ≤ y.clock.niceness ∧ y.clock.dynamicPriority ≤ x.clock.dynamicPriority
  never_worse : x.clock.share < y.clock.share → y.clock.dynamicPriority ≤ x.clock.dynamicPriority
  better : x.clock.share < y.clock.share → x.clock.Unclamped → y.clock.Unclamped →
    y.clock.dynamicPriority < x.clock.dynamicPriority

/-- A process never ran, or it slept for less than a tenth of its time. -/
def AtEnd (x : Proc) : Prop :=
  x.clock.rtime = 0 ∨ 9 * x.clock.sleepTime.toInt < x.clock.rtime.toInt

theorem niceness_clock (x : Proc) : x.clock.niceness =
    divw x.clock.sleepTime (x.clock.sleepTime + x.clock.rtime) * 10 := rfl

theorem dynamicPriority_clock (x : Proc) : x.clock.dynamicPriority =
    max 0 (min (x.clock.staticPriority - x.clock.niceness + 5) 100) := rfl

/-! ## What a tick computes -/

namespace Timed

variable (hx : x.Timed)
include hx

theorem sleepTime_nonneg : 0 ≤ x.clock.sleepTime.toInt := by
  simpa using Int32.le_iff_toInt_le.mp hx.sleepTime

theorem rtime_nonneg : 0 ≤ x.clock.rtime.toInt := by
  simpa using Int32.le_iff_toInt_le.mp hx.rtime

/-- The sum of the counters does not overflow. -/
theorem toInt_sum : (x.clock.sleepTime + x.clock.rtime).toInt =
      x.clock.sleepTime.toInt + x.clock.rtime.toInt ∧
    0 < x.clock.sleepTime.toInt + x.clock.rtime.toInt := by
  have hpos : 0 < (x.clock.sleepTime + x.clock.rtime).toInt := by
    simpa using Int32.lt_iff_toInt_lt.mp hx.sum
  have hs := hx.sleepTime_nonneg
  have hr := hx.rtime_nonneg
  have hs' := x.clock.sleepTime.toInt_lt
  have hr' := x.clock.rtime.toInt_lt
  rw [Int32.toInt_add] at hpos ⊢
  rw [Int.bmod_def] at hpos ⊢
  split at hpos <;> omega

/-- **What niceness is**: ten for a process that never ran, zero for any other. -/
theorem toInt_niceness : x.clock.niceness.toInt = if x.clock.rtime.toInt = 0 then 10 else 0 := by
  obtain ⟨hsum, hpos⟩ := hx.toInt_sum
  have hs := hx.sleepTime_nonneg
  have hr := hx.rtime_nonneg
  have hne : x.clock.sleepTime + x.clock.rtime ≠ 0 := by
    rw [Ne, ← Int32.toInt_inj, hsum, Int32.toInt_zero]
    omega
  have hdiv : (x.clock.sleepTime / (x.clock.sleepTime + x.clock.rtime)).toInt =
      if x.clock.rtime.toInt = 0 then 1 else 0 := by
    rw [Int32.toInt_div, hsum, Int.tdiv_eq_ediv_of_nonneg hs]
    split
    · rename_i hzero
      rw [hzero, add_zero, Int.ediv_self (by omega)]
      rfl
    · rw [Int.ediv_eq_zero_of_lt hs (by omega)]
      rfl
  rw [niceness_clock, divw, if_neg hne, Int32.toInt_mul, hdiv]
  split <;> rfl

theorem share_eq_zero_iff :
    x.clock.share = 0 ↔ 9 * x.clock.sleepTime.toInt < x.clock.rtime.toInt := by
  obtain ⟨-, hpos⟩ := hx.toInt_sum
  have hs := hx.sleepTime_nonneg
  have hle : 0 ≤ x.clock.share := Int.ediv_nonneg (by omega) (by omega)
  have hlt : x.clock.share < 1 ↔ _ := Int.ediv_lt_iff_lt_mul hpos
  omega

theorem share_eq_ten (hr : x.clock.rtime.toInt = 0) : x.clock.share = 10 := by
  obtain ⟨-, hpos⟩ := hx.toInt_sum
  rw [share, hr, add_zero, Int.mul_ediv_cancel _ (by omega)]

/-- The niceness is the share exactly at the ends of the scale. -/
theorem niceness_eq_share_iff : x.clock.niceness.toInt = x.clock.share ↔ x.AtEnd := by
  have hzero : x.clock.rtime = 0 ↔ x.clock.rtime.toInt = 0 := by
    rw [← Int32.toInt_inj, Int32.toInt_zero]
  rw [hx.toInt_niceness, AtEnd, hzero]
  by_cases hr : x.clock.rtime.toInt = 0
  · simp [hr, hx.share_eq_ten hr]
  · rw [if_neg hr, eq_comm, hx.share_eq_zero_iff]
    simp [hr]

theorem niceness_mem : x.clock.niceness.toInt = 0 ∨ x.clock.niceness.toInt = 10 := by
  rw [hx.toInt_niceness]
  split
  · exact .inr rfl
  · exact .inl rfl

end Timed

theorem toInt_clamp (v : Int32) : (max 0 (min v 100)).toInt = max 0 (min v.toInt 100) := by
  have hmin : (min v 100).toInt = min v.toInt 100 := by
    have hle : v ≤ 100 ↔ v.toInt ≤ 100 := Int32.le_iff_toInt_le
    change (if v ≤ 100 then v else 100).toInt = _
    split
    · rw [min_eq_left (hle.mp ‹_›)]
    · rename_i hnot
      rw [hle] at hnot
      rw [min_eq_right (by omega)]
      rfl
  have hle : 0 ≤ min v 100 ↔ 0 ≤ min v.toInt 100 := by
    rw [Int32.le_iff_toInt_le, hmin, Int32.toInt_zero]
  change (if 0 ≤ min v 100 then min v 100 else 0).toInt = _
  split
  · rw [hmin, max_eq_right (hle.mp ‹_›)]
  · rename_i hnot
    rw [hle] at hnot
    rw [max_eq_left (by omega)]
    rfl

section Processes

variable (hx : x.Timed) (hpx : Kern.Priced x)
include hx hpx

theorem toInt_dynamicPriority :
    x.clock.dynamicPriority.toInt = max 0 (min x.clock.rawPriority 100) := by
  have hstatic : x.clock.staticPriority = x.staticPriority := by rw [clock_eq]
  have h₀ : 0 ≤ x.staticPriority.toInt := by simpa using Int32.le_iff_toInt_le.mp hpx.1.1
  have h₁ : x.staticPriority.toInt ≤ 100 := Int32.le_iff_toInt_le.mp hpx.1.2
  have hraw : (x.clock.staticPriority - x.clock.niceness + 5).toInt = x.clock.rawPriority := by
    have hfive : (5 : Int32).toInt = 5 := rfl
    have hn : 0 ≤ x.clock.niceness.toInt ∧ x.clock.niceness.toInt ≤ 10 := by
      rcases hx.niceness_mem with hn | hn <;> rw [hn] <;> decide
    have hsub : (x.staticPriority - x.clock.niceness).toInt =
        x.staticPriority.toInt - x.clock.niceness.toInt := by
      rw [Int32.toInt_sub]
      exact Int.bmod_eq_of_le (by omega) (by omega)
    rw [rawPriority, hstatic, Int32.toInt_add, hsub, hfive]
    exact Int.bmod_eq_of_le (by omega) (by omega)
  rw [dynamicPriority_clock, toInt_clamp, hraw]

theorem measured_iff : x.Measured ↔ x.AtEnd := by
  rw [← hx.niceness_eq_share_iff]
  constructor
  · exact fun h => h.niceness
  · intro h
    refine ⟨h, ?_, ?_, toInt_dynamicPriority hx hpx⟩ <;>
      rcases hx.niceness_mem with hn | hn <;> rw [hn] <;> decide

variable (hy : y.Timed) (hpy : Kern.Priced y) (hstatic : x.staticPriority = y.staticPriority)
include hy hpy hstatic

/-- A larger niceness gives a lower priority number. -/
theorem dynamicPriority_anti (hle : x.clock.niceness.toInt ≤ y.clock.niceness.toInt) :
    y.clock.dynamicPriority ≤ x.clock.dynamicPriority := by
  have hsx : x.clock.staticPriority = x.staticPriority := by rw [clock_eq]
  have hsy : y.clock.staticPriority = y.staticPriority := by rw [clock_eq]
  rw [Int32.le_iff_toInt_le, toInt_dynamicPriority hx hpx, toInt_dynamicPriority hy hpy,
    rawPriority, rawPriority, hsx, hsy, hstatic]
  omega

theorem ordered_of_atEnd (hxe : x.AtEnd) (hye : y.AtEnd) : Ordered x y := by
  have hnx := hx.niceness_eq_share_iff.mpr hxe
  have hny := hy.niceness_eq_share_iff.mpr hye
  refine ⟨fun hs hr => ?_, fun hlt => ?_, fun hlt hcx hcy => ?_⟩
  · have hle : x.clock.niceness.toInt ≤ y.clock.niceness.toInt := by
      have hr' : y.clock.rtime.toInt ≤ x.clock.rtime.toInt := Int32.le_iff_toInt_le.mp hr
      have hry := hy.rtime_nonneg
      rw [hx.toInt_niceness, hy.toInt_niceness]
      split_ifs <;> omega
    exact ⟨Int32.le_iff_toInt_le.mpr hle, dynamicPriority_anti hx hpx hy hpy hstatic hle⟩
  · exact dynamicPriority_anti hx hpx hy hpy hstatic (by omega)
  · have hsx : x.clock.staticPriority = x.staticPriority := by rw [clock_eq]
    have hsy : y.clock.staticPriority = y.staticPriority := by rw [clock_eq]
    rw [Unclamped, rawPriority] at hcx hcy
    rw [Int32.lt_iff_toInt_lt, toInt_dynamicPriority hx hpx, toInt_dynamicPriority hy hpy,
      rawPriority, rawPriority]
    rw [hsx, hstatic] at hcx ⊢
    rw [hsy] at hcy ⊢
    omega

/-- **What niceness measures.** For two processes of one static priority, the niceness and the
priority that a tick computes are those of the tenths of their time that they slept, exactly if
each of them never ran or slept for less than a tenth of its time. -/
theorem measured_iff_atEnd : x.Measured ∧ y.Measured ∧ Ordered x y ↔ x.AtEnd ∧ y.AtEnd := by
  rw [measured_iff hx hpx, measured_iff hy hpy]
  constructor
  · exact fun h => ⟨h.1, h.2.1⟩
  · exact fun h => ⟨h.1, h.2, ordered_of_atEnd hx hpx hy hpy hstatic h.1 h.2⟩

end Processes

/-- A new process with the given counters. -/
def counting (sleepTime rtime : Int32) : Proc :=
  { zero.alloc 1 0 with state := .runnable, sleepTime, rtime }

theorem measured_iff_atEnd_counting :
    (counting 1 0).Measured ∧ (counting 1 20).Measured ∧
      Ordered (counting 1 0) (counting 1 20) :=
  (measured_iff_atEnd (x := counting 1 0) (y := counting 1 20) ⟨by decide, by decide, by decide⟩
    (by decide) ⟨by decide, by decide, by decide⟩ (by decide) rfl).mpr
    ⟨.inl rfl, .inr (by decide)⟩

/-- A process that slept half of its time gets niceness 0 and not 5, and no better a priority
than one that never slept. -/
theorem counting_not_measured :
    (counting 1 1).Timed ∧ (counting 1 1).clock.share = 5 ∧ (counting 1 1).clock.niceness = 0 ∧
      ¬ (counting 1 1).Measured ∧ (counting 0 2).clock.share = 0 ∧
      (counting 0 2).clock.dynamicPriority = (counting 1 1).clock.dynamicPriority ∧
      ¬ Ordered (counting 0 2) (counting 1 1) := by
  refine ⟨⟨by decide, by decide, by decide⟩, by decide, by decide, fun h => ?_, by decide,
    by decide, fun h => ?_⟩
  · exact absurd h.niceness (by decide)
  · exact absurd (h.better (by decide) ⟨by decide, by decide⟩ ⟨by decide, by decide⟩) (by decide)

end Proc

end Xv6
