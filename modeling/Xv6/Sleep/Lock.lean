import Xv6.Lib.Run
import Xv6.Param

/-!
# Sleep locks

`acquiresleep`, `releasesleep` and `holdingsleep` of `kernel/sleeplock.c` on one lock, line by line,
by the processes of the table. `sleep` takes `p->lock` before it gives up `lk->lk` and keeps it
until the scheduler has the hart; `wakeup` and `kill` look at a process only while its lock is free.
-/

namespace Xv6.SleepLock

open Lib
open Function (update update_of_ne update_self)

variable {n : ℕ}

/-- The line a process is at. -/
inductive Pc (n : ℕ) where
  /-- In no call. -/
  | idle
  /-- `acquiresleep`: at `acquire(&lk->lk)`. -/
  | enter
  /-- At `while (lk->locked)`. -/
  | test
  /-- In `sleep`: at `acquire(&p->lock)`. -/
  | sleep
  /-- At `release(lk)`. -/
  | drop
  /-- At `p->state = SLEEPING`. -/
  | nap
  /-- `SLEEPING`, in `sched` with `p->lock`. -/
  | sched
  /-- `SLEEPING`, and `p->lock` is free. -/
  | asleep
  /-- `RUNNABLE`, to return from `sleep` through `acquire(lk)`. -/
  | woken
  /-- At `lk->locked = 1; lk->pid = myproc()->pid;`. -/
  | set
  /-- At `release(&lk->lk)` and the return of `acquiresleep`. -/
  | leave
  /-- `releasesleep`: at `acquire(&lk->lk)`. -/
  | free
  /-- At `lk->locked = 0; lk->pid = 0;`. -/
  | clear
  /-- In `wakeup(lk)`, with `qs` to visit; then at `release(&lk->lk)`. -/
  | wake (qs : List (Fin n))
  /-- `holdingsleep`: at `acquire(&lk->lk)`. -/
  | ask
  /-- At `r = lk->locked && (lk->pid == myproc()->pid)`. -/
  | look
  /-- At `release(&lk->lk)` and `return r`. -/
  | answer (r : Bool)
  deriving DecidableEq

structure Sys (n : ℕ) where
  locked : Bool
  pid : ℕ
  /-- The holder of `lk->lk`. -/
  spin : Option (Fin n)
  pc : Fin n → Pc n
  /-- The process is between a return of `acquiresleep` and its call of `releasesleep`. -/
  holds : Fin n → Bool

inductive Call where
  | acquiresleep
  | releasesleep
  | holdingsleep

inductive Act (n : ℕ) where
  | call (p : Fin n) (c : Call)
  | line (p : Fin n)
  | kill (q : Fin n)

namespace Sys

def go (s : Sys n) (p : Fin n) (pc : Pc n) : Sys n := { s with pc := update s.pc p pc }

/-- `acquire(&lk->lk)` -/
def acquire (s : Sys n) (p : Fin n) (pc : Pc n) : Option (Sys n) :=
  if s.spin = none then some { s.go p pc with spin := some p } else none

/-- `release(&lk->lk)` -/
def release (s : Sys n) (p : Fin n) (pc : Pc n) : Sys n := { s.go p pc with spin := none }

/-- `if(p->state == SLEEPING) p->state = RUNNABLE;` -/
def rouse (s : Sys n) (q : Fin n) : Sys n := s.go q (if s.pc q = .asleep then .woken else s.pc q)

/-- The lock of the process is held. -/
def plock (s : Sys n) (q : Fin n) : Bool :=
  s.pc q = .drop || s.pc q = .nap || s.pc q = .sched

/-- The next line of a process; `pid` is the table of process ids. -/
def line (pid : Fin n ↪ ℕ) (s : Sys n) (p : Fin n) : Option (Sys n) :=
  match s.pc p with
  | .enter => s.acquire p .test
  | .test => some (s.go p (if s.locked then .sleep else .set))
  | .sleep => some (s.go p .drop)
  | .drop => some (s.release p .nap)
  | .nap => some (s.go p .sched)
  | .sched => some (s.go p .asleep)
  | .woken => s.acquire p .test
  | .set => some { s.go p .leave with locked := true, pid := pid p }
  | .leave => some { s.release p .idle with holds := update s.holds p true }
  | .free => s.acquire p .clear
  | .clear => some { s.go p (.wake (List.finRange n)) with locked := false, pid := 0 }
  | .wake [] => some (s.release p .idle)
  | .wake (q :: qs) =>
    if q ≠ p → s.plock q = false then some ((s.rouse q).go p (.wake qs)) else none
  | .ask => s.acquire p .look
  | .look => some (s.go p (.answer (s.locked && s.pid == pid p)))
  | .answer _ => some (s.release p .idle)
  | .idle => none
  | .asleep => none

/-- A call by a process that is in none; a process releases the lock only if it holds it. -/
def call (s : Sys n) (p : Fin n) (c : Call) : Option (Sys n) :=
  if s.pc p = .idle then
    match c with
    | .acquiresleep => some (s.go p .enter)
    | .releasesleep =>
      if s.holds p then some { s.go p .free with holds := update s.holds p false } else none
    | .holdingsleep => some (s.go p .ask)
  else none

def step (pid : Fin n ↪ ℕ) (s : Sys n) : Act n → Option (Sys n)
  | .call p c => s.call p c
  | .line p => s.line pid p
  | .kill q => if s.plock q then none else some (s.rouse q)

/-- `initsleeplock` -/
def boot (n : ℕ) : Sys n := ⟨false, 0, none, fun _ => .idle, fun _ => false⟩

end Sys

/-! ## The invariant -/

/-- Between an acquire and a release of `lk->lk`. -/
def Pc.inside : Pc n → Bool
  | .test | .sleep | .drop | .set | .leave | .clear | .wake _ | .look | .answer _ => true
  | _ => false

/-- On the way to sleep, or asleep. -/
def Pc.dozes : Pc n → Bool
  | .drop | .nap | .sched | .asleep => true
  | _ => false

/-- The process has set `lk->locked`, and not yet cleared it. -/
def Sys.Owns (s : Sys n) (p : Fin n) : Prop :=
  s.holds p = true ∨ s.pc p = .leave ∨ s.pc p = .free ∨ s.pc p = .clear

/-- The holder of `lk->lk` is the process between its acquire and its release. -/
def Sys.Spins (s : Sys n) : Prop := ∀ p, (s.pc p).inside = true ↔ s.spin = some p

/-- `lk->locked` and `lk->pid` say who owns the lock. -/
structure Sys.Owned (pid : Fin n ↪ ℕ) (s : Sys n) : Prop where
  locked : s.locked = true ↔ ∃ p, s.Owns p
  pid : ∀ p, s.Owns p → s.pid = pid p
  set : ∀ p, s.pc p = .set → s.locked = false
  given : ∀ p, s.pc p = .free ∨ s.pc p = .clear → s.holds p = false
  answer : ∀ p r, s.pc p = .answer r → r = s.holds p

/-- Who dozes on a free lock is still to be visited by a `wakeup`. -/
structure Sys.Waited (s : Sys n) : Prop where
  sleep : ∀ p, s.pc p = .sleep → s.locked = true
  dozes : ∀ q, (s.pc q).dozes = true →
    s.locked = true ∨ ∃ p qs, s.pc p = .wake qs ∧ q ∈ qs

namespace Sys

variable {pid : Fin n ↪ ℕ} {s u : Sys n} {p q : Fin n}

attribute [local simp] Pc.inside

attribute [local simp] go release rouse Function.update_apply

theorem Spins.unique (hs : s.Spins) (hp : (s.pc p).inside = true) (hq : (s.pc q).inside = true) :
    p = q := by
  have := (hs p).mp hp
  rw [(hs q).mp hq] at this
  simpa using this.symm

theorem Spins.line (hs : s.Spins) (hu : s.line pid p = some u) : u.Spins := by
  intro q
  have hp := hs p
  have hq := hs q
  unfold Sys.line acquire at hu
  split at hu <;> simp only [Option.ite_none_right_eq_some, Option.some.injEq, reduceCtorEq] at hu
  all_goals
    obtain ⟨_, rfl⟩ := hu
    by_cases h : p = q
  all_goals simp_all [apply_ite]
  all_goals grind

section
variable (hu : s.line pid p = some u)
include hu

/-- The lock and its owner change only at the lines that write `lk->locked`. -/
theorem line_quiet (hset : s.pc p ≠ .set)
    (hclear : s.pc p ≠ .clear) : u.locked = s.locked ∧ u.pid = s.pid ∧ (u.Owns q ↔ s.Owns q) := by
  unfold Sys.line acquire at hu
  split at hu <;> simp only [Option.ite_none_right_eq_some, Option.some.injEq, reduceCtorEq] at hu
  all_goals
    obtain ⟨_, rfl⟩ := hu
    by_cases h : p = q
  all_goals simp_all [Owns]
  all_goals grind

theorem line_set (hset : s.pc p = .set) :
    u.locked = true ∧ u.pid = pid p ∧ (u.Owns q ↔ s.Owns q ∨ q = p) := by
  simp only [Sys.line, hset, Option.some.injEq] at hu
  subst hu
  by_cases h : q = p <;> simp [Owns, h]

theorem line_clear (hclear : s.pc p = .clear) :
    u.locked = false ∧ u.pc p = .wake (List.finRange n) ∧
      (s.holds p = false → u.Owns q → s.Owns q ∧ q ≠ p) := by
  simp only [Sys.line, hclear, Option.some.injEq] at hu
  subst hu
  by_cases h : q = p <;> simp [Owns, h]

/-- How a process gets to a line that the invariant speaks of. -/
theorem line_pc : (u.pc q = .set → s.pc q = .set ∧ q ≠ p ∨ s.locked = false ∧ u.locked = false) ∧
    (u.pc q = .sleep → s.pc q = .sleep ∨ u.locked = true) ∧
    ((u.pc q).dozes = true → (s.pc q).dozes = true ∨ s.pc q = .sleep) ∧
    (u.pc q = .free ∨ u.pc q = .clear →
      u.holds q = s.holds q ∧ (s.pc q = .free ∨ s.pc q = .clear)) ∧
    ∀ r, u.pc q = .answer r → u.holds q = s.holds q ∧
      (s.pc q = .answer r ∨ s.pc q = .look ∧ r = (s.locked && s.pid == pid q)) := by
  unfold Sys.line acquire at hu
  split at hu <;> simp only [Option.ite_none_right_eq_some, Option.some.injEq, reduceCtorEq] at hu
  all_goals
    obtain ⟨_, rfl⟩ := hu
    by_cases h : q = p
  all_goals simp_all [Pc.dozes]
  all_goals grind

/-- A process that a `wakeup` has still to visit is woken or stays on its list. -/
theorem line_wake {r : Fin n} {qs : List (Fin n)}
    (hr : s.pc r = .wake qs) (hq : q ∈ qs) (hd : (u.pc q).dozes = true) :
    ∃ qs', u.pc r = .wake qs' ∧ q ∈ qs' := by
  unfold Sys.line acquire at hu
  split at hu <;> simp only [Option.ite_none_right_eq_some, Option.some.injEq, reduceCtorEq] at hu
  all_goals
    obtain ⟨_, rfl⟩ := hu
    by_cases h : r = p
  all_goals simp_all [Pc.dozes, plock]
  all_goals grind

end

theorem Owned.holding (hs : s.Owned pid) : (s.locked && s.pid == pid p) = true ↔ s.Owns p := by
  rw [Bool.and_eq_true, hs.locked, beq_iff_eq]
  constructor
  · rintro ⟨⟨q, hq⟩, hp⟩
    rwa [← pid.injective ((hs.pid q hq).symm.trans hp)]
  · exact fun hp => ⟨⟨p, hp⟩, hs.pid p hp⟩

theorem Owned.unique (hs : s.Owned pid) (hp : s.Owns p) (hq : s.Owns q) : p = q :=
  pid.injective ((hs.pid p hp).symm.trans (hs.pid q hq))

theorem Owned.owners_line (hs : s.Owned pid) (hu : s.line pid p = some u) :
    (u.locked = true ↔ ∃ q, u.Owns q) ∧ ∀ q, u.Owns q → u.pid = pid q := by
  by_cases hset : s.pc p = .set
  · have hfree : ∀ q, ¬ s.Owns q := by simpa [hs.set p hset] using hs.locked
    have hown : ∀ q, u.Owns q ↔ q = p := by simp [(line_set hu hset).2.2, hfree]
    simp [hown, line_set (q := p) hu hset]
  by_cases hclear : s.pc p = .clear
  · obtain ⟨hl, -⟩ := line_clear (q := p) hu hclear
    have hnone : ∀ q, ¬ u.Owns q := by
      intro q hq
      obtain ⟨hsq, hne⟩ := (line_clear hu hclear).2.2 (hs.given p (Or.inr hclear)) hq
      exact hne (hs.unique hsq (by simp [Owns, hclear]))
    simp [hl, hnone]
  · have hquiet := fun q => line_quiet (q := q) hu hset hclear
    simp only [hquiet, (hquiet p).1, (hquiet p).2.1]
    exact ⟨hs.locked, hs.pid⟩

theorem Owned.line (hx : s.Spins) (hs : s.Owned pid) (hu : s.line pid p = some u) :
    u.Owned pid := by
  refine ⟨(hs.owners_line hu).1, (hs.owners_line hu).2, ?_, ?_, ?_⟩
  · intro q hq
    rcases (line_pc hu).1 hq with ⟨hsq, hne⟩ | ⟨-, h⟩
    · have hset : s.pc p ≠ .set := by
        intro hp
        exact hne (hx.unique (by simp [hsq]) (by simp [hp]))
      by_cases hclear : s.pc p = .clear
      · exact (line_clear (q := p) hu hclear).1
      · rw [(line_quiet (q := p) hu hset hclear).1, hs.set q hsq]
    · exact h
  · intro q hq
    obtain ⟨hh, hq⟩ := (line_pc hu).2.2.2.1 hq
    rw [hh, hs.given q hq]
  · intro q r hq
    obtain ⟨hh, ha | ⟨hl, rfl⟩⟩ := (line_pc hu).2.2.2.2 r hq
    · rw [hh, hs.answer q r ha]
    · rw [hh, Bool.eq_iff_iff, hs.holding]
      simp [Owns, hl]

theorem Waited.line (hx : s.Spins) (hs : s.Waited) (hu : s.line pid p = some u) : u.Waited := by
  by_cases hset : s.pc p = .set
  · have := (line_set (q := p) hu hset).1
    constructor <;> simp [this]
  by_cases hclear : s.pc p = .clear
  · have hsleep : ∀ q, s.pc q ≠ .sleep := by
      intro q hq
      have := hx.unique (p := p) (q := q) (by simp [hclear]) (by simp [hq])
      simp_all
    obtain ⟨hl, hw, -⟩ := line_clear (q := p) hu hclear
    refine ⟨fun q hq => ((line_pc hu).2.1 hq).resolve_left (hsleep q), fun q _ => ?_⟩
    exact Or.inr ⟨p, _, hw, List.mem_finRange q⟩
  · obtain ⟨hl, -⟩ := line_quiet (q := p) hu hset hclear
    refine ⟨fun q hq => ?_, fun q hq => ?_⟩
    · exact ((line_pc hu).2.1 hq).elim (fun h => hl.trans (hs.sleep q h)) id
    · rcases (line_pc hu).2.2.1 hq with hd | hd
      · rcases hs.dozes q hd with h | ⟨r, qs, hr, hqs⟩
        · exact Or.inl (hl.trans h)
        · exact Or.inr ⟨r, line_wake hu hr hqs hq⟩
      · exact Or.inl (hl.trans (hs.sleep q hd))

structure Inv (pid : Fin n ↪ ℕ) (s : Sys n) : Prop where
  spins : s.Spins
  owned : s.Owned pid
  waited : s.Waited

/-- A process moves on outside of `lk->lk`; one that is to release no longer holds the lock. -/
theorem Inv.idles {b : Pc n} {h : Fin n → Bool} (hs : s.Inv pid)
    (hp : s.pc p = .idle ∨ s.pc p = .asleep)
    (hb : b = .enter ∨ b = .ask ∨ b = .woken ∨ b = .free ∧ h p = false)
    (hh : ∀ q, q ≠ p → h q = s.holds q) (hown : s.holds p = true ↔ h p = true ∨ b = .free) :
    ({ s.go p b with holds := h } : Sys n).Inv pid := by
  have howns : ∀ q, ({ s.go p b with holds := h } : Sys n).Owns q ↔ s.Owns q := by
    intro q
    have := hh q
    by_cases h : q = p
    · simp [Owns, *]
      grind
    · simp [Owns, *]
  obtain ⟨hx, ho, hw⟩ := hs
  refine ⟨fun q => ?_, ⟨?_, ?_, fun q => ?_, fun q => ?_, fun q r => ?_⟩, fun q => ?_, fun q => ?_⟩
  · have := hx q
    by_cases h : q = p
    · rcases hp with hp | hp <;> rcases hb with rfl | rfl | rfl | ⟨rfl, -⟩ <;> simp_all
    · simpa [h] using this
  · simp only [howns]
    exact ho.locked
  · simp only [howns]
    exact ho.pid
  · have := ho.set q
    by_cases h : q = p <;> simp [h] <;> grind
  · have := ho.given q
    have := hh q
    by_cases h : q = p <;> simp [h] <;> grind
  · have := ho.answer q r
    have := hh q
    by_cases h : q = p <;> simp [h] <;> grind
  · have := hw.sleep q
    by_cases h : q = p <;> simp [h] <;> grind
  · have := hw.dozes q
    by_cases h : q = p
    · rcases hb with rfl | rfl | rfl | ⟨rfl, -⟩ <;> simp [h, Pc.dozes]
    · intro hd
      simp [h] at hd
      refine (this hd).imp_right ?_
      rintro ⟨r, qs, hr, hq⟩
      refine ⟨r, qs, ?_, hq⟩
      rw [← hr]
      refine update_of_ne ?_ _ _
      rintro rfl
      simp [hr] at hp

theorem Inv.rouse (hs : s.Inv pid) : (s.rouse q).Inv pid := by
  by_cases h : s.pc q = .asleep
  · simp only [Sys.rouse, h]
    exact hs.idles (Or.inr h) (by simp) (fun _ _ => rfl) (by simp)
  · simpa [Sys.rouse, h, go] using hs

theorem Inv.step {a : Act n} (hs : s.Inv pid) (hu : s.step pid a = some u) : u.Inv pid := by
  cases a with
  | call p c =>
    simp only [Sys.step, call, Option.ite_none_right_eq_some] at hu
    obtain ⟨hp, hu⟩ := hu
    cases c with
    | acquiresleep =>
      obtain rfl := Option.some.inj hu
      exact hs.idles (Or.inl hp) (by simp) (fun _ _ => rfl) (by simp)
    | releasesleep =>
      simp only [Option.ite_none_right_eq_some, Option.some.injEq] at hu
      obtain ⟨hh, rfl⟩ := hu
      exact hs.idles (Or.inl hp) (by simp) (fun q hq => update_of_ne hq _ _) (by simp [hh])
    | holdingsleep =>
      obtain rfl := Option.some.inj hu
      exact hs.idles (Or.inl hp) (by simp) (fun _ _ => rfl) (by simp)
  | line p => exact ⟨hs.spins.line hu, hs.owned.line hs.spins hu, hs.waited.line hs.spins hu⟩
  | kill q =>
    simp only [Sys.step, Option.ite_none_left_eq_some, Option.some.injEq] at hu
    obtain ⟨-, rfl⟩ := hu
    exact hs.rouse

theorem Inv.boot (pid : Fin n ↪ ℕ) : (boot n).Inv pid := by
  refine ⟨?_, ⟨?_, ?_, ?_, ?_, ?_⟩, ?_, ?_⟩
  all_goals simp [Sys.boot, Spins, Owns, Pc.dozes]

/-- `p->state == SLEEPING && p->chan == lk` -/
def Sleeping (s : Sys n) (p : Fin n) : Prop := s.pc p = .sched ∨ s.pc p = .asleep

/-- **Sleep locks exclude.** In every state that any interleaving of calls, lines and kills goes
through: at most one process is between a return of `acquiresleep` and its `releasesleep`; the
lock bears its pid; `holdingsleep` answers `1` for it and `0` for any other; and while `lk->lk` is
free, nobody is asleep on a lock that is not held. -/
theorem exclusive_of_visits (pid : Fin n ↪ ℕ) (as : List (Act n)) (s : Sys n)
    (hv : Visits (step pid) (boot n) as s) :
    (∀ p q, s.holds p = true → s.holds q = true → p = q) ∧
    (∀ p, s.holds p = true → s.locked = true ∧ s.pid = pid p) ∧
    (∀ p r, s.pc p = .answer r → r = s.holds p) ∧
    (s.spin = none → ∀ p, s.Sleeping p → s.locked = true) := by
  have hs : s.Inv pid := hv.induction (Inv.boot pid) fun t a u _ hu ht => ht.step hu
  refine ⟨fun p q hp hq => hs.owned.unique (Or.inl hp) (Or.inl hq), fun p hp => ?_,
    hs.owned.answer, fun hfree p hp => ?_⟩
  · exact ⟨hs.owned.locked.mpr ⟨p, Or.inl hp⟩, hs.owned.pid p (Or.inl hp)⟩
  · have hd : (s.pc p).dozes = true := by
      rcases hp with hp | hp <;> simp [hp, Pc.dozes]
    refine (hs.waited.dozes p hd).resolve_right ?_
    -- a process in `wakeup` would hold `lk->lk`
    rintro ⟨q, qs, hq, -⟩
    have := (hs.spins q).mp (by simp [hq])
    simp [hfree] at this

def pids : Fin 2 ↪ ℕ := ⟨fun p => p + 1, fun p q h => Fin.ext (by simpa using h)⟩

/-- The first of two processes holds the lock, the second is killed in its sleep, and sleeps
again. -/
theorem exclusive_of_visits_two : ∃ (as : List (Act 2)) (s : Sys 2),
    Visits (step pids) (boot 2) as s ∧ s.holds 0 = true ∧ s.Sleeping 1 ∧ s.locked = true ∧
      s.pid = 1 := by
  let as : List (Act 2) := [.call 0 .acquiresleep, .line 0, .line 0, .line 0, .line 0,
    .call 1 .acquiresleep] ++ List.replicate 6 (.line 1) ++ [.kill 1] ++ List.replicate 6 (.line 1)
  obtain ⟨s, hs, h0, h1, hfree⟩ : ∃ s, exec (step pids) (boot 2) as = some s ∧
    s.holds 0 = true ∧ s.pc 1 = .asleep ∧ s.spin = none := ⟨_, rfl, rfl, rfl, rfl⟩
  have hx := exclusive_of_visits pids as s (Visits.last hs)
  exact ⟨as, s, Visits.last hs, h0, Or.inr h1, hx.2.2.2 hfree 1 (Or.inr h1), (hx.2.1 0 h0).2⟩

end Sys

end Xv6.SleepLock
