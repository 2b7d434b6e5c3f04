import Xv6.Wait.Lines
import Mathlib.Data.List.FinRange

/-!
# Parents, children and sleepers

The invariant of the process table of `Xv6.Wait.Model`, and that every step keeps it. A process
that holds `wait_lock` knows which of its children it has seen, and which sleepers it has woken:
nobody else makes a zombie, changes a parent or goes to sleep in `wait` as long as it holds the
lock. The one process that can sleep while it has a zombie is `initproc`, for as long as the
process that has handed the zombie over is on its way through `wakeup(initproc)`.
-/

namespace Xv6.Wait

open Function (update_of_ne update_self)

variable {n : ℕ}

attribute [local simp] Effect.after Effect.Locking

namespace Table

attribute [local simp] advance carry setStage setParent setState wakeIf allocproc freeproc

/-- `p` has given up `wait_lock` to sleep in `wait`, and has not been woken. -/
def Dozes (s : Table n) (p : Fin n) : Prop := (s.stage p).dozes (s.state p) = true

/-- A `wakeup(initproc)` is under way that has not come to `q` yet. -/
def Owed (s : Table n) (q : Fin n) : Prop :=
  ∃ x status cs qs, s.stage x = .exitAdopt status cs qs ∧ q ∈ qs

/-- The invariant. -/
structure Ok (initproc : Fin n) (s : Table n) : Prop where
  lock : ∀ p, s.waitLock = some p ↔ (s.stage p).wl = true
  fits : ∀ p, (s.stage p).Fits (s.state p)
  chan : ∀ p, (s.stage p).asleep = true → s.chan p = some p
  init : (s.stage initproc).exiting = false
  forkee : ∀ p np, (s.stage p).forkee = some np → s.state np = .used
  forker : ∀ p q np, (s.stage p).forkee = some np → (s.stage q).forkee = some np → p = q
  keeps : ∀ c q, s.parent c = some q → (s.stage q).Keeps c
  unseen : ∀ c q, s.parent c = some q → s.state c = .zombie → (s.stage q).Unseen c
  counted : ∀ c q, s.parent c = some q → (s.stage q).Counted c
  target : ∀ p status parent qs, s.stage p = .exitNotify status parent qs → s.parent p = parent
  heard : ∀ p q, s.parent p = some q → (s.stage p).Heard q → ¬ s.Dozes q
  owed : ∀ c q, s.parent c = some q → s.state c = .zombie → s.Dozes q → q = initproc ∧ s.Owed q
  /-- A child is with the process that made it, or with `initproc`. -/
  creator : ∀ c q, s.parent c = some q → s.creator c = s.inc q ∨ q = initproc ∧
    ((∃ x ∈ s.exits, x.who = s.creator c) ∨
      ∃ x, s.creator c = s.inc x ∧ (s.stage x).leaving = true)
  exited : ∀ c, s.state c = .zombie → ⟨s.inc c, s.pid c, s.xstate c⟩ ∈ s.exits
  reaped : ∀ r ∈ s.reaps, ∃ x ∈ s.exits, x.who = r.child ∧ x.pid = r.pid ∧
    ∀ status, r.status = some status → status = x.status
  past : ∀ r ∈ s.reaps, r.child.2 ≤ s.gen r.child.1 ∧
    (r.child.2 = s.gen r.child.1 → s.state r.child.1 = .unused)
  once : (s.reaps.map Reap.child).Nodup
  pid : 0 ≤ s.nextpid ∧ ∀ p, 0 ≤ s.pid p

variable {initproc : Fin n} {s : Table n}

theorem ok_boot (initproc : Fin n) : (boot initproc).Ok initproc where
  lock p := by by_cases h : p = initproc <;> simp [boot, Stage.wl, h]
  fits p := by by_cases h : p = initproc <;> simp [boot, Stage.Fits, h]
  chan p := by by_cases h : p = initproc <;> simp [boot, Stage.asleep, h]
  init := by simp [boot, Stage.exiting]
  forkee p np := by by_cases h : p = initproc <;> simp [boot, Stage.forkee, h]
  forker p q np := by by_cases h : p = initproc <;> simp [boot, Stage.forkee, h]
  keeps c q := by simp [boot]
  unseen c q := by simp [boot]
  counted c q := by simp [boot]
  target p := by by_cases h : p = initproc <;> simp [boot, h]
  heard p q := by simp [boot]
  owed c q := by simp [boot]
  creator c q := by simp [boot]
  exited c := by by_cases h : c = initproc <;> simp [boot, h]
  reaped := by simp [boot]
  past := by simp [boot]
  once := by simp [boot]
  pid := ⟨by simp [boot], fun p => by by_cases h : p = initproc <;> simp [boot, h]⟩

namespace Ok

variable {p q : Fin n}

variable (hs : s.Ok initproc)
include hs

/-- Two processes do not hold `wait_lock` at once. -/
theorem eq_of_wl (hp : (s.stage p).wl = true) (hq : (s.stage q).wl = true) : p = q :=
  Option.some.inj (((hs.lock p).mpr hp).symm.trans ((hs.lock q).mpr hq))

theorem wl_eq_false (hfree : s.waitLock.isSome = false) : (s.stage p).wl = false := by
  refine Bool.eq_false_iff.mpr fun hp => ?_
  rw [(hs.lock p).mpr hp] at hfree
  cases hfree

/-- Only a process that has not started is `USED`. -/
theorem stage_of_used (hp : s.state p = .used) : s.stage p = .none := by
  have hfits := hs.fits p
  rw [hp] at hfits
  cases h : s.stage p <;> simp_all [Stage.Fits]

theorem stage_of_unused (hp : s.state p = .unused) : s.stage p = .none := by
  have hfits := hs.fits p
  rw [hp] at hfits
  cases h : s.stage p <;> simp_all [Stage.Fits]

/-- A zombie whose lock is free has left for good. -/
theorem stage_of_zombie (hp : s.state p = .zombie)
    (hfree : (s.stage p).locked = false) : s.stage p = .none := by
  have hfits := hs.fits p
  rw [hp] at hfits
  cases h : s.stage p <;> simp_all [Stage.Fits, Stage.locked]

/-- A process that another one makes is not itself at work. -/
theorem ne_of_forkee (hp : (s.stage p).forkee = some q) : q ≠ p := by
  rintro rfl
  rw [hs.stage_of_used (hs.forkee _ _ hp)] at hp
  cases hp

end Ok

/-- The process `p` takes the line with the effect `e`, to `st'`; after it the table is `t`. -/
structure Turn (initproc : Fin n) (s t : Table n) (p : Fin n) (e : Effect n) (st' : Stage n) :
    Prop where
  line : Line initproc s p (s.stage p) e st'
  free : s.blocks e = false
  eq : t = s.advance initproc p e st'

namespace Turn

variable {t : Table n} {p q c : Fin n} {e : Effect n} {st' : Stage n} (hs : s.Ok initproc)
  (ht : Turn initproc s t p e st')

include ht

theorem stage_self : t.stage p = st' := by
  rw [ht.eq]
  exact update_self ..

theorem state_eq (q : Fin n) : t.state q = (s.carry initproc p e).state q := by
  rw [ht.eq]
  rfl

/-- Where a parent comes from. -/
theorem parent_cases (hc : t.parent c = some q) :
    s.parent c = some q ∧ e ≠ .link c ∧ e ≠ .adopt c ∨ e = .link c ∧ q = p ∨
      e = .adopt c ∧ q = initproc := by
  rw [ht.eq] at hc
  replace hc : (s.carry initproc p e).parent c = some q := hc
  cases e with
  | link np =>
    by_cases h : c = np
    · subst h; exact .inr (.inl ⟨rfl, by simpa [eq_comm] using hc⟩)
    · exact .inl ⟨by simpa [h] using hc, by simpa [eq_comm] using h, by simp⟩
  | adopt c' =>
    by_cases h : c = c'
    · subst h; exact .inr (.inr ⟨rfl, by simpa [eq_comm] using hc⟩)
    · exact .inl ⟨by simpa [h] using hc, by simp, by simpa [eq_comm] using h⟩
  | abort np =>
    by_cases h : c = np
    · subst h; simp at hc
    · exact .inl ⟨by simpa [h] using hc, by simp, by simp⟩
  | reap c' addr =>
    by_cases h : c = c'
    · subst h; simp at hc
    · exact .inl ⟨by simpa [h] using hc, by simp, by simp⟩
  | _ => exact .inl ⟨hc, by simp, by simp⟩

/-- The process does not change its parent once it is at `wakeup(p->parent)`. -/
theorem parent_of_notifying (hst : st'.notifying = true) : t.parent = s.parent := by
  rw [ht.eq]
  obtain rfl | ⟨q, chan, rfl⟩ := ht.line.quiet hst <;> rfl

theorem creator_of_ne (he : e ≠ .link c) : t.creator c = s.creator c := by
  rw [ht.eq]
  cases e with
  | link np =>
    have h : c ≠ np := by rintro rfl; exact he rfl
    simp [h]
  | _ => rfl

theorem mem_exits {x : Exit n} (hx : x ∈ s.exits) : x ∈ t.exits := by
  rw [ht.eq]
  cases e with
  | zombie status => exact List.mem_append_left _ hx
  | _ => exact hx

/-- Where an entry of the list of reaped children comes from. -/
theorem reaps_cases {r : Reap n} (hr : r ∈ t.reaps) :
    r ∈ s.reaps ∨ ∃ c addr, e = .reap c addr ∧
      r = ⟨s.inc c, s.inc p, s.pid c, if addr then some (s.xstate c) else none⟩ := by
  rw [ht.eq] at hr
  cases e with
  | reap c addr =>
    obtain h | h := List.mem_append.mp hr
    · exact .inl h
    · exact .inr ⟨c, addr, rfl, List.mem_singleton.mp h⟩
  | _ => exact .inl hr

/-- What a line does to the number of processes a slot has held. -/
theorem gen_cases (q : Fin n) : t.gen q = s.gen q ∧ e ≠ .alloc q ∨ s.gen q < t.gen q := by
  rw [ht.eq]
  cases e with
  | alloc np =>
    by_cases h : q = np
    · subst h; exact .inr (by simp)
    · exact .inl ⟨by simp [h], by simpa [eq_comm] using h⟩
  | abort np =>
    by_cases h : q = np
    · subst h; exact .inr (by simp)
    · exact .inl ⟨by simp [h], by simp⟩
  | _ => exact .inl ⟨rfl, by simp⟩

include hs

/-- Where the processes are afterwards: the one that takes the line, the others, and one that is
started. -/
theorem stage_cases (q : Fin n) :
    q = p ∧ t.stage q = st' ∨ q ≠ p ∧ t.stage q = s.stage q ∧ e ≠ .ready q ∨
      q ≠ p ∧ e = .ready q ∧ s.stage q = .none ∧ t.stage q = .out 0 := by
  by_cases hq : q = p
  · exact .inl ⟨hq, hq ▸ ht.stage_self⟩
  have hstage : t.stage q = (s.carry initproc p e).stage q := by
    rw [ht.eq]
    exact update_of_ne hq ..
  rw [hstage]
  cases e with
  | ready np =>
    by_cases h : q = np
    · subst h
      exact .inr (.inr ⟨hq, rfl, hs.stage_of_used (hs.forkee _ _ ht.line.source), update_self ..⟩)
    · exact .inr (.inl ⟨hq, update_of_ne h .., by simpa [eq_comm] using h⟩)
  | _ => exact .inr (.inl ⟨hq, rfl, by simp⟩)

/-- What a line can do to the state of a process. -/
theorem state_cases (q : Fin n) :
    t.state q = s.state q ∨
    e = .alloc q ∧ s.state q = .unused ∧ t.state q = .used ∨
    e = .ready q ∧ s.state q = .used ∧ t.state q = .runnable ∨
    (s.state q = .sleeping ∧ (s.stage q).locked = false ∧ q ≠ p ∧ t.state q = .runnable) ∨
    (∃ status, e = .zombie status ∧ q = p ∧ t.state q = .zombie) ∨
    (∃ addr, e = .reap q addr ∧ s.state q = .zombie ∧ (s.stage q).locked = false ∧
      t.state q = .unused) ∨
    e = .mark ∧ q = p ∧ t.state q = .sleeping := by
  have hsource := ht.line.source
  have hfree := ht.free
  rw [ht.state_eq]
  cases e with
  | alloc np =>
    by_cases h : q = np
    · subst h; exact .inr (.inl ⟨rfl, hsource.1, by simp⟩)
    · exact .inl (by simp [h])
  | abort np =>
    by_cases h : q = np
    · subst h; exact .inl (by simp [hsource.1])
    · exact .inl (by simp [h])
  | ready np =>
    by_cases h : q = np
    · subst h
      exact .inr (.inr (.inl ⟨rfl, hs.forkee _ _ hsource, by simp⟩))
    · exact .inl (by simp [h])
  | wake q' chan =>
    by_cases h : q = q'
    · subst h
      by_cases hc : s.state q = .sleeping ∧ s.chan q = chan
      · exact .inr (.inr (.inr (.inl ⟨hc.1, hfree, hsource, by simp [hc]⟩)))
      · exact .inl (by simp [hc])
    · exact .inl (by simp [h])
  | zombie status =>
    by_cases h : q = p
    · exact .inr (.inr (.inr (.inr (.inl ⟨status, rfl, h, by simp [h]⟩))))
    · exact .inl (by simp [h])
  | reap c addr =>
    by_cases h : q = c
    · subst h
      exact .inr (.inr (.inr (.inr (.inr (.inl
        ⟨addr, rfl, hsource.2.1, hsource.2.2.1, by simp⟩)))))
    · exact .inl (by simp [h])
  | mark =>
    by_cases h : q = p
    · exact .inr (.inr (.inr (.inr (.inr (.inr ⟨rfl, h, by simp [h]⟩)))))
    · exact .inl (by simp [h])
  | _ => exact .inl rfl

/-- Where a zombie comes from. -/
theorem zombie_cases (hc : t.state c = .zombie) :
    s.state c = .zombie ∨ ∃ status, e = .zombie status ∧ c = p := by
  have hcases := ht.state_cases hs c
  simp only [hc, reduceCtorEq, and_false, exists_false, false_or, or_false, and_true] at hcases
  exact hcases.imp Eq.symm id

/-- The process changes its own state only as the effect says. -/
theorem state_self : t.state p = e.after (s.state p) := by
  have hsource := ht.line.source
  have hfits := hs.fits p
  have hne {np : Fin n} (h : s.state np = .unused ∧ (s.stage p).exiting = false) : p ≠ np := by
    rintro rfl
    simp [hs.stage_of_unused h.1, Stage.exiting] at h
  rw [ht.state_eq]
  cases e with
  | alloc np => simp [hne hsource]
  | abort np => simp [hne hsource]
  | ready np => simp [(hs.ne_of_forkee hsource).symm]
  | wake q chan => simp [Ne.symm hsource]
  | zombie status => simp
  | reap c addr =>
    obtain ⟨-, hzombie, hfree, ⟨cs, havekids, hst⟩, -⟩ := hsource
    have h : p ≠ c := by rintro rfl; rw [hs.stage_of_zombie hzombie hfree] at hst; cases hst
    simp [h]
  | mark => simp
  | _ => rfl

theorem lock (q : Fin n) : t.waitLock = some q ↔ (t.stage q).wl = true := by
  have hlocking := ht.line.locking
  have hsame := hs.lock q
  obtain ⟨rfl, hst⟩ | ⟨hq, hst, -⟩ | ⟨-, rfl, hold, hst⟩ := ht.stage_cases hs q
  · rw [hst, ht.eq]
    cases e <;>
      simp_all
  · rw [hst, ht.eq]
    cases e with
    | lock => simp [hs.wl_eq_false ht.free, Ne.symm hq]
    | unlock =>
      have hne : ¬ (s.stage q).wl = true := fun h => hq (hs.eq_of_wl h hlocking.1)
      simp [hne]
    | _ => exact hsame
  · rw [hold] at hsame
    rw [hst, ht.eq]
    exact hsame

theorem fits (q : Fin n) : (t.stage q).Fits (t.state q) := by
  have hfits := hs.fits q
  obtain ⟨rfl, hst⟩ | ⟨hq, hstage, hready⟩ | ⟨-, rfl, -, hstage⟩ := ht.stage_cases hs q
  · rw [hst, ht.state_self hs]
    exact ht.line.fits hfits
  · rw [hstage]
    obtain hst | ⟨-, hst, hst'⟩ | ⟨he, -⟩ | ⟨hst, hfree, -, hst'⟩ | ⟨-, -, h, -⟩ |
      ⟨-, -, hst, hfree, hst'⟩ | ⟨-, h, -⟩ := ht.state_cases hs q
    · rwa [hst]
    · simp [hst', hs.stage_of_unused hst, Stage.Fits]
    · exact absurd he hready
    · rw [hst']
      rw [hst] at hfits
      cases h : s.stage q <;> simp_all [Stage.Fits, Stage.locked]
    · exact absurd h hq
    · simp [hst', hs.stage_of_zombie hst hfree, Stage.Fits]
    · exact absurd h hq
  · simp [hstage, ht.state_eq, Stage.Fits]

theorem chan (q : Fin n) (hq : (t.stage q).asleep = true) : t.chan q = some q := by
  rw [ht.eq]
  obtain ⟨rfl, hst⟩ | ⟨hqp, hst, -⟩ | ⟨-, -, -, hst⟩ := ht.stage_cases hs q
  · rw [hst] at hq
    obtain rfl | ⟨hold, rfl⟩ := ht.line.asleep hq
    · simp
    · exact hs.chan q hold
  · rw [hst] at hq
    have hne : s.stage q ≠ .none := by rintro h; simp [h, Stage.asleep] at hq
    have hsource := ht.line.source
    have hold := hs.chan q hq
    cases e with
    | abort np =>
      have h : q ≠ np := by rintro rfl; exact hne (hs.stage_of_unused hsource.1)
      simpa [h] using hold
    | reap c addr =>
      have h : q ≠ c := by rintro rfl; exact hne (hs.stage_of_zombie hsource.2.1 hsource.2.2.1)
      simpa [h] using hold
    | mark => simpa [hqp] using hold
    | tidy => simpa [hqp] using hold
    | _ => exact hold
  · simp [hst, Stage.asleep] at hq

theorem init : (t.stage initproc).exiting = false := by
  have hinit := hs.init
  obtain ⟨rfl, h⟩ | ⟨-, h, -⟩ | ⟨-, -, -, h⟩ := ht.stage_cases hs initproc
  · rw [h]
    refine Bool.eq_false_iff.mpr fun h => ?_
    obtain h | h := ht.line.exiting h
    · rw [hinit] at h; cases h
    · exact h rfl
  · rwa [h]
  · rw [h]; rfl

theorem forkee {q np : Fin n} (hq : (t.stage q).forkee = some np) : t.state np = .used := by
  -- a line that leaves the process that is being made alone
  have keep (hold : s.state np = .used) (hready : e ≠ .ready np) : t.state np = .used := by
    have hnone := hs.stage_of_used hold
    have hsource := ht.line.source
    obtain hst | ⟨-, hst, -⟩ | ⟨he, -⟩ | ⟨hst, -⟩ | ⟨status, rfl, rfl, -⟩ | ⟨-, -, hst, -⟩ |
      ⟨rfl, rfl, -⟩ := ht.state_cases hs np
    · rwa [hst]
    · rw [hold] at hst; cases hst
    · exact absurd he hready
    · rw [hold] at hst; cases hst
    · rw [hnone] at hsource; cases hsource.1
    · rw [hold] at hst; cases hst
    · rw [hnone] at hsource; cases hsource
  obtain ⟨rfl, h⟩ | ⟨hqp, h, -⟩ | ⟨-, -, -, h⟩ := ht.stage_cases hs q <;> rw [h] at hq
  · obtain rfl | ⟨hold, hready⟩ := ht.line.forkee np hq
    · simp [ht.state_eq]
    · exact keep (hs.forkee _ _ hold) (hready np)
  · refine keep (hs.forkee _ _ hq) ?_
    rintro rfl
    exact hqp (hs.forker _ _ _ hq ht.line.source)
  · cases hq

theorem forker {q q' np : Fin n} (hq : (t.stage q).forkee = some np)
    (hq' : (t.stage q').forkee = some np) : q = q' := by
  -- another process that makes `np` made it before
  have other {r : Fin n} (hr : r ≠ p) (h : (t.stage r).forkee = some np) :
      (s.stage r).forkee = some np := by
    obtain ⟨hrp, -⟩ | ⟨-, hst, -⟩ | ⟨-, -, -, hst⟩ := ht.stage_cases hs r
    · exact absurd hrp hr
    · rwa [hst] at h
    · simp [hst, Stage.forkee] at h
  have own {r : Fin n} (hr : r ≠ p) (h : (t.stage r).forkee = some np)
      (hp : (t.stage p).forkee = some np) : r = p := by
    rw [ht.stage_self] at hp
    obtain rfl | ⟨hold, -⟩ := ht.line.forkee np hp
    · have hused := hs.forkee _ _ (other hr h)
      rw [ht.line.source.1] at hused
      cases hused
    · exact hs.forker _ _ _ (other hr h) hold
  by_cases hqp : q = p
  · by_cases hqp' : q' = p
    · rw [hqp, hqp']
    · exact absurd (own hqp' hq' (hqp ▸ hq)) hqp'
  · by_cases hqp' : q' = p
    · exact absurd (own hqp hq (hqp' ▸ hq')) hqp
    · exact hs.forker _ _ _ (other hqp hq) (other hqp' hq')

/-- Nobody else holds `wait_lock`. -/
theorem alone (hwl : st'.wl = true) (hq : q ≠ p) : (t.stage q).wl = false := by
  refine Bool.eq_false_iff.mpr fun h => hq ?_
  have hp := (ht.lock hs p).mpr (by rwa [ht.stage_self])
  exact Option.some.inj (((ht.lock hs q).mpr h).symm.trans hp)

theorem keeps (hc : t.parent c = some q) : (t.stage q).Keeps c := by
  obtain ⟨hold, -, hne⟩ | ⟨rfl, rfl⟩ | ⟨rfl, rfl⟩ := ht.parent_cases hc
  · have hkeeps := hs.keeps c q hold
    obtain ⟨rfl, h⟩ | ⟨-, h, -⟩ | ⟨-, -, h, -⟩ := ht.stage_cases hs q
    · rw [h]
      exact ht.line.keeps c hkeeps hold hne
    · rwa [h]
    · rw [h] at hkeeps; exact hkeeps.elim
  · rw [ht.stage_self, ht.line.source.2]
    trivial
  · exact Stage.keeps_of_not_exiting (ht.init hs)

/-- The process that hands its children over is not `initproc`. -/
theorem ne_of_adopt (he : e = .adopt c) : initproc ≠ p := by
  rintro rfl
  subst he
  have h := ht.line.source.2.1
  rw [hs.init] at h
  cases h

theorem unseen (hc : t.parent c = some q) (hz : t.state c = .zombie) : (t.stage q).Unseen c := by
  obtain ⟨hold, -⟩ | ⟨rfl, rfl⟩ | ⟨rfl, rfl⟩ := ht.parent_cases hc
  · obtain hz | ⟨status, rfl, rfl⟩ := ht.zombie_cases hs hz
    · have hunseen := hs.unseen c q hold hz
      obtain ⟨rfl, h⟩ | ⟨-, h, -⟩ | ⟨-, -, -, h⟩ := ht.stage_cases hs q <;> rw [h]
      · exact ht.line.unseen c hunseen hold hz
      · exact hunseen
      · trivial
    · by_cases hq : q = c
      · rw [hq, ht.stage_self, ht.line.source.2]; trivial
      · exact Stage.unseen_of_not_wl (ht.alone hs ht.line.locking.2 hq)
  · rw [ht.stage_self, ht.line.source.2]
    trivial
  · exact Stage.unseen_of_not_wl (ht.alone hs ht.line.locking.2 (ht.ne_of_adopt hs rfl))

theorem counted (hc : t.parent c = some q) : (t.stage q).Counted c := by
  obtain ⟨hold, -⟩ | ⟨rfl, rfl⟩ | ⟨rfl, rfl⟩ := ht.parent_cases hc
  · have hcounted := hs.counted c q hold
    obtain ⟨rfl, h⟩ | ⟨-, h, -⟩ | ⟨-, -, -, h⟩ := ht.stage_cases hs q <;> rw [h]
    · exact ht.line.counted c hcounted hold
    · exact hcounted
    · trivial
  · rw [ht.stage_self, ht.line.source.2]
    trivial
  · exact Stage.counted_of_not_wl (ht.alone hs ht.line.locking.2 (ht.ne_of_adopt hs rfl))

/-- The parent of a process that holds `wait_lock` is changed by nobody else. -/
theorem parent_of_wl (hq : q ≠ p) (hwl : (s.stage q).wl = true) : t.parent q = s.parent q := by
  rw [ht.eq]
  have hsource := ht.line.source
  have hlocking := ht.line.locking
  cases e with
  | abort np =>
    have h : q ≠ np := by rintro rfl; rw [hs.stage_of_unused hsource.1] at hwl; cases hwl
    simp [h]
  | link np =>
    rw [hs.wl_eq_false ht.free] at hwl
    cases hwl
  | adopt c => exact absurd (hs.eq_of_wl hwl hlocking.1) hq
  | reap c addr => exact absurd (hs.eq_of_wl hwl hlocking.1) hq
  | _ => rfl

theorem target {status : Int32} {parent : Option (Fin n)} {qs : List (Fin n)}
    (hq : t.stage q = .exitNotify status parent qs) : t.parent q = parent := by
  obtain ⟨rfl, h⟩ | ⟨hqp, h, -⟩ | ⟨-, -, -, h⟩ := ht.stage_cases hs q <;> rw [h] at hq
  · rw [ht.parent_of_notifying (by rw [hq]; rfl)]
    obtain h | ⟨q', h⟩ := ht.line.notify _ _ _ hq
    · exact h.symm
    · exact hs.target _ _ _ _ h
  · rw [ht.parent_of_wl hs hqp (by rw [hq]; rfl)]
    exact hs.target _ _ _ _ hq
  · cases hq

/-- Who goes to sleep in `wait` has `wait_lock` before. -/
theorem dozes_cases (hq : t.Dozes q) :
    s.Dozes q ∨ q = p ∧ ∃ addr, s.stage p = .sleepUnlock addr := by
  rw [Dozes] at hq
  obtain ⟨rfl, h⟩ | ⟨hqp, h, -⟩ | ⟨-, -, -, h⟩ := ht.stage_cases hs q <;> rw [h] at hq
  · rw [ht.state_self hs] at hq
    exact (ht.line.dozes hq).imp id fun h => ⟨rfl, h⟩
  · refine .inl ?_
    rw [Dozes]
    obtain hst | ⟨-, -, hst⟩ | ⟨-, -, hst⟩ | ⟨-, -, -, hst⟩ | ⟨-, -, -, hst⟩ |
      ⟨-, -, -, -, hst⟩ | ⟨-, hst, -⟩ := ht.state_cases hs q
    · rwa [hst] at hq
    all_goals first
      | exact absurd hst hqp
      | rw [hst] at hq; cases hstage : s.stage q <;> simp_all [Stage.dozes]
  · cases hq

/-- `wakeup` wakes who sleeps on itself in `wait`. -/
theorem not_dozes_of_wake (he : e = .wake q (some q)) : ¬ t.Dozes q := by
  subst he
  have hqp : q ≠ p := ht.line.source
  have hfree : (s.stage q).locked = false := ht.free
  intro hdoze
  rw [Dozes] at hdoze
  obtain ⟨h, -⟩ | ⟨-, h, -⟩ | ⟨-, -, -, h⟩ := ht.stage_cases hs q
  · exact hqp h
  · rw [h] at hdoze
    cases hstage : s.stage q with
    | sleeping addr =>
      have hchan : s.chan q = some q := hs.chan q (by rw [hstage]; rfl)
      by_cases hst : s.state q = .sleeping <;>
        simp [hstage, Stage.dozes, ht.state_eq, hchan, hst] at hdoze
    | _ => simp_all [Stage.dozes, Stage.locked]
  · rw [h] at hdoze; cases hdoze

theorem heard {r : Fin n} (hq : t.parent q = some r) (hheard : (t.stage q).Heard r) :
    ¬ t.Dozes r := by
  intro hdoze
  obtain ⟨rfl, h⟩ | ⟨hqp, h, -⟩ | ⟨-, -, -, h⟩ := ht.stage_cases hs q <;> rw [h] at hheard
  · have hst' := Stage.notifying_of_heard hheard
    have hawake : ¬ t.Dozes q := by
      rw [Dozes, h, Stage.dozes_of_notifying hst']
      decide
    rw [ht.parent_of_notifying hst'] at hq
    obtain hold | ⟨status, parent, qs, hstage, he⟩ := ht.line.heard r hheard
    · obtain hdoze | ⟨rfl, -⟩ := ht.dozes_cases hs hdoze
      · exact hs.heard q r hq hold hdoze
      · exact hawake hdoze
    · obtain rfl : parent = some r := (hs.target _ _ _ _ hstage).symm.trans hq
      obtain ⟨rfl, -⟩ | ⟨hne, hvisit⟩ := visit_cases q r (some r)
      · exact hawake hdoze
      · exact ht.not_dozes_of_wake hs (he.trans hvisit) hdoze
  · have hwl := Stage.wl_of_notifying (Stage.notifying_of_heard hheard)
    rw [ht.parent_of_wl hs hqp hwl] at hq
    obtain hdoze | ⟨-, addr, hp⟩ := ht.dozes_cases hs hdoze
    · exact hs.heard q r hq hheard hdoze
    · exact hqp (hs.eq_of_wl hwl (by rw [hp]; rfl))
  · exact hheard

/-- A `wakeup(initproc)` that is under way goes on until it comes to `initproc`. -/
theorem owed_of_owed (hdoze : t.Dozes initproc) (howed : s.Owed initproc) : t.Owed initproc := by
  obtain ⟨x, status, cs, qs, hx, hmem⟩ := howed
  obtain ⟨rfl, h⟩ | ⟨-, h, -⟩ | ⟨-, -, h, -⟩ := ht.stage_cases hs x
  · obtain ⟨qs', hst', hmem'⟩ | he := ht.line.adopting _ _ _ hx hmem
    · exact ⟨x, status, cs, qs', h.trans hst', hmem'⟩
    · obtain ⟨rfl, -⟩ | ⟨hne, hvisit⟩ := visit_cases x initproc (some initproc)
      · have h := hs.init
        rw [hx] at h
        cases h
      · exact absurd hdoze (ht.not_dozes_of_wake hs (he.trans hvisit))
  · exact ⟨x, status, cs, qs, h.trans hx, hmem⟩
  · rw [hx] at h; cases h

theorem owed (hc : t.parent c = some q) (hz : t.state c = .zombie) (hdoze : t.Dozes q) :
    q = initproc ∧ t.Owed q := by
  obtain ⟨hold, -⟩ | ⟨rfl, rfl⟩ | ⟨rfl, rfl⟩ := ht.parent_cases hc
  · obtain hzombie | ⟨status, rfl, rfl⟩ := ht.zombie_cases hs hz
    · obtain hd | ⟨rfl, addr, hp⟩ := ht.dozes_cases hs hdoze
      · obtain ⟨rfl, howed⟩ := hs.owed c q hold hzombie hd
        exact ⟨rfl, ht.owed_of_owed hs hdoze howed⟩
      · have h := hs.unseen c q hold hzombie
        rw [hp] at h
        exact h.elim
    · -- the parent of a process that becomes a zombie has been woken
      obtain ⟨hst, -⟩ := ht.line.source
      obtain hd | ⟨-, addr, hp⟩ := ht.dozes_cases hs hdoze
      · exact absurd hd (hs.heard c q hold (by rw [hst]; trivial))
      · rw [hst] at hp; cases hp
  · obtain hz | ⟨status, h, -⟩ := ht.zombie_cases hs hz
    · rw [hs.forkee _ _ ht.line.source.1] at hz; cases hz
    · cases h
  · obtain ⟨-, -, status, cs, rfl⟩ := ht.line.source
    exact ⟨rfl, p, status, cs, _, ht.stage_self, List.mem_finRange _⟩

/-- A process at work is not replaced. -/
theorem inc_of_stage (hq : s.stage q ≠ .none) : t.inc q = s.inc q := by
  have hsource := ht.line.source
  rw [ht.eq]
  cases e with
  | alloc np =>
    have h : q ≠ np := by rintro rfl; exact hq (hs.stage_of_unused hsource.1)
    simp [inc, h]
  | abort np =>
    have h : q ≠ np := by rintro rfl; exact hq (hs.stage_of_unused hsource.1)
    simp [inc, h]
  | _ => rfl

theorem creator (hc : t.parent c = some q) :
    t.creator c = t.inc q ∨ q = initproc ∧ ((∃ x ∈ t.exits, x.who = t.creator c) ∨
      ∃ x, t.creator c = t.inc x ∧ (t.stage x).leaving = true) := by
  have hne {r : Fin n} (hr : s.parent c = some r) : s.stage r ≠ .none := by
    intro hnone
    have hkeeps := hs.keeps c r hr
    rwa [hnone] at hkeeps
  obtain ⟨hold, hlink, -⟩ | ⟨rfl, rfl⟩ | ⟨he, rfl⟩ := ht.parent_cases hc
  · rw [ht.creator_of_ne hlink]
    obtain h | ⟨rfl, ⟨x, hx, hwho⟩ | ⟨x, hx, hleaving⟩⟩ := hs.creator c q hold
    · exact .inl (by rw [ht.inc_of_stage hs (hne hold), h])
    · exact .inr ⟨rfl, .inl ⟨x, ht.mem_exits hx, hwho⟩⟩
    · have hnone : s.stage x ≠ .none := by
        intro hnone
        rw [hnone] at hleaving
        cases hleaving
      have hinc := ht.inc_of_stage hs hnone
      obtain ⟨rfl, h⟩ | ⟨-, h, -⟩ | ⟨-, -, h, -⟩ := ht.stage_cases hs x
      · obtain hst | ⟨status, rfl⟩ := ht.line.leaving hleaving
        · exact .inr ⟨rfl, .inr ⟨x, by rw [hinc, hx], by rwa [h]⟩⟩
        · refine .inr ⟨rfl, .inl ⟨⟨s.inc x, s.pid x, status⟩, ?_, hx.symm⟩⟩
          rw [ht.eq]
          exact List.mem_append_right _ (List.mem_singleton_self _)
      · exact .inr ⟨rfl, .inr ⟨x, by rw [hinc, hx], by rwa [h]⟩⟩
      · exact absurd h hnone
  · refine .inl ?_
    rw [ht.eq]
    simp [inc]
  · have hadopt := ht.ne_of_adopt hs he
    subst he
    obtain ⟨hold, -, status, cs, hst'⟩ := ht.line.source
    obtain h | ⟨h, -⟩ := hs.creator c p hold
    · refine .inr ⟨rfl, .inr ⟨p, ?_, by rw [ht.stage_self, hst']; rfl⟩⟩
      rw [ht.creator_of_ne (by simp), ht.inc_of_stage hs (hne hold), h]
    · exact absurd h.symm hadopt

theorem exited (hz : t.state c = .zombie) : ⟨t.inc c, t.pid c, t.xstate c⟩ ∈ t.exits := by
  obtain hzombie | ⟨status, rfl, rfl⟩ := ht.zombie_cases hs hz
  · have hmem := hs.exited c hzombie
    have hsource := ht.line.source
    rw [ht.state_eq] at hz
    rw [ht.eq]
    cases e with
    | alloc np =>
      have h : c ≠ np := by rintro rfl; rw [hsource.1] at hzombie; cases hzombie
      simpa [inc, h] using hmem
    | abort np =>
      have h : c ≠ np := by rintro rfl; rw [hsource.1] at hzombie; cases hzombie
      simpa [inc, h] using hmem
    | zombie status =>
      have h : c ≠ p := by
        rintro rfl
        have hfits := hs.fits c
        rw [hsource.1, hzombie] at hfits
        cases hfits
      refine List.mem_append_left _ ?_
      simpa [inc, h] using hmem
    | reap c' addr =>
      have h : c ≠ c' := by
        rintro rfl
        simp at hz
      simpa [inc, h] using hmem
    | _ => exact hmem
  · rw [ht.eq]
    refine List.mem_append_right _ (List.mem_singleton.mpr ?_)
    simp [inc]

theorem reaped {r : Reap n} (hr : r ∈ t.reaps) :
    ∃ x ∈ t.exits, x.who = r.child ∧ x.pid = r.pid ∧
      ∀ status, r.status = some status → status = x.status := by
  obtain hold | ⟨c, addr, rfl, rfl⟩ := ht.reaps_cases hr
  · obtain ⟨x, hx, h⟩ := hs.reaped r hold
    exact ⟨x, ht.mem_exits hx, h⟩
  · refine ⟨_, ht.mem_exits (hs.exited c ht.line.source.2.1), rfl, rfl, fun status h => ?_⟩
    cases addr with
    | false => cases h
    | true => exact (Option.some.inj h).symm

/-- A slot that is free stays so unless it gets a new process. -/
theorem unused_of_unused (hq : s.state q = .unused) (he : e ≠ .alloc q) : t.state q = .unused := by
  have hnone := hs.stage_of_unused hq
  have hsource := ht.line.source
  obtain h | ⟨h, -⟩ | ⟨-, h, -⟩ | ⟨h, -⟩ | ⟨status, rfl, rfl, -⟩ | ⟨-, -, -, -, h⟩ |
    ⟨rfl, rfl, -⟩ := ht.state_cases hs q
  · rwa [h]
  · exact absurd h he
  · rw [hq] at h; cases h
  · rw [hq] at h; cases h
  · rw [hnone] at hsource; cases hsource.1
  · exact h
  · rw [hnone] at hsource; cases hsource

theorem past {r : Reap n} (hr : r ∈ t.reaps) :
    r.child.2 ≤ t.gen r.child.1 ∧ (r.child.2 = t.gen r.child.1 → t.state r.child.1 = .unused) := by
  obtain hold | ⟨c, addr, rfl, rfl⟩ := ht.reaps_cases hr
  · obtain ⟨hle, hunused⟩ := hs.past r hold
    obtain ⟨hgen, halloc⟩ | hlt := ht.gen_cases r.child.1
    · rw [hgen]
      exact ⟨hle, fun h => ht.unused_of_unused hs (hunused h) halloc⟩
    · exact ⟨hle.trans hlt.le, fun h => absurd (hle.trans_lt hlt) (by rw [h]; exact lt_irrefl _)⟩
  · rw [ht.eq]
    exact ⟨le_rfl, fun _ => update_self ..⟩

theorem once : (t.reaps.map Reap.child).Nodup := by
  rw [ht.eq]
  cases e with
  | reap c addr =>
    have hnew : s.inc c ∉ s.reaps.map Reap.child := by
      intro hmem
      obtain ⟨r, hr, hchild⟩ := List.mem_map.mp hmem
      have h := (hs.past r hr).2
      rw [hchild] at h
      have hunused := h rfl
      rw [inc, ht.line.source.2.1] at hunused
      cases hunused
    simp only [advance, setStage, carry, List.map_append, List.map_cons, List.map_nil]
    rw [← List.concat_eq_append]
    exact hs.once.concat hnew
  | _ => exact hs.once

theorem pid : 0 ≤ t.nextpid ∧ ∀ q, 0 ≤ t.pid q := by
  obtain ⟨hnext, hpid⟩ := hs.pid
  rw [ht.eq]
  cases e with
  | alloc np =>
    refine ⟨Int.add_nonneg hnext (by decide), fun q => ?_⟩
    by_cases h : q = np <;> simp [h, hnext, hpid]
  | abort np =>
    refine ⟨Int.add_nonneg hnext (by decide), fun q => ?_⟩
    by_cases h : q = np <;> simp [h, hpid]
  | reap c addr =>
    refine ⟨hnext, fun q => ?_⟩
    by_cases h : q = c <;> simp [h, hpid]
  | _ => exact ⟨hnext, hpid⟩

/-- Every line keeps the invariant. -/
theorem ok : t.Ok initproc where
  lock := ht.lock hs
  fits := ht.fits hs
  chan := ht.chan hs
  init := ht.init hs
  forkee _ _ := ht.forkee hs
  forker _ _ _ := ht.forker hs
  keeps _ _ := ht.keeps hs
  unseen _ _ := ht.unseen hs
  counted _ _ := ht.counted hs
  target _ _ _ _ := ht.target hs
  heard _ _ := ht.heard hs
  owed _ _ := ht.owed hs
  creator _ _ := ht.creator hs
  exited _ := ht.exited hs
  reaped _ := ht.reaped hs
  past _ := ht.past hs
  once := ht.once hs
  pid := ht.pid hs

end Turn

/-- A process that takes a step takes a line. -/
theorem turn_of_turn {p : Fin n} {line : Option (Effect n × Stage n)} {t : Table n}
    (hline : ∀ e st', line = some (e, st') → Line initproc s p (s.stage p) e st')
    (h : s.turn initproc p line = some t) :
    ∃ e st', line = some (e, st') ∧ Turn initproc s t p e st' := by
  obtain ⟨⟨e, st'⟩, hl, h⟩ := Option.bind_eq_some_iff.mp h
  obtain ⟨hfree, rfl⟩ := Lib.of_unless h
  exact ⟨e, st', hl, hline e st' hl, Bool.eq_false_iff.mpr hfree, rfl⟩

/-- `kill` does no more than a `wakeup` to the states. -/
theorem state_kill (s : Table n) (q r : Fin n) :
    (s.kill q).state r = s.state r ∨
      r = q ∧ s.state r = .sleeping ∧ (s.kill q).state r = .runnable := by
  by_cases h : r = q
  · subst h
    by_cases hst : s.state r = .sleeping
    · exact .inr ⟨rfl, hst, by simp [kill, hst]⟩
    · exact .inl (by simp [kill, hst])
  · exact .inl (by simp [kill, h])

theorem state_of_state_kill {q r : Fin n} {st : ProcState} (h : (s.kill q).state r = st)
    (hst : st ≠ .runnable) : s.state r = st := by
  obtain hsame | ⟨-, -, hnew⟩ := s.state_kill q r
  · exact hsame.symm.trans h
  · exact absurd (h.symm.trans hnew) hst

theorem Dozes.of_kill {q r : Fin n} (h : (s.kill q).Dozes r) : s.Dozes r := by
  rw [Dozes] at h ⊢
  change (s.stage r).dozes _ = true at h
  cases hstage : s.stage r with
  | sleeping addr =>
    rw [hstage] at h
    exact decide_eq_true (state_of_state_kill (of_decide_eq_true h) (by decide))
  | _ => simp_all [Stage.dozes]

/-- `kill` keeps the invariant. -/
theorem Ok.kill (hs : s.Ok initproc) {q : Fin n} (hfree : (s.stage q).locked = false) :
    (s.kill q).Ok initproc where
  lock := hs.lock
  fits r := by
    have hfits := hs.fits r
    change (s.stage r).Fits _
    obtain h | ⟨rfl, hst, h⟩ := s.state_kill q r
    · rwa [h]
    · rw [hst] at hfits
      rw [h]
      cases hstage : s.stage r <;> simp_all [Stage.Fits, Stage.locked]
  chan := hs.chan
  init := hs.init
  forkee p np hp := by
    have hused := hs.forkee p np hp
    obtain h | ⟨-, hst, -⟩ := s.state_kill q np
    · exact h.trans hused
    · rw [hused] at hst; cases hst
  forker := hs.forker
  keeps := hs.keeps
  unseen c r hc hz := hs.unseen c r hc (state_of_state_kill hz (by decide))
  counted := hs.counted
  target := hs.target
  heard p r hp hheard hdoze := hs.heard p r hp hheard hdoze.of_kill
  owed c r hc hz hdoze := hs.owed c r hc (state_of_state_kill hz (by decide)) hdoze.of_kill
  creator := hs.creator
  exited c hz := hs.exited c (state_of_state_kill hz (by decide))
  reaped := hs.reaped
  past r hr := by
    obtain ⟨hle, hunused⟩ := hs.past r hr
    refine ⟨hle, fun h => ?_⟩
    obtain hsame | ⟨-, hst, -⟩ := s.state_kill q r.child.1
    · exact hsame.trans (hunused h)
    · rw [hunused h] at hst; cases hst
  once := hs.once
  pid := hs.pid

/-- Every step keeps the invariant. -/
theorem Ok.step {a : Act n} {t : Table n} (hs : s.Ok initproc) (h : s.step initproc a = some t) :
    t.Ok initproc := by
  cases a with
  | call p call =>
    obtain ⟨e, st', -, ht⟩ := turn_of_turn (fun _ _ => line_of_call) h
    exact ht.ok hs
  | run p ok =>
    obtain ⟨e, st', -, ht⟩ := turn_of_turn (fun _ _ => line_of_next) h
    exact ht.ok hs
  | kill q =>
    obtain ⟨hfree, rfl⟩ := Lib.of_unless h
    exact hs.kill (Bool.eq_false_iff.mpr hfree)

end Table

end Xv6.Wait
