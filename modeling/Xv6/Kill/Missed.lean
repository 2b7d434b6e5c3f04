import Xv6.Kill.Loops

/-!
# A kill that is missed

The loops test `killed` under the lock of what they wait for, and `sleep` takes `p->lock` only
afterwards. A `kill` that lands in between finds the process not yet `SLEEPING`, so it wakes
nobody, and the process goes to sleep with `killed` set. A `kill` at any other time is heard.
-/

namespace Xv6.Kill

open Function (update_apply update_of_ne update_self)

variable {ι : Type} {n : ℕ}

/-- The call in whose loop the process is `SLEEPING`, or about to be switched away. -/
def Stage.sleeps : Stage ι n → Option (Call ι)
  | .sleepSwitch c | .asleep c => some c
  | _ => none

/-- The process is past the test, and has not been switched away. -/
def Stage.Tested : Stage ι n → Prop
  | .notify .. | .sleepEnter _ | .sleepUnlock _ | .sleepMark _ | .sleepSwitch _ => True
  | _ => False

theorem Stage.tested_iff {st : Stage ι n} : st.Tested ↔ st.Unheard ∨ st.locked = true := by
  cases st <;> simp [Stage.Tested, Stage.Unheard, Stage.locked]

namespace Sys

variable {s t : Sys ι n} {p q : Fin n}

attribute [local simp] Stage.Tested Stage.sleeps

/-- No process is `SLEEPING` in one of the loops with `killed` set. -/
def NoneMissed (s : Sys ι n) : Prop :=
  ∀ p, (s.stage p).sleeps.isSome → s.state p = .sleeping → s.killed p = false

/-- What is known of a process in a loop whose test of `killed` has failed. -/
structure Heard (s : Sys ι n) (p : Fin n) : Prop where
  tested : (s.stage p).Tested → s.killed p = false
  asleep : ∀ c, s.stage p = .asleep c → s.state p = .sleeping → s.killed p = false

theorem noneMissed_of_heard (h : ∀ p, s.Heard p) : s.NoneMissed := by
  intro p hp hstate
  cases hst : s.stage p with
  | sleepSwitch c => exact (h p).tested (by rw [hst]; trivial)
  | asleep c => exact (h p).asleep c hst hstate
  | _ => rw [hst] at hp; cases hp

/-- Nothing happens to the process but that it may be woken. -/
theorem Heard.congr (h : s.Heard p) (hstage : t.stage p = s.stage p)
    (hkilled : t.killed p = s.killed p)
    (hstate : t.state p = .sleeping → s.state p = .sleeping) : t.Heard p :=
  ⟨fun ht => by rw [hkilled]; exact h.tested (hstage ▸ ht),
    fun c hc hs => by rw [hkilled]; exact h.asleep c (hstage ▸ hc) (hstate hs)⟩

/-- A process that is not near `sleep`. -/
theorem heard_of_awake (h : ¬ (s.stage p).Tested) (h' : ∀ c, s.stage p ≠ .asleep c) : s.Heard p :=
  ⟨fun ht => absurd ht h, fun c hc => absurd hc (h' c)⟩

variable {e : Effect ι n}

/-- A line leads past the test only from there, or if `killed` is not set, and frees nobody. -/
theorem next_tested {st st' : Stage ι n} {ok : Bool} {ch : UInt8}
    (h : st.next s p ok ch = some (e, st')) (hst' : st'.Tested ∨ st'.sleeps.isSome) :
    (st.Tested ∨ s.killed p = false) ∧ ∀ c, e ≠ .reap c := by
  have hnear (st : Stage ι n) (hno : ¬ (st.Tested ∨ st.sleeps.isSome)) {P : Prop}
      (heq : st = st') : P := absurd (heq ▸ hst') hno
  cases st with
  | gone => cases h
  | out => cases h
  | enter c =>
    cases c <;> simp only [Stage.next, Option.some.injEq, Prod.mk.injEq] at h <;>
      exact hnear _ (by simp) h.2
  | relock c => cases h; simp at hst'
  | head c =>
    cases c with
    | piperead pi i k =>
      cases h
      split at hst' <;> simp at hst'
    | pipewrite pi i k =>
      cases h
      split at hst' <;> simp at hst'
    | consoleread target k =>
      simp only [Stage.next] at h
      split at h
      · split at h
        · cases h; simp at hst'
        · have hst := congrArg Prod.snd (Option.some.inj h)
          simp only [takeChar] at hst
          subst hst
          split_ifs at hst' <;> simp at hst'
      · cases h; simp at hst'
    | sysSleep ticks0 k =>
      cases h
      split at hst' <;> simp at hst'
    | wait => cases h; simp at hst'
    | waitx => cases h; simp at hst'
  | test c =>
    cases c with
    | pipewrite pi i k =>
      simp only [Stage.next] at h
      split at h
      · cases h; simp at hst'
      · next hno =>
          have hkilled : s.killed p = false := by simpa using (not_or.mp hno).2
          split at h
          · cases h; exact ⟨.inr hkilled, by simp⟩
          · split at h <;> cases h <;> simp at hst'
    | _ =>
      cases h
      split at hst'
      · simp at hst'
      · next hno => exact ⟨.inr (by simpa using hno), by simp⟩
  | scan c cs havekids =>
    cases cs with
    | nil =>
      cases h
      split at hst'
      · simp at hst'
      · next hno => exact ⟨.inr (by simp at hno; exact hno.2), by simp⟩
    | cons q qs =>
      simp only [Stage.next] at h
      split_ifs at h <;> cases h <;> simp at hst'
  | copy c =>
    cases c with
    | piperead pi i k =>
      simp only [Stage.next] at h
      split at h
      · cases h
        split at hst' <;> simp at hst'
      · cases h; simp at hst'
    | _ => cases h
  | notify c qs =>
    refine ⟨.inl trivial, ?_⟩
    cases qs with
    | nil => cases h; simp
    | cons q qs =>
      cases c with
      | pipewrite pi i k => cases h; split <;> simp
      | _ => cases h
  | finish c qs =>
    cases qs with
    | nil => cases h; simp at hst'
    | cons q qs =>
      cases c with
      | pipewrite pi i k => cases h; simp at hst'
      | piperead pi i k => cases h; simp at hst'
      | _ => cases h
  | leave c => cases h; simp at hst'
  | sleepEnter c => cases h; exact ⟨.inl trivial, by simp⟩
  | sleepUnlock c => cases h; exact ⟨.inl trivial, by simp⟩
  | sleepMark c => cases h; exact ⟨.inl trivial, by simp⟩
  | sleepSwitch c => cases h; exact ⟨.inl trivial, by simp⟩
  | asleep c =>
    simp only [Stage.next] at h
    split at h
    · cases h; simp at hst'
    · cases h

variable [DecidableEq ι]

theorem state_wake (s : Sys ι n) (q : Fin n) (c : Chan ι n) (p : Fin n)
    (h : (s.wake q c).state p = .sleeping) : s.state p = .sleeping := by
  simp only [wake, wakeIf, setState, update_apply] at h
  split at h
  · next heq => subst heq; split at h <;> simp_all
  · exact h

/-- Only `freeproc` changes where another process is, and only `kill` and `freeproc` change
`killed`. -/
theorem carry_frame (h : s.carry p e = some t) (he : ∀ c, e ≠ .reap c) :
    t.stage = s.stage ∧ t.killed = s.killed := by
  cases e with
  | reap c => exact absurd rfl (he c)
  | acquire l =>
    obtain ⟨-, rfl⟩ := Lib.of_guard h
    exact ⟨rfl, rfl⟩
  | wake q c =>
    obtain ⟨-, rfl⟩ := Lib.of_unless h
    exact ⟨rfl, rfl⟩
  | _ => cases h; exact ⟨rfl, rfl⟩

/-- An effect of `p` makes no other process `SLEEPING`. -/
theorem carry_state (h : s.carry p e = some t) (hq : q ≠ p)
    (hs : t.state q = .sleeping) : s.state q = .sleeping := by
  cases e with
  | acquire l =>
    obtain ⟨-, rfl⟩ := Lib.of_guard h
    exact hs
  | wake r c =>
    obtain ⟨-, rfl⟩ := Lib.of_unless h
    exact state_wake s r c q hs
  | reap r =>
    cases h
    simp only [goto, freeproc, setKilled, setState, update_apply] at hs
    split at hs
    · cases hs
    · exact hs
  | mark c =>
    cases h
    simpa only [setState, update_of_ne hq] using hs
  | _ => cases h; exact hs

/-- What a line of `p` does to the other processes. -/
theorem Heard.carry (h : s.Heard q) (hc : s.carry p e = some t) (hq : q ≠ p) : t.Heard q := by
  by_cases hreap : e = .reap q
  · subst hreap
    cases hc
    exact heard_of_awake (by simp [goto]) (by simp [goto])
  · refine h.congr ?_ ?_ (carry_state hc hq)
    · cases e with
      | reap r =>
        have hne : q ≠ r := by rintro rfl; exact hreap rfl
        cases hc
        exact update_of_ne hne ..
      | _ => rw [(carry_frame hc (by simp)).1]
    · cases e with
      | reap r =>
        have hne : q ≠ r := by rintro rfl; exact hreap rfl
        cases hc
        exact update_of_ne hne ..
      | _ => rw [(carry_frame hc (by simp)).2]

/-- A line of `p` keeps what is known of `p`. -/
theorem heard_run (h : s.Heard p) {st' : Stage ι n} {ok : Bool} {ch : UInt8}
    (hnext : (s.stage p).next s p ok ch = some (e, st')) (hc : s.carry p e = some t) :
    (t.goto p st').Heard p := by
  have hself : (t.goto p st').stage p = st' := update_self ..
  have hkilled (hst' : st'.Tested ∨ st'.sleeps.isSome) : t.killed p = false := by
    obtain ⟨hbefore, hreap⟩ := next_tested hnext hst'
    rw [(carry_frame hc hreap).2]
    obtain htested | hfalse := hbefore
    · exact h.tested htested
    · exact hfalse
  refine ⟨fun ht => hkilled (.inl (hself ▸ ht)), fun c hst _ => hkilled (.inr ?_)⟩
  rw [show st' = .asleep c from hself.symm.trans hst]
  rfl

/-- The step is a `kill` of a process that is past its test and has not taken its lock. -/
def KillsUnheard (s : Sys ι n) : Act ι n → Prop
  | .kill q => (s.stage q).Unheard
  | _ => False

instance (s : Sys ι n) (a : Act ι n) : Decidable (KillsUnheard s a) := by
  unfold KillsUnheard; split <;> infer_instance

/-- Every other step keeps what is known of all processes. -/
theorem heard_step (h : ∀ p, s.Heard p) {a : Act ι n} (ha : ¬ KillsUnheard s a)
    (hstep : s.step a = some t) (p : Fin n) : t.Heard p := by
  -- a process that starts, leaves or ends is not near `sleep`
  have hgoto (u : Sys ι n) (q : Fin n) (st : Stage ι n) (hst : ¬ st.Tested)
      (hst' : ∀ c, st ≠ .asleep c) (hu : ∀ r, r ≠ q → u.Heard r) : (u.goto q st).Heard p := by
    by_cases hp : p = q
    · subst hp
      exact heard_of_awake (by simpa [goto] using hst) (by simpa [goto] using hst')
    · exact (hu p hp).congr (update_of_ne hp ..) rfl id
  cases a with
  | call q c =>
    obtain ⟨-, rfl⟩ := Lib.of_guard hstep
    exact hgoto s q _ (by simp) (by simp) fun r _ => h r
  | run q ok ch =>
    obtain ⟨⟨e, st'⟩, hnext, hmap⟩ := Option.bind_eq_some_iff.mp hstep
    obtain ⟨u, hu, rfl⟩ := Option.map_eq_some_iff.mp hmap
    by_cases hp : p = q
    · subst hp; exact heard_run (h p) hnext hu
    · exact ((h p).carry hu hp).congr (update_of_ne hp ..) rfl id
  | kill q =>
    simp only [step] at hstep
    split at hstep
    · cases hstep
    · next hlocked =>
        cases hstep
        by_cases hp : p = q
        · subst hp
          -- the process is not between its test and the end of `sleep`'s locked part
          have hnot : ¬ (s.stage p).Tested := fun ht =>
            (Stage.tested_iff.mp ht).elim ha hlocked
          refine ⟨fun ht => absurd ht hnot, fun c _ hs => ?_⟩
          simp only [kill, wakeIf, setState, update_self] at hs
          split at hs
          · cases hs
          · next hno => simp_all [setKilled]
        · exact (h p).congr rfl (update_of_ne hp ..)
            fun hs => by simpa [kill, wakeIf, setState, setKilled, hp] using hs
  | wakeup q c =>
    obtain ⟨-, rfl⟩ := Lib.of_unless hstep
    exact (h p).congr rfl rfl (state_wake s q c p)
  | tick =>
    obtain ⟨-, rfl⟩ := Lib.of_guard hstep
    exact (h p).congr rfl rfl id
  | input cons =>
    obtain ⟨-, rfl⟩ := Lib.of_guard hstep
    exact (h p).congr rfl rfl id
  | close pi writable =>
    obtain ⟨-, rfl⟩ := Lib.of_guard hstep
    exact (h p).congr rfl rfl id
  | fork q np =>
    obtain ⟨-, rfl⟩ := Lib.of_guard hstep
    refine hgoto _ np _ (by simp) (by simp) fun r hr => ?_
    exact (h r).congr rfl rfl fun hs => by simpa [setState, hr] using hs
  | exit q =>
    obtain ⟨-, rfl⟩ := Lib.of_guard hstep
    refine hgoto _ q _ (by simp) (by simp) fun r hr => ?_
    exact (h r).congr rfl rfl fun hs => by simpa [setState, hr] using hs
  | fault q =>
    obtain ⟨hout, rfl⟩ := Lib.of_guard hstep
    by_cases hp : p = q
    · subst hp
      exact heard_of_awake (by simp [setKilled, hout])
        (by simp [setKilled, hout])
    · exact (h p).congr rfl (update_of_ne hp ..) id

/-- A process that has been killed and enters `sleep` is soon `SLEEPING`. -/
theorem exec_sleepEnter {c : Call ι} (hst : s.stage p = .sleepEnter c)
    (hkilled : s.killed p = true) (ok : Bool) (ch : UInt8) :
    ∃ u, Lib.exec step s (List.replicate 3 (.run p ok ch)) = some u ∧ ¬ u.NoneMissed := by
  refine ⟨_, by simp [List.replicate, step, hst, Stage.next, carry, goto]; rfl, fun hno => ?_⟩
  have := hno p (by simp) (by simp [setState])
  simp [setState, hkilled] at this

/-- **Kills are heard.** In a run in which no `kill` hits a process between its test of `killed` and
the `acquire(&p->lock)` of its `sleep`, no process is ever `SLEEPING` in one of the six loops
with `killed` set. And a `kill` of a process that is about to take its lock in `sleep` is missed:
three lines later it is `SLEEPING` with `killed` set. -/
theorem noneMissed_of_killsHeard {pipe : ι → Pipes.Pipe} {cons : Console} {initproc : Fin n}
    {as : List (Act ι n)}
    (hheard : ∀ t a, Lib.Takes step (boot pipe cons initproc) as t a → ¬ KillsUnheard t a) :
    (∀ t, Lib.Visits step (boot pipe cons initproc) as t → t.NoneMissed) ∧
    ∀ (t : Sys ι n) q c, t.stage q = .sleepEnter c → ∃ u v, t.step (.kill q) = some u ∧
      Lib.exec step u (List.replicate 3 (.run q true 0)) = some v ∧ ¬ v.NoneMissed := by
  refine ⟨fun t ht => noneMissed_of_heard ?_, fun t q c hst => ?_⟩
  · refine Lib.Visits.induction (P := fun s => ∀ p, s.Heard p) (fun p => ?_) ?_ ht
    · by_cases hp : p = initproc <;>
        exact heard_of_awake (by simp [boot, hp]) (by simp [boot, hp])
    · exact fun s a u htakes hstep h => heard_step h (hheard s a htakes) hstep
  · have hkill : t.step (.kill q) = some (t.kill q) := by
      rw [step, hst]
      rfl
    obtain ⟨v, hv, hmissed⟩ := exec_sleepEnter (s := t.kill q) (p := q) (c := c) hst
      (by simp [kill, wakeIf, setState, setKilled]) true 0
    exact ⟨t.kill q, v, hkill, hv, hmissed⟩

/-- A pipe with nothing in it. -/
def emptyPipe : Unit → Pipes.Pipe := fun _ => Pipes.Pipe.alloc fun _ => 0

def noInput : Console := ⟨fun _ => 0, 0, 0⟩

/-- A reader finds the pipe empty, tests `killed` and goes to sleep; then it is killed. -/
def killedAsleep : List (Act Unit 2) :=
  .call 0 (.piperead () 0 1) :: List.replicate 7 (.run 0 true 0) ++ [.kill 0]

theorem noneMissed_killedAsleep :
    ∃ s, Lib.exec step (boot emptyPipe noInput 0) killedAsleep = some s ∧
    s.killed 0 = true ∧ s.stage 0 = .asleep (.piperead () 0 1) ∧ s.NoneMissed := by
  have hcheck : (Lib.exec (Lib.guarded (fun t a => ¬ KillsUnheard t a) step)
      (boot emptyPipe noInput 0) killedAsleep).any (fun s =>
        decide (s.killed 0 = true ∧ s.stage 0 = .asleep (.piperead () 0 1))) = true := by
    decide +kernel
  obtain ⟨s, hs, hend⟩ := (Option.any_eq_true _ _).mp hcheck
  obtain ⟨hkilled, hstage⟩ := of_decide_eq_true hend
  obtain ⟨hrun, hheard⟩ := Lib.exec_guarded hs
  exact ⟨s, hrun, hkilled, hstage, (noneMissed_of_killsHeard hheard).1 s (Lib.Visits.last hrun)⟩

/-- The same, but the `kill` comes right after the test. -/
def killedTested : List (Act Unit 2) :=
  .call 0 (.piperead () 0 1) :: List.replicate 3 (.run 0 true 0) ++
    .kill 0 :: List.replicate 4 (.run 0 true 0)

/-- The reader is off the processor, `SLEEPING` with `killed` set. -/
theorem killedTested_missed : ∃ s, Lib.exec step (boot emptyPipe noInput 0) killedTested = some s ∧
    s.stage 0 = .asleep (.piperead () 0 1) ∧ s.state 0 = .sleeping ∧ s.killed 0 = true := by
  have hcheck : (Lib.exec step (boot emptyPipe noInput 0) killedTested).any (fun s =>
      decide (s.stage 0 = .asleep (.piperead () 0 1) ∧ s.state 0 = .sleeping ∧
        s.killed 0 = true)) = true := by decide +kernel
  obtain ⟨s, hs, hend⟩ := (Option.any_eq_true _ _).mp hcheck
  exact ⟨s, hs, of_decide_eq_true hend⟩

end Sys

end Xv6.Kill
