import Xv6.Wait.Family

/-!
# Every exited process is reaped at most once, by its parent or by `initproc`

The results about `exit`, `wait` and `waitx` that hold in every state of every run: what has been
reaped, by whom and with which status, when `wait` fails, and that no process sleeps in `wait`
while it has a zombie to reap.
-/

namespace Xv6.Wait

variable {n : ℕ} {initproc p : Fin n} {s : Table n}

/-- The three ways to `return -1`. -/
theorem fails_of_next {st : Stage n} {ok : Bool} {e : Effect n} {ret : ℤ}
    (h : st.next initproc s p ok = some (e, .waitReturn ret)) :
    (∃ c addr, e = .reap c addr ∧ ret = s.pid c) ∨
      (∃ addr, st = .waitScan addr [] false) ∨ s.killed p = true ∨
      ok = false ∧ ∃ cs havekids, st = .waitScan true cs havekids := by
  cases st with
  | waitScan addr cs havekids =>
    cases cs with
    | nil =>
      simp only [Stage.next] at h
      split at h
      · next hfail =>
          cases havekids with
          | false => exact .inr (.inl ⟨addr, rfl⟩)
          | true => exact .inr (.inr (.inl (by simpa using hfail)))
      · cases h
    | cons c cs =>
      simp only [Stage.next] at h
      split at h
      · split at h
        · cases h
        · split at h
          · split at h
            · next hbad =>
                obtain ⟨rfl, hok⟩ := by simpa using hbad
                exact .inr (.inr (.inr ⟨hok, c :: cs, havekids, rfl⟩))
            · cases h; exact .inl ⟨c, addr, rfl, rfl⟩
          · cases h
      · cases h
  | exitReparent status cs =>
    cases cs with
    | nil => cases h
    | cons c cs => simp only [Stage.next] at h; split at h <;> cases h
  | exitAdopt status cs qs => cases qs <;> cases h
  | exitNotify status parent qs => cases qs <;> cases h
  | sleeping addr => simp only [Stage.next] at h; split at h <;> cases h
  | _ => cases h

theorem ne_waitReturn_of_call {st st' : Stage n} {call : Call n} {e : Effect n}
    (h : st.call initproc s p call = some (e, st')) (ret : ℤ) : st' ≠ .waitReturn ret := by
  rintro rfl
  cases st with
  | out r =>
    cases call with
    | fork np mem =>
      cases np with
      | none => cases h
      | some np => simp only [Stage.call] at h; split at h <;> [split at h; skip] <;> cases h
    | exit status => simp only [Stage.call] at h; split at h <;> cases h
    | wait addr | waitx addr => cases h
  | _ => cases h

namespace Table

theorem ok_of_visits {as : List (Act n)}
    (h : Lib.Visits (step initproc) (boot initproc) as s) : s.Ok initproc :=
  h.induction (ok_boot initproc) fun _ _ _ _ hstep hs => hs.step hstep

/-- A child is reaped in the loop of `wait` or `waitx`, by the process that made it, or by
`initproc` once that process has exited. -/
theorem Ok.reap (hs : s.Ok initproc) {t : Table n} {e : Effect n} {st' : Stage n}
    (ht : Turn initproc s t p e st') {r : Reap n} (hr : r ∈ t.reaps) (hnew : r ∉ s.reaps) :
    ∃ c addr cs havekids, s.stage p = .waitScan addr (c :: cs) havekids ∧
      t.stage p = .waitReturn (s.pid c) ∧
      r = ⟨s.inc c, s.inc p, s.pid c, if addr then some (s.xstate c) else none⟩ ∧
      (s.creator c = s.inc p ∨ p = initproc ∧ ∃ x ∈ s.exits, x.who = s.creator c) := by
  obtain hold | ⟨c, addr, rfl, heq⟩ := ht.reaps_cases hr
  · exact absurd hold hnew
  obtain ⟨hparent, -, -, ⟨cs, havekids, hst⟩, rfl⟩ := ht.line.source
  refine ⟨c, addr, cs, havekids, hst, ht.stage_self, heq, ?_⟩
  obtain h | ⟨hinit, h | ⟨x, -, hleaving⟩⟩ := hs.creator c p hparent
  · exact .inl h
  · exact .inr ⟨hinit, h⟩
  · -- a process that is leaving holds `wait_lock`, and so does the one that reaps
    have hwl : (s.stage x).wl = true := by cases h : s.stage x <;> simp_all [Stage.leaving, Stage.wl]
    obtain rfl : x = p := hs.eq_of_wl hwl (by rw [hst]; rfl)
    rw [hst] at hleaving
    cases hleaving

/-- `wait` fails for one of three reasons. -/
theorem Ok.fails (hs : s.Ok initproc) {a : Act n} {t : Table n} (h : s.step initproc a = some t)
    (hp : t.stage p = .waitReturn (-1)) :
    s.stage p = .waitReturn (-1) ∨ (∀ c, s.parent c ≠ some p) ∨ s.killed p = true ∨
      a = .run p false ∧ ∃ cs havekids, s.stage p = .waitScan true cs havekids := by
  have other {q : Fin n} {e : Effect n} {st' : Stage n} (ht : Turn initproc s t q e st') :
      p = q ∧ st' = .waitReturn (-1) ∨ s.stage p = .waitReturn (-1) := by
    obtain ⟨hq, h⟩ | ⟨-, h, -⟩ | ⟨-, -, -, h⟩ := ht.stage_cases hs p
    · exact .inl ⟨hq, h.symm.trans hp⟩
    · exact .inr (h.symm.trans hp)
    · rw [hp] at h; cases h
  cases a with
  | call q call =>
    obtain ⟨e, st', hcall, ht⟩ := turn_of_turn (fun _ _ => line_of_call) h
    obtain ⟨-, hst'⟩ | hold := other ht
    · exact absurd hst' (ne_waitReturn_of_call hcall _)
    · exact .inl hold
  | run q ok =>
    obtain ⟨e, st', hnext, ht⟩ := turn_of_turn (fun _ _ => line_of_next) h
    obtain ⟨rfl, rfl⟩ | hold := other ht
    · obtain ⟨c, addr, -, hret⟩ | ⟨addr, hst⟩ | hkilled | ⟨rfl, hst⟩ := fails_of_next hnext
      · have := hs.pid.2 c
        omega
      · refine .inr (.inl fun c hc => ?_)
        have hcounted := hs.counted c p hc
        rw [hst] at hcounted
        simp [Stage.Counted] at hcounted
      · exact .inr (.inr (.inl hkilled))
      · exact .inr (.inr (.inr ⟨rfl, hst⟩))
    · exact .inl hold
  | kill q =>
    obtain ⟨-, rfl⟩ := Lib.of_unless h
    exact .inl hp

/-- While `wait_lock` is free, nobody sleeps in `wait` who has a zombie to reap. -/
theorem Ok.not_zombie (hs : s.Ok initproc) (hfree : s.waitLock = none) {c : Fin n}
    (hp : s.state p = .sleeping) (hc : s.parent c = some p) : s.state c ≠ .zombie := by
  intro hz
  have hdoze : s.Dozes p := by
    have hfits := hs.fits p
    rw [hp] at hfits
    rw [Dozes]
    cases h : s.stage p <;> simp_all [Stage.Fits, Stage.dozes]
  obtain ⟨-, x, status, cs, qs, hx, -⟩ := hs.owed c p hc hz hdoze
  have hwl := hs.wl_eq_false (p := x) (by rw [hfree]; rfl)
  rw [hx] at hwl
  cases hwl

/-- The `exit` and `wait` protocol, in every state of every run. -/
theorem protocol_of_visits {as : List (Act n)}
    (h : Lib.Visits (step initproc) (boot initproc) as s) :
    (s.reaps.map Reap.child).Nodup ∧
    (∀ r ∈ s.reaps, ∃ x ∈ s.exits, x.who = r.child ∧ x.pid = r.pid ∧
      ∀ status, r.status = some status → status = x.status) ∧
    (∀ a t, s.step initproc a = some t → ∀ r ∈ t.reaps, r ∉ s.reaps →
      ∃ p c addr cs havekids, s.stage p = .waitScan addr (c :: cs) havekids ∧
        t.stage p = .waitReturn (s.pid c) ∧
        r = ⟨s.inc c, s.inc p, s.pid c, if addr then some (s.xstate c) else none⟩ ∧
        (s.creator c = s.inc p ∨ p = initproc ∧ ∃ x ∈ s.exits, x.who = s.creator c)) ∧
    (∀ a t p, s.step initproc a = some t → t.stage p = .waitReturn (-1) →
      s.stage p = .waitReturn (-1) ∨ (∀ c, s.parent c ≠ some p) ∨ s.killed p = true ∨
        a = .run p false ∧ ∃ cs havekids, s.stage p = .waitScan true cs havekids) ∧
    (s.waitLock = none → ∀ p c, s.state p = .sleeping → s.chan p = some p →
      s.parent c = some p → s.state c ≠ .zombie) := by
  have hs := ok_of_visits h
  refine ⟨hs.once, hs.reaped, fun a t hstep r hr hnew => ?_, fun a t p hstep => hs.fails hstep,
    fun hfree p c hp _ hc => hs.not_zombie hfree hp hc⟩
  cases a with
  | call p call =>
    obtain ⟨e, st', -, ht⟩ := turn_of_turn (fun _ _ => line_of_call) hstep
    exact ⟨p, hs.reap ht hr hnew⟩
  | run p ok =>
    obtain ⟨e, st', -, ht⟩ := turn_of_turn (fun _ _ => line_of_next) hstep
    exact ⟨p, hs.reap ht hr hnew⟩
  | kill q =>
    obtain ⟨-, rfl⟩ := Lib.of_unless hstep
    exact absurd hr hnew

/-- The process `p` takes `k` steps. -/
def goOn (p : Fin n) (k : ℕ) : List (Act n) := List.replicate k (.run p true)

/-- `initproc` forks a process that forks another and exits, with `initproc` asleep in `wait`;
`initproc` reaps the process, and then the orphan. -/
def orphanRun : List (Act 3) :=
  List.flatten [[.call 0 (.fork (some 1) true)], goOn 0 2, [.call 1 (.fork (some 2) true)],
    goOn 1 2, [.call 0 (.wait true)], goOn 0 9, [.call 1 (.exit 7)], goOn 1 16, goOn 0 5,
    [.call 2 (.exit 9), .call 0 (.waitx true)], goOn 2 12, goOn 0 5]

theorem protocol_orphanRun :
    ∃ s, Lib.Visits (step (0 : Fin 3)) (boot 0) orphanRun s ∧
      s.reaps = [⟨(1, 1), (0, 0), 2, some 7⟩, ⟨(2, 1), (0, 0), 3, some 9⟩] ∧
      (s.reaps.map Reap.child).Nodup ∧
      ∀ r ∈ s.reaps, ∃ x ∈ s.exits, x.who = r.child ∧ x.pid = r.pid ∧
        ∀ status, r.status = some status → status = x.status := by
  have hrun : (Lib.exec (step (0 : Fin 3)) (boot 0) orphanRun).any (fun s =>
      s.reaps = [⟨(1, 1), (0, 0), 2, some 7⟩, ⟨(2, 1), (0, 0), 3, some 9⟩]) = true := by
    decide +kernel
  obtain ⟨s, hexec, hreaps⟩ := (Option.any_eq_true _ _).mp hrun
  have hvisits := Lib.Visits.last hexec
  obtain ⟨honce, hmatch, -⟩ := protocol_of_visits hvisits
  exact ⟨s, hvisits, of_decide_eq_true hreaps, honce, hmatch⟩

/-- In every state of every run `initproc` and the parents are alive, and at most one process is in
code under `wait_lock`. -/
theorem alive_of_visits {as : List (Act n)}
    (h : Lib.Visits (step initproc) (boot initproc) as s) :
    (∀ q, q = initproc ∨ (∃ c, s.parent c = some q) →
      s.state q = .runnable ∨ s.state q = .sleeping) ∧
    ∀ p q, (s.stage p).wl = true → (s.stage q).wl = true → p = q := by
  have hs := ok_of_visits h
  refine ⟨fun q hq => ?_, fun p q hp hq => ?_⟩
  · have hfits := hs.fits q
    have hinit := hs.init
    obtain rfl | ⟨c, hc⟩ := hq
    · cases hst : s.stage q <;> simp_all [Stage.Fits, Stage.exiting]
      exact hfits.symm
    · have hkeeps := hs.keeps c q hc
      cases hst : s.stage q <;> simp_all [Stage.Fits, Stage.Keeps]
      exact hfits.symm
  · exact Option.some.inj (((hs.lock p).mpr hp).symm.trans ((hs.lock q).mpr hq))

theorem alive_fork : ∃ s, Lib.Visits (step (0 : Fin 2)) (boot 0)
    (.call 0 (.fork (some 1) true) :: goOn 0 2) s ∧ s.parent 1 = some 0 ∧
      (s.state 0 = .runnable ∨ s.state 0 = .sleeping) := by
  obtain ⟨s, hs, hparent⟩ : ∃ s, Lib.exec (step (0 : Fin 2)) (boot 0)
    (.call 0 (.fork (some 1) true) :: goOn 0 2) = some s ∧ s.parent 1 = some 0 := ⟨_, rfl, rfl⟩
  exact ⟨s, .last hs, hparent, (alive_of_visits (.last hs)).1 0 (.inr ⟨1, hparent⟩)⟩

end Table

end Xv6.Wait
