import Xv6.Wait.Model

/-!
# What a process may count on at each line

The invariant of the process table of `Xv6.Wait.Model`. A process that holds `wait_lock` knows
which of its children it has seen, and which sleepers it has woken: nobody else makes a zombie,
changes a parent or goes to sleep in `wait` as long as it holds the lock.
-/

namespace Xv6.Wait

variable {n : ℕ}

namespace Stage

/-- The states a process can be in at a line. -/
def Fits : Stage n → ProcState → Prop
  | .none, st => st = .unused ∨ st = .used ∨ st = .zombie
  | .exitRelease, st | .exitSwitch, st => st = .zombie
  | .sleepSwitch _, st => st = .sleeping
  | .sleeping _, st => st = .sleeping ∨ st = .runnable
  | _, st => st = .runnable

/-- `p->chan` is set. -/
def asleep : Stage n → Bool
  | .sleepSwitch _ | .sleeping _ => true
  | _ => false

/-- The process that is being made. -/
def forkee : Stage n → Option (Fin n)
  | .forkParent np | .forkReady np => some np
  | _ => Option.none

/-- Not started, on the way out, or gone. -/
def exiting : Stage n → Bool
  | .none | .exitEnter _ | .exitReparent .. | .exitAdopt .. | .exitNotify .. | .exitZombie _
  | .exitRelease | .exitSwitch => true
  | _ => false

/-- In `exit` with `wait_lock`, and not yet a zombie. -/
def leaving : Stage n → Bool
  | .exitReparent .. | .exitAdopt .. | .exitNotify .. | .exitZombie _ => true
  | _ => false

/-- Can `c` be a child of a process at this line? -/
def Keeps : Stage n → Fin n → Prop
  | .none, _ | .exitNotify .., _ | .exitZombie _, _ | .exitRelease, _ | .exitSwitch, _ => False
  | .exitReparent _ cs, c | .exitAdopt _ cs _, c => c ∈ cs
  | _, _ => True

/-- Can `c` be a zombie child of a process at this line? -/
def Unseen : Stage n → Fin n → Prop
  | .waitScan _ cs _, c => c ∈ cs
  | .sleepEnter _, _ | .sleepUnlock _, _ => False
  | _, _ => True

/-- Is the child `c` to be visited, or accounted for in `havekids`? -/
def Counted : Stage n → Fin n → Prop
  | .waitScan _ cs havekids, c => c ∈ cs ∨ havekids = true
  | _, _ => True

/-- Has `wakeup(p->parent)` visited `q`? -/
def Heard : Stage n → Fin n → Prop
  | .exitNotify _ _ qs, q => q ∉ qs
  | .exitZombie _, _ => True
  | _, _ => False

/-- At `wakeup(p->parent)` or past it. -/
def notifying : Stage n → Bool
  | .exitNotify .. | .exitZombie _ => true
  | _ => false

/-- Has the process given up `wait_lock` in `sleep`, and not been woken? -/
def dozes : Stage n → ProcState → Bool
  | .sleepMark _, _ | .sleepSwitch _, _ => true
  | .sleeping _, st => st = .sleeping
  | _, _ => false

variable {st : Stage n} {c : Fin n}

theorem keeps_of_not_exiting (h : st.exiting = false) : st.Keeps c := by
  cases st <;> simp_all [exiting, Keeps]

theorem unseen_of_not_wl (h : st.wl = false) : st.Unseen c := by
  cases st <;> simp_all [wl, Unseen]

theorem counted_of_not_wl (h : st.wl = false) : st.Counted c := by
  cases st <;> simp_all [wl, Counted]

theorem notifying_of_heard (h : st.Heard c) : st.notifying = true := by
  cases st <;> simp_all [Heard, notifying]

theorem wl_of_notifying (h : st.notifying = true) : st.wl = true := by
  cases st <;> simp_all [wl, notifying]

theorem dozes_of_notifying (h : st.notifying = true) (state : ProcState) :
    st.dozes state = false := by
  cases st <;> simp_all [dozes, notifying]

end Stage

/-- The state of the process after an effect of its own. -/
def Effect.after : Effect n → ProcState → ProcState
  | .zombie _, _ => .zombie
  | .mark, _ => .sleeping
  | _, st => st

/-- Effects that take `wait_lock`, give it up, or need it. -/
def Effect.Locking (st st' : Stage n) : Effect n → Prop
  | .lock => st.wl = false ∧ st'.wl = true
  | .unlock => st.wl = true ∧ st'.wl = false
  | .adopt _ | .wake .. | .zombie _ | .reap .. => st.wl = true ∧ st'.wl = true
  | .link _ | .ready _ | .alloc _ | .abort _ | .mark | .tidy => st.wl = false ∧ st'.wl = false
  | .skip => st'.wl = st.wl

/-- Where an effect comes from. -/
def Effect.Source (s : Table n) (p : Fin n) (st st' : Stage n) : Effect n → Prop
  | .alloc np | .abort np => s.state np = .unused ∧ st.exiting = false
  | .link np => st.forkee = some np ∧ st' = .forkReady np
  | .ready np => st.forkee = some np
  | .adopt c => s.parent c = some p ∧ st.exiting = true ∧
      ∃ status cs, st' = .exitAdopt status cs (List.finRange n)
  | .wake q _ => q ≠ p
  | .zombie status => st = .exitZombie status ∧ st' = .exitRelease
  | .reap c addr => s.parent c = some p ∧ s.state c = .zombie ∧ (s.stage c).locked = false ∧
      (∃ cs havekids, st = .waitScan addr (c :: cs) havekids) ∧ st' = .waitReturn (s.pid c)
  | .mark => st.exiting = false
  | _ => True

/-- All that the proofs below need to know of a line. -/
structure Line (initproc : Fin n) (s : Table n) (p : Fin n) (st : Stage n) (e : Effect n)
    (st' : Stage n) : Prop where
  locking : e.Locking st st'
  source : e.Source s p st st'
  fits : st.Fits (s.state p) → st'.Fits (e.after (s.state p))
  asleep : st'.asleep = true → e = .mark ∨ st.asleep = true ∧ e = .skip
  forkee : ∀ np, st'.forkee = some np →
    e = .alloc np ∨ st.forkee = some np ∧ ∀ np', e ≠ .ready np'
  exiting : st'.exiting = true → st.exiting = true ∨ p ≠ initproc
  leaving : st.leaving = true → st'.leaving = true ∨ ∃ status, e = .zombie status
  keeps : ∀ c, st.Keeps c → s.parent c = some p → e ≠ .adopt c → st'.Keeps c
  unseen : ∀ c, st.Unseen c → s.parent c = some p → s.state c = .zombie → st'.Unseen c
  counted : ∀ c, st.Counted c → s.parent c = some p → st'.Counted c
  heard : ∀ q, st'.Heard q → st.Heard q ∨ ∃ status parent qs,
    st = .exitNotify status parent (q :: qs) ∧ e = visit p q parent
  quiet : st'.notifying = true → e = .skip ∨ ∃ q chan, e = .wake q chan
  notify : ∀ status parent qs, st' = .exitNotify status parent qs →
    parent = s.parent p ∨ ∃ q, st = .exitNotify status parent (q :: qs)
  dozes : st'.dozes (e.after (s.state p)) = true → st.dozes (s.state p) = true ∨
    ∃ addr, st = .sleepUnlock addr
  adopting : ∀ status cs qs, st = .exitAdopt status cs qs → initproc ∈ qs →
    (∃ qs', st' = .exitAdopt status cs qs' ∧ initproc ∈ qs') ∨ e = visit p initproc (some initproc)

/-- A turn of `wakeup` takes no other lock for long, and changes the state of no caller. -/
theorem visit_cases (p q : Fin n) (chan : Option (Fin n)) :
    q = p ∧ visit p q chan = .skip ∨ q ≠ p ∧ visit p q chan = .wake q chan := by
  by_cases h : q = p
  · exact .inl ⟨h, if_pos h⟩
  · exact .inr ⟨h, if_neg h⟩

section Lines

attribute [local simp] Effect.Locking Effect.Source Effect.after Stage.wl Stage.Fits Stage.asleep
  Stage.forkee Stage.exiting Stage.leaving Stage.Keeps Stage.Unseen Stage.Counted Stage.Heard
  Stage.notifying Stage.dozes

variable {initproc : Fin n} {s : Table n} {p : Fin n} {st st' : Stage n} {e : Effect n}

theorem line_of_call {call : Call n} (h : st.call initproc s p call = some (e, st')) :
    Line initproc s p st e st' := by
  cases st with
  | out ret =>
    cases call with
    | fork np mem =>
      cases np with
      | none =>
        cases h
        constructor <;> simp
      | some np =>
        simp only [Stage.call] at h
        split at h
        · split at h <;> cases h <;> constructor <;> simp_all
        · cases h
    | exit status =>
      simp only [Stage.call] at h
      split at h
      · cases h
      · cases h
        constructor <;> simp_all
    | wait addr | waitx addr =>
      cases h
      constructor <;> simp
  | _ => cases h

theorem line_of_next {ok : Bool} (h : st.next initproc s p ok = some (e, st')) :
    Line initproc s p st e st' := by
  cases st with
  | none => cases h
  | out ret => cases h
  | exitReparent status cs =>
    cases cs with
    | nil => cases h; constructor <;> simp
    | cons c cs =>
      simp only [Stage.next] at h
      split at h <;> cases h <;> constructor <;> simp_all +contextual
  | exitAdopt status cs qs =>
    cases qs with
    | nil => cases h; constructor <;> simp +contextual
    | cons q qs =>
      cases h
      have hadopt : ∀ status' cs' qs', Stage.exitAdopt status cs (q :: qs) =
          .exitAdopt status' cs' qs' → initproc ∈ qs' →
          (∃ qs'', Stage.exitAdopt status cs qs = .exitAdopt status' cs' qs'' ∧
            initproc ∈ qs'') ∨
          visit p q (some initproc) = visit p initproc (some initproc) := by
        intro status' cs' qs' heq hmem
        cases heq
        obtain rfl | hmem := List.mem_cons.mp hmem
        · exact .inr rfl
        · exact .inl ⟨qs, rfl, hmem⟩
      refine ⟨?_, ?_, ?_, ?_, ?_, ?_, ?_, ?_, ?_, ?_, ?_, ?_, ?_, ?_, hadopt⟩ <;>
        obtain ⟨-, hv⟩ | ⟨hq, hv⟩ := visit_cases p q (some initproc) <;>
        simp_all +contextual
  | exitNotify status parent qs =>
    cases qs with
    | nil => cases h; constructor <;> simp
    | cons q qs =>
      cases h
      have hheard : ∀ q', Stage.Heard (.exitNotify status parent qs) q' →
          Stage.Heard (.exitNotify status parent (q :: qs)) q' ∨
          ∃ status' parent' qs', Stage.exitNotify status parent (q :: qs) =
            .exitNotify status' parent' (q' :: qs') ∧ visit p q parent = visit p q' parent' := by
        intro q' hq'
        by_cases heq : q' = q
        · subst heq
          exact .inr ⟨status, parent, qs, rfl, rfl⟩
        · exact .inl fun hmem => hq' ((List.mem_cons.mp hmem).resolve_left heq)
      refine ⟨?_, ?_, ?_, ?_, ?_, ?_, ?_, ?_, ?_, ?_, hheard, ?_, ?_, ?_, ?_⟩ <;>
        obtain ⟨-, hv⟩ | ⟨hq, hv⟩ := visit_cases p q parent <;>
        simp_all +contextual
  | waitScan addr cs havekids =>
    cases cs with
    | nil =>
      simp only [Stage.next] at h
      split at h <;> cases h <;> constructor <;> simp
    | cons c cs =>
      simp only [Stage.next] at h
      have hcounted (hc : s.parent c ≠ some p) : ∀ c', (Stage.waitScan addr (c :: cs)
          havekids).Counted c' → s.parent c' = some p →
          (Stage.waitScan addr cs havekids).Counted c' := by
        rintro c' (hmem | hkids) hpar
        · exact .inl ((List.mem_cons.mp hmem).resolve_left fun h => hc (h ▸ hpar))
        · exact .inr hkids
      split at h
      · obtain ⟨-, h⟩ := Option.ite_none_left_eq_some.mp h
        split at h
        · split at h <;> cases h <;> constructor <;> simp_all
        · cases h; constructor <;> simp_all +contextual
      · cases h
        refine ⟨?_, ?_, ?_, ?_, ?_, ?_, ?_, ?_, ?_, hcounted ‹_›, ?_, ?_, ?_, ?_, ?_⟩ <;>
          simp_all +contextual
  | sleeping addr =>
    simp only [Stage.next] at h
    split at h
    · cases h; constructor <;> simp_all
    · cases h
  | _ => cases h; constructor <;> simp +contextual

end Lines

end Xv6.Wait
