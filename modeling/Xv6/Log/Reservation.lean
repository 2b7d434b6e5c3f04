import Xv6.Lib.Tally
import Xv6.Log.Invariant
import Mathlib.Algebra.Order.BigOperators.Group.Finset

/-!
# The reservation of log space

`begin_op` admits an operation only if `MAXOPBLOCKS` blocks for each outstanding operation fit
into `LOGSIZE`. With the log that `mkfs` lays out, `sb.nlog = LOGSIZE` blocks of which one is
the header, `log_write` stops one block earlier than that: three full operations do not fit.
Operations that leave one block of their reservation unused always do.
-/

namespace Xv6

open Lib Lib.Dev

/-- How many distinct blocks an operation may still log, if `k` are its limit. -/
def OpPc.slack (k : ℕ) : OpPc → ℕ
  | active logged => k - (logged.map Prod.snd).toFinset.card
  | _ => 0

theorem OpPc.slack_woken (k : ℕ) (c : OpPc) : c.woken.slack k = c.slack k := by cases c <;> rfl

theorem OpPc.slack_le (k : ℕ) (c : OpPc) : c.slack k ≤ if c.isActive then k else 0 := by
  cases c <;> simp [slack, isActive]

namespace LogSys

variable {P : Type}

section
variable [Fintype P]

/-- What the log's readers need of a state: `log_write` has not run out of room, and the blocks
in the header have log blocks of their own between `start + 1` and `start + size - 1`. -/
def Roomy (s : LogSys P) : Prop :=
  s.panicked ≠ some "too big a transaction" ∧ (s.mem.log.lh.length : ℤ) ≤ s.mem.log.size - 1

/-- The blocks in the header and those the running operations may still log fit into the log
with its header. -/
def Reserved (s : LogSys P) : Prop :=
  s.mem.log.lh.length + ∑ p, (s.pc p).slack (MAXOPBLOCKS - 1) ≤ LOGSIZE - 2

theorem sum_slack_wakeup (s : LogSys P) (k : ℕ) :
    ∑ q, (s.wakeup.pc q).slack k = ∑ q, (s.pc q).slack k :=
  Finset.sum_congr rfl fun _ _ => OpPc.slack_woken k _

/-- The operations outstanding hold at most their number times the limit. -/
theorem sum_slack_le (s : LogSys P) (k : ℕ) : ∑ q, (s.pc q).slack k ≤ s.actives.card * k := by
  refine (Finset.sum_le_sum fun q _ => OpPc.slack_le k (s.pc q)).trans_eq ?_
  rw [← Finset.sum_filter, Finset.sum_const]
  rfl

/-- Inside an operation `log_write` finds room. -/
theorem Reserved.logBlock_ok {s : LogSys P} {p : P} (h : s.Reserved) (hi : s.Inv)
    (hsize : s.mem.log.size = LOGSIZE) {logged : List (ℕ × BlockNo)}
    (hp : s.pc p = .active logged) (w : BlockNo × Block) : ∃ m, logBlock s.mem w = .ok m := by
  have hcard : 0 < s.actives.card := Finset.card_pos.mpr ⟨p, mem_actives_of_active hp⟩
  have hcount := hi.count
  unfold Reserved at h
  simp only [LOGSIZE, MAXOPBLOCKS] at h hsize
  refine exists_logWrite_ok (m := s.mem.fill w.1 w.2) ?_ ?_ ?_ w.1
  · change s.mem.log.lh.length < LOGSIZE
    simp only [LOGSIZE, MAXOPBLOCKS]
    omega
  · change (s.mem.log.lh.length : ℤ) < s.mem.log.size - 1
    omega
  · change 1 ≤ s.mem.log.outstanding
    omega

end

variable [DecidableEq P]

/-- The operation that performs a `log_write` has then logged at most `k` distinct blocks. -/
def WithinOp (k : ℕ) (s : LogSys P) : LogAct P → Prop
  | .logWrite p b _ => match s.pc p with
    | .active logged => ((logged.map Prod.snd ++ [b]).toFinset).card ≤ k
    | _ => True
  | _ => True

instance (k : ℕ) (s : LogSys P) (a : LogAct P) : Decidable (WithinOp k s a) := by
  unfold WithinOp
  split
  · split <;> infer_instance
  · infer_instance

/-- No step moves or resizes the log. -/
theorem Moves.size {s t : LogSys P} {a : LogAct P} (h : Moves s a t) :
    t.mem.log.size = s.mem.log.size := by
  cases h with
  | log _ hlog =>
    obtain ⟨-, -, -, -, hm⟩ := logWrite_ok hlog
    have hsize := congrArg Log.size hm
    exact hsize
  | commitStmt _ _ =>
    refine (congrArg Log.size (CommitPc.log_stmt _ _ _)).trans ?_
    split <;> rfl
  | _ => rfl

theorem size_of_reachable {start : BlockNo} {size : ℤ} {disk : Disk} {s : LogSys P}
    (hs : Reachable LogSys.step (boot start size disk) s) : s.mem.log.size = size :=
  hs.invariant (P := fun s => s.mem.log.size = size) rfl fun _ _ _ _ hstep h =>
    (moves_of_step hstep).2.size.trans h

variable [Fintype P]

section
variable {s t : LogSys P} {p : P}

/-- Moving one process exchanges its share of the reservation. -/
theorem sum_slack_setPc (s : LogSys P) (p : P) (c : OpPc) (k : ℕ) :
    ∑ q, ((s.setPc p c).pc q).slack k + (s.pc p).slack k = ∑ q, (s.pc q).slack k + c.slack k :=
  sum_update_add (OpPc.slack k) s.pc p c

/-- A move that keeps the header and gives the process no share keeps the reservation. -/
theorem Reserved.setPc (h : s.Reserved) {c : OpPc} (hc : c.slack (MAXOPBLOCKS - 1) = 0) :
    (s.setPc p c).Reserved := by
  have hsum := sum_slack_setPc s p c (MAXOPBLOCKS - 1)
  unfold Reserved at h ⊢
  rw [mem_setPc]
  omega

/-- What `begin_op` admits fits: beside another operation because it counts `MAXOPBLOCKS` for
each, and alone because the header is then empty. -/
theorem Reserved.enterOp (hi : s.Inv) (hp : s.pc p = .idle ∨ s.pc p = .waiting false)
    (hc : s.mem.log.committing = false)
    (hroom : (s.mem.log.lh.length : ℤ) + (s.mem.log.outstanding + 1) * MAXOPBLOCKS ≤ LOGSIZE) :
    (s.enterOp p).Reserved := by
  have hsum := sum_slack_setPc s p (.active []) (MAXOPBLOCKS - 1)
  have hidle : (s.pc p).slack (MAXOPBLOCKS - 1) = 0 := by
    rcases hp with hp | hp <;> rw [hp] <;> rfl
  have hle := sum_slack_le s (MAXOPBLOCKS - 1)
  have hnew : (OpPc.active []).slack (MAXOPBLOCKS - 1) = MAXOPBLOCKS - 1 := rfl
  have hcount := hi.count
  change s.mem.log.lh.length + ∑ q, ((s.setPc p (.active [])).pc q).slack _ ≤ _
  simp only [MAXOPBLOCKS, LOGSIZE] at *
  rcases Nat.eq_zero_or_pos s.actives.card with hzero | hpos
  · have hnil := hi.drained (by rw [hcount, hzero]; rfl) hc
    rw [hnil, List.length_nil]
    omega
  · omega

/-- A block that is not in the header yet takes one from what its operation may still log. -/
theorem Reserved.log (h : s.Reserved) (hi : s.Inv) {logged : List (ℕ × BlockNo)} {b : BlockNo}
    {data : Block} {m : Mem} (hp : s.pc p = .active logged)
    (hlog : logBlock s.mem (b, data) = .ok m)
    (hwithin : s.WithinOp (MAXOPBLOCKS - 1) (.logWrite p b data)) :
    ({ s with mem := m }.setPc p (.active (logged ++ [(s.commits.length, b)]))).Reserved := by
  obtain ⟨-, -, -, -, hm⟩ := logWrite_ok hlog
  have hlh : m.log.lh = if b ∈ s.mem.log.lh then s.mem.log.lh else s.mem.log.lh ++ [b] :=
    congrArg Log.lh hm
  have hsum := sum_slack_setPc s p (.active (logged ++ [(s.commits.length, b)])) (MAXOPBLOCKS - 1)
  have hset : ((logged ++ [(s.commits.length, b)]).map Prod.snd).toFinset =
      insert b (logged.map Prod.snd).toFinset := by
    ext x; simp
  simp only [WithinOp, hp, List.toFinset_append, List.toFinset_cons, List.toFinset_nil,
    insert_empty_eq, Finset.union_singleton] at hwithin
  have hold : (s.pc p).slack (MAXOPBLOCKS - 1) =
      MAXOPBLOCKS - 1 - (logged.map Prod.snd).toFinset.card := by rw [hp]; rfl
  have hnow : (OpPc.active (logged ++ [(s.commits.length, b)])).slack (MAXOPBLOCKS - 1) =
      MAXOPBLOCKS - 1 - (insert b (logged.map Prod.snd).toFinset).card := by rw [← hset]; rfl
  unfold Reserved at h
  change m.log.lh.length + ∑ q, ((s.setPc p _).pc q).slack _ ≤ _
  rw [hlh]
  split
  · have hle := Finset.card_le_card (Finset.subset_insert b (logged.map Prod.snd).toFinset)
    omega
  · rename_i hb
    have hnew : b ∉ (logged.map Prod.snd).toFinset := by
      simp only [List.mem_toFinset, List.mem_map, not_exists, not_and]
      rintro x hx rfl
      exact hb (hi.logged p logged hp x hx).2
    rw [Finset.card_insert_of_notMem hnew] at hnow hwithin
    rw [List.length_append, List.length_singleton]
    omega

/-- Operations that leave a block of their reservation unused keep it, and do not panic for
lack of room. -/
theorem Reserved.step {a : LogAct P} (h : s.Reserved) (hi : s.Inv)
    (hsize : s.mem.log.size = LOGSIZE) (hwithin : s.WithinOp (MAXOPBLOCKS - 1) a)
    (hstep : s.step a = some t) :
    t.Reserved ∧ t.panicked ≠ some "too big a transaction" := by
  obtain ⟨hpanic, hmove⟩ := moves_of_step hstep
  have hok : s.panicked ≠ some "too big a transaction" := by rw [hpanic]; simp
  cases hmove with
  | sleep _ | wake _ => exact ⟨h.setPc rfl, hok⟩
  | enterOp hp hc hroom => exact ⟨.enterOp hi hp hc hroom, hok⟩
  | log hp hlog => exact ⟨h.log hi hp hlog hwithin, hok⟩
  | logPanic hp hlog =>
    obtain ⟨m, hm⟩ := h.logBlock_ok hi hsize hp _
    rw [hlog] at hm
    cases hm
  | endPanic _ _ => exact ⟨h, by simp⟩
  | endLast _ _ _ => exact ⟨h.setPc rfl, hok⟩
  | @endInner p _ _ _ _ =>
    have hw : s.wakeup.Reserved := by unfold Reserved; rw [sum_slack_wakeup]; exact h
    exact ⟨hw.setPc rfl, hok⟩
  | @commitStmt p c _ _ =>
    have hlen : (c.stmt.state s.mem s.disk).log.lh.length ≤ s.mem.log.lh.length := by
      rw [CommitPc.log_stmt]
      split <;> simp
    have hw : Reserved { s with mem := c.stmt.state s.mem s.disk } :=
      (Nat.add_le_add_right hlen _).trans h
    exact ⟨hw.setPc rfl, hok⟩
  | leave _ =>
    have hw : s.wakeup.Reserved := by unfold Reserved; rw [sum_slack_wakeup]; exact h
    exact ⟨hw.setPc rfl, hok⟩

end

/-- **When the reservation suffices.** With the log `mkfs` lays out, in every run of any number
of processes whose operations each log at most `MAXOPBLOCKS - 1` distinct blocks, `log_write`
never panics for lack of room, and what is committed fits into the log. -/
theorem roomy_of_withinOp {start : BlockNo} {disk : Disk} {as : List (LogAct P)}
    (hwithin : ∀ s a, Takes LogSys.step (boot start LOGSIZE disk) as s a →
      s.WithinOp (MAXOPBLOCKS - 1) a)
    {s : LogSys P} (hs : Visits LogSys.step (boot start LOGSIZE disk) as s) : s.Roomy := by
  have hroom : s.Reserved ∧ s.panicked ≠ some "too big a transaction" := by
    refine Visits.induction (P := fun s : LogSys P => s.Reserved ∧ s.panicked ≠ _)
      ⟨?_, by simp [boot]⟩ ?_ hs
    · simp [Reserved, boot, bootMem, OpPc.slack]
    · intro u a t htakes hstep h
      have hu := htakes.visits_start.reachable
      exact h.1.step (inv_of_reachable hu) (size_of_reachable hu) (hwithin u a htakes) hstep
  refine ⟨hroom.2, ?_⟩
  have hlen := (Nat.le_add_right _ _).trans hroom.1
  rw [size_of_reachable hs.reachable]
  change (s.mem.log.lh.length : ℤ) ≤ 29
  change s.mem.log.lh.length ≤ 28 at hlen
  omega

/-- Two overlapping operations that log nine blocks each, as many as the theorem allows. -/
def twoLongOps : List (LogAct (Fin 2)) :=
  [.beginOp 0, .beginOp 1] ++
    (List.range (MAXOPBLOCKS - 1)).flatMap fun i =>
      [.logWrite 0 (UInt32.ofNat (40 + i)) fun _ => 0,
        .logWrite 1 (UInt32.ofNat (50 + i)) fun _ => 0]

theorem roomy_of_withinOp_twoLongOps : ∃ e : LogSys (Fin 2),
    exec LogSys.step (boot 2 LOGSIZE fun _ _ => 0) twoLongOps = some e ∧
      e.mem.log.lh.length = 18 ∧ e.Roomy := by
  obtain ⟨e, hrun, hlen⟩ : ∃ e : LogSys (Fin 2),
      exec (guarded (WithinOp (MAXOPBLOCKS - 1)) LogSys.step) (boot 2 LOGSIZE fun _ _ => 0)
        twoLongOps = some e ∧ e.mem.log.lh.length = 18 := ⟨_, rfl, rfl⟩
  obtain ⟨hexec, hok⟩ := exec_guarded hrun
  exact ⟨e, hexec, hlen, roomy_of_withinOp hok (.last hexec)⟩

/-- Three processes whose operations overlap and log `MAXOPBLOCKS` distinct blocks each. -/
def threeFullOps : List (LogAct (Fin 3)) :=
  [.beginOp 0, .beginOp 1, .beginOp 2] ++
    (List.range MAXOPBLOCKS).flatMap fun i =>
      [.logWrite 0 (UInt32.ofNat (40 + i)) fun _ => 0,
        .logWrite 1 (UInt32.ofNat (50 + i)) fun _ => 0,
        .logWrite 2 (UInt32.ofNat (60 + i)) fun _ => 0]

/-- Each of three overlapping operations keeps to its reservation, and `log_write` panics. -/
theorem threeFullOps_panic : ∃ e : LogSys (Fin 3),
    exec LogSys.step (boot 2 LOGSIZE fun _ _ => 0) threeFullOps = some e ∧
      (∀ s a, Takes LogSys.step (boot 2 LOGSIZE fun _ _ => 0) threeFullOps s a →
        s.WithinOp MAXOPBLOCKS a) ∧
      e.panicked = some "too big a transaction" := by
  obtain ⟨e, hrun, hpanic⟩ : ∃ e : LogSys (Fin 3),
      exec (guarded (WithinOp MAXOPBLOCKS) LogSys.step) (boot 2 LOGSIZE fun _ _ => 0)
        threeFullOps = some e ∧ e.panicked = some "too big a transaction" := ⟨_, rfl, rfl⟩
  obtain ⟨hexec, hok⟩ := exec_guarded hrun
  exact ⟨e, hexec, hok, hpanic⟩

end LogSys

end Xv6
