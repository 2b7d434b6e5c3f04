import Xv6.Log.Group

/-!
# A commit never splits an operation

The invariant of the group commit, over every interleaving of the processes: `outstanding`
counts the processes inside an operation, at most one process commits and then none is inside
an operation, and whatever an operation logged is in the header until the one commit that
writes it.
-/

namespace Xv6.LogSys

open Lib Lib.Dev
open Function (update update_apply)

variable {P : Type}

section Fields
variable [DecidableEq P] (s : LogSys P) (p q : P) (c : OpPc)

theorem pc_setPc : (s.setPc p c).pc q = if q = p then c else s.pc q :=
  update_apply s.pc p c q

@[simp] theorem mem_setPc : (s.setPc p c).mem = s.mem := rfl
@[simp] theorem writes_setPc : (s.setPc p c).writes = s.writes := rfl

end Fields

variable {logged : List (ℕ × BlockNo)}

@[simp] theorem woken_eq_active {c : OpPc} :
    c.woken = .active logged ↔ c = .active logged := by cases c <;> simp [OpPc.woken]

@[simp] theorem woken_eq_committing {c : OpPc} {k : CommitPc} :
    c.woken = .committing k ↔ c = .committing k := by cases c <;> simp [OpPc.woken]

@[simp] theorem isActive_woken (c : OpPc) : c.woken.isActive = c.isActive := by cases c <;> rfl

variable [Fintype P]

/-- The processes inside an operation. -/
def actives (s : LogSys P) : Finset P := Finset.univ.filter fun p => (s.pc p).isActive

variable {s : LogSys P} {p : P}

theorem mem_actives : p ∈ s.actives ↔ (s.pc p).isActive := by
  simp [actives]

theorem mem_actives_of_active
    (h : s.pc p = .active logged) : p ∈ s.actives := by simp [mem_actives, h, OpPc.isActive]

theorem notMem_actives (h : ∀ logged, s.pc p ≠ .active logged) : p ∉ s.actives := by
  rw [mem_actives]
  cases hp : s.pc p with
  | active logged => exact absurd hp (h logged)
  | _ => simp [OpPc.isActive]

theorem actives_setPc [DecidableEq P] (s : LogSys P) (p : P) (c : OpPc) :
    (s.setPc p c).actives = if c.isActive then insert p s.actives else s.actives.erase p := by
  ext q
  rw [mem_actives, pc_setPc]
  by_cases hq : q = p <;> cases hc : c.isActive <;> simp [hq, hc, mem_actives]

/-- What a finished operation can rely on: everything it logged was logged under one commit,
that commit has written it if it has completed, and otherwise will find it in the header or has
written it already. -/
def Settled (s : LogSys P) (op : List (ℕ × BlockNo)) : Prop :=
  ∃ e ≤ s.commits.length, (∀ x ∈ op, x.1 = e) ∧
    (∀ ws, s.commits[e]? = some ws → ∀ x ∈ op, x.2 ∈ ws.map Prod.fst) ∧
    (e = s.commits.length → ∀ x ∈ op, x.2 ∈ s.mem.log.lh ∨ x.2 ∈ s.writes.map Prod.fst)

/-- The invariant of the group commit. -/
structure Inv (s : LogSys P) : Prop where
  count : s.mem.log.outstanding = s.actives.card
  owner : ∀ p c, s.pc p = .committing c → s.mem.log.committing = true ∧
    (∀ q k, s.pc q = .committing k → q = p) ∧ c.Stage s.mem.log.lh (s.writes.map Prod.fst)
  owned : s.mem.log.committing = true → ∃ p c, s.pc p = .committing c
  quiet : s.mem.log.committing = true → s.actives = ∅
  drained : s.mem.log.outstanding = 0 → s.mem.log.committing = false → s.mem.log.lh = []
  fits : s.mem.log.Fits
  logged : ∀ p logged, s.pc p = .active logged →
    ∀ x ∈ logged, x.1 = s.commits.length ∧ x.2 ∈ s.mem.log.lh
  ended : ∀ op ∈ s.ops, s.Settled op

theorem inv_boot (start : BlockNo) (size : ℤ) (disk : Disk) :
    (boot start size disk : LogSys P).Inv where
  count := by simp [boot, bootMem, actives, OpPc.isActive]
  owner := by simp [boot]
  owned := by simp [boot, bootMem]
  quiet := by simp [boot, bootMem]
  drained := by simp [boot, bootMem]
  fits := ⟨by simp [boot, bootMem], by simp [boot, bootMem], by simp [boot, bootMem]⟩
  logged := by simp [boot]
  ended := by simp [boot]

/-- A process inside an operation keeps every commit away. -/
theorem Inv.not_committing (h : s.Inv)
    (hp : s.pc p = .active logged) : s.mem.log.committing = false := by
  by_contra hc
  have hmem := mem_actives_of_active hp
  rw [h.quiet (by simpa using hc)] at hmem
  simp at hmem

theorem Inv.no_owner (h : s.Inv) (hc : s.mem.log.committing = false) (p : P)
    (c : CommitPc) : s.pc p ≠ .committing c := by
  intro hp
  rw [(h.owner p c hp).1] at hc
  cases hc

/-- What an operation logged is settled when it ends. -/
theorem Inv.settled_logged (h : s.Inv) (hp : s.pc p = .active logged) : s.Settled logged := by
  refine ⟨s.commits.length, le_rfl, fun x hx => (h.logged p logged hp x hx).1, ?_, ?_⟩
  · intro ws hws; simp at hws
  · intro _ x hx; exact .inl (h.logged p logged hp x hx).2

theorem Inv.settled_ops (h : s.Inv)
    (hp : s.pc p = .active logged) : ∀ op ∈ s.ops ++ [logged], s.Settled op := by
  intro op hop
  rcases List.mem_append.mp hop with hop | hop
  · exact h.ended op hop
  · rw [List.mem_singleton.mp hop]; exact h.settled_logged hp

variable [DecidableEq P]

section
variable (h : s.Inv)
include h

/-- Moving a process about in the loop of `begin_op` keeps the invariant. -/
theorem Inv.setPc_waiting
    (hp : ∀ logged, s.pc p ≠ .active logged) (hp' : ∀ c, s.pc p ≠ .committing c)
    (asleep : Bool) : (s.setPc p (.waiting asleep)).Inv := by
  have hactives : (s.setPc p (.waiting asleep)).actives = s.actives := by
    rw [actives_setPc]
    exact Finset.erase_eq_of_notMem (notMem_actives hp)
  have hcommitting : ∀ q c, (s.setPc p (.waiting asleep)).pc q = .committing c ↔
      s.pc q = .committing c := by
    intro q c
    rw [pc_setPc]
    by_cases hq : q = p
    · subst hq; simp [hp' c]
    · simp [hq]
  constructor
  · rw [hactives]; exact h.count
  · intro q c hq
    obtain ⟨h₁, h₂, h₃⟩ := h.owner q c ((hcommitting q c).mp hq)
    exact ⟨h₁, fun r k hr => h₂ r k ((hcommitting r k).mp hr), h₃⟩
  · intro hc
    obtain ⟨q, c, hq⟩ := h.owned hc
    exact ⟨q, c, (hcommitting q c).mpr hq⟩
  · intro hc; rw [hactives]; exact h.quiet hc
  · exact h.drained
  · exact h.fits
  · intro q logged hq
    rw [pc_setPc] at hq
    split at hq
    · cases hq
    · exact h.logged q logged hq
  · exact h.ended

/-- `begin_op` returning keeps the invariant: it returns only while nothing commits. -/
theorem Inv.enterOp (hp : ∀ logged, s.pc p ≠ .active logged)
    (hc : s.mem.log.committing = false) : (s.enterOp p).Inv := by
  have hactives : (s.enterOp p).actives = insert p s.actives := actives_setPc _ p (.active [])
  have hcard : ((insert p s.actives).card : ℤ) = s.actives.card + 1 := by
    rw [Finset.card_insert_of_notMem (notMem_actives hp)]; simp
  constructor
  · rw [hactives, hcard, ← h.count]; rfl
  · intro q c hq
    simp only [LogSys.enterOp, pc_setPc] at hq
    split at hq
    · cases hq
    · exact absurd hq (h.no_owner hc q c)
  · intro hc'; exact absurd (hc.symm.trans hc') (by decide)
  · intro hc'; exact absurd (hc.symm.trans hc') (by decide)
  · intro hout
    have hout : s.mem.log.outstanding + 1 = 0 := hout
    have := h.count
    omega
  · exact ⟨h.fits.nodup, h.fits.length_le, h.fits.length_lt⟩
  · intro q logged hq
    simp only [LogSys.enterOp, pc_setPc] at hq
    split at hq
    · cases hq; simp
    · exact h.logged q logged hq
  · exact h.ended

/-- `log_write` inside an operation keeps the invariant. -/
theorem Inv.log (hp : s.pc p = .active logged) {b : BlockNo} {data : Block} {m : Mem}
    (hlog : logBlock s.mem (b, data) = .ok m) : ({ s with mem := m }.setPc p
      (.active (logged ++ [(s.commits.length, b)]))).Inv := by
  have hrec := logBlock_recorded h.fits hlog
  obtain ⟨-, -, -, -, hm⟩ := logWrite_ok hlog
  have hm : m.log = { s.mem.log with
    lh := if b ∈ s.mem.log.lh then s.mem.log.lh else s.mem.log.lh ++ [b] } := hm
  have hout : m.log.outstanding = s.mem.log.outstanding := by rw [hm]
  have hcom : m.log.committing = false := by rw [hm]; exact h.not_committing hp
  have hlh : ∀ x, x ∈ s.mem.log.lh → x ∈ m.log.lh := fun x hx => (hrec.mem_lh x).mpr (.inl hx)
  have hb : b ∈ m.log.lh := (hrec.mem_lh b).mpr (.inr (by simp))
  have hactives : ({ s with mem := m }.setPc p
      (.active (logged ++ [(s.commits.length, b)]))).actives = s.actives := by
    rw [actives_setPc]
    exact Finset.insert_eq_of_mem (mem_actives_of_active hp)
  have hcard : 0 < s.actives.card := Finset.card_pos.mpr ⟨p, mem_actives_of_active hp⟩
  constructor
  · rw [hactives, mem_setPc]; exact hout.trans h.count
  · intro q c hq
    rw [pc_setPc] at hq
    split at hq
    · cases hq
    · exact absurd hq (h.no_owner (h.not_committing hp) q c)
  · intro hc; exact absurd (hcom.symm.trans hc) (by decide)
  · intro hc; exact absurd (hcom.symm.trans hc) (by decide)
  · intro hzero
    have hzero : m.log.outstanding = 0 := hzero
    have := h.count
    omega
  · exact hrec.fits
  · intro q l hq x hx
    rw [pc_setPc] at hq
    split at hq
    · cases hq
      rcases List.mem_append.mp hx with hx | hx
      · exact ⟨(h.logged p logged hp x hx).1, hlh _ (h.logged p logged hp x hx).2⟩
      · rw [List.mem_singleton.mp hx]; exact ⟨rfl, hb⟩
    · exact ⟨(h.logged q l hq x hx).1, hlh _ (h.logged q l hq x hx).2⟩
  · intro op hop
    obtain ⟨e, he, h₁, h₂, h₃⟩ := h.ended op hop
    exact ⟨e, he, h₁, h₂, fun heq x hx => (h₃ heq x hx).imp_left (hlh _)⟩

/-- The end of an inner operation keeps the invariant. -/
theorem Inv.endInner
    (hp : s.pc p = .active logged) (hout : s.mem.log.outstanding ≠ 1) :
    ({ s.endInner p with ops := s.ops ++ [logged] } : LogSys P).Inv := by
  have hc := h.not_committing hp
  have hmem := mem_actives_of_active hp
  have hwakeup : s.wakeup.actives = s.actives := by ext q; simp [mem_actives, wakeup]
  have hactives : (s.endInner p).actives = s.actives.erase p := by
    rw [← hwakeup]; exact actives_setPc _ p .idle
  have hcard : (s.actives.erase p).card + 1 = s.actives.card := Finset.card_erase_add_one hmem
  have hcount := h.count
  constructor
  · change s.mem.log.outstanding - 1 = ((s.endInner p).actives.card : ℤ)
    rw [hactives]
    omega
  · intro q c hq
    simp only [LogSys.endInner, pc_setPc] at hq
    split at hq
    · cases hq
    · exact absurd (woken_eq_committing.mp hq) (h.no_owner hc q c)
  · intro hc'; exact absurd (hc.symm.trans hc') (by decide)
  · intro hc'; exact absurd (hc.symm.trans hc') (by decide)
  · intro hzero
    have hzero : s.mem.log.outstanding - 1 = 0 := hzero
    omega
  · exact ⟨h.fits.nodup, h.fits.length_le, h.fits.length_lt⟩
  · intro q l hq
    simp only [LogSys.endInner, pc_setPc] at hq
    split at hq
    · cases hq
    · exact h.logged q l (woken_eq_active.mp hq)
  · exact h.settled_ops hp

/-- The end of the last operation hands the log over to one committing process. -/
theorem Inv.endLast
    (hp : s.pc p = .active logged) (hout : s.mem.log.outstanding = 1) :
    ({ s.endLast p with ops := s.ops ++ [logged] } : LogSys P).Inv := by
  have hc := h.not_committing hp
  have hmem := mem_actives_of_active hp
  have hactives : (s.endLast p).actives = s.actives.erase p :=
    actives_setPc _ p (.committing .enter)
  have hcard : (s.actives.erase p).card + 1 = s.actives.card := Finset.card_erase_add_one hmem
  have hcount := h.count
  have hempty : (s.endLast p).actives = ∅ := by
    rw [hactives, ← Finset.card_eq_zero]; omega
  have hpc : ∀ q c, (s.endLast p).pc q = .committing c → q = p ∧ c = .enter := by
    intro q c hq
    simp only [LogSys.endLast, pc_setPc] at hq
    split at hq
    · rename_i heq; cases hq; exact ⟨heq, rfl⟩
    · exact absurd hq (h.no_owner hc q c)
  constructor
  · change s.mem.log.outstanding - 1 = ((s.endLast p).actives.card : ℤ)
    rw [hempty, Finset.card_empty, hout]
    rfl
  · intro q c hq
    obtain ⟨rfl, rfl⟩ := hpc q c hq
    exact ⟨rfl, fun r k hr => (hpc r k hr).1, trivial⟩
  · intro _
    exact ⟨p, .enter, by simp [LogSys.endLast, pc_setPc]⟩
  · intro _; exact hempty
  · intro _ hc'; cases hc'
  · exact ⟨h.fits.nodup, h.fits.length_le, h.fits.length_lt⟩
  · intro q l hq
    have hq := mem_actives_of_active (s := s.endLast p) hq
    rw [hempty] at hq
    simp at hq
  · exact h.settled_ops hp

/-- A statement of `commit` keeps the invariant. -/
theorem Inv.commitStmt {c : CommitPc} (hp : s.pc p = .committing c) : (s.commitStmt p c).Inv := by
  obtain ⟨hcom, huniq, hstage⟩ := h.owner p c hp
  have hlog := c.log_stmt s.mem s.disk
  have hactives : (s.commitStmt p c).actives = ∅ := by
    refine (actives_setPc _ p (.committing _)).trans ?_
    rw [← Finset.erase_empty p, ← h.quiet hcom]
    rfl
  have hlogEq : (s.commitStmt p c).mem.log = if c = .clear then { s.mem.log with lh := [] }
    else s.mem.log := hlog
  have hcom' : (s.commitStmt p c).mem.log.committing = true := by
    rw [hlogEq]; split <;> exact hcom
  have hpc : ∀ q k, (s.commitStmt p c).pc q = .committing k →
      q = p ∧ k = c.stmt.val s.mem s.disk := by
    intro q k hq
    simp only [LogSys.commitStmt, pc_setPc] at hq
    split at hq
    · rename_i heq; cases hq; exact ⟨heq, rfl⟩
    · exact absurd (huniq q k hq) ‹_›
  constructor
  · rw [hactives, Finset.card_empty, hlogEq]
    have hcount := h.count
    rw [h.quiet hcom, Finset.card_empty] at hcount
    split <;> exact hcount
  · intro q k hq
    obtain ⟨rfl, rfl⟩ := hpc q k hq
    refine ⟨hcom', fun r k hr => (hpc r k hr).1, ?_⟩
    have := CommitPc.stage_stmt (d := s.disk) hstage
    rw [← List.map_append] at this
    exact this
  · intro _
    exact ⟨p, c.stmt.val s.mem s.disk, by simp [LogSys.commitStmt, pc_setPc]⟩
  · intro _; exact hactives
  · intro _ hc'; exact absurd (hcom'.symm.trans hc') (by decide)
  · rw [hlogEq]
    split
    · exact ⟨List.nodup_nil, Nat.zero_le _, fun hne => absurd rfl hne⟩
    · exact h.fits
  · intro q l hq
    have hq := mem_actives_of_active hq
    rw [hactives] at hq
    simp at hq
  · intro op hop
    obtain ⟨e, he, h₁, h₂, h₃⟩ := h.ended op hop
    refine ⟨e, he, h₁, h₂, fun heq x hx => ?_⟩
    rw [hlogEq]
    -- the header is cleared only once every block of it has been written
    by_cases hclear : c = .clear
    · subst hclear
      right
      simp only [LogSys.commitStmt, writes_setPc, List.map_append, List.mem_append]
      exact .inl ((h₃ heq x hx).elim (hstage x.2) id)
    · rw [if_neg hclear]
      refine (h₃ heq x hx).imp_right fun hw => ?_
      simp only [LogSys.commitStmt, writes_setPc, List.map_append, List.mem_append]
      exact .inl hw

/-- Leaving `commit` reopens the log with an empty header. -/
theorem Inv.leave (hp : s.pc p = .committing .leave) : (s.leave p).Inv := by
  obtain ⟨hcom, huniq, hlh⟩ := h.owner p .leave hp
  have hlh : s.mem.log.lh = [] := hlh
  have hempty := h.quiet hcom
  have hactive : ∀ q logged, (s.leave p).pc q ≠ .active logged := by
    intro q logged hq
    change (update (fun q => (s.pc q).woken) p .idle) q = _ at hq
    rw [update_apply] at hq
    split at hq
    · cases hq
    · have := mem_actives_of_active (woken_eq_active.mp hq)
      rw [hempty] at this
      simp at this
  have hactives : (s.leave p).actives = ∅ :=
    Finset.eq_empty_of_forall_notMem fun q => notMem_actives (hactive q)
  constructor
  · have hcount := h.count
    rw [hempty, Finset.card_empty] at hcount
    rw [hactives, Finset.card_empty]
    exact hcount
  · intro q c hq
    change (update (fun q => (s.pc q).woken) p .idle) q = _ at hq
    rw [update_apply] at hq
    split at hq
    · cases hq
    · exact absurd (huniq q c (woken_eq_committing.mp hq)) ‹_›
  · intro hc; cases hc
  · intro hc; cases hc
  · intro _ _; exact hlh
  · exact ⟨h.fits.nodup, h.fits.length_le, h.fits.length_lt⟩
  · intro q logged hq; exact absurd hq (hactive q logged)
  · intro op hop
    obtain ⟨e, he, h₁, h₂, h₃⟩ := h.ended op hop
    have hlen : (s.leave p).commits.length = s.commits.length + 1 := by simp [LogSys.leave]
    refine ⟨e, by omega, h₁, ?_, fun heq => by omega⟩
    intro ws hws x hx
    change (s.commits ++ [s.writes])[e]? = some ws at hws
    rcases Nat.lt_or_eq_of_le he with hlt | heq
    · rw [List.getElem?_append_left hlt] at hws
      exact h₂ ws hws x hx
    · -- the commit just completed: what was still in the header has been written
      rw [heq, List.getElem?_concat_length, Option.some.injEq] at hws
      rw [← hws]
      refine (h₃ heq x hx).resolve_left ?_
      rw [hlh]
      simp

/-- Every step keeps the invariant. -/
theorem Inv.step {t : LogSys P} {a : LogAct P} (hstep : s.step a = some t) : t.Inv := by
  obtain ⟨-, hmove⟩ := moves_of_step hstep
  cases hmove with
  | sleep hp =>
    exact h.setPc_waiting (by rcases hp with hp | hp <;> simp [hp])
      (by rcases hp with hp | hp <;> simp [hp]) true
  | enterOp hp hc _ => exact h.enterOp (by rcases hp with hp | hp <;> simp [hp]) hc
  | log hp hlog => exact h.log hp hlog
  | logPanic _ _ => exact { h with }
  | endPanic _ _ => exact { h with }
  | endLast hp _ hout => exact h.endLast hp hout
  | endInner hp _ hout => exact h.endInner hp hout
  | commitStmt hp _ => exact h.commitStmt hp
  | leave hp => exact h.leave hp
  | wake hp => exact h.setPc_waiting (by simp [hp]) (by simp [hp]) false

end

theorem inv_of_reachable {start : BlockNo} {size : ℤ} {disk : Disk}
    (hs : Reachable LogSys.step (boot start size disk) s) : s.Inv :=
  hs.invariant (inv_boot start size disk) fun _ _ _ _ hstep h => h.step hstep

/-- **Group commit never splits an operation.** In every state reached by any interleaving:
while `committing` is set no operation is outstanding, no `log_write` is performed and no
`begin_op` returns; each operation that has ended logged all its blocks under one commit, which
has written them all if it has completed; and the header never lists a block twice. -/
theorem commit_never_splits {start : BlockNo} {size : ℤ} {disk : Disk} {s : LogSys P}
    (hs : Reachable LogSys.step (boot start size disk) s) :
    (s.mem.log.committing = true → s.mem.log.outstanding = 0) ∧
    (s.mem.log.committing = true → ∀ a t, s.step a = some t →
      (∀ p b data, a ≠ .logWrite p b data) ∧ ∀ p logged, t.pc p ≠ .active logged) ∧
    (∀ op ∈ s.ops, s.Settled op) ∧
    s.mem.log.lh.Nodup := by
  have h := inv_of_reachable hs
  refine ⟨?_, ?_, h.ended, h.fits.nodup⟩
  · intro hc
    rw [h.count, h.quiet hc]
    rfl
  · intro hc a t hstep
    have hnone : ∀ p logged, s.pc p ≠ .active logged := by
      intro p logged hp
      have := h.not_committing hp
      rw [hc] at this
      cases this
    obtain ⟨-, hmove⟩ := moves_of_step hstep
    refine ⟨?_, ?_⟩
    · rintro p b data rfl
      cases hmove with
      | log hp _ => exact hnone _ _ hp
      | logPanic hp _ => exact hnone _ _ hp
    · intro p logged ht
      cases hmove with
      | enterOp _ hc' _ => rw [hc] at hc'; cases hc'
      | log hp _ => exact hnone _ _ hp
      | endLast hp _ _ => exact hnone _ _ hp
      | endInner hp _ _ => exact hnone _ _ hp
      | logPanic hp _ => exact hnone _ _ hp
      | endPanic hp _ => exact hnone _ _ hp
      | sleep _ | wake _ | commitStmt _ _ =>
        simp only [LogSys.commitStmt, pc_setPc] at ht
        split at ht
        · cases ht
        · exact hnone _ _ ht
      | leave _ =>
        simp only [LogSys.leave, pc_setPc] at ht
        split at ht
        · cases ht
        · exact hnone _ _ (woken_eq_active.mp ht)

/-- Two overlapping operations of two processes: the second one to end commits both. -/
def twoOps : List (LogAct (Fin 2)) :=
  [.beginOp 0, .beginOp 1, .logWrite 0 40 fun _ => 7, .logWrite 1 41 fun _ => 8, .endOp 0, .endOp 1]

theorem commit_never_splits_twoOps : ∃ s : LogSys (Fin 2),
    exec LogSys.step (boot 2 30 fun _ _ => 0) twoOps = some s ∧ s.mem.log.committing = true ∧
      s.mem.log.outstanding = 0 ∧ s.mem.log.lh = [40, 41] ∧ ∀ op ∈ s.ops, s.Settled op := by
  obtain ⟨s, hrun, hcommitting, hlh⟩ : ∃ s : LogSys (Fin 2),
      exec LogSys.step (boot 2 30 fun _ _ => 0) twoOps = some s ∧
        s.mem.log.committing = true ∧ s.mem.log.lh = [40, 41] := ⟨_, rfl, rfl, rfl⟩
  have h := commit_never_splits (Reach.refl.exec (fun _ _ => trivial) hrun)
  exact ⟨s, hrun, hcommitting, h.1 hcommitting, hlh, h.2.2.1⟩

end Xv6.LogSys
