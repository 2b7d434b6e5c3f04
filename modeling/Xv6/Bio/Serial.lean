import Xv6.Bio.Commit

/-!
# One commit at a time

`commit` works on the buffers it has locked and on a log that no other process changes meanwhile:
`Needs` says, for each of its lines, what it finds there. With that, a line does to the cache what
`Effect` allows, and at most one process commits, while no operation runs.
-/

namespace Xv6.Bio

open Xv6.Lib

namespace Sys

variable {P T D : Type}

/-- The process has locked the buffer of the block. -/
def Holds (s : Sys P T D) (p : P) (i : Idx) (b : ℕ) : Prop :=
  s.holder i = some p ∧ s.Caches i b

/-- The process has locked the buffer of the block, and not changed it since. -/
def Clean (s : Sys P T D) (p : P) (i : Idx) (b : ℕ) : Prop := s.Holds p i b ∧ s.dirty i = false

/-- How far a commit has got: blocks copied and blocks installed. -/
def At (s : Sys P T D) (copied installed : ℕ) : Prop :=
  s.copied = copied ∧ s.installed = installed

end Sys

open Sys

variable {P T D : Type}

/-- What a line of `commit` finds. -/
def CommitAt.Needs (L : Log D) (s : Sys P T D) (p : P) : CommitAt → Prop
  | .toBuf tail => s.At tail 0 ∧ tail ≤ s.lh.length
  | .fromBuf tail tbuf =>
    s.At tail 0 ∧ tail < s.lh.length ∧ s.Clean p tbuf (L.start + tail + 1)
  | .copy tail tbuf fbuf =>
    s.At tail 0 ∧ tail < s.lh.length ∧ s.Clean p tbuf (L.start + tail + 1) ∧
      s.Clean p fbuf (s.lh.getD tail 0) ∧ tbuf ≠ fbuf
  | .write tail tbuf fbuf =>
    s.At (tail + 1) 0 ∧ tail < s.lh.length ∧ s.Holds p tbuf (L.start + tail + 1) ∧
      s.Clean p fbuf (s.lh.getD tail 0) ∧ tbuf ≠ fbuf
  | .relFrom tail tbuf fbuf =>
    s.At (tail + 1) 0 ∧ tail < s.lh.length ∧ s.Clean p tbuf (L.start + tail + 1) ∧
      s.Clean p fbuf (s.lh.getD tail 0) ∧ tbuf ≠ fbuf
  | .relTo tail tbuf =>
    s.At (tail + 1) 0 ∧ tail < s.lh.length ∧ s.Clean p tbuf (L.start + tail + 1)
  | .head second => s.At s.lh.length 0 ∧ (second = true → s.lh = [])
  | .fill second i => s.At s.lh.length 0 ∧ (second = true → s.lh = []) ∧ s.Clean p i L.start
  | .writeHead second i => s.At s.lh.length 0 ∧ (second = true → s.lh = []) ∧ s.Holds p i L.start
  | .relHead second i => s.At s.lh.length 0 ∧ (second = true → s.lh = []) ∧ s.Clean p i L.start
  | .log tail => s.At s.lh.length tail ∧ tail ≤ s.lh.length
  | .dst tail lbuf =>
    s.At s.lh.length tail ∧ tail < s.lh.length ∧ s.Clean p lbuf (L.start + tail + 1)
  | .install tail lbuf dbuf =>
    s.At s.lh.length tail ∧ tail < s.lh.length ∧ s.Clean p lbuf (L.start + tail + 1) ∧
      s.Clean p dbuf (s.lh.getD tail 0) ∧ lbuf ≠ dbuf
  | .writeDst tail lbuf dbuf =>
    s.At s.lh.length tail ∧ tail < s.lh.length ∧ s.Clean p lbuf (L.start + tail + 1) ∧
      s.Holds p dbuf (s.lh.getD tail 0) ∧ lbuf ≠ dbuf
  | .unpin tail lbuf dbuf =>
    s.At s.lh.length tail ∧ tail < s.lh.length ∧ s.Clean p lbuf (L.start + tail + 1) ∧
      s.Clean p dbuf (s.lh.getD tail 0) ∧ lbuf ≠ dbuf ∧ s.Settled (s.lh.getD tail 0)
  | .relLog tail lbuf dbuf =>
    s.At s.lh.length (tail + 1) ∧ tail < s.lh.length ∧ s.Clean p lbuf (L.start + tail + 1) ∧
      s.Clean p dbuf (s.lh.getD tail 0) ∧ lbuf ≠ dbuf
  | .relDst tail dbuf =>
    s.At s.lh.length (tail + 1) ∧ tail < s.lh.length ∧ s.Clean p dbuf (s.lh.getD tail 0)
  | .clear => s.At s.lh.length s.lh.length
  | .done => s.At 0 0

namespace Caller

/-- The line of `commit` that calls `bread`. -/
def line : Caller → Option CommitAt
  | .user => none
  | .toBuf tail => some (.toBuf tail)
  | .fromBuf tail tbuf => some (.fromBuf tail tbuf)
  | .head second => some (.head second)
  | .log tail => some (.log tail)
  | .dst tail lbuf => some (.dst tail lbuf)

/-- The caller finds that it has asked for the block `b`. -/
def Wants (L : Log D) (s : Sys P T D) (b : ℕ) : Caller → Prop
  | .user => True
  | .toBuf tail => tail < s.lh.length ∧ b = L.start + tail + 1
  | .fromBuf tail _ => b = s.lh.getD tail 0
  | .head _ => b = L.start
  | .log tail => tail < s.lh.length ∧ b = L.start + tail + 1
  | .dst tail _ => b = s.lh.getD tail 0

/-- The buffer that the caller has locked already. -/
def other : Caller → Option Idx
  | .fromBuf _ tbuf => some tbuf
  | .dst _ lbuf => some lbuf
  | _ => none

end Caller

namespace Stage

/-- The line of `commit` that a process is at, or goes back to. -/
def line : Stage → Option CommitAt
  | .idle => none
  | .lock _ _ c => c.line
  | .read _ _ c => c.line
  | .drop _ c => c
  | .commit pc => some pc

/-- What a process finds at a stage. -/
def Needs (L : Log D) (s : Sys P T D) (p : P) (st : Stage) : Prop :=
  (∀ pc, st.line = some pc → pc.Needs L s p) ∧
  match st with
  | .lock b i c => s.Caches i b ∧ c.Wants L s b
  | .read b i c => s.Clean p i b ∧ c.Wants L s b ∧ c.other ≠ some i
  | _ => True

end Stage

namespace Sys

/-- One process commits at a time, and no operation runs meanwhile. -/
structure Serial (s : Sys P T D) : Prop where
  ops : Numbers (fun p => s.inOp p = true) s.outstanding
  none_out : s.committing = true → s.outstanding = 0
  committing : ∀ p, (s.stage p).line ≠ none → s.committing = true
  one : ∀ p q, (s.stage p).line ≠ none → (s.stage q).line ≠ none → p = q
  quiet : s.committing = false → s.At 0 0

/-- The invariant. -/
structure Inv (L : Log D) (s : Sys P T D) : Prop where
  counted : s.Counted
  coherent : s.Coherent
  serial : s.Serial
  needs : ∀ p, (s.stage p).Needs L s p

/-- What a process finds does not change while the log and its buffers are as they were. -/
structure Keeps (s t : Sys P T D) (q : P) : Prop where
  lh : t.lh = s.lh
  copied : t.copied = s.copied
  installed : t.installed = s.installed
  holds : ∀ i b, s.Holds q i b → t.Holds q i b
  dirty : ∀ i b, s.Holds q i b → t.dirty i = s.dirty i
  settled : ∀ i b, s.Holds q i b → s.Settled b → t.Settled b

namespace Keeps

variable {L : Log D} {s t : Sys P T D} {q : P}

theorem clean (h : Keeps s t q) {i : Idx} {b : ℕ} (hi : s.Clean q i b) : t.Clean q i b :=
  ⟨h.holds i b hi.1, (h.dirty i b hi.1).trans hi.2⟩

theorem needs (h : Keeps s t q) {pc : CommitAt} (hpc : pc.Needs L s q) : pc.Needs L t q := by
  have hclean : ∀ i b, s.Clean q i b → t.Clean q i b := fun i b hi => h.clean hi
  obtain ⟨hlh, hcopied, hinstalled, hholds, -, hsettled⟩ := h
  cases pc <;> simp only [CommitAt.Needs, At, hlh, hcopied, hinstalled] at hpc ⊢ <;> grind [Clean]

theorem wants (h : Keeps s t q) {b : ℕ} {c : Caller} (hb : c.Wants L s b) : c.Wants L t b := by
  have hlh := h.lh
  cases c with
  | user => trivial
  | _ => simpa only [Caller.Wants, hlh] using hb

end Keeps

section Serial
variable [DecidableEq P] {s t : Sys P T D} {p : P} {st : Stage}

theorem line_goto {q : P} (ht : t.stage = s.stage) :
    ((t.goto p st).stage q).line = if q = p then st.line else (s.stage q).line := by
  rw [goto, ← ht]
  simp only [Function.update_apply]
  split <;> rfl

/-- A line that neither begins nor ends an operation or a commit. -/
theorem serial_of_same (h : s.Serial) (hout : t.outstanding = s.outstanding)
    (hop : t.inOp = s.inOp) (hc : t.committing = s.committing) (hstage : t.stage = s.stage)
    (hline : st.line = none ↔ (s.stage p).line = none)
    (hlog : (s.stage p).line = none → t.copied = s.copied ∧ t.installed = s.installed) :
    (t.goto p st).Serial := by
  have hiff : ∀ q, ((t.goto p st).stage q).line = none ↔ (s.stage q).line = none := by
    intro q
    rw [line_goto hstage]
    split
    · next hq => rw [hq, hline]
    · rfl
  constructor
  · simpa only [goto, hout, hop] using h.ops
  · simpa only [goto, hout, hc] using h.none_out
  · intro q hq
    exact hc.trans (h.committing q (fun h' => hq ((hiff q).mpr h')))
  · intro q q' hq hq'
    exact h.one q q' (fun h' => hq ((hiff q).mpr h')) (fun h' => hq' ((hiff q').mpr h'))
  · intro hfalse
    have hfalse : s.committing = false := hc.symm.trans hfalse
    have hp : (s.stage p).line = none := by
      by_contra hp
      rw [h.committing p hp] at hfalse
      cases hfalse
    obtain ⟨hcopied, hinstalled⟩ := hlog hp
    exact ⟨hcopied.trans (h.quiet hfalse).1, hinstalled.trans (h.quiet hfalse).2⟩

/-- A line of a process while no other one commits. -/
theorem serial_of_alone (hstage : t.stage = s.stage)
    (hothers : ∀ q, q ≠ p → (s.stage q).line = none)
    (hops : Numbers (fun q => t.inOp q = true) t.outstanding)
    (hout : t.committing = true → t.outstanding = 0)
    (hline : st.line ≠ none → t.committing = true)
    (hquiet : t.committing = false → t.At 0 0) : (t.goto p st).Serial := by
  have honly : ∀ q, ((t.goto p st).stage q).line ≠ none → q = p := by
    intro q hq
    by_contra hne
    rw [line_goto hstage, if_neg hne] at hq
    exact hq (hothers q hne)
  refine ⟨hops, hout, ?_, fun q q' hq hq' => (honly q hq).trans (honly q' hq').symm, hquiet⟩
  intro q hq
  have := honly q hq
  rw [line_goto hstage, if_pos this] at hq
  exact hline hq

end Serial

section Steps
variable {L : Log D} {s t : Sys P T D} {p : P} {a : Act P T D} {st : Stage}

/-! ## What the lines do to the cache -/

theorem Inv.needs_commit (h : s.Inv L) {pc : CommitAt} (hp : s.stage p = .commit pc) :
    pc.Needs L s p := (h.needs p).1 pc (by rw [hp]; rfl)

/-- During an operation, nothing is copied or installed. -/
theorem Inv.at_of_out (h : s.Inv L) (hout : 1 ≤ s.outstanding) : s.At 0 0 := by
  refine h.serial.quiet ?_
  by_contra hc
  have := h.serial.none_out (by simpa using hc)
  omega

theorem plain_of_commit {pc : CommitAt} (hp : s.stage p = .commit pc) : (s.stage p).Plain := by
  rw [hp]; exact ⟨rfl, rfl⟩

theorem plain_of_idle (hp : s.stage p = .idle) : (s.stage p).Plain := by
  rw [hp]; exact ⟨rfl, rfl⟩

theorem plain_of_asks {b : ℕ} {c : Caller} (hp : s.Asks L p b c) : (s.stage p).Plain := by
  cases c with
  | user => exact plain_of_idle hp
  | _ => exact plain_of_commit hp.1

/-- What `commit` releases it has not changed since it wrote it. -/
theorem clean_of_releases {pc pc' : CommitAt} {i : Idx} (hneeds : pc.Needs L s p)
    (hpc : pc.releases = some (i, pc')) : s.dirty i = false := by
  cases pc with
  | relFrom | relTo | relHead | relLog | relDst =>
    cases hpc
    simp only [CommitAt.Needs, Clean] at hneeds
    grind
  | _ => cases hpc

/-- The line after a call of `bread`. -/
theorem needs_go {c : Caller} {i : Idx} {b : ℕ} (hc : ∀ pc, c.line = some pc → pc.Needs L s p)
    (hi : s.Clean p i b) (hb : c.Wants L s b) (hother : c.other ≠ some i) :
    (c.go i).Needs L s p := by
  cases c with
  | user => exact ⟨(fun pc hpc => by cases hpc), trivial⟩
  | _ =>
    refine ⟨?_, trivial⟩
    rintro pc ⟨⟩
    have hneeds := hc _ rfl
    simp only [CommitAt.Needs, Caller.Wants, Caller.other] at hneeds hb hother ⊢
    grind

/-- A line that calls `bread` finds what it has asked for. -/
theorem wants_of_asks {b : ℕ} {c : Caller} (hp : s.Asks L p b c) : c.Wants L s b := by
  cases c with
  | user => trivial
  | toBuf | log => exact hp.2
  | fromBuf | head | dst => exact hp.2

theorem line_of_asks {b : ℕ} {c : Caller} (hp : s.Asks L p b c) : (s.stage p).line = c.line := by
  cases c with
  | user => rw [show s.stage p = _ from hp]; rfl
  | _ => rw [hp.1]; rfl

theorem pending_eq_cons {tail : ℕ} (hi : s.installed = tail) (hlt : tail < s.lh.length) :
    s.pending = s.lh.getD tail 0 :: s.lh.drop (tail + 1) := by
  rw [pending, hi, List.drop_eq_getElem_cons hlt]
  simp [hlt]

theorem Serial.line_eq_none (h : s.Serial) (hc : s.committing = false) (q : P) :
    (s.stage q).line = none := by
  by_contra hq
  rw [h.committing q hq] at hc
  cases hc

variable [DecidableEq T]

/-- A line that only moves on. -/
theorem Effect.move (hold : (s.stage p).Plain) (hnew : st.Plain) : s.Effect p st s :=
  .skip s.outstanding s.committing s.inOp hold.1 (fun i hi => by rw [hold.2] at hi; cases hi) hnew

theorem stage_of_effect (he : s.Effect p st t) : t.stage = s.stage := by
  cases he <;> rfl

variable [DecidableEq P]

/-- A line does what the cache allows. -/
theorem effect_of_line (h : s.Inv L) (hline : Line L s p a st t) : s.Effect p st t := by
  cases hline with
  | hit hp hi => exact .ref (plain_of_asks hp) hi rfl
  | miss hp hb hi => exact .recycle (plain_of_asks hp) hb hi rfl
  | acquire hp hi => exact .acquire (by rw [hp]; rfl) hi rfl
  | @valid b i c hp hi =>
    refine .skip s.outstanding s.committing s.inOp (by rw [hp]; rfl) ?_ (c.plain_go i)
    intro j hj
    rw [hp] at hj
    cases hj
    exact hi
  | @fill b i c hp hi => exact .fill (by rw [hp]; rfl) hi (c.plain_go i)
  | @unref i c hp => exact .unref (by rw [hp]; rfl) (Stage.plain_after c)
  | modify data hp hi => exact .store data s.copied _ (plain_of_idle hp) hi ⟨rfl, rfl⟩
  | absorb hp hi hout hb =>
    refine .absorb (plain_of_idle hp) hi ?_ ⟨rfl, rfl⟩
    rw [pending, (h.at_of_out hout).2]
    exact hb
  | addLog hp hi hout hlen hb =>
    exact .addLog (plain_of_idle hp) hi hb (h.at_of_out hout).2 ⟨rfl, rfl⟩
  | bwrite hp hi => exact .flush (plain_of_idle hp) hi ⟨rfl, rfl⟩
  | brelse hp hi hd => exact .release (plain_of_idle hp) hi hd rfl
  | bpin hp hi ht => exact .pin (plain_of_idle hp) hi ht ⟨rfl, rfl⟩
  | bunpin hp ht => exact .unpin (plain_of_idle hp) ht ⟨rfl, rfl⟩
  | beginOp hp | endOp hp | lastOp hp =>
    exact .skip _ _ _ (plain_of_idle hp).1 (fun i hi => by rw [hp] at hi; cases hi) ⟨rfl, rfl⟩
  | copied hp | installed hp => exact Effect.move (plain_of_commit hp) ⟨rfl, rfl⟩
  | @copy tail tbuf fbuf hp =>
    have hneeds := h.needs_commit hp
    exact .store _ (tail + 1) s.last (plain_of_commit hp) hneeds.2.2.1.1.1 ⟨rfl, rfl⟩
  | header hp =>
    have hneeds := h.needs_commit hp
    exact .store _ s.copied s.last (plain_of_commit hp) hneeds.2.2.1.1 ⟨rfl, rfl⟩
  | install hp =>
    have hneeds := h.needs_commit hp
    exact .store _ s.copied s.last (plain_of_commit hp) hneeds.2.2.2.1.1.1 ⟨rfl, rfl⟩
  | unpin hp =>
    obtain ⟨hat, hlt, -, hdst, -, hsettled⟩ := h.needs_commit hp
    exact .install (plain_of_commit hp) hdst.1.1 hdst.1.2 (pending_eq_cons hat.2 hlt) hsettled
      ⟨rfl, rfl⟩
  | write hp hpc hi => exact .flush (plain_of_commit hp) hi ⟨rfl, rfl⟩
  | release hp hpc hi =>
    exact .release (plain_of_commit hp) hi (clean_of_releases (h.needs_commit hp) hpc) rfl
  | clear hp =>
    refine .clear (plain_of_commit hp) ?_ ⟨rfl, rfl⟩
    rw [pending, (h.needs_commit hp).2, List.drop_length]
  | done hp =>
    exact .skip _ _ _ (plain_of_commit hp).1 (fun i hi => by rw [hp] at hi; cases hi) ⟨rfl, rfl⟩

/-- Only `log_write` and `commit` change the log. -/
theorem log_of_line (h : s.Serial) (hline : Line L s p a st t) (hp : (s.stage p).line = none) :
    t.copied = s.copied ∧ t.installed = s.installed ∧ (s.committing = true → t.lh = s.lh) := by
  cases hline with
  | addLog _ _ hout =>
    refine ⟨rfl, rfl, fun hc => ?_⟩
    have := h.none_out hc
    omega
  | copied hp' | copy hp' | header hp' | installed hp' | install hp' | unpin hp' | write hp'
  | release hp' | clear hp' | done hp' => rw [hp'] at hp; cases hp
  | _ => exact ⟨rfl, rfl, fun _ => rfl⟩

theorem serial_of_line (h : s.Inv L) (hline : Line L s p a st t) : (t.goto p st).Serial := by
  have hserial := h.serial
  have hlog : (s.stage p).line = none → t.copied = s.copied ∧ t.installed = s.installed :=
    fun hp => ⟨(log_of_line hserial hline hp).1, (log_of_line hserial hline hp).2.1⟩
  cases hline with
  | @hit _ i b c hp _ | @miss _ i b c hp _ _ =>
    refine serial_of_same hserial rfl rfl rfl rfl ?_ hlog
    cases c <;> simp_all [Asks, Stage.line, Caller.line]
  | @valid b i c hp _ | @fill b i c hp _ =>
    refine serial_of_same hserial rfl rfl rfl rfl ?_ hlog
    cases c <;> simp [hp, Stage.line, Caller.line, Caller.go]
  | @unref i c hp =>
    refine serial_of_same hserial rfl rfl rfl rfl ?_ hlog
    cases c <;> simp [hp, Stage.line, Stage.after]
  | beginOp hp hop hc =>
    refine serial_of_alone rfl (fun q _ => hserial.line_eq_none hc q) ?_ ?_ (by simp [Stage.line])
      hserial.quiet
    · exact hserial.ops.insert (z := p) (by simp [hop]) (by simp) fun q hq => by simp [hq]
    · intro htrue
      rw [show s.committing = true from htrue] at hc
      cases hc
  | endOp hp hop hc hout =>
    refine serial_of_alone rfl (fun q _ => hserial.line_eq_none hc q) ?_ ?_ (by simp [Stage.line])
      hserial.quiet
    · exact hserial.ops.erase (z := p) (by simp [hop]) (by simp) fun q hq => by simp [hq]
    · intro htrue
      rw [show s.committing = true from htrue] at hc
      cases hc
  | lastOp hp hop hc hout =>
    refine serial_of_alone rfl (fun q _ => hserial.line_eq_none hc q) ?_ (fun _ => hout)
      (fun _ => rfl) (fun hfalse => by cases hfalse)
    exact hserial.ops.erase (z := p) (by simp [hop]) (by simp) fun q hq => by simp [hq]
  | done hp =>
    refine serial_of_alone rfl ?_ hserial.ops (fun htrue => by cases htrue)
      (by simp [Stage.line]) fun _ => h.needs_commit hp
    intro q hq
    by_contra hline
    exact hq (hserial.one q p hline (by simp [hp, Stage.line]))
  | modify _ hp | _ hp =>
    exact serial_of_same hserial rfl rfl rfl rfl (by simp [hp, Stage.line]) hlog

end Steps

end Sys

end Xv6.Bio
