import Xv6.Bio.Coherent

/-!
# The lines of the source

`Line` says what each step of a process does, line by line of the source, and `line_of_step` that
there is nothing else a step can do.
-/

namespace Xv6.Bio

open Xv6.Lib
open Function (update update_eq_self)

namespace CommitAt

/-- The lines that write a buffer to the disk, with the buffer and the next line. -/
def writes : CommitAt → Option (Idx × CommitAt)
  | .write tail tbuf fbuf => some (tbuf, .relFrom tail tbuf fbuf)
  | .writeHead second i => some (i, .relHead second i)
  | .writeDst tail lbuf dbuf => some (dbuf, .unpin tail lbuf dbuf)
  | _ => none

/-- The lines that release a buffer, with the buffer and the next line. -/
def releases : CommitAt → Option (Idx × CommitAt)
  | .relFrom tail tbuf fbuf => some (fbuf, .relTo tail tbuf)
  | .relTo tail tbuf => some (tbuf, .toBuf (tail + 1))
  | .relHead second i => some (i, if second then .done else .log 0)
  | .relLog tail lbuf dbuf => some (lbuf, .relDst tail dbuf)
  | .relDst tail dbuf => some (dbuf, .log (tail + 1))
  | _ => none

end CommitAt

namespace Sys

variable {P T D : Type}

/-- The process calls `bread` for the block. -/
def Asks (L : Log D) (s : Sys P T D) (p : P) (b : ℕ) : Caller → Prop
  | .user => s.stage p = .idle
  | .toBuf tail =>
    s.stage p = .commit (.toBuf tail) ∧ tail < s.lh.length ∧ b = L.start + tail + 1
  | .fromBuf tail tbuf => s.stage p = .commit (.fromBuf tail tbuf) ∧ b = s.lh.getD tail 0
  | .head second => s.stage p = .commit (.head second) ∧ b = L.start
  | .log tail => s.stage p = .commit (.log tail) ∧ tail < s.lh.length ∧ b = L.start + tail + 1
  | .dst tail lbuf => s.stage p = .commit (.dst tail lbuf) ∧ b = s.lh.getD tail 0

section Line
variable [DecidableEq P] [DecidableEq T]

/-- What a line of the source does, up to the next stage of the process. -/
inductive Line (L : Log D) (s : Sys P T D) (p : P) :
    Act P T D → Stage → Sys P T D → Prop
  | hit {a : Act P T D} {i : Idx} {b : ℕ} {c : Caller} (hp : s.Asks L p b c) (hi : s.Caches i b) :
      Line L s p a (.lock b i c) (s.setRefcnt i ((s.buf i).refcnt + 1))
  | miss {a : Act P T D} {i : Idx} {b : ℕ} {c : Caller} (hp : s.Asks L p b c)
      (hb : ∀ j, ¬ s.Caches j b) (hi : (s.buf i).refcnt = 0) :
      Line L s p a (.lock b i c) (s.setBuf i ⟨ROOTDEV, b, false, 1, (s.buf i).data⟩)
  | acquire {b : ℕ} {i : Idx} {c : Caller} (hp : s.stage p = .lock b i c) (hi : s.holder i = none) :
      Line L s p (.run p) (.read b i c) (s.setHolder i (some p))
  | valid {b : ℕ} {i : Idx} {c : Caller} (hp : s.stage p = .read b i c)
      (hi : (s.buf i).valid = true) :
      Line L s p (.run p) (c.go i) s
  | fill {b : ℕ} {i : Idx} {c : Caller} (hp : s.stage p = .read b i c)
      (hi : (s.buf i).valid = false) :
      Line L s p (.run p) (c.go i)
        (s.setBuf i { s.buf i with valid := true, data := s.disk (s.buf i).blockno })
  | unref {i : Idx} {c : Option CommitAt} (hp : s.stage p = .drop i c) :
      Line L s p (.run p) (Stage.after c) (s.unref i)
  | modify {i : Idx} (data : D) (hp : s.stage p = .idle) (hi : s.holder i = some p) :
      Line L s p (.modify p i data) .idle
        { s.store i data with last := update s.last (s.buf i).blockno data }
  | absorb {i : Idx} (hp : s.stage p = .idle) (hi : s.holder i = some p)
      (hout : 1 ≤ s.outstanding) (hb : (s.buf i).blockno ∈ s.lh) :
      Line L s p (.logWrite p i) .idle { s with dirty := update s.dirty i false }
  | addLog {i : Idx} (hp : s.stage p = .idle) (hi : s.holder i = some p)
      (hout : 1 ≤ s.outstanding) (hlen : s.lh.length < L.size - 1)
      (hb : (s.buf i).blockno ∉ s.lh) :
      Line L s p (.logWrite p i) .idle { s.addLog i with dirty := update s.dirty i false }
  | bwrite {i : Idx} (hp : s.stage p = .idle) (hi : s.holder i = some p) :
      Line L s p (.bwrite p i) .idle (s.flush i)
  | brelse {i : Idx} (hp : s.stage p = .idle) (hi : s.holder i = some p)
      (hd : s.dirty i = false) : Line L s p (.brelse p i) (.drop i none) (s.setHolder i none)
  | bpin {i : Idx} {t : T} (hp : s.stage p = .idle) (hi : s.holder i = some p)
      (ht : s.pinned t = none) :
      Line L s p (.bpin p i t) .idle ((s.setRefcnt i ((s.buf i).refcnt + 1)).setPinned t (some i))
  | bunpin {i : Idx} {t : T} (hp : s.stage p = .idle) (ht : s.pinned t = some i) :
      Line L s p (.bunpin p t) .idle ((s.setRefcnt i ((s.buf i).refcnt - 1)).setPinned t none)
  | beginOp (hp : s.stage p = .idle) (hop : s.inOp p = false) (hc : s.committing = false) :
      Line L s p (.beginOp p) .idle
        { s with outstanding := s.outstanding + 1, inOp := update s.inOp p true }
  | endOp (hp : s.stage p = .idle) (hop : s.inOp p = true) (hc : s.committing = false)
      (hout : s.outstanding - 1 ≠ 0) :
      Line L s p (.endOp p) .idle
        { s with outstanding := s.outstanding - 1, inOp := update s.inOp p false }
  | lastOp (hp : s.stage p = .idle) (hop : s.inOp p = true) (hc : s.committing = false)
      (hout : s.outstanding - 1 = 0) :
      Line L s p (.endOp p) (.commit (if s.lh = [] then .done else .toBuf 0))
        { s with
          outstanding := s.outstanding - 1, committing := true
          inOp := update s.inOp p false }
  | copied {tail : ℕ} (hp : s.stage p = .commit (.toBuf tail)) (htail : s.lh.length ≤ tail) :
      Line L s p (.run p) (.commit (.head false)) s
  | copy {tail : ℕ} {tbuf fbuf : Idx} (hp : s.stage p = .commit (.copy tail tbuf fbuf)) :
      Line L s p (.run p) (.commit (.write tail tbuf fbuf))
        { s.store tbuf (s.buf fbuf).data with copied := tail + 1 }
  | header {second : Bool} {i : Idx} (hp : s.stage p = .commit (.fill second i)) :
      Line L s p (.run p) (.commit (.writeHead second i)) (s.store i (L.header s.lh))
  | installed {tail : ℕ} (hp : s.stage p = .commit (.log tail)) (htail : s.lh.length ≤ tail) :
      Line L s p (.run p) (.commit .clear) s
  | install {tail : ℕ} {lbuf dbuf : Idx} (hp : s.stage p = .commit (.install tail lbuf dbuf)) :
      Line L s p (.run p) (.commit (.writeDst tail lbuf dbuf)) (s.store dbuf (s.buf lbuf).data)
  | unpin {tail : ℕ} {lbuf dbuf : Idx} (hp : s.stage p = .commit (.unpin tail lbuf dbuf)) :
      Line L s p (.run p) (.commit (.relLog tail lbuf dbuf))
        { s.setRefcnt dbuf ((s.buf dbuf).refcnt - 1) with installed := s.installed + 1 }
  | write {pc pc' : CommitAt} {i : Idx} (hp : s.stage p = .commit pc)
      (hpc : pc.writes = some (i, pc')) (hi : s.holder i = some p) :
      Line L s p (.run p) (.commit pc') (s.flush i)
  | release {pc pc' : CommitAt} {i : Idx} (hp : s.stage p = .commit pc)
      (hpc : pc.releases = some (i, pc')) (hi : s.holder i = some p) :
      Line L s p (.run p) (.drop i (some pc')) (s.setHolder i none)
  | clear (hp : s.stage p = .commit .clear) :
      Line L s p (.run p) (.commit (.head true)) { s with lh := [], copied := 0, installed := 0 }
  | done (hp : s.stage p = .commit .done) : Line L s p (.run p) .idle { s with committing := false }

end Line

/-! ## Every step is a line -/

section Inversion
variable {L : Log D} {s u : Sys P T D} {p : P}

theorem not_caches_of_cached (hl : ∀ i, i ∈ s.lru) {b : ℕ} (h : s.cached b = none) (j : Idx) :
    ¬ s.Caches j b := by
  simpa using List.find?_eq_none.mp h j (hl j)

theorem caches_of_cached {b : ℕ} {i : Idx} (h : s.cached b = some i) : s.Caches i b := by
  simpa using List.find?_some h

theorem refcnt_of_unused {i : Idx} (h : s.unused = some i) : (s.buf i).refcnt = 0 := by
  simpa using List.find?_some h

variable [DecidableEq P]

/-- A process that stays where it is. -/
theorem eq_goto {t : Sys P T D} {st : Stage} (h : s.stage p = st) (ht : t.stage = s.stage) :
    t = t.goto p st := by
  rw [goto, ← h, ← ht, update_eq_self]

variable [DecidableEq T]

theorem line_of_bget (hl : ∀ i, i ∈ s.lru) {a : Act P T D} {b : ℕ} {c : Caller} (hp : s.Asks L p b c)
    (h : s.bget p b c = .ok u) : ∃ st t, Line L s p a st t ∧ u = t.goto p st := by
  rw [bget] at h
  split at h
  · next i hi =>
      cases h
      exact ⟨_, _, .hit hp (caches_of_cached hi), rfl⟩
  · next hnone =>
      split at h
      · next i hi =>
          cases h
          exact ⟨_, _, .miss hp (not_caches_of_cached hl hnone) (refcnt_of_unused hi), rfl⟩
      · cases h

theorem line_of_brelse {pc pc' : CommitAt} {i : Idx} (hp : s.stage p = .commit pc)
    (hpc : pc.releases = some (i, pc')) (h : s.brelse p i (some pc') = .ok u) :
    ∃ st t, Line L s p (.run p) st t ∧ u = t.goto p st := by
  rw [brelse] at h
  split at h
  · next hi => cases h; exact ⟨_, _, .release hp hpc hi, rfl⟩
  · cases h

theorem line_of_bwrite {pc pc' : CommitAt} {i : Idx} (hp : s.stage p = .commit pc)
    (hpc : pc.writes = some (i, pc'))
    (h : (s.bwrite p i).map (fun t => t.goto p (.commit pc')) = .ok u) :
    ∃ st t, Line L s p (.run p) st t ∧ u = t.goto p st := by
  rw [bwrite] at h
  split at h
  · next hi => cases h; exact ⟨_, _, .write hp hpc hi, rfl⟩
  · cases h

theorem line_of_commit (hl : ∀ i, i ∈ s.lru) {pc : CommitAt} (hp : s.stage p = .commit pc)
    (h : s.commit L p pc = .ok u) : ∃ st t, Line L s p (.run p) st t ∧ u = t.goto p st := by
  cases pc with
  | toBuf tail =>
    simp only [commit] at h
    split at h
    · next htail => exact line_of_bget (c := .toBuf tail) hl ⟨hp, htail, rfl⟩ h
    · next htail => cases h; exact ⟨_, _, .copied hp (not_lt.mp htail), rfl⟩
  | fromBuf tail tbuf => exact line_of_bget (c := .fromBuf tail tbuf) hl ⟨hp, rfl⟩ h
  | copy => cases h; exact ⟨_, _, .copy hp, rfl⟩
  | write | writeHead | writeDst => exact line_of_bwrite hp rfl h
  | relFrom | relTo | relHead | relLog | relDst => exact line_of_brelse hp rfl h
  | head second => exact line_of_bget (c := .head second) hl ⟨hp, rfl⟩ h
  | fill => cases h; exact ⟨_, _, .header hp, rfl⟩
  | log tail =>
    simp only [commit] at h
    split at h
    · next htail => exact line_of_bget (c := .log tail) hl ⟨hp, htail, rfl⟩ h
    · next htail => cases h; exact ⟨_, _, .installed hp (not_lt.mp htail), rfl⟩
  | dst tail lbuf => exact line_of_bget (c := .dst tail lbuf) hl ⟨hp, rfl⟩ h
  | install => cases h; exact ⟨_, _, .install hp, rfl⟩
  | unpin => cases h; exact ⟨_, _, .unpin hp, rfl⟩
  | clear => cases h; exact ⟨_, _, .clear hp, rfl⟩
  | done => cases h; exact ⟨_, _, .done hp, rfl⟩

theorem line_of_run (hl : ∀ i, i ∈ s.lru) (h : s.run L p = some (.ok u)) :
    ∃ st t, Line L s p (.run p) st t ∧ u = t.goto p st := by
  rw [run] at h
  split at h
  · cases h
  · next hp =>
      split at h
      · next hi => cases h; exact ⟨_, _, .acquire hp hi, rfl⟩
      · cases h
  · next hp =>
      split at h
      · next hi => cases h; exact ⟨_, _, .valid hp hi, rfl⟩
      · next hi => cases h; exact ⟨_, _, .fill hp (by simpa using hi), rfl⟩
  · next hp => cases h; exact ⟨_, _, .unref hp, rfl⟩
  · next hp => exact line_of_commit hl hp (Option.some.inj h)

theorem line_of_logWrite {i : Idx} (hp : s.stage p = .idle) (hi : s.holder i = some p)
    (h : s.logWrite L i = .ok u) : ∃ st t, Line L s p (.logWrite p i) st t ∧ u = t.goto p st := by
  rw [logWrite] at h
  split at h
  · cases h
  next hlen =>
  split at h
  · cases h
  next hout =>
  cases h
  by_cases hb : (s.buf i).blockno ∈ s.lh
  · refine ⟨_, _, .absorb hp hi (by omega) hb, ?_⟩
    simp only [hb, if_true]
    exact eq_goto hp rfl
  · refine ⟨_, _, .addLog hp hi (by omega) (by omega) hb, ?_⟩
    simp only [hb, if_false]
    exact eq_goto hp rfl

theorem line_of_step (hl : ∀ i, i ∈ s.lru) {a : Act P T D} (h : s.step L a = some (.ok u)) :
    ∃ p st t, Line L s p a st t ∧ u = t.goto p st := by
  cases a with
  | bread p b =>
    simp only [step, Option.ite_none_right_eq_some] at h
    exact ⟨p, line_of_bget (c := .user) hl h.1 (Option.some.inj h.2)⟩
  | modify p i data =>
    simp only [step, Option.ite_none_right_eq_some] at h
    obtain ⟨⟨hp, hi⟩, h⟩ := h
    cases h
    exact ⟨p, _, _, .modify data hp hi, eq_goto hp rfl⟩
  | logWrite p i =>
    simp only [step, Option.ite_none_right_eq_some] at h
    exact ⟨p, line_of_logWrite h.1.1 h.1.2 (Option.some.inj h.2)⟩
  | bwrite p i =>
    simp only [step, Option.ite_none_right_eq_some, bwrite] at h
    obtain ⟨⟨hp, hi⟩, h⟩ := h
    rw [if_pos hi] at h
    cases h
    exact ⟨p, _, _, .bwrite hp hi, eq_goto hp rfl⟩
  | brelse p i =>
    simp only [step, Option.ite_none_right_eq_some, brelse] at h
    obtain ⟨⟨hp, hi, hd⟩, h⟩ := h
    rw [if_pos hi] at h
    cases h
    exact ⟨p, _, _, .brelse hp hi hd, rfl⟩
  | bpin p i t =>
    simp only [step, Option.ite_none_right_eq_some] at h
    obtain ⟨⟨hp, hi, ht⟩, h⟩ := h
    cases h
    exact ⟨p, _, _, .bpin hp hi ht, eq_goto hp rfl⟩
  | bunpin p t =>
    simp only [step, Option.ite_none_right_eq_some, Option.map_eq_some_iff] at h
    obtain ⟨hp, i, ht, h⟩ := h
    cases h
    exact ⟨p, _, _, .bunpin hp ht, eq_goto hp rfl⟩
  | beginOp p =>
    simp only [step, beginOp, Option.ite_none_right_eq_some, Option.map_eq_some_iff,
      Option.ite_none_left_eq_some] at h
    obtain ⟨⟨hp, hop⟩, _, ⟨hc, h⟩, hu⟩ := h
    cases h
    cases hu
    exact ⟨p, _, _, .beginOp hp hop (by grind), eq_goto hp rfl⟩
  | endOp p =>
    simp only [step, endOp, Option.ite_none_right_eq_some, Option.some.injEq] at h
    obtain ⟨⟨hp, hop⟩, h⟩ := h
    split at h
    · cases h
    next hc =>
    have hc : s.committing = false := by simpa using hc
    split at h
    · next hout => cases h; exact ⟨p, _, _, .lastOp hp hop hc hout, rfl⟩
    · next hout => cases h; exact ⟨p, _, _, .endOp hp hop hc hout, eq_goto hp rfl⟩
  | run p => exact ⟨p, line_of_run hl h⟩

theorem line_of_next (hl : ∀ i, i ∈ s.lru) {a : Act P T D} (h : s.next L a = some u) :
    ∃ p st t, Line L s p a st t ∧ u = t.goto p st := by
  obtain ⟨r, hstep, hr⟩ := Option.bind_eq_some_iff.mp h
  cases r with
  | error => cases hr
  | ok v => cases hr; exact line_of_step hl hstep

end Inversion

end Sys

end Xv6.Bio
