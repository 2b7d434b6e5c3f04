import Xv6.Bio.Invariant

/-!
# What `bread` returns

What `commit` stores in the buffers of the logged blocks when it installs them is what they hold
already, provided that the blocks of the log are left to `commit`, and that a logged block is
changed in an operation only. Then `bread` returns what a process has last stored.
-/

namespace Xv6.Bio

open Xv6.Lib
open Function (update update_apply update_eq_self update_of_ne update_self)

variable {P T D : Type}

/-- The block is the header of the log or one of its blocks. -/
def Log.Covers (L : Log D) (b : ℕ) : Prop :=
  b = L.start ∨ L.start < b ∧ b < L.start + L.size

instance (L : Log D) (b : ℕ) : Decidable (L.Covers b) := inferInstanceAs (Decidable (_ ∨ _))

namespace Sys

/-- The blocks of the log are left to `commit`, and a logged block is changed in an operation. -/
def Orderly (L : Log D) (s : Sys P T D) : Act P T D → Prop
  | .modify p i _ =>
    ¬ L.Covers (s.buf i).blockno ∧ (s.inOp p = true ∨ (s.buf i).blockno ∉ s.lh)
  | .logWrite _ i => ¬ L.Covers (s.buf i).blockno
  | _ => True

instance (L : Log D) (s : Sys P T D) (a : Act P T D) : Decidable (s.Orderly L a) := by
  cases a <;> unfold Orderly <;> infer_instance

/-- The log holds copies of the logged blocks, so that `commit` changes no contents. -/
structure Fresh (L : Log D) (s : Sys P T D) : Prop where
  logged : ∀ b ∈ s.lh, ¬ L.Covers b
  short : s.lh.length ≤ L.size - 1
  copied : s.copied ≤ s.lh.length
  copies : ∀ k < s.copied, s.given (L.start + k + 1) = s.given (s.lh.getD k 0)
  last : ∀ b, ¬ L.Covers b → s.last b = s.given b

namespace Fresh

variable {L : Log D} {s : Sys P T D}

theorem getD_mem {k : ℕ} (hk : k < s.lh.length) : s.lh.getD k 0 ∈ s.lh := by
  simp [hk]

theorem covers (h : s.Fresh L) {k : ℕ} (hk : k < s.lh.length) : L.Covers (L.start + k + 1) := by
  have := h.short
  exact .inr ⟨by omega, by omega⟩

theorem getD_ne (h : s.Fresh L) {k b : ℕ} (hk : k < s.lh.length) (hb : L.Covers b) :
    s.lh.getD k 0 ≠ b := fun heq => h.logged _ (getD_mem hk) (heq ▸ hb)

end Fresh

variable {L : Log D} {s t : Sys P T D} {p : P} {a : Act P T D} {st : Stage}

/-- Blocks are copied to the log only while no operation runs. -/
theorem Inv.not_inOp (h : s.Inv L) (hcopied : s.copied ≠ 0) (p : P) : s.inOp p = false := by
  have hc : s.committing = true := by
    by_contra hc
    exact hcopied (h.serial.quiet (by simpa using hc)).1
  have hops := h.serial.ops
  rw [h.serial.none_out hc] at hops
  simpa using hops.none p

/-- What is stored in a block that is neither copied nor a copy leaves the copies right. -/
theorem Fresh.copies_update (hf : s.Fresh L) {b : ℕ} {data : D} (hb : b ∉ s.lh)
    (hcopy : ∀ k < s.copied, L.start + k + 1 ≠ b) {k : ℕ} (hk : k < s.copied) :
    update s.given b data (L.start + k + 1) =
      update s.given b data (s.lh.getD k 0) := by
  have hmem := getD_mem (lt_of_lt_of_le hk hf.copied)
  have hne : s.lh.getD k 0 ≠ b := fun heq => hb (heq ▸ hmem)
  rw [update_of_ne (hcopy k hk), update_of_ne hne]
  exact hf.copies k hk

/-- What `commit` stores in a block of the log is no contents of another block. -/
theorem Fresh.last_update (hf : s.Fresh L) {b : ℕ} {data : D} (hb : L.Covers b) (c : ℕ)
    (hc : ¬ L.Covers c) : s.last c = update s.given b data c := by
  have hne : c ≠ b := fun heq => hc (heq ▸ hb)
  rw [update_of_ne hne]
  exact hf.last c hc

variable [DecidableEq P] [DecidableEq T]

theorem fresh_of_line (h : s.Inv L) (hf : s.Fresh L) (ha : s.Orderly L a)
    (hline : Line L s p a st t) : (t.goto p st).Fresh L := by
  obtain ⟨hlogged, hshort, hcopied, hcopies, hlast⟩ := id hf
  cases hline with
  | @modify i data hp hi =>
    obtain ⟨hout, hop⟩ := ha
    refine ⟨hlogged, hshort, hcopied, fun k hk => ?_, fun b hb => ?_⟩
    · refine hf.copies_update ?_ (fun k hk heq => ?_) hk
      · refine hop.resolve_left fun hop => ?_
        rw [h.not_inOp (Nat.ne_zero_of_lt hk) p] at hop
        cases hop
      · exact hout (heq ▸ hf.covers (lt_of_lt_of_le hk hcopied))
    · change update s.last _ data b = update s.given _ data b
      simp only [update_apply, hlast b hb]
  | @addLog i hp hi hout hlen hb =>
    have h0 : s.copied = 0 := (h.at_of_out hout).1
    refine ⟨?_, ?_, ?_, fun k hk => ?_, hlast⟩
    · intro b hmem
      rcases List.mem_append.mp hmem with hmem | hmem
      · exact hlogged b hmem
      · exact List.mem_singleton.mp hmem ▸ ha
    · change (s.lh ++ [(s.buf i).blockno]).length ≤ L.size - 1
      rw [List.length_append, List.length_singleton]
      omega
    · exact h0.trans_le (Nat.zero_le _)
    · exact absurd hk (h0 ▸ Nat.not_lt_zero k)
  | @copy tail tbuf fbuf hp =>
    obtain ⟨hat, hlt, hto, hfrom, -⟩ := h.needs_commit hp
    have hdata : (s.buf fbuf).data = s.given (s.lh.getD tail 0) :=
      h.coherent.data fbuf _ (h.coherent.valid (plain_of_commit hp) hfrom.1.1) hfrom.1.2
    have hcov := hf.covers hlt
    have hgiven : ({ s.store tbuf (s.buf fbuf).data with copied := tail + 1 }.goto p
        (.commit (.write tail tbuf fbuf))).given =
          update s.given (L.start + tail + 1) (s.given (s.lh.getD tail 0)) := by
      rw [← hdata, ← hto.1.2.2]
      rfl
    refine ⟨hlogged, hshort, hlt, fun k hk => ?_, fun b hb => ?_⟩
    · rw [hgiven]
      change _ = update s.given _ _ (s.lh.getD k 0)
      have hklt : k < s.lh.length := lt_of_lt_of_le hk hlt
      rw [update_of_ne (hf.getD_ne hklt hcov)]
      by_cases hktail : k = tail
      · rw [hktail, update_self]
      · have hk : k < s.copied := by rw [hat.1]; exact lt_of_le_of_ne (Nat.lt_succ_iff.mp hk) hktail
        rw [update_of_ne (by omega)]
        exact hcopies k hk
    · rw [hgiven]
      exact hf.last_update hcov b hb
  | @header second i hp =>
    obtain ⟨hat, -, hi⟩ := h.needs_commit hp
    have hcov : L.Covers (s.buf i).blockno := .inl hi.1.2.2
    refine ⟨hlogged, hshort, hcopied, fun k hk => ?_, hf.last_update hcov⟩
    refine hf.copies_update (fun hmem => hlogged _ hmem hcov) (fun k hk heq => ?_) hk
    rw [hi.1.2.2] at heq
    omega
  | @install tail lbuf dbuf hp =>
    -- the copy in the log is what the block holds already
    obtain ⟨hat, hlt, hlog, hdst, -⟩ := h.needs_commit hp
    have hdata : (s.buf lbuf).data = s.given (s.lh.getD tail 0) := by
      rw [h.coherent.data lbuf _ (h.coherent.valid (plain_of_commit hp) hlog.1.1) hlog.1.2]
      exact hcopies tail (hat.1 ▸ hlt)
    have hgiven : ((s.store dbuf (s.buf lbuf).data).goto p
        (.commit (.writeDst tail lbuf dbuf))).given = s.given := by
      change update s.given (s.buf dbuf).blockno _ = s.given
      rw [hdata, hdst.1.2.2, update_eq_self]
    refine ⟨hlogged, hshort, hcopied, fun k hk => ?_, fun b hb => ?_⟩
    · rw [hgiven]
      exact hcopies k hk
    · rw [hgiven]
      exact hlast b hb
  | clear hp =>
    exact ⟨(fun b hb => by cases hb), Nat.zero_le _, le_rfl,
      fun k hk => absurd hk (Nat.not_lt_zero k), hlast⟩
  | _ => exact ⟨hlogged, hshort, hcopied, hcopies, hlast⟩

/-- In an orderly run, `commit` changes no contents. -/
theorem fresh_of_visits {disk : ℕ → D} {data : Idx → D} {as : List (Act P T D)}
    (ha : ∀ t a, Takes (next L) (binit disk data) as t a → t.Orderly L a)
    (h : Visits (next L) (binit disk data) as s) : s.Fresh L := by
  refine Visits.induction (P := Fresh L) ?_ ?_ h
  · exact ⟨(fun b hb => by cases hb), Nat.zero_le _, le_rfl,
      fun k hk => absurd hk (Nat.not_lt_zero k), fun _ _ => rfl⟩
  · intro t a u htakes hnext hf
    have hinv := inv_of_visits htakes.visits_start
    obtain ⟨p, st, v, hline, rfl⟩ := line_of_next hinv.counted.listed hnext
    exact fresh_of_line hinv hf (ha t a htakes) hline

/-- The buffer cache works. -/
structure Works (L : Log D) (s : Sys P T D) : Prop where
  /-- A block of a device is in one buffer at most. -/
  one : ∀ i j, (s.buf i).dev ≠ 0 → (s.buf j).dev = (s.buf i).dev →
    (s.buf j).blockno = (s.buf i).blockno → j = i
  /-- A buffer that is locked, waited for, pinned or in the log, or has a count, keeps its block. -/
  kept : ∀ a u i, s.next L a = some u → ((s.buf i).refcnt ≠ 0 ∨ ∃ x, s.Points i x) →
    (u.buf i).dev = (s.buf i).dev ∧ (u.buf i).blockno = (s.buf i).blockno
  /-- A logged block is in a buffer with a count until it is installed. -/
  logged : ∀ b ∈ s.pending, ∃ i, s.Caches i b ∧ 1 ≤ (s.buf i).refcnt
  /-- `bread(b)` returns a locked buffer of the block, with what was last stored there. -/
  returned : ∀ p b i c u, s.stage p = .read b i c → s.next L (.run p) = some u →
    u.holder i = some p ∧ u.Caches i b ∧ (u.buf i).data = s.given b

theorem Inv.kept (h : s.Inv L) {u : Sys P T D} {i : Idx} (hnext : s.next L a = some u)
    (hi : (s.buf i).refcnt ≠ 0 ∨ ∃ x, s.Points i x) :
    (u.buf i).dev = (s.buf i).dev ∧ (u.buf i).blockno = (s.buf i).blockno := by
  obtain ⟨x, hx⟩ : ∃ x, s.Points i x := hi.elim (h.counted.refs i).exists_of_ne_zero id
  have hcaches := h.counted.caches hx
  obtain ⟨p, st, t, hline, rfl⟩ := line_of_next h.counted.listed hnext
  have hkept := caches_of_effect h.counted (effect_of_line h hline) hx hcaches
  exact ⟨hkept.1.trans hcaches.1.symm, hkept.2⟩

theorem Inv.returned (h : s.Inv L) {b : ℕ} {i : Idx} {c : Caller} {u : Sys P T D}
    (hp : s.stage p = .read b i c) (hnext : s.next L (.run p) = some u) :
    u.holder i = some p ∧ u.Caches i b ∧ (u.buf i).data = s.given b := by
  have hneeds := (h.needs p).2
  rw [hp] at hneeds
  obtain ⟨⟨⟨hholder, hcaches⟩, -⟩, -⟩ := hneeds
  simp only [next, step, run, hp] at hnext
  split at hnext
  · next hv =>
      cases hnext
      exact ⟨hholder, hcaches, h.coherent.data i b hv hcaches⟩
  · next hv =>
      cases hnext
      have hread : (s.stage p).reading = some i := by rw [hp]; rfl
      have hdisk := h.coherent.settled_of_invalid h.counted hread (by simpa using hv)
      rw [hcaches.2] at hdisk
      refine ⟨hholder, ?_, ?_⟩
      · simpa [Caches, goto, setBuf] using hcaches
      · simpa [goto, setBuf, hcaches.2, Settled] using hdisk

/-- **The buffer cache works**, in every state of every run; and if the run is orderly, `bread`
of a block other than those of the log returns what a process has last stored there. -/
theorem works_of_visits {disk : ℕ → D} {data : Idx → D} {as : List (Act P T D)}
    (h : Visits (next L) (binit disk data) as s) :
    s.Works L ∧
      ((∀ t a, Takes (next L) (binit disk data) as t a → t.Orderly L a) →
        ∀ p b i c u, ¬ L.Covers b → s.stage p = .read b i c → s.next L (.run p) = some u →
          (u.buf i).data = s.last b) := by
  have hinv := inv_of_visits h
  have hcounted := hinv.counted
  refine ⟨⟨?_, fun a u i => hinv.kept, ?_, fun p b i c u => hinv.returned⟩, ?_⟩
  · intro i j hi hdev hblock
    have hroot := (hcounted.dev i).resolve_left hi
    exact hcounted.unique j i _ ⟨hdev.trans hroot, hblock⟩ ⟨hroot, rfl⟩
  · intro b hb
    obtain ⟨i, hi⟩ := hcounted.cached b hb
    exact ⟨i, hi, Nat.one_le_iff_ne_zero.mpr (hcounted.used (x := .log) ⟨hi.1, hi.2 ▸ hb⟩)⟩
  · intro ha p b i c u hb hp hnext
    rw [(fresh_of_visits ha h).last b hb]
    exact (hinv.returned hp hnext).2.2

/-- A log of two blocks. -/
def smallLog : Log ℕ := ⟨2, 3, List.length⟩

/-- A process stores `7` in the block `50` in an operation, and commits; another one reads the
block meanwhile. -/
def commitRun : List (Act (Fin 2) Empty ℕ) :=
  List.flatten [[.beginOp 0, .bread 0 50, .run 0, .run 0, .modify 0 0 7, .logWrite 0 0,
    .brelse 0 0, .run 0, .bread 1 50, .endOp 0, .run 1, .run 1], List.replicate 3 (.run 0),
    [.brelse 1 0, .run 1], List.replicate 40 (.run 0), [.bread 1 50, .run 1]]

theorem works_commitRun : ∃ s u, exec (next smallLog) (binit (fun _ => 0) fun _ => 0) commitRun =
    some s ∧ s.Works smallLog ∧ s.stage 0 = .idle ∧ s.next smallLog (.run 1) = some u ∧
      (u.buf 0).data = s.last 50 ∧ s.last 50 = 7 := by
  have hrun : (exec (guarded (Orderly smallLog) (next smallLog)) (binit (fun _ => 0) fun _ => 0)
      commitRun).any (fun s => s.stage 0 = .idle ∧ s.stage 1 = .read 50 0 .user ∧
        (s.next smallLog (.run 1)).isSome ∧ s.last 50 = 7) = true := by
    decide +kernel
  obtain ⟨s, hs, hstage⟩ := (Option.any_eq_true _ _).mp hrun
  obtain ⟨hs, horderly⟩ := exec_guarded hs
  obtain ⟨hworks, hlast⟩ := works_of_visits (Visits.last hs)
  obtain ⟨h0, h1, hnext, h7⟩ := of_decide_eq_true hstage
  obtain ⟨u, hu⟩ := Option.isSome_iff_exists.mp hnext
  exact ⟨s, u, hs, hworks, h0, hu, hlast horderly 1 50 0 .user u (by decide) h1 hu, h7⟩

/-- While process `0` commits its `7`, process `1` stores `9` in the same block and gives it to
`bwrite`; the transaction is installed over it. -/
def lostRun : List (Act (Fin 2) Empty ℕ) :=
  List.flatten [[.beginOp 0, .bread 0 50, .run 0, .run 0, .modify 0 0 7, .logWrite 0 0,
    .brelse 0 0, .run 0, .endOp 0], List.replicate 10 (.run 0), [.bread 1 50, .run 1, .run 1,
    .modify 1 0 9, .bwrite 1 0, .brelse 1 0, .run 1], List.replicate 33 (.run 0),
    [.bread 1 50, .run 1]]

/-- A logged block that is changed outside of an operation loses the change. -/
theorem lostRun_returns_older : ∃ s u, exec (next smallLog) (binit (fun _ => 0) fun _ => 0)
    lostRun = some s ∧ s.stage 1 = .read 50 0 .user ∧ s.next smallLog (.run 1) = some u ∧
      (u.buf 0).data = 7 ∧ s.last 50 = 9 := by
  have hrun : (exec (next smallLog) (binit (fun _ => 0) fun _ => 0) lostRun).any (fun s =>
      s.stage 1 = .read 50 0 .user ∧
        (s.next smallLog (.run 1)).any (fun u => (u.buf 0).data = 7) ∧ s.last 50 = 9) = true := by
    decide +kernel
  obtain ⟨s, hs, hend⟩ := (Option.any_eq_true _ _).mp hrun
  obtain ⟨hstage, hnext, hlast⟩ := of_decide_eq_true hend
  obtain ⟨u, hu, h7⟩ := (Option.any_eq_true _ _).mp hnext
  exact ⟨s, u, hs, hstage, hu, of_decide_eq_true h7, hlast⟩

end Sys

end Xv6.Bio
