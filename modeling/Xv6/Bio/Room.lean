import Xv6.Bio.Invariant

/-!
# Running out of buffers

`bget` finds no buffer for a block exactly when the block is not in use and as many others are as
there are buffers. Nothing keeps the processes from using so many: `begin_op` bounds the blocks
that the log pins, but `fileread` takes a buffer without `begin_op`, and there are more processes
than buffers.
-/

namespace Xv6.Bio

open Xv6.Lib

variable {P T D : Type}

namespace Sys

/-- A process has locked the buffer of the block, waits for it or gives it back, or has pinned it,
or the block is to be installed. -/
def Uses (s : Sys P T D) (b : ℕ) : Prop := ∃ i, s.Caches i b ∧ ∃ x, s.Points i x

/-- The block is in use, or fewer blocks are than there are buffers. -/
def Roomy (s : Sys P T D) (b : ℕ) : Prop := s.Uses b ∨ Set.encard {c | s.Uses c} < NBUF

/-- The block that a line of `commit` looks up. -/
def asksAt (L : Log D) (s : Sys P T D) : CommitAt → Option ℕ
  | .toBuf tail => if tail < s.lh.length then some (L.start + tail + 1) else none
  | .fromBuf tail _ => some (s.lh.getD tail 0)
  | .head _ => some L.start
  | .log tail => if tail < s.lh.length then some (L.start + tail + 1) else none
  | .dst tail _ => some (s.lh.getD tail 0)
  | _ => none

/-- The block that a step looks up. -/
def asks (L : Log D) (s : Sys P T D) : Act P T D → Option ℕ
  | .bread p b => if s.stage p = .idle then some b else none
  | .run p =>
    match s.stage p with
    | .commit pc => s.asksAt L pc
    | _ => none
  | _ => none

namespace Counted

variable {s : Sys P T D}

variable (h : s.Counted)
include h

theorem points_iff (i : Idx) : (∃ x, s.Points i x) ↔ (s.buf i).refcnt ≠ 0 :=
  ⟨fun ⟨_, hx⟩ => h.used hx, (h.refs i).exists_of_ne_zero⟩

/-- The blocks in use are those of the buffers in use. -/
theorem setOf_uses :
    {b | s.Uses b} = (fun i => (s.buf i).blockno) '' {i | (s.buf i).refcnt ≠ 0} := by
  ext b
  constructor
  · rintro ⟨i, hi, hx⟩
    exact ⟨i, (h.points_iff i).mp hx, hi.2⟩
  · rintro ⟨i, hi, rfl⟩
    exact ⟨i, ⟨h.root i hi, rfl⟩, (h.points_iff i).mpr hi⟩

/-- As many blocks are in use as buffers. -/
theorem encard_uses : Set.encard {b | s.Uses b} = Set.encard {i | (s.buf i).refcnt ≠ 0} := by
  rw [h.setOf_uses]
  refine Set.InjOn.encard_image ?_
  intro i hi j hj heq
  exact h.unique i j _ ⟨h.root i hi, rfl⟩ ⟨h.root j hj, heq.symm⟩

/-- All buffers are in use exactly when that many blocks are. -/
theorem all_used_iff : (∀ i, (s.buf i).refcnt ≠ 0) ↔ ¬ Set.encard {b | s.Uses b} < NBUF := by
  have huniv : Set.encard (Set.univ : Set Idx) = NBUF := by
    rw [Set.encard_univ, ENat.card_eq_coe_fintype_card, Fintype.card_fin]
  rw [h.encard_uses, ← huniv]
  constructor
  · intro hall
    rw [Set.eq_univ_of_forall (s := {i | (s.buf i).refcnt ≠ 0}) hall]
    exact lt_irrefl _
  · intro hnot i
    by_contra hi
    refine hnot (Set.Finite.encard_lt_encard (Set.toFinite _) ?_)
    exact Set.ssubset_univ_iff.mpr fun heq => absurd (Set.mem_univ i) (heq ▸ fun hmem => hmem hi)

theorem unused_eq_none : s.unused = none ↔ ∀ i, (s.buf i).refcnt ≠ 0 := by
  rw [unused, List.find?_eq_none]
  simp [h.listed]

theorem cached_eq_none {b : ℕ} : s.cached b = none ↔ ∀ i, ¬ s.Caches i b := by
  rw [Sys.cached, List.find?_eq_none]
  simp [h.listed]

/-- `bget` fails exactly when there is no room for the block. -/
theorem no_buffers {b : ℕ} : (s.cached b = none ∧ s.unused = none) ↔ ¬ s.Roomy b := by
  rw [h.unused_eq_none, h.all_used_iff, h.cached_eq_none, Roomy, not_or]
  constructor
  · rintro ⟨hno, hall⟩
    exact ⟨fun ⟨i, hi, _⟩ => hno i hi, hall⟩
  · rintro ⟨hno, hall⟩
    refine ⟨fun i hi => hno ⟨i, hi, ?_⟩, hall⟩
    exact (h.points_iff i).mpr (h.all_used_iff.mpr hall i)

end Counted

section Panic
variable {L : Log D} {s : Sys P T D} {p : P}

/-- The message of `bget`. -/
def noBuffers : String := "bget: no buffers"

theorem logWrite_ne_error {i : Idx} : s.logWrite L i ≠ .error noBuffers := by
  rw [logWrite]
  split
  · simp [noBuffers]
  · split <;> simp [noBuffers]

variable [DecidableEq P]

theorem bget_eq_error (h : s.Counted) {b : ℕ} {c : Caller} :
    s.bget p b c = .error noBuffers ↔ ¬ s.Roomy b := by
  rw [← h.no_buffers, bget]
  split
  · simp_all
  · split <;> simp_all [noBuffers]

theorem brelse_ne_error {i : Idx} {c : Option CommitAt} : s.brelse p i c ≠ .error noBuffers := by
  rw [brelse]
  split
  · simp
  · simp [noBuffers]

theorem bwrite_ne_error {i : Idx} {f : Sys P T D → Sys P T D} :
    (s.bwrite p i).map f ≠ .error noBuffers := by
  rw [bwrite]
  split
  · simp [Except.map]
  · simp [Except.map, noBuffers]

theorem commit_eq_error (h : s.Counted) {pc : CommitAt} :
    s.commit L p pc = .error noBuffers ↔ ∃ b, s.asksAt L pc = some b ∧ ¬ s.Roomy b := by
  cases pc with
  | toBuf | log =>
    simp only [commit, asksAt]
    split <;> simp [bget_eq_error h]
  | fromBuf | head | dst => simp only [commit, asksAt, bget_eq_error h]; simp
  | write | writeHead | writeDst => simp [commit, asksAt, bwrite_ne_error]
  | relFrom | relTo | relHead | relLog | relDst => simp [commit, asksAt, brelse_ne_error]
  | _ => simp [commit, asksAt]

theorem endOp_ne_error : s.endOp p ≠ .error noBuffers := by
  rw [endOp]
  split
  · simp [noBuffers]
  · split <;> simp

variable [DecidableEq T]

/-- **A step panics for want of a buffer** exactly when there is no room for the block that it
looks up, in every state of every run. -/
theorem no_buffers_iff_not_roomy {disk : ℕ → D} {data : Idx → D} {as : List (Act P T D)}
    (h : Visits (next L) (binit disk data) as s) (a : Act P T D) :
    s.step L a = some (.error "bget: no buffers") ↔ ∃ b, s.asks L a = some b ∧ ¬ s.Roomy b := by
  have hcounted := (inv_of_visits h).counted
  change s.step L a = some (.error noBuffers) ↔ _
  cases a with
  | bread p b =>
    simp only [step, asks]
    split
    · simp [bget_eq_error hcounted]
    · simp
  | run p =>
    simp only [step, run, asks]
    cases s.stage p with
    | commit pc => rw [Option.some.injEq, commit_eq_error hcounted]
    | lock b i c => simp
    | read b i c => simp only []; split <;> simp
    | _ => simp
  | bwrite p i =>
    simp only [step, asks, bwrite]
    grind [noBuffers]
  | logWrite | brelse | endOp =>
    simp [step, asks, logWrite_ne_error, brelse_ne_error, endOp_ne_error]
  | _ => simp [step, asks]

end Panic

/-! ## Thirty-one readers -/

/-- The log of the file system image. -/
def imageLog : Log Unit := ⟨2, LOGSIZE, fun _ => ()⟩

/-- What `fileread` does with the cache when it reads from one block of a file whose inode is in
memory: `readi` reads the block, copies from it and releases it. It calls no `begin_op`. -/
def fileread (p : Fin NPROC) (b : ℕ) (i : Idx) : List (Act (Fin NPROC) Empty Unit) :=
  [.bread p b, .run p, .run p, .brelse p i, .run p]

/-- The process with the number `k` has begun to read the block `100 + k` of a file of its own, and
waits for the disk. -/
def readers : List (Act (Fin NPROC) Empty Unit) :=
  (List.finRange NBUF).flatMap fun k : Idx =>
    (fileread (k.castLE (by decide)) (100 + k) k).take 2

/-- Each of the readers waits for the disk, and one more finds no buffer. -/
def Exhausted (s : Sys (Fin NPROC) Empty Unit) : Prop :=
  (∀ k : Idx, s.stage (k.castLE (by decide)) = .read (100 + k) k .user) ∧
    s.stage 30 = .idle ∧ s.cached 130 = none ∧ s.unused = none

instance (s : Sys (Fin NPROC) Empty Unit) : Decidable s.Exhausted :=
  inferInstanceAs (Decidable (_ ∧ _))

theorem exhausted_readers :
    ∃ s, exec (next imageLog) (binit (fun _ => ()) fun _ => ()) readers = some s ∧
      s.Exhausted := by
  have hrun : (exec (next imageLog) (binit (fun _ => ()) fun _ => ()) readers).any
      (fun s => s.Exhausted) = true := by decide +kernel
  obtain ⟨s, hs, hex⟩ := (Option.any_eq_true _ _).mp hrun
  exact ⟨s, hs, of_decide_eq_true hex⟩

/-- **One reader more finds no buffer.** -/
theorem readers_no_buffers :
    ∃ s, exec (next imageLog) (binit (fun _ => ()) fun _ => ()) readers = some s ∧
      (∀ k : Idx, s.stage (k.castLE (by decide)) = .read (100 + k) k .user) ∧
      (fileread 30 130 0).head? = some (.bread 30 130) ∧
      s.step imageLog (.bread 30 130) = some (.error "bget: no buffers") := by
  obtain ⟨s, hs, hreaders, hidle, hcached, hunused⟩ := exhausted_readers
  refine ⟨s, hs, hreaders, rfl, ?_⟩
  simp only [step, bget, hidle, hcached, hunused, if_true]

/-- At that point there is no room. -/
theorem not_roomy_readers :
    ∃ s, exec (next imageLog) (binit (fun _ => ()) fun _ => ()) readers = some s ∧
      ¬ s.Roomy 130 := by
  obtain ⟨s, hs, -, hidle, hcached, hunused⟩ := exhausted_readers
  have hpanic : s.step imageLog (.bread 30 130) = some (.error "bget: no buffers") := by
    simp only [step, bget, hidle, hcached, hunused, if_true]
  obtain ⟨b, hb, hroom⟩ := (no_buffers_iff_not_roomy (Visits.last hs) _).mp hpanic
  rw [asks, if_pos hidle] at hb
  exact ⟨s, hs, Option.some.inj hb ▸ hroom⟩

end Sys

end Xv6.Bio
