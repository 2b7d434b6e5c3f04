import Xv6.Bio.Model
import Xv6.Lib.Count

/-!
# The reference counts of the cache

A buffer is pointed to by the process that has it locked, by the processes that wait for its lock
or are about to give it back, by those who have pinned it, and by the log while its block is to be
installed. `refcnt` is the number of these pointers, so that `bget` recycles only a buffer that
nobody uses.

`Effect` lists what a step can do to the cache, and what is known of the process that does it.
-/

namespace Xv6.Bio

open Xv6.Lib
open Function (update update_apply)

namespace Stage

/-- The buffer that a process points to without having it locked. -/
def busy : Stage → Option Idx
  | .lock _ i _ => some i
  | .drop i _ => some i
  | _ => none

/-- The buffer that a process has locked and may have to fill. -/
def reading : Stage → Option Idx
  | .read _ i _ => some i
  | _ => none

/-- The process neither waits for a buffer nor fills one. -/
@[grind =] def Plain (st : Stage) : Prop := st.busy = none ∧ st.reading = none

theorem reading_of_busy {st : Stage} {i : Idx} (h : st.busy = some i) : st.reading = none := by
  cases st <;> simp_all [busy, reading]

theorem busy_of_reading {st : Stage} {i : Idx} (h : st.reading = some i) : st.busy = none := by
  cases st <;> simp_all [busy, reading]

theorem plain_after (c : Option CommitAt) : (after c).Plain := by
  cases c <;> exact ⟨rfl, rfl⟩

end Stage

theorem Caller.plain_go (c : Caller) (i : Idx) : (c.go i).Plain := by
  cases c <;> exact ⟨rfl, rfl⟩

/-- What may point to a buffer. -/
inductive Token (P T : Type)
  | held
  | busy (p : P)
  | pin (t : T)
  | log

namespace Sys

variable {P T D : Type}

/-- The logged blocks that `commit` has not yet installed. -/
def pending (s : Sys P T D) : List ℕ := s.lh.drop s.installed

/-- The pointers to a buffer. -/
def Points (s : Sys P T D) (i : Idx) : Token P T → Prop
  | .held => s.holder i ≠ none
  | .busy p => (s.stage p).busy = some i
  | .pin t => s.pinned t = some i
  | .log => (s.buf i).dev = ROOTDEV ∧ (s.buf i).blockno ∈ s.pending

/-- The disk holds what was last stored in a buffer of the block. -/
def Settled (s : Sys P T D) (b : ℕ) : Prop := s.disk b = s.given b

section Effect
variable [DecidableEq P] [DecidableEq T]

/-- What a step of a process does to the cache, up to its next stage. -/
inductive Effect (s : Sys P T D) (p : P) (st : Stage) : Sys P T D → Prop
  | skip (o : ℕ) (c : Bool) (f : P → Bool) (hold : (s.stage p).busy = none)
      (hread : ∀ i, (s.stage p).reading = some i → (s.buf i).valid = true) (hnew : st.Plain) :
      Effect s p st { s with outstanding := o, committing := c, inOp := f }
  | ref {i : Idx} {b : ℕ} (hold : (s.stage p).Plain) (hi : s.Caches i b)
      (hnew : st.busy = some i) : Effect s p st (s.setRefcnt i ((s.buf i).refcnt + 1))
  | recycle {i : Idx} {b : ℕ} (hold : (s.stage p).Plain) (hb : ∀ j, ¬ s.Caches j b)
      (hi : (s.buf i).refcnt = 0) (hnew : st.busy = some i) :
      Effect s p st (s.setBuf i ⟨ROOTDEV, b, false, 1, (s.buf i).data⟩)
  | acquire {i : Idx} (hold : (s.stage p).busy = some i) (hi : s.holder i = none)
      (hnew : st.reading = some i) : Effect s p st (s.setHolder i (some p))
  | fill {i : Idx} (hold : (s.stage p).reading = some i) (hi : (s.buf i).valid = false)
      (hnew : st.Plain) :
      Effect s p st
        (s.setBuf i { s.buf i with valid := true, data := s.disk (s.buf i).blockno })
  | store {i : Idx} (data : D) (c : ℕ) (l : ℕ → D) (hold : (s.stage p).Plain)
      (hi : s.holder i = some p) (hnew : st.Plain) :
      Effect s p st { s.store i data with copied := c, last := l }
  | flush {i : Idx} (hold : (s.stage p).Plain) (hi : s.holder i = some p) (hnew : st.Plain) :
      Effect s p st (s.flush i)
  | absorb {i : Idx} (hold : (s.stage p).Plain) (hi : s.holder i = some p)
      (hb : (s.buf i).blockno ∈ s.pending) (hnew : st.Plain) :
      Effect s p st { s with dirty := update s.dirty i false }
  | addLog {i : Idx} (hold : (s.stage p).Plain) (hi : s.holder i = some p)
      (hb : (s.buf i).blockno ∉ s.lh) (h0 : s.installed = 0) (hnew : st.Plain) :
      Effect s p st { s.addLog i with dirty := update s.dirty i false }
  | release {i : Idx} (hold : (s.stage p).Plain) (hi : s.holder i = some p)
      (hd : s.dirty i = false) (hnew : st.busy = some i) : Effect s p st (s.setHolder i none)
  | unref {i : Idx} (hold : (s.stage p).busy = some i) (hnew : st.Plain) :
      Effect s p st (s.unref i)
  | pin {i : Idx} {t : T} (hold : (s.stage p).Plain) (hi : s.holder i = some p)
      (ht : s.pinned t = none) (hnew : st.Plain) :
      Effect s p st ((s.setRefcnt i ((s.buf i).refcnt + 1)).setPinned t (some i))
  | unpin {i : Idx} {t : T} (hold : (s.stage p).Plain) (ht : s.pinned t = some i)
      (hnew : st.Plain) :
      Effect s p st ((s.setRefcnt i ((s.buf i).refcnt - 1)).setPinned t none)
  | install {i : Idx} {b : ℕ} {bs : List ℕ} (hold : (s.stage p).Plain) (hi : s.holder i = some p)
      (hb : s.Caches i b) (hpending : s.pending = b :: bs) (hd : s.Settled b) (hnew : st.Plain) :
      Effect s p st
        { s.setRefcnt i ((s.buf i).refcnt - 1) with installed := s.installed + 1 }
  | clear (hold : (s.stage p).Plain) (hpending : s.pending = []) (hnew : st.Plain) :
      Effect s p st { s with lh := [], copied := 0, installed := 0 }

end Effect

/-- The counts of the pointers, and what follows from how they change. -/
structure Counted (s : Sys P T D) : Prop where
  listed : ∀ i, i ∈ s.lru
  unique : ∀ i j b, s.Caches i b → s.Caches j b → i = j
  refs : ∀ i, Numbers (s.Points i) (s.buf i).refcnt
  dev : ∀ i, (s.buf i).dev = 0 ∨ (s.buf i).dev = ROOTDEV
  root : ∀ i, (s.buf i).refcnt ≠ 0 → (s.buf i).dev = ROOTDEV
  cached : ∀ b ∈ s.pending, ∃ i, s.Caches i b
  nodup : s.lh.Nodup

namespace Counted

variable {s : Sys P T D} {i : Idx}

/-- A buffer with a pointer to it is in use. -/
theorem used (h : s.Counted) {x : Token P T} (hx : s.Points i x) : (s.buf i).refcnt ≠ 0 :=
  ((h.refs i).pos hx).ne'

/-- Nothing points to a buffer that is not in use. -/
theorem not_points (h : s.Counted) (h0 : (s.buf i).refcnt = 0) (x : Token P T) :
    ¬ s.Points i x := fun hx => h.used hx h0

theorem caches (h : s.Counted) {x : Token P T} (hx : s.Points i x) :
    s.Caches i (s.buf i).blockno := ⟨h.root i (h.used hx), rfl⟩

theorem caches_of_holder (h : s.Counted) {p : P} (hp : s.holder i = some p) :
    s.Caches i (s.buf i).blockno :=
  h.caches (x := .held) (by simp [Points, hp])

theorem nodup_pending (h : s.Counted) : s.pending.Nodup :=
  h.nodup.sublist (List.drop_sublist s.installed s.lh)

/-- What is pending once the first block is installed. -/
theorem drop_of_pending {b : ℕ} {bs : List ℕ} (hpending : s.pending = b :: bs) :
    s.lh.drop (s.installed + 1) = bs := by
  rw [← List.tail_drop, show s.lh.drop s.installed = _ from hpending, List.tail_cons]

end Counted

section Steps
variable [DecidableEq P] {s t : Sys P T D} {p : P} {st : Stage}

attribute [local simp] Points goto pending setRefcnt setBuf setHolder setPinned
  update_apply

/-- A process that goes on without a pointer, or with the same one. -/
theorem points_goto {i : Idx} {x : Token P T} (hp : st.busy = (s.stage p).busy)
    (ht : t.stage = s.stage) (hx : t.Points i x ↔ s.Points i x) :
    (t.goto p st).Points i x ↔ s.Points i x := by
  cases x with
  | busy q =>
    simp only [Points, goto, update_apply]
    split <;> simp_all
  | _ => exact hx

variable [DecidableEq T]

variable (h : s.Counted)
include h

variable (he : s.Effect p st t)
include he

/-- The counts stay exact. -/
theorem refs_of_effect : ∀ j, Numbers ((t.goto p st).Points j) ((t.goto p st).buf j).refcnt := by
  cases he with
  | skip o c f hold hread hnew =>
    exact Numbers.congrAt h.refs
      (fun j x => points_goto (hnew.1.trans hold.symm) rfl Iff.rfl) fun _ => rfl
  | @ref i b hold hi hnew =>
    refine Numbers.insertAt (i := i) (z := .busy p) h.refs ?_ ?_ ?_ ?_
    · simp [hold.1]
    · simp [hnew]
    · rintro j (_ | q | x | _) hx <;> simp <;> grind
    · simp; grind
  | @recycle i b hold hb hi hnew =>
    have hlog : b ∉ s.pending := fun hmem => (h.cached b hmem).elim hb
    have hnone := h.not_points hi .log
    refine Numbers.insertAt (i := i) (z := .busy p) h.refs ?_ ?_ ?_ ?_
    · simp [hold.1]
    · simp [hnew]
    · rintro j (_ | q | x | _) hx
      · rfl
      · simp; grind
      · rfl
      · by_cases hj : j = i <;> simp_all
    · simp; grind
  | @acquire i hold hi hnew =>
    have hbusy := Stage.busy_of_reading hnew
    refine Numbers.swapAt (i := i) (z := .busy p) (w := .held) h.refs ?_ ?_ ?_ ?_ ?_ ?_
    · simp [hold]
    · simp [hbusy]
    · simp [hi]
    · simp
    · rintro j (_ | q | x | _) hx hx' <;> simp <;> grind
    · simp
  | @fill i hold hi hnew =>
    have hbusy := Stage.busy_of_reading hold
    refine Numbers.congrAt h.refs
      (fun j x => points_goto (hnew.1.trans hbusy.symm) rfl ?_) ?_
    · cases x with
      | log => simp; grind
      | _ => rfl
    · simp; grind
  | store data c l hold hi hnew =>
    refine Numbers.congrAt h.refs
      (fun j x => points_goto (hnew.1.trans hold.1.symm) rfl ?_) ?_
    · cases x with
      | log => simp [store]; grind
      | _ => rfl
    · simp [store]; grind
  | flush hold hi hnew =>
    exact Numbers.congrAt h.refs
      (fun j x => points_goto (hnew.1.trans hold.1.symm) rfl Iff.rfl) fun _ => rfl
  | absorb hold hi hb hnew =>
    exact Numbers.congrAt h.refs
      (fun j x => points_goto (hnew.1.trans hold.1.symm) rfl Iff.rfl) fun _ => rfl
  | @addLog i hold hi hb h0 hnew =>
    have hroot := (h.caches_of_holder hi).1
    have hother : ∀ j, s.Caches j (s.buf i).blockno → j = i :=
      fun j hj => h.unique j i _ hj ⟨hroot, rfl⟩
    refine Numbers.insertAt (i := i) (z := .log) h.refs ?_ ?_ ?_ ?_
    · simp [h0, hb]
    · simp [addLog, h0, hroot]
    · rintro j x hx
      refine points_goto (hnew.1.trans hold.1.symm) rfl ?_
      cases x with
      | log => have hj := hother j; simp [addLog, h0]; grind [Caches]
      | _ => rfl
    · simp [addLog]; grind
  | @release i hold hi hd hnew =>
    refine Numbers.swapAt (i := i) (z := .held) (w := .busy p) h.refs ?_ ?_ ?_ ?_ ?_ ?_
    · simp [hi]
    · simp
    · simp [hold.1]
    · simp [hnew]
    · rintro j (_ | q | x | _) hx hx' <;> simp <;> grind
    · simp
  | @unref i hold hnew =>
    refine Numbers.eraseAt (i := i) (z := .busy p) h.refs ?_ ?_ ?_ ?_
    · simp [hold]
    · simp [hnew.1]
    · rintro j (_ | q | x | _) hx <;> simp [unref] <;> grind
    · simp [unref]; grind
  | @pin i x hold hi ht hnew =>
    refine Numbers.insertAt (i := i) (z := .pin x) h.refs ?_ ?_ ?_ ?_
    · simp [ht]
    · simp
    · intro j y hy
      refine points_goto (hnew.1.trans hold.1.symm) rfl ?_
      cases y <;> simp <;> grind
    · simp; grind
  | @unpin i x hold ht hnew =>
    refine Numbers.eraseAt (i := i) (z := .pin x) h.refs ?_ ?_ ?_ ?_
    · simp [ht]
    · simp
    · intro j y hy
      refine points_goto (hnew.1.trans hold.1.symm) rfl ?_
      cases y <;> simp <;> grind
    · simp; grind
  | @install i b bs hold hi hb hpending hd hnew =>
    have hnot : b ∉ bs := (List.nodup_cons.mp (hpending ▸ h.nodup_pending)).1
    have hdrop := Counted.drop_of_pending hpending
    have hother : ∀ j, s.Caches j b → j = i := fun j hj => h.unique j i _ hj hb
    refine Numbers.eraseAt (i := i) (z := .log) h.refs ?_ ?_ ?_ ?_
    · rw [Points, hpending, hb.2]; simp [hb.1]
    · simp [hdrop, hb.2, hnot]
    · intro j x hx
      refine points_goto (hnew.1.trans hold.1.symm) rfl ?_
      cases x with
      | log => have hj := hother j; rw [Points, Points, hpending]; simp [hdrop]; grind [Caches]
      | _ => rfl
    · simp; grind
  | clear hold hpending hnew =>
    refine Numbers.congrAt h.refs
      (fun j x => points_goto (hnew.1.trans hold.1.symm) rfl ?_) fun _ => rfl
    cases x with
    | log => rw [Points, Points, hpending]; simp
    | _ => rfl

/-- A logged block is not recycled. -/
theorem cached_of_effect : ∀ b ∈ (t.goto p st).pending, ∃ i, (t.goto p st).Caches i b := by
  have hcached := h.cached
  cases he with
  | skip | flush | absorb | acquire | release => exact hcached
  | ref | unref | pin | unpin | fill | store =>
    intro b hb
    obtain ⟨j, hj⟩ := hcached b hb
    refine ⟨j, ?_⟩
    simp only [Caches, unref, store, goto, setRefcnt, setBuf, setPinned, update_apply]
    grind [Caches]
  | @recycle i b hold hb hi hnew =>
    intro c hc
    obtain ⟨j, hj⟩ := hcached c hc
    have hji : j ≠ i := fun heq => h.not_points hi .log ⟨heq ▸ hj.1, (heq ▸ hj.2) ▸ hc⟩
    exact ⟨j, by simpa [Caches, hji] using hj⟩
  | @addLog i hold hi hb h0 hnew =>
    intro c hc
    have hmem : c ∈ s.pending ∨ c = (s.buf i).blockno := by
      simpa [addLog, h0] using hc
    obtain ⟨j, hj⟩ : ∃ j, s.Caches j c := by
      rcases hmem with hc | rfl
      · exact hcached c hc
      · exact ⟨i, h.caches_of_holder hi⟩
    refine ⟨j, ?_⟩
    simp only [Caches, addLog, goto, setRefcnt, setBuf, update_apply]
    grind [Caches]
  | @install i b bs hold hi hb hpending hd hnew =>
    intro c hc
    have hdrop := Counted.drop_of_pending hpending
    obtain ⟨j, hj⟩ := hcached c (by
      rw [hpending]
      exact List.mem_cons_of_mem b (hdrop ▸ hc))
    refine ⟨j, ?_⟩
    simp only [Caches, goto, setRefcnt, setBuf, update_apply]
    grind [Caches]
  | clear => simp

/-- A block stays in one buffer. -/
theorem unique_of_effect (i j : Idx) (b : ℕ)
    (hi : (t.goto p st).Caches i b) (hj : (t.goto p st).Caches j b) : i = j := by
  have hu := h.unique i j b
  cases he with
  | skip | flush | absorb | acquire | release | clear => exact hu hi hj
  | ref | unref | pin | unpin | fill | store | addLog | install =>
    simp only [Caches, unref, store, addLog, goto, setRefcnt, setBuf, setPinned,
      update_apply] at hi hj
    grind [Caches]
  | @recycle k c hold hb hk hnew =>
    have hbi := hb i
    have hbj := hb j
    simp only [Caches, goto, setBuf, update_apply] at hi hj
    grind [Caches]

theorem dev_of_effect (j : Idx) :
    ((t.goto p st).buf j).dev = 0 ∨ ((t.goto p st).buf j).dev = ROOTDEV := by
  have hd := h.dev j
  cases he with
  | skip | flush | absorb | acquire | release | clear => exact hd
  | ref | recycle | unref | pin | unpin | fill | store | addLog | install =>
    simp only [unref, store, addLog, goto, setRefcnt, setBuf, setPinned, update_apply]
    grind

theorem root_of_effect (j : Idx)
    (hj : ((t.goto p st).buf j).refcnt ≠ 0) : ((t.goto p st).buf j).dev = ROOTDEV := by
  have hr := h.root j
  cases he with
  | skip | flush | absorb | acquire | release | clear => exact hr hj
  | fill | store | unref | unpin | install | ref | recycle =>
    simp only [unref, store, goto, setRefcnt, setBuf, setPinned, update_apply] at hj ⊢
    grind [Caches]
  | pin _ hi | addLog _ hi =>
    have hdev := (h.caches_of_holder hi).1
    simp only [addLog, goto, setRefcnt, setBuf, setPinned, update_apply] at hj ⊢
    grind

theorem counted_of_effect : (t.goto p st).Counted where
  listed := by
    have hl := h.listed
    cases he with
    | unref =>
      intro j
      simp only [unref, goto]
      split
      · rw [List.mem_cons]
        exact or_iff_not_imp_left.mpr fun hne => (List.mem_erase_of_ne hne).mpr (hl j)
      · exact hl j
    | _ => exact hl
  unique := unique_of_effect h he
  refs := refs_of_effect h he
  dev := dev_of_effect h he
  root := root_of_effect h he
  cached := cached_of_effect h he
  nodup := by
    have hn := h.nodup
    cases he with
    | addLog _ _ hb => 
      exact hn.append (List.nodup_singleton _) (List.disjoint_singleton.mpr hb)
    | clear => exact List.nodup_nil
    | _ => exact hn

end Steps

end Sys

end Xv6.Bio
