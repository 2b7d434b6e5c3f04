import Xv6.Bio.Cache

/-!
# The contents of the cache

A valid buffer holds what was last stored in a buffer of its block, and so does the disk, unless
the block is in the log and not yet installed, or a process has changed the buffer and still has it
locked. A buffer that is read from the disk is therefore filled with what was last stored.
-/

namespace Xv6.Bio

open Function (update_apply)

namespace Sys

variable {P T D : Type}

/-- What the buffers and the disk hold. -/
structure Coherent (s : Sys P T D) : Prop where
  dirty_held : ∀ i, s.dirty i = true → s.holder i ≠ none
  dirty_valid : ∀ i, s.dirty i = true → (s.buf i).valid = true
  held_valid : ∀ i p, s.holder i = some p →
    (s.buf i).valid = true ∨ (s.stage p).reading = some i
  reading_held : ∀ i p, (s.stage p).reading = some i → s.holder i = some p
  pending_valid : ∀ i b, b ∈ s.pending → s.Caches i b → (s.buf i).valid = true
  data : ∀ i b, (s.buf i).valid = true → s.Caches i b → (s.buf i).data = s.given b
  settled : ∀ b, b ∉ s.pending → (∀ i, s.Caches i b → s.dirty i = false) → s.Settled b

namespace Coherent

variable {s : Sys P T D} {i : Idx} {p : P}

/-- A process that goes on with a buffer it has locked finds it valid. -/
theorem valid (h : s.Coherent) (hplain : (s.stage p).Plain) (hi : s.holder i = some p) :
    (s.buf i).valid = true := by
  rcases h.held_valid i p hi with hv | hread
  · exact hv
  · rw [hplain.2] at hread; cases hread

/-- A buffer that is to be filled is filled with what was last stored. -/
theorem settled_of_invalid (h : s.Coherent) (hc : s.Counted) (hread : (s.stage p).reading = some i)
    (hi : (s.buf i).valid = false) : s.Settled (s.buf i).blockno := by
  have hcaches := hc.caches_of_holder (h.reading_held i p hread)
  refine h.settled _ ?_ ?_
  · intro hmem
    rw [h.pending_valid i _ hmem hcaches] at hi
    cases hi
  · intro j hj
    rw [hc.unique j i _ hj hcaches]
    by_contra hd
    rw [h.dirty_valid i (by simpa using hd)] at hi
    cases hi

end Coherent

section Steps
variable [DecidableEq P] [DecidableEq T] {s t : Sys P T D} {p : P} {st : Stage}

attribute [local simp] goto setRefcnt setBuf setHolder setPinned unref store flush addLog
  update_apply

theorem dirty_of_effect (hc : s.Counted) (h : s.Coherent) (he : s.Effect p st t) (i : Idx)
    (hi : (t.goto p st).dirty i = true) :
    (t.goto p st).holder i ≠ none ∧ ((t.goto p st).buf i).valid = true := by
  have hheld := h.dirty_held i
  have hvalid := h.dirty_valid i
  cases he with
  | skip | clear => exact ⟨hheld hi, hvalid hi⟩
  | store _ _ _ hold hj hnew =>
    have hv := h.valid hold hj
    simp at hi ⊢; grind
  | recycle _ _ hj =>
    have hnone := hc.not_points hj .held
    simp at hi ⊢; grind [Points]
  | _ => simp at hi ⊢; grind

theorem held_valid_of_effect (hc : s.Counted) (h : s.Coherent) (he : s.Effect p st t) (i : Idx)
    (q : P) (hi : (t.goto p st).holder i = some q) :
    ((t.goto p st).buf i).valid = true ∨ ((t.goto p st).stage q).reading = some i := by
  have hv := h.held_valid i q
  cases he with
  | recycle _ _ hj =>
    have hnone := hc.not_points hj .held
    simp at hi ⊢; grind [Points]
  | acquire hold => 
    have hread := Stage.reading_of_busy hold
    simp at hi ⊢; grind
  | unref hold => 
    have hread := Stage.reading_of_busy hold
    simp at hi ⊢; grind
  | _ => simp at hi ⊢; grind

theorem reading_held_of_effect (h : s.Coherent) (he : s.Effect p st t) (i : Idx) (q : P)
    (hq : ((t.goto p st).stage q).reading = some i) : (t.goto p st).holder i = some q := by
  have hr := h.reading_held i q
  cases he with
  | ref _ _ hnew | recycle _ _ _ hnew | release _ _ _ hnew =>
    have hread := Stage.reading_of_busy hnew
    simp at hq ⊢; grind
  | _ => simp at hq ⊢; grind

variable (hc : s.Counted) (h : s.Coherent)
include hc h

theorem pending_valid_of_effect (he : s.Effect p st t) (i : Idx)
    (b : ℕ) (hb : b ∈ (t.goto p st).pending) (hi : (t.goto p st).Caches i b) :
    ((t.goto p st).buf i).valid = true := by
  have hv := h.pending_valid i b
  cases he with
  | recycle _ hnone =>
    have hcached := hc.cached b
    simp [Caches, pending] at hb hi ⊢; grind [Caches, pending]
  | addLog hold hj _ h0 =>
    have hvalid := h.valid hold hj
    have := hc.caches_of_holder hj
    have := hc.unique i
    simp [Caches, pending, h0] at hb hi ⊢; grind [Caches, pending]
  | install _ _ _ hpending =>
    have hdrop := Counted.drop_of_pending hpending
    simp [Caches, pending, hdrop] at hb hi ⊢; grind [Caches]
  | clear => simp [pending] at hb
  | _ => simp [Caches, pending] at hb hi ⊢; grind [Caches, pending]

theorem data_of_effect (he : s.Effect p st t) (i : Idx)
    (b : ℕ) (hv : ((t.goto p st).buf i).valid = true) (hi : (t.goto p st).Caches i b) :
    ((t.goto p st).buf i).data = (t.goto p st).given b := by
  have hd := h.data i b
  cases he with
  | fill hold hinv => 
    have := h.settled_of_invalid hc hold hinv
    simp [Caches] at hi hv ⊢; grind [Caches, Settled]
  | @store j _ _ _ _ hj => 
    have := hc.caches_of_holder hj
    have := hc.unique i j
    simp [Caches] at hi hv ⊢; grind [Caches]
  | _ => simp [Caches] at hi hv ⊢; grind [Caches]

theorem settled_of_effect (he : s.Effect p st t) (b : ℕ) (hb : b ∉ (t.goto p st).pending)
    (hclean : ∀ i, (t.goto p st).Caches i b → (t.goto p st).dirty i = false) :
    (t.goto p st).Settled b := by
  have hs := h.settled b
  cases he with
  | skip | acquire | release => exact hs hb hclean
  | ref | unref | pin | unpin | fill =>
    refine hs hb fun i hi => hclean i ?_
    simp only [Caches, goto, setRefcnt, setBuf, setPinned, unref, update_apply]
    grind [Caches]
  | @recycle j c hold hnone hj =>
    refine hs hb fun i hi => ?_
    by_cases hij : i = j
    · -- a buffer that is recycled is not locked, and so not changed
      by_contra hd
      exact hc.not_points hj .held (hij ▸ h.dirty_held i (by simpa using hd))
    · exact hclean i (by simpa [Caches, hij] using hi)
  | @store j data c l hold hj hnew =>
    have hcaches := hc.caches_of_holder hj
    have hne : b ≠ (s.buf j).blockno := by
      rintro rfl
      have := hclean j (by simpa [Caches] using hcaches)
      simp at this
    have hsettled : s.Settled b := by
      refine hs hb fun i hi => ?_
      have hij : i ≠ j := by rintro rfl; exact hne hi.2.symm
      simpa [hij] using hclean i (by simpa [Caches, hij] using hi)
    simpa [Settled, hne] using hsettled
  | @flush j hold hj hnew =>
    by_cases hb' : b = (s.buf j).blockno
    · subst hb'
      simpa [Settled] using h.data j _ (h.valid hold hj) (hc.caches_of_holder hj)
    · have hsettled : s.Settled b := by
        refine hs hb fun i hi => ?_
        have hij : i ≠ j := by rintro rfl; exact hb' hi.2.symm
        simpa [hij] using hclean i hi
      simpa [Settled, hb'] using hsettled
  | @absorb j hold hj hmem hnew =>
    refine hs hb fun i hi => ?_
    have hij : i ≠ j := by rintro rfl; exact hb (hi.2 ▸ hmem)
    simpa [hij] using hclean i hi
  | @addLog j hold hj hmem h0 hnew =>
    have hnot : b ∉ s.pending ∧ b ≠ (s.buf j).blockno := by
      simpa [pending, h0, not_or] using hb
    refine hs hnot.1 fun i hi => ?_
    have hij : i ≠ j := by rintro rfl; exact hnot.2 hi.2.symm
    simpa [hij] using hclean i (by simpa [Caches, hij] using hi)
  | @install j c cs hold hj hcaches hpending hd hnew =>
    have hdrop := Counted.drop_of_pending hpending
    by_cases hbc : b = c
    · exact hbc ▸ hd
    · refine hs (by rw [hpending, List.mem_cons, not_or]; exact ⟨hbc, hdrop ▸ hb⟩) fun i hi => ?_
      refine hclean i ?_
      simp only [Caches, goto, setRefcnt, setBuf, update_apply]
      grind [Caches]
  | clear hold hpending hnew => exact hs (by simp [hpending]) hclean

theorem coherent_of_effect (he : s.Effect p st t) : (t.goto p st).Coherent where
  dirty_held i hi := (dirty_of_effect hc h he i hi).1
  dirty_valid i hi := (dirty_of_effect hc h he i hi).2
  held_valid := held_valid_of_effect hc h he
  reading_held := reading_held_of_effect h he
  pending_valid := pending_valid_of_effect hc h he
  data := data_of_effect hc h he
  settled := settled_of_effect hc h he

end Steps

end Sys

end Xv6.Bio
