import Xv6.Bio.Serial

/-!
# The invariant of the cache and the log

Every line keeps the counts, the contents, the order of operations and commits, and what each
process finds: of the other processes because they keep their buffers and the log is not changed
during a commit, and of the process itself because each line leaves what the next one needs.
-/

namespace Xv6.Bio

open Xv6.Lib
open Function (update_apply update_of_ne update_self)

namespace Sys

variable {P T D : Type} [DecidableEq P] [DecidableEq T] {L : Log D} {s t : Sys P T D} {p : P}
  {a : Act P T D} {st : Stage}

/-! ## What the other processes find -/

/-- A buffer in use keeps its block. -/
theorem caches_of_effect (h : s.Counted) (he : s.Effect p st t) {i : Idx} {b : ℕ}
    {x : Token P T} (hx : s.Points i x) (hi : s.Caches i b) : (t.goto p st).Caches i b := by
  have hused := h.used hx
  cases he with
  | skip | flush | absorb | acquire | release | clear => exact hi
  | ref | recycle | unref | pin | unpin | fill | store | addLog | install =>
    simp only [Caches, unref, store, addLog, goto, setRefcnt, setBuf, setPinned,
      update_apply]
    grind [Caches]

section Others
variable {q : P} {i : Idx} {b : ℕ}

theorem holds_of_effect (h : s.Counted) (he : s.Effect p st t) (hq : q ≠ p)
    (hi : s.Holds q i b) : (t.goto p st).Holds q i b := by
  refine ⟨?_, caches_of_effect h he (x := .held) (by simp [Points, hi.1]) hi.2⟩
  have hholder := hi.1
  cases he with
  | acquire _ hj => 
    simp only [setHolder, goto, update_apply]
    grind
  | release _ hj =>
    simp only [setHolder, goto, update_apply]
    grind
  | _ => exact hholder

theorem dirty_of_holds (he : s.Effect p st t) (hq : q ≠ p) (hi : s.Holds q i b) :
    (t.goto p st).dirty i = s.dirty i := by
  have hholder := hi.1
  cases he with
  | store _ _ _ _ hj | flush _ hj | absorb _ hj | addLog _ hj =>
    simp only [store, flush, goto, update_apply]
    grind
  | _ => rfl

theorem settled_of_holds (h : s.Counted) (he : s.Effect p st t) (hq : q ≠ p)
    (hi : s.Holds q i b) (hb : s.Settled b) : (t.goto p st).Settled b := by
  have hne : ∀ j, s.holder j = some p → (s.buf j).blockno ≠ b := by
    rintro j hj rfl
    have hij := h.unique j i _ (h.caches_of_holder hj) hi.2
    rw [hij, hi.1] at hj
    exact hq (Option.some.inj hj)
  cases he with
  | store _ _ _ _ hj | flush _ hj =>
    have hb' := (hne _ hj).symm
    simpa [Settled, store, flush, goto, setBuf, hb'] using hb
  | _ => exact hb

/-- What a process finds is not changed by the others. -/
theorem needs_of_other (h : s.Inv L) (hline : Line L s p a st t) (hq : q ≠ p) :
    ((t.goto p st).stage q).Needs L (t.goto p st) q := by
  have he := effect_of_line h hline
  have hstage : (t.goto p st).stage q = s.stage q := by
    rw [← stage_of_effect he]
    exact update_of_ne hq ..
  obtain ⟨hneeds, hbuf⟩ := h.needs q
  rw [hstage]
  have hkeeps : (s.stage q).line ≠ none → Keeps s (t.goto p st) q := by
    intro hqline
    have hc := h.serial.committing q hqline
    have hp : (s.stage p).line = none := by
      by_contra hp
      exact hq (h.serial.one q p hqline hp)
    obtain ⟨hcopied, hinstalled, hlh⟩ := log_of_line h.serial hline hp
    exact ⟨hlh hc, hcopied, hinstalled, fun i b => holds_of_effect h.counted he hq,
      fun i b => dirty_of_holds he hq, fun i b => settled_of_holds h.counted he hq⟩
  refine ⟨fun pc hpc => (hkeeps (by simp [hpc])).needs (hneeds pc hpc), ?_⟩
  have hwants : ∀ (c : Caller) b, (s.stage q).line = c.line → c.Wants L s b →
      c.Wants L (t.goto p st) b := by
    intro c b hc hb
    cases c with
    | user => trivial
    | _ =>
      have hlh := (hkeeps (by simp [hc, Caller.line])).lh
      simpa only [Caller.Wants, hlh] using hb
  cases hsq : s.stage q with
  | lock b i c =>
    rw [hsq] at hbuf
    obtain ⟨hi, hb⟩ := hbuf
    refine ⟨caches_of_effect h.counted he (x := .busy q) ?_ hi, hwants c b ?_ hb⟩
    · simp [Points, hsq, Stage.busy]
    · rw [hsq]; rfl
  | read b i c =>
    rw [hsq] at hbuf
    obtain ⟨hi, hb, hother⟩ := hbuf
    refine ⟨⟨holds_of_effect h.counted he hq hi.1, ?_⟩, hwants c b ?_ hb, hother⟩
    · exact (dirty_of_holds he hq hi.1).trans hi.2
    · rw [hsq]; rfl
  | _ => trivial

end Others

section
variable (h : s.Inv L) (hline : Line L s p a st t)
include h hline

/-- Calls of `bread` and `brelse` do not change what their caller has locked. -/
theorem keeps_of_call
    (hlh : t.lh = s.lh) (hcopied : t.copied = s.copied) (hinstalled : t.installed = s.installed)
    (hholder : ∀ i, s.holder i = some p → t.holder i = some p) (hdirty : t.dirty = s.dirty)
    (hdisk : t.disk = s.disk) (hgiven : t.given = s.given) : Keeps s (t.goto p st) p := by
  refine ⟨hlh, hcopied, hinstalled, fun i b hi => ⟨hholder i hi.1, ?_⟩, fun i b _ => ?_,
    fun i b _ hb => ?_⟩
  · exact caches_of_effect h.counted (effect_of_line h hline) (x := .held) (by simp [Points, hi.1])
      hi.2
  · exact congrFun hdirty i
  · simpa only [Settled, goto, hdisk, hgiven] using hb

theorem needs_of_line : st.Needs L (t.goto p st) p := by
  have hkeeps := keeps_of_call h hline
  obtain ⟨hneeds, hbuf⟩ := h.needs p
  cases hline with
  | @hit _ i b c hp hi =>
    have hkeeps := hkeeps rfl rfl rfl (fun _ h => h) rfl rfl rfl
    rw [line_of_asks hp] at hneeds
    refine ⟨fun pc hpc => hkeeps.needs (hneeds pc hpc), ?_, hkeeps.wants (wants_of_asks hp)⟩
    simp only [Caches, goto, setRefcnt, setBuf, update_self]
    exact hi
  | @miss _ i b c hp hb hi =>
    have hkeeps := hkeeps rfl rfl rfl (fun _ h => h) rfl rfl rfl
    rw [line_of_asks hp] at hneeds
    refine ⟨fun pc hpc => hkeeps.needs (hneeds pc hpc), ?_, hkeeps.wants (wants_of_asks hp)⟩
    simp only [Caches, goto, setBuf, update_self, and_self]
  | @acquire b i c hp hi =>
    have hkeeps := hkeeps rfl rfl rfl (fun j hj => by
      simp only [setHolder, update_apply]
      grind) rfl rfl rfl
    rw [hp] at hneeds hbuf
    obtain ⟨hcaches, hb⟩ := hbuf
    refine ⟨fun pc hpc => hkeeps.needs (hneeds pc hpc), ⟨⟨?_, hcaches⟩, ?_⟩, hkeeps.wants hb, ?_⟩
    · simp [goto, setHolder]
    · by_contra hd
      exact h.coherent.dirty_held i (Bool.eq_true_of_not_eq_false hd) hi
    · intro hother
      cases c with
      | fromBuf | dst =>
        have hlocked := (hneeds _ rfl).2.2.1.1
        cases hother
        rw [hi] at hlocked
        cases hlocked
      | _ => cases hother
  | @valid b i c hp hi =>
    have hkeeps := hkeeps rfl rfl rfl (fun _ h => h) rfl rfl rfl
    rw [hp] at hneeds hbuf
    obtain ⟨hclean, hb, hother⟩ := hbuf
    exact needs_go (fun pc hpc => hkeeps.needs (hneeds pc hpc)) (hkeeps.clean hclean)
      (hkeeps.wants hb) hother
  | @fill b i c hp hi => 
    have hkeeps := hkeeps rfl rfl rfl (fun _ h => h) rfl rfl rfl
    rw [hp] at hneeds hbuf
    obtain ⟨hclean, hb, hother⟩ := hbuf
    exact needs_go (fun pc hpc => hkeeps.needs (hneeds pc hpc)) (hkeeps.clean hclean)
      (hkeeps.wants hb) hother
  | @unref i c hp =>
    have hkeeps := hkeeps rfl rfl rfl (fun _ h => h) rfl rfl rfl
    rw [hp] at hneeds
    cases c with
    | none => exact ⟨(fun pc hpc => by cases hpc), trivial⟩
    | some pc => exact ⟨fun pc hpc => hkeeps.needs (hneeds pc hpc), trivial⟩
  | lastOp hp _ hc =>
    have hat := h.serial.quiet hc
    refine ⟨?_, trivial⟩
    rintro pc ⟨⟩
    split
    · exact hat
    · exact ⟨hat, Nat.zero_le _⟩
  | copied hp | installed hp | copy hp | header hp | install hp | unpin hp =>
    have hpc := h.needs_commit hp
    refine ⟨?_, trivial⟩
    rintro pc ⟨⟩
    simp only [CommitAt.Needs, At, Clean, Holds, Caches, goto, store, setRefcnt, setBuf,
      update_apply] at hpc ⊢
    grind
  | @write pc pc' i hp hpc hi =>
    have hold := h.needs_commit hp
    have hdata := h.coherent.data i _ (h.coherent.valid (plain_of_commit hp) hi)
      (h.counted.caches_of_holder hi)
    refine ⟨?_, trivial⟩
    rintro pc ⟨⟩
    cases pc with
    | write | writeHead | writeDst =>
      cases hpc
      simp only [CommitAt.Needs, At, Clean, Holds, Caches, Settled, goto, flush,
        update_apply] at hold ⊢
      grind
    | _ => cases hpc
  | @release pc pc' i hp hpc hi =>
    have hold := h.needs_commit hp
    refine ⟨?_, trivial⟩
    rintro pc ⟨⟩
    cases pc with
    | relFrom | relTo | relHead | relLog | relDst =>
      cases hpc
      simp only [CommitAt.Needs, At, Clean, Holds, Caches, goto, setHolder,
        update_apply] at hold ⊢
      grind
    | _ => cases hpc
  | clear =>
    refine ⟨?_, trivial⟩
    rintro pc ⟨⟩
    exact ⟨⟨rfl, rfl⟩, fun _ => rfl⟩
  | _ => exact ⟨(fun pc hpc => by cases hpc), trivial⟩

theorem inv_of_line : (t.goto p st).Inv L where
  counted := counted_of_effect h.counted (effect_of_line h hline)
  coherent := coherent_of_effect h.counted h.coherent (effect_of_line h hline)
  serial := serial_of_line h hline
  needs q := by
    by_cases hq : q = p
    · have hstage : (t.goto p st).stage q = st := by rw [hq]; exact update_self ..
      rw [hstage, hq]
      exact needs_of_line h hline
    · exact needs_of_other h hline hq

end

theorem inv_of_next {u : Sys P T D} (h : s.Inv L) (hnext : s.next L a = some u) : u.Inv L := by
  obtain ⟨p, st, t, hline, rfl⟩ := line_of_next h.counted.listed hnext
  exact inv_of_line h hline

omit [DecidableEq P] [DecidableEq T] in
theorem inv_binit (L : Log D) (disk : ℕ → D) (data : Idx → D) :
    (binit disk data : Sys P T D).Inv L where
  counted :=
    { listed := fun i => by simp [binit]
      unique := fun i j b hi => by cases hi.1
      refs := fun i => Numbers.zero fun x => by cases x <;> simp [Points, binit, pending, Stage.busy]
      dev := fun i => .inl rfl
      root := fun i hi => absurd rfl hi
      cached := fun b hb => by cases hb
      nodup := List.nodup_nil }
  coherent :=
    { dirty_held := fun i hi => by cases hi
      dirty_valid := fun i hi => by cases hi
      held_valid := fun i p hi => by cases hi
      reading_held := fun i p hi => by cases hi
      pending_valid := fun i b hb => by cases hb
      data := fun i b hi => by cases hi
      settled := fun b _ _ => rfl }
  serial :=
    { ops := Numbers.zero fun p => by simp [binit]
      none_out := fun _ => rfl
      committing := fun p hp => absurd rfl hp
      one := fun p q hp => absurd rfl hp
      quiet := fun _ => ⟨rfl, rfl⟩ }
  needs p := ⟨(fun pc hpc => by cases hpc), trivial⟩

/-- The invariant holds in every state of a run. -/
theorem inv_of_visits {disk : ℕ → D} {data : Idx → D} {as : List (Act P T D)}
    (h : Visits (next L) (binit disk data) as s) : s.Inv L :=
  Visits.induction (P := Inv L) (inv_binit L disk data)
    (fun _ _ _ _ hnext hinv => inv_of_next hinv hnext) h

end Sys

end Xv6.Bio
