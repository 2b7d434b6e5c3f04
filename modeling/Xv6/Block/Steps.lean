import Xv6.Block.View

/-!
# What each step does to the places

The steps of `balloc`, `bmap`, `itrunc`, `iput` and `ialloc` on a `View`: a block is taken, moved
into an inode, given back, or nothing moves. Each keeps the invariant.
-/

namespace Xv6.Block.View

open Function (update update_of_ne update_self)

variable {P T : Type} [DecidableEq P] {sb : Superblock} {v : View P T} {i : ℕ} {p : P}
  {st : Stage T} {x : Dinode} {e : Entries} {bitmap : ℕ → Bool} {b : ℕ}

theorem Local.edit_entry_iff (hl : v.Local i p st) (j : Fin NINDIRECT) :
    (v.edit i x e bitmap p st).Holds (.entry i j) b ↔
      x.type ≠ .free ∧ e j = b ∧ b ≠ 0 ∧ ¬ st.Freed i j := by
  rw [Holds, edit_cur_self, edit_ent_self]
  refine and_congr_right fun _ => and_congr_right fun _ => and_congr_right fun _ => ?_
  refine ⟨fun h => by simpa using h p, fun h q hq => ?_⟩
  by_cases hqp : q = p
  · subst hqp; rw [edit_stage_self] at hq; exact h hq
  · rw [edit_stage_of_ne hqp] at hq
    exact hqp (hl.alone q (Stage.on_of_truncs (Stage.truncs_of_freed hq)))

omit [DecidableEq P] in
theorem ne_of_near {pl pl' : Place P} (h : pl.Near i p) (h' : ¬ pl'.Near i p) : pl' ≠ pl := by
  rintro rfl
  exact h' h

section Own

variable (hv : v.Ok sb) (hl : v.Local i p st)
include hv hl

/-- Nothing moves. -/
theorem Ok.own_of_same
    (haddr : ∀ k b, x.type ≠ .free ∧ x.addrs k = b ∧ b ≠ 0 ↔ v.Holds (.addr i k) b)
    (hentry : ∀ j b, x.type ≠ .free ∧ e j = b ∧ b ≠ 0 ∧ ¬ st.Freed i j ↔ v.Holds (.entry i j) b)
    (hflight : st.flight = (v.stage p).flight) : (v.edit i x e v.bitmap p st).Owned sb := by
  refine hv.own.congr (hl.holds_edit (fun pl hn b => ?_) fun _ _ _ => Iff.rfl) fun _ => Iff.rfl
  cases hn with
  | addr k => rw [← haddr, Holds, edit_cur_self]
  | entry j => rw [hl.edit_entry_iff, hentry]
  | flight => rw [Holds, Holds, edit_stage_self, hflight]

/-- A block that is at no place near `p` and `i` is put at one. -/
theorem Ok.own_of_put {pl : Place P} (hnear : pl.Near i p) (hfree : v.bitmap b = false)
    (hdata : sb.IsData b) (hholds : ∀ pl', pl'.Near i p → ∀ y,
      (v.edit i x e (update v.bitmap b true) p st).Holds pl' y ↔
        v.Holds pl' y ∨ pl' = pl ∧ y = b) :
    (v.edit i x e (update v.bitmap b true) p st).Owned sb := by
  refine hv.own.put (fun h => by rw [h.2] at hfree; cases hfree)
    (hl.holds_edit hholds fun pl' hn y => by simp [ne_of_near hnear hn]) fun y => ?_
  simp only [Used, edit_bitmap]
  by_cases hy : y = b
  · subst hy; simp [hdata]
  · simp [hy]

/-- A block is given back. -/
theorem Ok.own_of_drop {pl : Place P} (hnear : pl.Near i p) (hpl : v.Holds pl b)
    (hholds : ∀ pl', pl'.Near i p → ∀ y,
      (v.edit i x e (update v.bitmap b false) p st).Holds pl' y ↔
        v.Holds pl' y ∧ ¬ (pl' = pl ∧ y = b)) :
    (v.edit i x e (update v.bitmap b false) p st).Owned sb := by
  refine hv.own.drop hpl (hl.holds_edit hholds fun pl' hn y => by simp [ne_of_near hnear hn])
    fun y => ?_
  simp only [Used, edit_bitmap]
  by_cases hy : y = b
  · subst hy; simp
  · simp [hy]

/-- The block that `p` has allocated goes to a place. -/
theorem Ok.own_of_move {pl : Place P} (hnear : pl.Near i p) (hpl : v.Holds (.flight p) b)
    (hholds : ∀ pl', pl'.Near i p → ∀ y, (v.edit i x e v.bitmap p st).Holds pl' y ↔
      v.Holds pl' y ∧ ¬ (pl' = .flight p ∧ y = b) ∨ pl' = pl ∧ y = b) :
    (v.edit i x e v.bitmap p st).Owned sb :=
  hv.own.move hpl (hl.holds_edit hholds fun pl' hn y => by
    simp [ne_of_near hnear hn, ne_of_near .flight hn]) fun _ => Iff.rfl

/-- A place is emptied, if it holds a block. -/
theorem Ok.own_of_release {pl : Place P} (hnear : pl.Near i p) (hpl : b ≠ 0 → v.Holds pl b)
    (hholds : ∀ bitmap pl', pl'.Near i p → ∀ y, (v.edit i x e bitmap p st).Holds pl' y ↔
      v.Holds pl' y ∧ ¬ (pl' = pl ∧ y = b)) :
    (v.edit i x e (release v.bitmap b) p st).Owned sb := by
  by_cases hb : b = 0
  · rw [release, if_pos hb]
    refine hv.own.congr (hl.holds_edit (fun pl' hn y => ?_) fun _ _ _ => Iff.rfl) fun _ => Iff.rfl
    rw [hholds _ pl' hn y]
    exact and_iff_left_of_imp fun h heq => hv.ne_zero h (heq.2.trans hb)
  · rw [release, if_neg hb]
    exact hv.own_of_drop hl hnear (hpl hb) (hholds _)

end Own

/-- Nothing changes but what `p` is about to do. -/
theorem Ok.stay (hv : v.Ok sb) (hl : v.Local i p st) (hflight : st.flight = (v.stage p).flight)
    (hfreed : ∀ j, st.Freed i j ↔ (v.stage p).Freed i j)
    (htruncs : (v.stage p).Truncs i → st.Truncs i) (hfits : v.Fits st) :
    (v.edit i (v.cur i) (v.ent i) v.bitmap p st).Ok sb := by
  refine hv.edit hl hv.marked (hv.own_of_same hl (fun k b => Iff.rfl) (fun j b => ?_) hflight)
    (hv.ent i) (fun htype => ?_) (hfits.congr fun y hy => ?_)
  · rw [hl.entry_iff, hfreed]
  · obtain ⟨q, hq⟩ | h := hv.full i htype
    · obtain rfl := hl.alone q (Stage.on_of_truncs hq)
      exact .inl (htruncs hq)
    · refine .inr ⟨h.1.mono (fun k hk => ?_) (fun j hj => ?_), h.2⟩
      · rwa [edit_cur_self]
      · rwa [edit_ent_self]
  · obtain rfl := hl.after y hy
    exact ⟨edit_cur_self, edit_ent_self⟩

/-- A change of the link count moves no block. -/
theorem Ok.setNlink (hv : v.Ok sb) (hbefore : ∀ y, ¬ (v.stage p).On y)
    (halone : ∀ q, ¬ (v.stage q).On i) (nlink : Int16) :
    (v.edit i ((v.cur i).setNlink nlink) (v.ent i) v.bitmap p (v.stage p)).Ok sb := by
  have hl : v.Local i p (v.stage p) :=
    ⟨fun y hy => absurd hy (hbefore y), fun y hy => absurd hy (hbefore y),
      fun q hq => absurd hq (halone q)⟩
  refine hv.edit hl hv.marked (hv.own_of_same hl (fun k b => Iff.rfl) (fun j b => ?_) rfl)
    (hv.ent i) (fun htype => ?_) (fits_of_not_on hbefore)
  · rw [hl.entry_iff]; rfl
  · obtain ⟨q, hq⟩ | h := hv.full i htype
    · exact absurd (Stage.on_of_truncs hq) (halone q)
    · refine .inr ⟨h.1.mono (fun k hk => ?_) (fun j hj => ?_), h.2⟩
      · rwa [edit_cur_self]
      · rwa [edit_ent_self]

/-- A process that works on no inode goes on to something that is not on an inode either. -/
theorem Ok.goto (hv : v.Ok sb) (hbefore : ∀ y, ¬ (v.stage p).On y) (hafter : ∀ y, ¬ st.On y) :
    ({ v with stage := update v.stage p st } : View P T).Ok sb := by
  -- what a process does that works on an inode is not changed
  have hon (q : P) (y : ℕ) : (update v.stage p st q).On y ↔ (v.stage q).On y := by
    by_cases hq : q = p
    · subst hq; rw [update_self]; exact iff_of_false (hafter y) (hbefore y)
    · rw [update_of_ne hq]
  have hsame (q : P) (y : ℕ) (h : (v.stage q).On y) : update v.stage p st q = v.stage q :=
    update_of_ne (by rintro rfl; exact hbefore y h) ..
  refine ⟨hv.boot, hv.marked, hv.own.congr (fun pl b => ?_) fun b => Iff.rfl, hv.ent,
    fun y hy => ?_, fun q => ?_, fun q r y hq hr => ?_⟩
  · cases pl with
    | addr y k => exact Iff.rfl
    | entry y j =>
      refine and_congr_right fun _ => and_congr_right fun _ => and_congr_right fun _ => ?_
      refine forall_congr' fun q => not_congr ?_
      change (update v.stage p st q).Freed y j ↔ _
      constructor
      · intro h
        rwa [hsame q y ((hon q y).mp (Stage.on_of_truncs (Stage.truncs_of_freed h)))] at h
      · intro h
        rwa [hsame q y (Stage.on_of_truncs (Stage.truncs_of_freed h))]
    | flight q =>
      change (update v.stage p st q).flight = some b ↔ (v.stage q).flight = some b
      constructor
      · intro h
        obtain ⟨y, hy⟩ := Stage.on_of_flight h
        rwa [hsame q y ((hon q y).mp hy)] at h
      · intro h
        obtain ⟨y, hy⟩ := Stage.on_of_flight h
        rwa [hsame q y hy]
  · obtain ⟨q, hq⟩ | h := hv.full y hy
    · refine .inl ⟨q, ?_⟩
      change (update v.stage p st q).Truncs y
      rwa [hsame q y (Stage.on_of_truncs hq)]
    · exact .inr h
  · by_cases hq : q = p
    · subst hq
      simp only [update_self]
      exact fits_of_not_on hafter
    · simp only [update_of_ne hq]
      exact (hv.fits q).congr fun _ _ => ⟨rfl, rfl⟩
  · exact hv.sole q r y ((hon q y).mp hq) ((hon r y).mp hr)

section Io

variable {write : Bool} {off n tot : ℕ} {slot : Slot}

omit [DecidableEq P] in
/-- What a step of `readi` or `writei` counts on. -/
theorem Ok.io (hv : v.Ok sb) {pc : IoAt} (hst : v.stage p = .io i write off n tot pc)
    (st : Stage T) (hnew : ∀ y, st.On y → y = i) :
    v.Local i p st ∧ v.IoFits i write off n tot pc ∧
      v.Covers i (v.cur i).size ∧ (v.cur i).size ≤ MAXFILE * BSIZE := by
  have hon : (v.stage p).On i := by rw [hst]; rfl
  have hfits := hv.fits p
  rw [hst] at hfits
  exact ⟨hv.local hon hnew, hfits, hv.covers hon (by rw [hst]; exact id)⟩

/-- `balloc` finds a block and marks it. -/
theorem Ok.balloc (hv : v.Ok sb) {a : ℕ}
    (hst : v.stage p = .io i write off n tot (.balloc a slot)) (hb : b < sb.size)
    (hfree : v.bitmap b = false) :
    (v.edit i (v.cur i) (v.ent i) (update v.bitmap b true) p
      (.io i write off n tot (.bzero b slot))).Ok sb := by
  obtain ⟨hl, ⟨htype, htot, hwrite, hread, hhole⟩, hcovers, hsize⟩ :=
    hv.io hst (.io i write off n tot (.bzero b slot)) fun _ hy => hy
  have hdata : sb.IsData b := by
    refine ⟨?_, hb⟩
    by_contra hlt
    rw [hv.marked b (Nat.not_le.mp hlt)] at hfree
    cases hfree
  refine hv.edit hl (fun y hy => ?_) (hv.own_of_put hl .flight hfree hdata fun pl hn y => ?_)
    (hv.ent i) (fun _ => .inr ⟨hcovers.mono (by simp) (by simp), hsize⟩) ?_
  · by_cases hyb : y = b
    · rw [hyb, update_self]
    · rw [update_of_ne hyb]; exact hv.marked y hy
  · cases hn with
    | addr k => simp [Holds]
    | entry j => simp [hl.edit_entry_iff, hl.entry_iff, hst, Stage.Freed]
    | flight => simp [Holds, hst, Stage.flight, eq_comm]
  · have hnew : v.Fits (.io i write off n tot (.bzero b slot)) :=
      ⟨htype, htot, hwrite, fun hw => absurd (hread hw).2 (by simp),
        fun b' slot' h => hhole a slot'
          (.inl (by simpa using h.elim (by simp) fun h => (IoAt.bzero.inj h).2))⟩
    refine hnew.congr fun y hy => ?_
    obtain rfl := hy
    exact ⟨edit_cur_self, edit_ent_self⟩

theorem update_ne_zero {α : Type} [DecidableEq α] {f : α → ℕ} {k a : α} (hb : b ≠ 0)
    (h : f a ≠ 0) : update f k b a ≠ 0 := by
  by_cases hk : a = k
  · rwa [hk, update_self]
  · rwa [update_of_ne hk]

/-- The block goes into the inode. -/
theorem Ok.assign_addr (hv : v.Ok sb) {k : Fin (NDIRECT + 1)}
    (hst : v.stage p = .io i write off n tot (.bzero b (.addr k))) :
    (v.edit i ((v.cur i).setAddr k b) (v.ent i) v.bitmap p
      (.io i write off n tot .loop)).Ok sb := by
  obtain ⟨hl, ⟨htype, htot, hwrite, hread, hhole⟩, hcovers, hsize⟩ :=
    hv.io hst (.io i write off n tot .loop) fun _ hy => hy
  have hflight : v.Holds (.flight p) b := by simp [Holds, hst, Stage.flight]
  have hb := hv.ne_zero hflight
  have hzero := (hhole b _ (.inr rfl)).1
  have haddr (k' : Fin (NDIRECT + 1)) (h : (v.cur i).addrs k' ≠ 0) :
      update (v.cur i).addrs k b k' ≠ 0 := update_ne_zero hb h
  refine hv.edit hl hv.marked (hv.own_of_move hl (.addr k) hflight fun pl hn y => ?_) (fun h => ?_)
    (fun _ => .inr ⟨hcovers.mono (by simpa using haddr) (by simp), hsize⟩)
    ⟨by simpa using htype, htot, fun hw => ?_, fun hw => absurd (hread hw).2 (by simp), by simp⟩
  · cases hn with
    | addr k' =>
      by_cases hk : k' = k
      · subst hk; simp [Holds, hzero, htype, eq_comm]; rintro rfl; exact hb
      · simp [Holds, hk]
    | entry j => simp [hl.edit_entry_iff, hl.entry_iff, hst, Stage.Freed]
    | flight => simp [Holds, hst, Stage.flight, eq_comm]
  · refine hv.ent i (h.imp id fun h => ?_)
    by_contra hne
    exact haddr _ hne h
  · exact ⟨(hwrite hw).1, (hwrite hw).2.mono (by simpa using haddr) (by simp)⟩

/-- The block goes into the indirect block. -/
theorem Ok.assign_entry (hv : v.Ok sb) {j : Fin NINDIRECT}
    (hst : v.stage p = .io i write off n tot (.bzero b (.entry j))) :
    (v.edit i (v.cur i) (update (v.ent i) j b) v.bitmap p
      (.io i write off n tot .loop)).Ok sb := by
  obtain ⟨hl, ⟨htype, htot, hwrite, hread, hhole⟩, hcovers, hsize⟩ :=
    hv.io hst (.io i write off n tot .loop) fun _ hy => hy
  have hflight : v.Holds (.flight p) b := by simp [Holds, hst, Stage.flight]
  have hb := hv.ne_zero hflight
  obtain ⟨hzero, hlast, -⟩ := hhole b _ (.inr rfl)
  have hent (j' : Fin NINDIRECT) (h : v.ent i j' ≠ 0) : update (v.ent i) j b j' ≠ 0 :=
    update_ne_zero hb h
  refine hv.edit hl hv.marked (hv.own_of_move hl (.entry j) hflight fun pl hn y => ?_)
    (fun h => (h.elim htype hlast).elim)
    (fun _ => .inr ⟨hcovers.mono (by simp) (by simpa using hent), hsize⟩)
    ⟨by simpa using htype, htot, fun hw => ?_, fun hw => absurd (hread hw).2 (by simp), by simp⟩
  · cases hn with
    | addr k => simp [Holds]
    | entry j' =>
      by_cases hj : j' = j
      · subst hj
        simp [hl.edit_entry_iff, hl.entry_iff, hst, Stage.Freed, hzero, htype, eq_comm]
        rintro rfl
        exact hb
      · simp [hl.edit_entry_iff, hl.entry_iff, hst, Stage.Freed, hj]
    | flight => simp [Holds, hst, Stage.flight, eq_comm]
  · exact ⟨(hwrite hw).1, (hwrite hw).2.mono (by simp) (by simpa using hent)⟩

/-- The end of `writei`. -/
theorem Ok.writei_end (hv : v.Ok sb) (hst : v.stage p = .io i true off n tot .update) :
    (v.edit i ((v.cur i).setSize (max off (v.cur i).size)) (v.ent i) v.bitmap p .idle).Ok sb := by
  obtain ⟨hl, hfits, hold⟩ := hv.io hst .idle fun _ hy => hy.elim
  obtain ⟨hmax, hcovers⟩ := hfits.writes rfl
  refine hv.edit hl hv.marked (hv.own_of_same hl (fun k b => Iff.rfl) (fun j b => ?_) ?_)
    (hv.ent i) (fun _ => .inr ⟨?_, ?_⟩) trivial
  · rw [hl.entry_iff, hst]; rfl
  · rw [hst]; rfl
  · intro bn hbn
    obtain h | h := lt_max_iff.mp hbn
    · exact (hcovers.mono (by simp) (by simp) : View.Covers _ i off) bn h
    · exact (hold.1.mono (by simp) (by simp) : View.Covers _ i _) bn h
  · exact max_le (by omega) hold.2

end Io

section Trunc

variable {t : Option T}

/-- `itrunc` frees a direct block. -/
theorem Ok.trunc_direct (hv : v.Ok sb) {k : Fin (NDIRECT + 1)} (hk : k ≠ Fin.last NDIRECT)
    (hst : v.stage p = .trunc i t (.direct k)) :
    (v.edit i ((v.cur i).setAddr k 0) (v.ent i)
      (release v.bitmap ((v.cur i).addrs k)) p (.trunc i t (.direct (k + 1)))).Ok sb := by
  have hl : v.Local i p (.trunc i t (.direct (k + 1))) := hv.local (hst ▸ rfl) fun _ hy => hy
  obtain ⟨htype, hcleared⟩ : _ ∧ _ := hst ▸ hv.fits p
  have hpl (h : (v.cur i).addrs k ≠ 0) : v.Holds (.addr i k) ((v.cur i).addrs k) :=
    ⟨htype, rfl, h⟩
  refine hv.edit hl (hv.marked_of_release hpl) (hv.own_of_release hl (.addr k) hpl ?_)
    (fun h => hv.ent i ?_) (fun _ => .inl rfl) ⟨by simpa using htype, fun k' hlt hk' => ?_⟩
  · intro bitmap pl hn y
    cases hn with
    | addr k' =>
      by_cases hk' : k' = k
      · subst hk'; simp [Holds]; tauto
      · simp [Holds, hk']
    | entry j => simp [hl.edit_entry_iff, hl.entry_iff, hst, Stage.Freed]
    | flight => simp [Holds, hst, Stage.flight]
  · simpa [update_of_ne hk.symm] using h
  · rw [edit_cur_self, Dinode.setAddr_addrs]
    by_cases heq : k' = k
    · rw [heq, update_self]
    · rw [update_of_ne heq]
      exact hcleared k' (by have := Fin.val_ne_of_ne heq; omega) hk'

/-- `itrunc` frees the block in an entry of the indirect block. -/
theorem Ok.trunc_entry (hv : v.Ok sb) {j : Fin NINDIRECT}
    (hst : v.stage p = .trunc i t (.entry j)) :
    (v.edit i (v.cur i) (v.ent i) (release v.bitmap (v.ent i j)) p
      (.trunc i t (.entry (j + 1)))).Ok sb := by
  have hl : v.Local i p (.trunc i t (.entry (j + 1))) := hv.local (hst ▸ rfl) fun _ hy => hy
  obtain ⟨htype, hcleared⟩ : _ ∧ _ := hst ▸ hv.fits p
  have hpl (h : v.ent i j ≠ 0) : v.Holds (.entry i j) (v.ent i j) :=
    hl.entry_iff j |>.mpr ⟨htype, rfl, h, by simp [hst, Stage.Freed]⟩
  refine hv.edit hl (hv.marked_of_release hpl) (hv.own_of_release hl (.entry j) hpl ?_)
    (hv.ent i) (fun _ => .inl rfl) ⟨by simpa using htype, ?_⟩
  · intro bitmap pl hn y
    cases hn with
    | addr k => simp [Holds]
    | entry j' =>
      by_cases hj : j' = j
      · subst hj
        simp [hl.edit_entry_iff, hl.entry_iff, hst, Stage.Freed]
        tauto
      · have hlt : j'.val < j.val + 1 ↔ j'.val < j.val := by
          have := Fin.val_ne_of_ne hj
          omega
        simp [hl.edit_entry_iff, hl.entry_iff, hst, Stage.Freed, hj, hlt]
    | flight => simp [Holds, hst, Stage.flight]
  · simpa [Cleared] using hcleared

/-- `itrunc` frees the indirect block. -/
theorem Ok.trunc_indirect (hv : v.Ok sb) (hst : v.stage p = .trunc i t .indirect) :
    (v.edit i ((v.cur i).setAddr (Fin.last NDIRECT) 0)
      (fun _ => 0) (release v.bitmap ((v.cur i).addrs (Fin.last NDIRECT))) p
      (.trunc i t .update)).Ok sb := by
  have hl : v.Local i p (.trunc i t .update) := hv.local (hst ▸ rfl) fun _ hy => hy
  obtain ⟨htype, hcleared, hlast⟩ : _ ∧ _ ∧ _ := hst ▸ hv.fits p
  have hpl (_ : (v.cur i).addrs (Fin.last NDIRECT) ≠ 0) :
      v.Holds (.addr i (Fin.last NDIRECT)) ((v.cur i).addrs (Fin.last NDIRECT)) :=
    ⟨htype, rfl, hlast⟩
  refine hv.edit hl (hv.marked_of_release hpl) (hv.own_of_release hl (.addr _) hpl ?_)
    (fun _ => rfl) (fun _ => .inl rfl) ⟨by simpa using htype, fun k => ?_⟩
  · intro bitmap pl hn y
    cases hn with
    | addr k =>
      by_cases hk : k = Fin.last NDIRECT
      · subst hk; simp [Holds]; tauto
      · simp [Holds, hk]
    | entry j =>
      simp [hl.edit_entry_iff, hl.entry_iff, hst, Stage.Freed]
      tauto
    | flight => simp [Holds, hst, Stage.flight]
  · rw [edit_cur_self, Dinode.setAddr_addrs]
    by_cases hk : k = Fin.last NDIRECT
    · rw [hk, update_self]
    · rw [update_of_ne hk]; exact hcleared k hk

/-- The end of `itrunc`. -/
theorem Ok.trunc_update (hv : v.Ok sb) (hst : v.stage p = .trunc i t .update)
    (hnew : st = .idle ∨ ∃ u, st = .iputFree i u) :
    (v.edit i ((v.cur i).setSize 0) (v.ent i) v.bitmap p st).Ok sb := by
  have hl : v.Local i p st := hv.local (hst ▸ rfl) fun y hy => by
    obtain rfl | ⟨u, rfl⟩ := hnew
    · exact hy.elim
    · exact hy
  obtain ⟨htype, hcleared⟩ : _ ∧ _ := hst ▸ hv.fits p
  refine hv.edit hl hv.marked (hv.own_of_same hl (fun k b => Iff.rfl) (fun j b => ?_) ?_)
    (hv.ent i) (fun _ => .inr ⟨fun bn hbn => absurd hbn (Nat.not_lt_zero _), Nat.zero_le _⟩) ?_
  · obtain rfl | ⟨u, rfl⟩ := hnew <;> rw [hl.entry_iff, hst] <;> rfl
  · obtain rfl | ⟨u, rfl⟩ := hnew <;> rw [hst] <;> rfl
  · obtain rfl | ⟨u, rfl⟩ := hnew
    · trivial
    · exact ⟨by simpa using htype, by simpa [Cleared] using hcleared⟩

/-- `iput` frees the inode. -/
theorem Ok.free (hv : v.Ok sb) {u : T} (hst : v.stage p = .iputFree i u) :
    (v.edit i ((v.cur i).setType .free) (fun _ => 0) v.bitmap p (.iputDrop i)).Ok sb := by
  have hl : v.Local i p (.iputDrop i) := hv.local (hst ▸ rfl) fun _ hy => hy.elim
  obtain ⟨htype, hcleared⟩ : _ ∧ _ := hst ▸ hv.fits p
  have hent := hv.ent i (.inr (hcleared _))
  refine hv.edit hl hv.marked (hv.own_of_same hl (fun k b => ?_) (fun j b => ?_) ?_)
    (fun _ => rfl) (fun h => (h rfl).elim) trivial
  · simp only [Holds, hcleared]
    tauto
  · rw [hl.entry_iff, hent]
    tauto
  · rw [hst]; rfl

end Trunc

/-- `ialloc` takes an inode that is free. -/
theorem Ok.ialloc (hv : v.Ok sb) (hbefore : ∀ y, ¬ (v.stage p).On y)
    (hafter : ∀ y, ¬ st.On y) (hfree : (v.cur i).type = .free) (type : Fs.FileType)
    (nlink : Int16) :
    (v.edit i ⟨type, nlink, 0, fun _ => 0⟩ (fun _ => 0) v.bitmap p st).Ok sb := by
  have hl : v.Local i p st := by
    refine ⟨fun y hy => absurd hy (hbefore y), fun y hy => absurd hy (hafter y), fun q hq => ?_⟩
    exact absurd hfree (hv.type_of_on hq)
  have hflight (s : Stage T) (hs : ∀ y, ¬ s.On y) : s.flight = none := by
    by_contra h
    obtain ⟨b, hb⟩ := Option.ne_none_iff_exists'.mp h
    obtain ⟨y, hy⟩ := Stage.on_of_flight hb
    exact hs y hy
  refine hv.edit hl hv.marked (hv.own_of_same hl (fun k b => ?_) (fun j b => ?_) ?_)
    (fun _ => rfl)
    (fun _ => .inr ⟨fun bn hbn => absurd hbn (Nat.not_lt_zero _), Nat.zero_le _⟩) ?_
  · simp only [Holds, hfree]
    tauto
  · rw [hl.entry_iff, hfree]
    tauto
  · rw [hflight _ hbefore, hflight _ hafter]
  · exact fits_of_not_on hafter

end Xv6.Block.View
