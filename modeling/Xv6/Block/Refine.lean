import Xv6.Block.Cache

/-!
# The functions keep the blocks in order

Every step of `Xv6.Block.Sys` is one of the edits of `Xv6.Block.Steps` on the view, or leaves the
view as it is. What is written into a data block changes no indirect block, because no block is at
two places.
-/

namespace Xv6.Block.Sys

open Function (update update_of_ne update_self)

variable {P T : Type} [DecidableEq P] {sb : Superblock} {s s' : Sys P T} {i : ℕ} {p : P}
  {t : T} {st : Stage T}

section View

variable {x : Dinode} {e : Entries} {bitmap : ℕ → Bool}

theorem view_eq_edit (hi : s'.cur i = x) (hcur : ∀ y, y ≠ i → s'.cur y = s.cur y)
    (hei : s'.ent i = e) (hent : ∀ y, y ≠ i → s'.ent y = s.ent y) (hbitmap : s'.bitmap = bitmap)
    (hstage : s'.stage = update s.stage p st) :
    s'.view = s.view.edit i x e bitmap p st := by
  have hc : s'.cur = update s.cur i x := Function.eq_update_iff.mpr ⟨hi, hcur⟩
  have he : s'.ent = update s.ent i e := Function.eq_update_iff.mpr ⟨hei, hent⟩
  simp only [view, View.edit, hc, he, hbitmap, hstage]

/-- The view after a change of the in-memory copy of `i`. -/
theorem view_of_inode (hc : s.Cached i) (href : s'.ref = s.ref) (hvalid : s'.valid = s.valid)
    (hi : s'.inode i = x)
    (hother : ∀ y, y ≠ i → s'.inode y = s.inode y ∧ s'.dinode y = s.dinode y)
    (hdata : ∀ y, y ≠ i → (s.cur y).entries s'.data = (s.cur y).entries s.data)
    (hbitmap : s'.bitmap = bitmap) (hstage : s'.stage = update s.stage p st) :
    s'.view = s.view.edit i x (x.entries s'.data) bitmap p st := by
  have hc' : s'.Cached i := by rwa [Cached, href, hvalid]
  have hcur : s'.cur i = x := by rw [cur, if_pos hc', hi]
  have hcur' (y : ℕ) (hy : y ≠ i) : s'.cur y = s.cur y :=
    cur_congr (by rw [href]) (by rw [hvalid]) (hother y hy).1 (hother y hy).2
  exact view_eq_edit hcur hcur' (by rw [ent, hcur]) (fun y hy => ent_congr (hcur' y hy) (hdata y hy))
    hbitmap hstage

end View

/-- A process that has the lock of `i` does a step on it. -/
theorem Inv.work {x : Dinode} (hs : s.Inv sb) (hw : s.Works p i t) (hst : st.Within i t)
    (href : s'.ref = s.ref) (hvalid : s'.valid = s.valid) (hlock : s'.lock = s.lock)
    (hptr : s'.ptr = s.ptr) (hstage : s'.stage = update s.stage p st)
    (hother : ∀ y, y ≠ i → s'.inode y = s.inode y ∧ s'.dinode y = s.dinode y)
    (hi : s'.inode i = x)
    (htype : x.type = (s.inode i).type ∧ (s'.dinode i).type = (s.inode i).type)
    (hsync : x ≠ s'.dinode i → st.Writes i)
    (hdata : ∀ y, y ≠ i → (s.cur y).entries s'.data = (s.cur y).entries s.data)
    (hblocks : (s.view.edit i x (x.entries s'.data) s'.bitmap p st).Ok sb) : s'.Inv sb := by
  have hview := view_of_inode hw.cached href hvalid hi hother hdata rfl hstage
  rw [← hi] at htype hsync
  have hstage' (q : P) (hq : q ≠ p) : s'.stage q = s.stage q := by
    rw [hstage, update_of_ne hq]
  have hself : s'.stage p = st := by rw [hstage, update_self]
  have hcached (y : ℕ) (hy : s'.Cached y) : s.Cached y := by rwa [Cached, href, hvalid] at hy
  refine ⟨fun y => hs.refs_congr (fun z => ?_) (by rw [href]), ?_, fun q y hq => ?_,
    fun y hy => ?_, fun y hy => ?_, hview ▸ hblocks⟩
  · cases z with
    | inl u => rw [Points, Points, hptr]
    | inr q =>
      by_cases hq : q = p
      · subst hq
        rw [Points, Points, hself]
        exact iff_of_false (hst.drop y) (hw.stage.drop y)
      · rw [Points, Points, hstage' q hq]
  · rw [hlock, hptr, hvalid]
    exact hs.lock
  · by_cases hqp : q = p
    · subst hqp
      rw [hself] at hq ⊢
      exact ⟨t, by rw [hlock, hst.on y hq, hw.lock], hst.via⟩
    · rw [hstage' q hqp] at hq ⊢
      rw [hlock]
      exact hs.on q y hq
  · by_cases hyi : y = i
    · subst hyi
      rw [htype.1]
      exact hs.typed y (hcached y hy)
    · rw [(hother y hyi).1]
      exact hs.typed y (hcached y hy)
  · by_cases hyi : y = i
    · subst hyi
      exact ⟨htype.1.trans htype.2.symm, fun hne => ⟨p, by rw [hself]; exact hsync hne⟩⟩
    · rw [(hother y hyi).1, (hother y hyi).2]
      obtain ⟨htypes, hwriter⟩ := hs.synced y (hcached y hy)
      refine ⟨htypes, fun hne => ?_⟩
      obtain ⟨q, hq⟩ := hwriter hne
      have hqp : q ≠ p := by
        rintro rfl
        exact hyi (hw.stage.on y (Stage.on_of_writes hq))
      exact ⟨q, by rwa [hstage' q hqp]⟩

/-- Nothing changes but what `p` is about to do with the inode it has locked. -/
theorem Inv.goto (hs : s.Inv sb) (hw : s.Works p i t) (hst : st.Within i t)
    (hwrites : (s.stage p).Writes i → st.Writes i)
    (hflight : st.flight = (s.stage p).flight)
    (hfreed : ∀ j, st.Freed i j ↔ (s.stage p).Freed i j)
    (htruncs : (s.stage p).Truncs i → st.Truncs i) (hfits : s.view.Fits st) :
    (s.goto p st).Inv sb := by
  have hlocal : s.view.Local i p st := ⟨hw.stage.on, hst.on, fun q hq => hs.alone hw.lock hq⟩
  have hblocks := hs.blocks.stay hlocal hflight hfreed htruncs hfits
  rw [hw.ent, hw.cur] at hblocks
  refine hs.work hw hst rfl rfl rfl rfl rfl (fun _ _ => ⟨rfl, rfl⟩) rfl ⟨rfl, hw.type⟩
    (fun hne => ?_) (fun _ _ => rfl) hblocks
  obtain ⟨q, hq⟩ := (hs.synced i hw.cached).2 hne
  obtain rfl := hs.alone hw.lock (Stage.on_of_writes hq)
  exact hwrites hq

section Io

variable {write : Bool} {off n tot : ℕ} {slot : Slot} {pc : IoAt}

/-- A turn of `readi` or `writei`, up to `balloc` or the next turn. -/
theorem Inv.io_stay (hs : s.Inv sb) (hst : s.stage p = .io i write off n tot pc)
    (hpc : ∀ b slot, pc ≠ .bzero b slot) {off' tot' : ℕ} {pc' : IoAt}
    (hpc' : ∀ b slot, pc' ≠ .bzero b slot) (hfits : s.view.IoFits i write off' n tot' pc') :
    (s.goto p (.io i write off' n tot' pc')).Inv sb := by
  obtain ⟨t, hw⟩ := hs.works (p := p) (i := i) (hst ▸ rfl)
  have hflight (c : IoAt) (hc : ∀ b slot, c ≠ .bzero b slot) (off tot : ℕ) :
      (Stage.io i write off n tot c : Stage T).flight = none := by
    cases c with
    | bzero b slot => exact absurd rfl (hc b slot)
    | _ => rfl
  refine hs.goto hw Stage.within_io ?_ ?_ (fun j => ?_) ?_ hfits
  · rw [hst]
    cases write <;> exact id
  · rw [hst, hflight pc hpc, hflight pc' hpc']
  · rw [hst]; rfl
  · rw [hst]; exact id

/-- The end of `readi`. -/
theorem Inv.readi_end (hs : s.Inv sb) (hst : s.stage p = .io i false off n tot .loop) :
    (s.goto p .idle).Inv sb := by
  obtain ⟨t, hw⟩ := hs.works (p := p) (i := i) (hst ▸ rfl)
  refine hs.goto hw Stage.within_idle ?_ ?_ (fun j => ?_) ?_ trivial
  · rw [hst]; exact id
  · rw [hst]; rfl
  · rw [hst]; rfl
  · rw [hst]; exact False.elim

theorem Inv.balloc (hs : s.Inv sb) {a b : ℕ}
    (hst : s.stage p = .io i write off n tot (.balloc a slot)) (hb : b < sb.size)
    (hfree : s.bitmap b = false) :
    ({ s with bitmap := update s.bitmap b true }.goto p
      (.io i write off n tot (.bzero b slot))).Inv sb := by
  obtain ⟨t, hw⟩ := hs.works (p := p) (i := i) (hst ▸ rfl)
  have hblocks := hs.blocks.balloc hst hb hfree
  rw [hw.ent, hw.cur] at hblocks
  refine hs.work hw Stage.within_io rfl rfl rfl rfl rfl (fun _ _ => ⟨rfl, rfl⟩) rfl
    ⟨rfl, hw.type⟩ (fun hne => ?_) (fun _ _ => rfl) hblocks
  rw [hs.io_sync hst hne]
  rfl

section Assign

omit [DecidableEq P]
variable {b : ℕ} (hst : s.stage p = .io i write off n tot (.bzero b slot))
include hst

theorem holds_flight : s.view.Holds (.flight p) b := by
  change (s.stage p).flight = some b
  rw [hst]
  rfl

theorem Inv.io_writes (hs : s.Inv sb) : (Stage.io i write off n tot .loop : Stage T).Writes i := by
  cases write with
  | true => rfl
  | false => exact absurd ((hs.io_fits hst).reads rfl).2 (by simp)

end Assign

/-- `bzero`, and the block goes into the inode. -/
theorem Inv.assign_addr (hs : s.Inv sb) {k : Fin (NDIRECT + 1)} {b : ℕ}
    (hst : s.stage p = .io i write off n tot (.bzero b (.addr k))) :
    (({ s with data := update s.data b fun _ => 0 }.assign i (.addr k) b).goto p
      (.io i write off n tot .loop)).Inv sb := by
  obtain ⟨t, hw⟩ := hs.works (p := p) (i := i) (hst ▸ rfl)
  have hkept (y : ℕ) := hs.entries_update (holds_flight hst) (y := y) (by simp) s.data fun _ => 0
  have hzero : (s.cur i).addrs k = 0 := ((hs.io_fits hst).hole b _ (.inr rfl)).1
  -- a new indirect block is all zero, another block is not where the entries are
  have hent : ((s.cur i).setAddr k b).entries (update s.data b fun _ => 0) = s.ent i := by
    by_cases hk : k = Fin.last NDIRECT
    · subst hk
      rw [show s.ent i = fun _ => 0 from if_pos (.inr hzero)]
      simp [Dinode.entries]
    · have hlast : update (s.cur i).addrs k b (Fin.last NDIRECT) =
          (s.cur i).addrs (Fin.last NDIRECT) := update_of_ne (Ne.symm hk) ..
      rw [ent, ← hkept]
      simp only [Dinode.entries, Dinode.setAddr_type, Dinode.setAddr_addrs, hlast]
  have hblocks := hs.blocks.assign_addr hst
  rw [show s.view.ent i = s.ent i from rfl, ← hent, show s.cur i = s.inode i from hw.cur,
    hw.cur] at hblocks
  exact hs.work (i := i) hw Stage.within_io rfl rfl rfl rfl rfl
    (fun y hy => ⟨update_of_ne hy .., rfl⟩) (update_self ..) ⟨rfl, hw.type⟩
    (fun _ => hs.io_writes hst) (fun y _ => hkept y) hblocks

/-- `bzero`, and the block goes into the indirect block. -/
theorem Inv.assign_entry (hs : s.Inv sb) {j : Fin NINDIRECT} {b : ℕ}
    (hst : s.stage p = .io i write off n tot (.bzero b (.entry j))) :
    (({ s with data := update s.data b fun _ => 0 }.assign i (.entry j) b).goto p
      (.io i write off n tot .loop)).Inv sb := by
  obtain ⟨t, hw⟩ := hs.works (p := p) (i := i) (hst ▸ rfl)
  have hfits := hs.io_fits hst
  have hflight := holds_flight hst
  have hlast : (s.view.cur i).addrs (Fin.last NDIRECT) ≠ 0 := (hfits.hole b _ (.inr rfl)).2.1
  have hind : s.view.Holds (.addr i (Fin.last NDIRECT)) ((s.inode i).addrs (Fin.last NDIRECT)) :=
    ⟨hfits.type, by rw [hw.cur], hw.cur ▸ hlast⟩
  have hentries (d : ℕ → Entries) :
      (s.inode i).entries d = d ((s.inode i).addrs (Fin.last NDIRECT)) :=
    if_neg (hw.cur ▸ not_or.mpr ⟨hfits.type, hlast⟩)
  have hkept := hs.entries_update hflight (y := i) (by simp) s.data fun _ => 0
  rw [show s.cur i = s.inode i from hw.cur, hentries (update s.data b _)] at hkept
  have hnew (d : ℕ → Entries) (e : Entries) : (s.inode i).entries
      (update d ((s.inode i).addrs (Fin.last NDIRECT)) e) = e :=
    (hentries _).trans (update_self ..)
  have hblocks := hs.blocks.assign_entry hst
  rw [hw.ent, ← hkept, hw.cur,
    ← hnew (update s.data b fun _ => 0) (update _ j b)] at hblocks
  refine hs.work (i := i) hw Stage.within_io rfl rfl rfl rfl rfl (fun y hy => ⟨rfl, rfl⟩) rfl
    ⟨rfl, hw.type⟩ (fun _ => hs.io_writes hst) (fun y hy => ?_) hblocks
  exact (hs.entries_update hind (by simpa using Ne.symm hy) ..).trans
    (hs.entries_update hflight (by simp) ..)

/-- The end of `writei`. -/
theorem Inv.writei_end (hs : s.Inv sb) (hst : s.stage p = .io i true off n tot .update) :
    (((s.setInode i ((s.inode i).setSize (max off (s.inode i).size))).iupdate i).goto p
      .idle).Inv sb := by
  obtain ⟨t, hw⟩ := hs.works (p := p) (i := i) (hst ▸ rfl)
  have hblocks := hs.blocks.writei_end hst
  rw [hw.ent, hw.cur] at hblocks
  exact hs.work (i := i) hw Stage.within_idle rfl rfl rfl rfl rfl
    (fun y hy => ⟨update_of_ne hy .., update_of_ne hy ..⟩)
    (update_self ..) ⟨rfl, by simp [Sys.goto, iupdate, setInode]⟩
    (fun hne => absurd (by simp [Sys.goto, iupdate, setInode]) hne) (fun _ _ => rfl) hblocks

end Io

section Trunc

variable {u : Option T}

theorem Inv.trunc_direct (hs : s.Inv sb) {k : Fin (NDIRECT + 1)} (hk : k ≠ Fin.last NDIRECT)
    (hst : s.stage p = .trunc i u (.direct k)) :
    (({ s with bitmap := View.release s.bitmap ((s.inode i).addrs k) }.assign i (.addr k) 0).goto p
      (.trunc i u (.direct (k + 1)))).Inv sb := by
  obtain ⟨t, hw⟩ := hs.works (p := p) (i := i) (hst ▸ rfl)
  have hblocks := hs.blocks.trunc_direct hk hst
  have hlast : update (s.inode i).addrs k 0 (Fin.last NDIRECT) =
      (s.inode i).addrs (Fin.last NDIRECT) := update_of_ne (Ne.symm hk) ..
  have hent : ((s.inode i).setAddr k 0).entries s.data = (s.inode i).entries s.data := by
    simp only [Dinode.entries, Dinode.setAddr_type, Dinode.setAddr_addrs, hlast]
  rw [hw.ent, hw.cur, ← hent] at hblocks
  exact hs.work (i := i) hw (hst ▸ hw.stage).trunc rfl rfl rfl rfl rfl
    (fun y hy => ⟨update_of_ne hy .., rfl⟩) (update_self ..)
    ⟨rfl, hw.type⟩ (fun _ => rfl) (fun _ _ => rfl) hblocks

theorem Inv.trunc_entry (hs : s.Inv sb) {j : Fin NINDIRECT}
    (hst : s.stage p = .trunc i u (.entry j)) :
    ({ s with bitmap := View.release s.bitmap ((s.inode i).entries s.data j) }.goto p
      (.trunc i u (.entry (j + 1)))).Inv sb := by
  obtain ⟨t, hw⟩ := hs.works (p := p) (i := i) (hst ▸ rfl)
  have hblocks := hs.blocks.trunc_entry hst
  rw [hw.ent, hw.cur] at hblocks
  exact hs.work (i := i) hw (hst ▸ hw.stage).trunc rfl rfl rfl rfl rfl (fun y hy => ⟨rfl, rfl⟩) rfl
    ⟨rfl, hw.type⟩ (fun _ => rfl) (fun _ _ => rfl) hblocks

theorem Inv.trunc_indirect (hs : s.Inv sb) (hst : s.stage p = .trunc i u .indirect) :
    (({ s with bitmap := View.release s.bitmap ((s.inode i).addrs (Fin.last NDIRECT)) }.assign i
      (.addr (Fin.last NDIRECT)) 0).goto p (.trunc i u .update)).Inv sb := by
  obtain ⟨t, hw⟩ := hs.works (p := p) (i := i) (hst ▸ rfl)
  have hblocks := hs.blocks.trunc_indirect hst
  have hent : ((s.inode i).setAddr (Fin.last NDIRECT) 0).entries s.data = fun _ => 0 :=
    if_pos (.inr (by simp))
  rw [hw.cur, ← hent] at hblocks
  exact hs.work (i := i) hw (hst ▸ hw.stage).trunc rfl rfl rfl rfl rfl
    (fun y hy => ⟨update_of_ne hy .., rfl⟩) (update_self ..)
    ⟨rfl, hw.type⟩ (fun _ => rfl) (fun _ _ => rfl) hblocks

/-- `itrunc` goes on to its next part. -/
theorem Inv.trunc_stay (hs : s.Inv sb) {pc pc' : TruncAt} (hst : s.stage p = .trunc i u pc)
    (hfreed : ∀ j, (Stage.trunc i u pc').Freed i j ↔ (Stage.trunc i u pc).Freed i j)
    (hcleared : s.view.Cleared i pc') : (s.goto p (.trunc i u pc')).Inv sb := by
  obtain ⟨t, hw⟩ := hs.works (p := p) (i := i) (hst ▸ rfl)
  refine hs.goto hw (hst ▸ hw.stage).trunc (fun _ => rfl) ?_ ?_ (fun _ => rfl) ⟨?_, hcleared⟩
  · rw [hst]; rfl
  · rw [hst]; exact hfreed
  · exact hw.cur ▸ hs.typed i hw.cached

theorem Inv.trunc_update (hs : s.Inv sb) (hst : s.stage p = .trunc i u .update)
    (hnew : st = .idle ∧ u = none ∨ ∃ w, st = .iputFree i w ∧ u = some w) :
    (((s.setInode i ((s.inode i).setSize 0)).iupdate i).goto p st).Inv sb := by
  obtain ⟨t, hw⟩ := hs.works (p := p) (i := i) (hst ▸ rfl)
  have hblocks := hs.blocks.trunc_update hst
    (hnew.imp And.left fun ⟨w, hw⟩ => ⟨w, hw.1⟩)
  rw [hw.ent, hw.cur] at hblocks
  have hwithin : st.Within i t := by
    obtain ⟨rfl, -⟩ | ⟨w, rfl, rfl⟩ := hnew
    · exact Stage.within_idle
    · exact ⟨fun _ hy => hy, (hst ▸ hw.stage).via, fun _ h => by cases h⟩
  exact hs.work (i := i) hw hwithin rfl rfl rfl rfl rfl
    (fun y hy => ⟨update_of_ne hy .., update_of_ne hy ..⟩)
    (update_self ..) ⟨rfl, by simp [Sys.goto, iupdate, setInode]⟩
    (fun hne => absurd (by simp [Sys.goto, iupdate, setInode]) hne) (fun _ _ => rfl) hblocks

end Trunc

end Xv6.Block.Sys
