import Xv6.Block.Ownership

/-!
# The blocks in every run

Every step keeps the invariant of `Xv6.Block.Cache`, and no step frees a block that is free. So
in every run from a consistent disk, whenever no process is in a call, the blocks stored in the
inodes in use are data blocks, each stored once, and the free map marks these and the metadata.
-/

namespace Xv6.Block.Sys

variable {P T : Type} {sb : Superblock} {s : Sys P T} {i : ℕ} {p : P}

/-- What a step leads to: the invariant, or a panic that is not the one of `bfree`. -/
def Fine (sb : Superblock) : Except String (Sys P T) → Prop
  | .ok s => s.Inv sb
  | .error msg => msg ≠ "freeing free block"

theorem findFree_spec {b x : ℕ} (h : s.findFree sb b = some x) :
    x < sb.size ∧ s.bitmap x = false := by
  simpa using List.find?_some h

section Io

variable {write : Bool} {off n tot : ℕ} {slot : Slot}

/-- `readi` finds all its blocks. -/
theorem Inv.readi_no_hole (hs : s.Inv sb) (hst : s.stage p = .io i false off n tot .loop)
    (htot : tot < n) : (s.inode i).bmap s.data (off / BSIZE) ≠ .hole slot := by
  intro hhole
  obtain ⟨t, hw⟩ := hs.works (p := p) (i := i) (hst ▸ rfl)
  have hfits := hs.io_fits hst
  have hon : (s.view.stage p).On i := by rw [show s.view.stage p = _ from hst]; rfl
  have hnot : ¬ (s.view.stage p).Truncs i := by rw [show s.view.stage p = _ from hst]; exact id
  have hsize := (hfits.reads rfl).1
  refine not_hole_of_hasBlock hs.blocks ((hs.blocks.covers hon hnot).1 (off / BSIZE) ?_) slot
    (hole_of_bmap hw.cur hfits.type hhole)
  have := Nat.div_mul_le_self off BSIZE
  omega

/-- The view stays fit for `writei` when the next part has been copied. -/
theorem fits_add (hfits : s.view.IoFits i write off n tot .loop)
    (hblock : s.view.HasBlock i (off / BSIZE)) {m : ℕ}
    (hm : m = min (n - tot) (BSIZE - off % BSIZE)) :
    s.view.IoFits i write (off + m) n (tot + m) .loop := by
  have htot := hfits.tot_le
  have hle : m ≤ BSIZE - off % BSIZE := by omega
  have hrest : m ≤ n - tot := by omega
  refine ⟨hfits.type, by omega, fun hw => ?_, fun hr => ?_, fun b slot h => ?_⟩
  · obtain ⟨hmax, hcovers⟩ := hfits.writes hw
    exact ⟨by omega, covers_add hcovers hblock hle⟩
  · exact ⟨by have := (hfits.reads hr).1; omega, rfl⟩
  · obtain h | h := h <;> cases h

theorem fits_update {pc : IoAt} (hfits : s.view.IoFits i true off n tot pc) :
    s.view.IoFits i true off n tot .update :=
  ⟨hfits.type, hfits.tot_le, hfits.writes, fun h => (by cases h),
    fun b slot h => (by obtain h | h := h <;> cases h)⟩

variable [DecidableEq P]

theorem Inv.io_loop (hs : s.Inv sb) (hst : s.stage p = .io i write off n tot .loop) (ok : Bool)
    (new : Entries) : Fine sb (s.io sb p ok new i write off n tot .loop) := by
  obtain ⟨t, hw⟩ := hs.works (p := p) (i := i) (hst ▸ rfl)
  have hfits := hs.io_fits hst
  simp only [io]
  split
  · cases write with
    | true => exact hs.io_stay hst (by simp) (by simp) (fits_update hfits)
    | false => exact hs.readi_end hst
  · next htot =>
      cases hb : (s.inode i).bmap s.data (off / BSIZE) with
      | out => simp [Fine]
      | hole slot =>
        cases write with
        | false => exact absurd hb (hs.readi_no_hole hst (Nat.not_le.mp htot))
        | true =>
          refine hs.io_stay hst (by simp) (by simp) ⟨hfits.type, hfits.tot_le, hfits.writes,
            fun h => (by cases h), fun b slot' h => ?_⟩
          obtain h | h := h
          · cases h; exact hole_of_bmap hw.cur hfits.type hb
          · cases h
      | block b =>
        have hfreed (q : P) (j : Fin NINDIRECT) (hq : (s.stage q).Freed i j) : False := by
          obtain rfl := hs.alone hw.lock (Stage.on_of_truncs (Stage.truncs_of_freed hq))
          rw [hst] at hq
          exact hq
        obtain ⟨hblock, pl, hpl, hne⟩ := block_of_bmap hw.cur hfits.type hfreed hb
        have hnext := fits_add hfits hblock rfl
        cases write with
        | false =>
          cases ok with
          | true => exact hs.io_stay hst (by simp) (by simp) hnext
          | false => exact hs.readi_end hst
        | true =>
          have hs' := hs.copy hpl hne new
          have hview := view_copy hs hpl hne new
          cases ok with
          | true => exact hs'.io_stay hst (by simp) (by simp) (by rw [hview]; exact hnext)
          | false =>
            exact hs'.io_stay hst (by simp) (by simp)
              (by rw [hview]; exact fits_update hfits)

/-- Every step of `readi` and `writei`. -/
theorem Inv.io_fine {pc : IoAt} (hs : s.Inv sb) (hst : s.stage p = .io i write off n tot pc)
    (ok : Bool) (new : Entries) : Fine sb (s.io sb p ok new i write off n tot pc) := by
  have hfits := hs.io_fits hst
  cases pc with
  | loop => exact hs.io_loop hst ok new
  | balloc b slot =>
    simp only [io]
    split
    · cases hx : s.findFree sb b with
      | none =>
        refine hs.io_stay hst (by simp) (by simp) ⟨hfits.type, hfits.tot_le, hfits.writes,
          fun hr => ?_, fun b' slot' h => ?_⟩
        · cases (hfits.reads hr).2
        · obtain h | h := h
          · cases h; exact hfits.hole b slot (.inl rfl)
          · cases h
      | some x => exact hs.balloc hst (findFree_spec hx).1 (findFree_spec hx).2
    · simp [Fine]
  | bzero b slot =>
    cases slot with
    | addr k => exact hs.assign_addr hst
    | entry j => exact hs.assign_entry hst
  | update =>
    cases write with
    | true => exact hs.writei_end hst
    | false => cases (hfits.reads rfl).2

end Io

section Trunc

variable [DecidableEq P] {t : Option T}

/-- Every step of `itrunc`. -/
theorem Inv.trunc_fine {pc : TruncAt} (hs : s.Inv sb) (hst : s.stage p = .trunc i t pc) :
    Fine sb (s.trunc p i t pc) := by
  have hon : (s.stage p).On i := by rw [hst]; rfl
  obtain ⟨u, hw⟩ := hs.works hon
  have hcleared := hs.trunc_cleared hst
  have htype : (s.view.cur i).type ≠ .free := hs.blocks.type_of_on (p := p) hon
  have hcur := hw.cur
  -- a block that an inode holds is marked, so `bfree` does not panic
  have haddr (k : Fin (NDIRECT + 1)) (h : (s.inode i).addrs k ≠ 0) :
      s.bitmap ((s.inode i).addrs k) = true :=
    (hs.blocks.used_of_holds (show s.view.Holds (.addr i k) _ from ⟨htype, by rw [hcur], h⟩)).2
  cases pc with
  | direct k =>
    simp only [trunc]
    split
    · next hk =>
        rw [bfreeAt_eq (haddr ⟨k, Nat.lt_succ_of_lt hk⟩)]
        exact hs.trunc_direct (k := ⟨k, Nat.lt_succ_of_lt hk⟩)
          (fun h => absurd (congrArg Fin.val h) (by simp only [Fin.val_last]; omega)) hst
    · next hk =>
        have hall (j : Fin (NDIRECT + 1)) (hj : j ≠ Fin.last NDIRECT) :
            (s.view.cur i).addrs j = 0 := by
          refine hcleared j ?_ hj
          have := Fin.val_lt_last hj
          omega
        split
        · next hlast =>
            refine hs.trunc_stay hst (fun _ => Iff.rfl) fun j => ?_
            by_cases hj : j = Fin.last NDIRECT
            · rw [hj, hcur]; exact hlast
            · exact hall j hj
        · next hlast =>
            exact hs.trunc_stay hst (fun j => by simp [Stage.Freed]) ⟨hall, by rwa [hcur]⟩
  | entry j =>
    simp only [trunc]
    split
    · next hj =>
        have hlast : (s.inode i).addrs (Fin.last NDIRECT) ≠ 0 := hcur ▸ hcleared.2
        have hent : (s.inode i).entries s.data =
            s.data ((s.inode i).addrs (Fin.last NDIRECT)) :=
          if_neg (not_or.mpr ⟨hcur ▸ htype, hlast⟩)
        have hlocal : s.view.Local i p (s.stage p) :=
          hs.blocks.local (p := p) hon hw.stage.on
        have hfree : s.data ((s.inode i).addrs (Fin.last NDIRECT)) ⟨j, hj⟩ ≠ 0 →
            s.bitmap (s.data ((s.inode i).addrs (Fin.last NDIRECT)) ⟨j, hj⟩) = true := by
          intro hne
          refine (hs.blocks.used_of_holds
            ((hlocal.entry_iff ⟨j, hj⟩).mpr ⟨htype, by rw [hw.ent, hent], hne, ?_⟩)).2
          rw [show s.view.stage p = _ from hst]
          simp [Stage.Freed]
        rw [bfreeAt_eq hfree, ← hent]
        exact hs.trunc_entry (j := ⟨j, hj⟩) hst
    · next hj =>
        refine hs.trunc_stay hst (fun m => ?_) hcleared
        simp only [Stage.Freed, true_and, true_iff]
        have := m.isLt
        omega
  | indirect =>
    have hlast : (s.inode i).addrs (Fin.last NDIRECT) ≠ 0 := hcur ▸ hcleared.2
    simp only [trunc]
    rw [bfree, if_neg (by simp [haddr _ hlast])]
    have hnext := hs.trunc_indirect hst
    rw [View.release, if_neg hlast] at hnext
    exact hnext
  | update =>
    simp only [trunc]
    cases t with
    | none => exact hs.trunc_update hst (.inl ⟨rfl, rfl⟩)
    | some w => exact hs.trunc_update hst (.inr ⟨w, rfl, rfl⟩)

end Trunc

variable [DecidableEq P]

theorem canUse_iff : s.canUse p i = true ↔ s.isIdle p = true ∧ ∃ t, s.lock i = some (p, t) := by
  simp only [canUse, Bool.and_eq_true, Option.any_eq_true, decide_eq_true_eq]
  refine and_congr_right fun _ => ⟨?_, ?_⟩
  · rintro ⟨⟨q, t⟩, hq, rfl⟩; exact ⟨t, hq⟩
  · rintro ⟨t, ht⟩; exact ⟨(p, t), ht, rfl⟩

variable [DecidableEq T]

/-- `iput` drops the pointer, or starts to free the inode. -/
theorem Inv.iput_fine {s' : Sys P T} {t : T} (hs : s.Inv sb) (hp : s.isIdle p = true)
    (ht : s.ptr t = some i) (h : s.iput p t i = some s') : s'.Inv sb := by
  rw [iput] at h
  split at h
  · next u hl =>
      obtain ⟨hne, rfl⟩ := Lib.of_unless h
      refine hs.iput_drop hp ht fun q w hw => ?_
      obtain ⟨-, rfl⟩ := Prod.mk.inj (Option.some.inj (hl.symm.trans hw))
      exact (not_or.mp hne).1
  · next hl =>
      split at h
      · next hlast =>
          cases h
          exact (hs.ilock hp ht hl hlast.2.1).itrunc hp (Function.update_self ..) (by simp)
      · cases h
        exact hs.iput_drop hp ht fun q w hw => by rw [hl] at hw; cases hw

/-- Every step of a process that is in a call. -/
theorem Inv.run_fine (hs : s.Inv sb) (ok : Bool) (new : Entries) {r : Except String (Sys P T)}
    (h : s.run sb p ok new = some r) : Fine sb r := by
  cases hst : s.stage p with
  | idle => simp [run, hst] at h
  | io i write off n tot pc =>
    simp only [run, hst, Option.some.injEq] at h
    exact h ▸ hs.io_fine hst ok new
  | trunc i t pc =>
    simp only [run, hst, Option.some.injEq] at h
    exact h ▸ hs.trunc_fine hst
  | iputFree i t =>
    simp only [run, hst, Option.some.injEq] at h
    subst h
    exact hs.iput_free hst
  | iputDrop i =>
    simp only [run, hst, Option.some.injEq] at h
    exact h ▸ hs.iput_end hst
  | ialloc i type t =>
    have hbefore (y : ℕ) : ¬ (s.stage p).On y := by rw [hst]; exact id
    simp only [run, hst] at h
    split at h
    · split at h
      · next hfree =>
          cases h
          exact hs.ialloc ⟨hbefore, fun _ => id⟩ (by simp [hst]) hfree type
      · cases h
        exact hs.move ⟨hbefore, fun _ => id⟩ (by simp [hst])
    · cases h
      simp [Fine]
  | allocated i t =>
    simp only [run, hst] at h
    obtain ⟨ht, rfl⟩ := Lib.of_guard h
    exact hs.iget ⟨by rw [hst]; exact fun _ => id, fun _ => id⟩ (by simp [hst]) ht

/-- Every step keeps the invariant, or panics for another reason than a free block. -/
theorem Inv.step_fine (hs : s.Inv sb) {a : Act P T} {r : Except String (Sys P T)}
    (h : s.step sb a = some r) : Fine sb r := by
  cases a with
  | iget p t i =>
    obtain ⟨hc, rfl⟩ := Lib.of_guard h
    have hstay : ((s.iget t i).goto p (s.stage p)).Inv sb :=
      hs.iget (away_of_idle hc.1) (fun _ => Iff.rfl) hc.2
    have hgoto : (s.iget t i).goto p (s.stage p) = s.iget t i := by
      have hst : (s.iget t i).stage = s.stage := by rw [Sys.iget]; split <;> rfl
      rw [Sys.goto, ← hst, Function.update_eq_self]
    rwa [hgoto] at hstay
  | idup p t u =>
    obtain ⟨hc, h⟩ := Option.ite_none_right_eq_some.mp h
    obtain ⟨i, hi, rfl⟩ := Option.map_eq_some_iff.mp h
    exact hs.idup hc.1 hc.2 hi
  | ilock p t =>
    obtain ⟨hp, h⟩ := Option.ite_none_right_eq_some.mp h
    obtain ⟨i, hi, hlock⟩ := Option.bind_eq_some_iff.mp h
    simp only [Sys.ilock] at hlock
    split at hlock
    · cases hlock; simp [Fine]
    obtain ⟨hfree, hlock⟩ := Option.ite_none_left_eq_some.mp hlock
    have hfree := not_not.mp hfree
    split at hlock
    · next hv => cases hlock; exact hs.ilock hp hi hfree hv
    split at hlock
    · cases hlock; simp [Fine]
    · next hv htype =>
        cases hlock
        exact hs.ilock_read hp hi hfree (by simpa using hv) htype
  | iunlock p i =>
    obtain ⟨hc, rfl⟩ := Lib.of_guard h
    obtain ⟨hp, t, hl⟩ := canUse_iff.mp hc
    exact hs.iunlock hp hl
  | readi p i off n =>
    obtain ⟨hc, h⟩ := Option.ite_none_right_eq_some.mp h
    obtain ⟨hp, t, hl⟩ := canUse_iff.mp hc
    split at h
    · cases h; exact hs
    · next hoff =>
        cases h
        exact hs.readi hp hl (by omega)
  | writei p i off n =>
    obtain ⟨hc, h⟩ := Option.ite_none_right_eq_some.mp h
    obtain ⟨hp, t, hl⟩ := canUse_iff.mp hc
    split at h
    · cases h; exact hs
    split at h
    · cases h; exact hs
    · next hoff hmax =>
        cases h
        exact hs.writei hp hl (by omega) (by omega)
  | itrunc p i =>
    obtain ⟨hc, rfl⟩ := Lib.of_guard h
    obtain ⟨hp, t, hl⟩ := canUse_iff.mp hc
    exact hs.itrunc hp hl (by simp)
  | setNlink p i nlink =>
    obtain ⟨hc, rfl⟩ := Lib.of_guard h
    obtain ⟨hp, t, hl⟩ := canUse_iff.mp hc
    exact hs.setNlink hp hl nlink
  | iput p t =>
    obtain ⟨hp, h⟩ := Option.ite_none_right_eq_some.mp h
    obtain ⟨i, hi, hput⟩ := Option.bind_eq_some_iff.mp h
    obtain ⟨s', hs', rfl⟩ := Option.map_eq_some_iff.mp hput
    exact hs.iput_fine hp hi hs'
  | ialloc p type t =>
    obtain ⟨hp, rfl⟩ := Lib.of_guard h
    exact hs.move ⟨not_on_of_idle hp, fun _ => id⟩ (by simp [stage_of_idle hp])
  | run p ok new => exact hs.run_fine ok new h

end Xv6.Block.Sys

namespace Xv6.Block

/-! ## Disks -/

/-- The inode is in use and stores the block number at the place. -/
def Stores (data : ℕ → Entries) (x : Dinode) : Slot → ℕ → Prop
  | .addr k, b => x.type ≠ .free ∧ x.addrs k = b ∧ b ≠ 0
  | .entry j, b => x.type ≠ .free ∧ x.addrs (Fin.last NDIRECT) ≠ 0 ∧
      data (x.addrs (Fin.last NDIRECT)) j = b ∧ b ≠ 0

/-- The block numbers stored are those of data blocks, every one is stored once, and the free map
marks the metadata and the blocks stored. -/
structure OneOwner (sb : Superblock) (bitmap : ℕ → Bool) (data : ℕ → Entries)
    (dinode : ℕ → Dinode) : Prop where
  isData : ∀ i slot b, Stores data (dinode i) slot b → sb.IsData b
  once : ∀ i slot i' slot' b, Stores data (dinode i) slot b → Stores data (dinode i') slot' b →
    i = i' ∧ slot = slot'
  marked_iff : ∀ b, b < sb.size → (bitmap b = true ↔
    b < sb.size - sb.nblocks ∨ ∃ i slot, Stores data (dinode i) slot b)

/-- A consistent disk: besides, block 0 is no data block, and the bytes of every file have
blocks. -/
structure Consistent (sb : Superblock) (bitmap : ℕ → Bool) (data : ℕ → Entries)
    (dinode : ℕ → Dinode) : Prop extends OneOwner sb bitmap data dinode where
  boot : 0 < sb.size - sb.nblocks
  size_le : ∀ i, (dinode i).type ≠ .free → (dinode i).size ≤ MAXFILE * BSIZE
  mapped : ∀ i bn, (dinode i).type ≠ .free → bn * BSIZE < (dinode i).size →
    ∃ b, (dinode i).bmap data bn = .block b

namespace Sys

variable {P T : Type} {sb : Superblock} {s : Sys P T}

/-- What the view shows of an inode whose copy on disk counts. -/
theorem holds_of_stores {i b : ℕ} {slot : Slot} (hcur : s.cur i = s.dinode i)
    (hidle : ∀ p, s.stage p = .idle) :
    Stores s.data (s.dinode i) slot b ↔
      s.view.Holds (match slot with | .addr k => .addr i k | .entry j => .entry i j) b := by
  cases slot with
  | addr k => rw [Stores, ← hcur]; rfl
  | entry j =>
    have hent : s.view.ent i = (s.dinode i).entries s.data := by rw [← hcur]; rfl
    have hfreed (p : P) : ¬ (s.view.stage p).Freed i j := by
      rw [show s.view.stage p = .idle from hidle p]; exact id
    simp only [Stores, View.Holds, hent, show s.view.cur i = s.dinode i from hcur, hfreed,
      not_false_eq_true, implies_true, and_true]
    refine and_congr_right fun htype => ?_
    by_cases hlast : (s.dinode i).addrs (Fin.last NDIRECT) = 0
    · simp only [Dinode.entries, hlast, or_true, if_true, ne_eq, not_true_eq_false, false_and,
        false_iff, not_and]
      exact fun h hb => hb h.symm
    · simp [Dinode.entries, hlast, htype]

/-- Where no process is in a call, the copies of every inode agree. -/
theorem Inv.cur_of_idle (hs : s.Inv sb) (hidle : ∀ p, s.stage p = .idle) (i : ℕ) :
    (s.Cached i → s.inode i = s.dinode i) ∧ s.cur i = s.dinode i := by
  have hcopy (hc : s.Cached i) : s.inode i = s.dinode i :=
    hs.inode_eq hc fun q => by rw [hidle q]; exact id
  refine ⟨hcopy, ?_⟩
  by_cases hc : s.Cached i
  · rw [cur, if_pos hc, hcopy hc]
  · rw [cur, if_neg hc]

theorem Inv.oneOwner (hs : s.Inv sb) (hidle : ∀ p, s.stage p = .idle) :
    OneOwner sb s.bitmap s.data s.dinode := by
  have hcur (i : ℕ) := (hs.cur_of_idle hidle i).2
  refine ⟨fun i slot b h => ?_, fun i slot i' slot' b h h' => ?_, fun b hb => ?_⟩
  · exact (hs.blocks.used_of_holds ((holds_of_stores (hcur i) hidle).mp h)).1
  · have heq := hs.blocks.own.eq_of_holds ((holds_of_stores (hcur i) hidle).mp h)
      ((holds_of_stores (hcur i') hidle).mp h')
    cases slot <;> cases slot' <;> simp_all
  · by_cases hmeta : b < sb.size - sb.nblocks
    · exact iff_of_true (hs.blocks.marked b hmeta) (.inl hmeta)
    · have hused := hs.blocks.own.used_iff b
      have hdata : sb.IsData b := ⟨Nat.not_lt.mp hmeta, hb⟩
      rw [show s.view.Used sb b ↔ s.bitmap b = true from
        ⟨fun h => h.2, fun h => ⟨hdata, h⟩⟩] at hused
      rw [hused]
      simp only [hmeta, false_or]
      constructor
      · rintro ⟨pl, hpl⟩
        cases pl with
        | addr i k => exact ⟨i, .addr k, (holds_of_stores (hcur i) hidle).mpr hpl⟩
        | entry i j => exact ⟨i, .entry j, (holds_of_stores (hcur i) hidle).mpr hpl⟩
        | flight p =>
          rw [View.Holds, show s.view.stage p = .idle from hidle p] at hpl
          cases hpl
      · rintro ⟨i, slot, h⟩
        exact ⟨_, (holds_of_stores (hcur i) hidle).mp h⟩

section Mount

variable {bitmap : ℕ → Bool} {data : ℕ → Entries} {dinode : ℕ → Dinode}

/-- A consistent disk meets the invariant when it is mounted. -/
theorem inv_mount (h : Consistent sb bitmap data dinode) :
    (mount bitmap data dinode : Sys P T).Inv sb := by
  have hc (i : ℕ) : ¬ (mount bitmap data dinode : Sys P T).Cached i :=
    fun hc => absurd hc.1 (lt_irrefl 0)
  have hcur (i : ℕ) : (mount bitmap data dinode : Sys P T).cur i = dinode i := if_neg (hc i)
  have hidle (p : P) : (mount bitmap data dinode : Sys P T).stage p = .idle := rfl
  have hholds {i b : ℕ} {slot : Slot} : Stores data (dinode i) slot b ↔
      (mount bitmap data dinode : Sys P T).view.Holds
        (match slot with | .addr k => .addr i k | .entry j => .entry i j) b :=
    holds_of_stores (hcur i) hidle
  refine ⟨fun i => ?_, fun i p t h => (by cases h), fun p i hon => hon.elim,
    fun i hi => absurd hi (hc i), fun i hi => absurd hi (hc i), ?_⟩
  · have hnone : {x : T ⊕ P | (mount bitmap data dinode : Sys P T).Points i x} = ∅ := by
      refine Set.eq_empty_of_forall_notMem fun x hx => ?_
      cases x <;> cases hx
    rw [hnone, Set.encard_empty]
    rfl
  refine ⟨h.boot, fun b hb => (h.marked_iff b (by omega)).mpr (.inl hb),
    ⟨fun {pl pl' b} hpl hpl' => ?_, fun b => ?_⟩, fun i hi => ?_, fun i htype => .inr ?_,
    fun p => trivial, fun p q i hon => hon.elim⟩
  · cases pl with
    | flight p => cases hpl
    | addr i k =>
      cases pl' with
      | flight p => cases hpl'
      | addr i' k' =>
        obtain ⟨rfl, hslot⟩ := h.once i (.addr k) i' (.addr k') b (hholds.mpr hpl)
          (hholds.mpr hpl')
        cases hslot; rfl
      | entry i' j' =>
        cases (h.once i (.addr k) i' (.entry j') b (hholds.mpr hpl) (hholds.mpr hpl')).2
    | entry i j =>
      cases pl' with
      | flight p => cases hpl'
      | addr i' k' =>
        cases (h.once i (.entry j) i' (.addr k') b (hholds.mpr hpl) (hholds.mpr hpl')).2
      | entry i' j' =>
        obtain ⟨rfl, hslot⟩ := h.once i (.entry j) i' (.entry j') b (hholds.mpr hpl)
          (hholds.mpr hpl')
        cases hslot; rfl
  · constructor
    · rintro ⟨hdata, hb⟩
      obtain hmeta | ⟨i, slot, hst⟩ := (h.marked_iff b hdata.2).mp hb
      · exact absurd hdata.1 (Nat.not_le.mpr hmeta)
      · exact ⟨_, hholds.mp hst⟩
    · rintro ⟨pl, hpl⟩
      have hstored : ∃ i slot, Stores data (dinode i) slot b := by
        cases pl with
        | addr i k => exact ⟨i, .addr k, hholds.mpr hpl⟩
        | entry i j => exact ⟨i, .entry j, hholds.mpr hpl⟩
        | flight p => cases hpl
      obtain ⟨i, slot, hst⟩ := hstored
      have hdata := h.isData i slot b hst
      exact ⟨hdata, (h.marked_iff b hdata.2).mpr (.inr ⟨i, slot, hst⟩)⟩
  · exact if_pos hi
  · rw [show (mount bitmap data dinode : Sys P T).view.cur i = dinode i from hcur i] at htype ⊢
    refine ⟨fun bn hbn => ?_, h.size_le i htype⟩
    obtain ⟨b, hb⟩ := h.mapped i bn htype hbn
    exact (block_of_bmap (s := (mount bitmap data dinode : Sys P T)) (hcur i)
      (by rwa [hcur i]) (fun q j => id) hb).1

variable [DecidableEq P] [DecidableEq T]

/-- **Block ownership.** In every state of every run from a consistent disk: if no process is in
a call, every block number stored is that of a data block, is stored once, and the free map marks
the metadata and the blocks stored, and the inodes in memory are as on disk; no step frees a free
block; and what `balloc` finds is a data block that is held nowhere. -/
theorem oneOwner_of_visits (h : Consistent sb bitmap data dinode) {as : List (Act P T)}
    {s : Sys P T} (hs : Lib.Visits (next sb) (mount bitmap data dinode) as s) :
    ((∀ p, s.stage p = .idle) → OneOwner sb s.bitmap s.data s.dinode ∧
      ∀ i, s.Cached i → s.inode i = s.dinode i) ∧
    (∀ a, s.step sb a ≠ some (.error "freeing free block")) ∧
    ∀ b x, s.findFree sb b = some x → sb.IsData x ∧ ∀ pl, ¬ s.view.Holds pl x := by
  have hinv : s.Inv sb := by
    refine Lib.Visits.induction (P := Inv sb) (inv_mount h) ?_ hs
    intro t a u _ hnext hinv
    obtain ⟨r, hr, hok⟩ := Option.bind_eq_some_iff.mp hnext
    have hfine := hinv.step_fine hr
    cases r with
    | error msg => cases hok
    | ok v => cases hok; exact hfine
  refine ⟨fun hidle => ⟨hinv.oneOwner hidle, fun i => (hinv.cur_of_idle hidle i).1⟩,
    fun a ha => hinv.step_fine ha rfl, fun b x hx => ?_⟩
  obtain ⟨hlt, hfree⟩ := findFree_spec hx
  refine ⟨⟨Nat.not_lt.mp fun hmeta => ?_, hlt⟩, fun pl hpl => ?_⟩
  · have hmarked := hinv.blocks.marked x hmeta
    rw [show s.view.bitmap x = s.bitmap x from rfl, hfree] at hmarked
    cases hmarked
  · have hmarked := (hinv.blocks.used_of_holds hpl).2
    rw [show s.view.bitmap x = s.bitmap x from rfl, hfree] at hmarked
    cases hmarked

end Mount

/-- A disk with ten data blocks and no files. -/
def emptyDisk : Superblock := ⟨12, 10, 3⟩

theorem consistent_emptyDisk :
    Consistent emptyDisk (fun b => b < 2) (fun _ _ => 0) fun _ => ⟨.free, 0, 0, fun _ => 0⟩ := by
  have hno (slot : Slot) (b : ℕ) :
      ¬ Stores (fun _ _ => 0) ⟨.free, 0, 0, fun _ => 0⟩ slot b := by
    cases slot <;> exact fun h => h.1 rfl
  refine ⟨⟨fun i slot b h => absurd h (hno slot b), fun i slot i' slot' b h => absurd h (hno slot b),
    fun b hb => ?_⟩, by decide, fun i h => absurd rfl h, fun i bn h => absurd rfl h⟩
  simp [hno, emptyDisk]

/-- A file is made and gets its first eight bytes. -/
def writeRun : List (Act Unit Unit) :=
  .ialloc () ⟨.file, Fs.file_ne_free⟩ () :: List.replicate 2 (.run () true fun _ => 0) ++
    [.ilock () (), .writei () 1 0 8] ++ List.replicate 6 (.run () true fun _ => 7)

theorem oneOwner_writeRun : ∃ s : Sys Unit Unit,
    Lib.exec (next emptyDisk) (mount (fun b => b < 2) (fun _ _ => 0) fun _ =>
      ⟨.free, 0, 0, fun _ => 0⟩) writeRun = some s ∧
    Stores s.data (s.dinode 1) (.addr 0) 2 ∧ OneOwner emptyDisk s.bitmap s.data s.dinode := by
  have hcheck : (Lib.exec (next emptyDisk) (mount (fun b => b < 2) (fun _ _ => 0) fun _ =>
      ⟨.free, 0, 0, fun _ => 0⟩) writeRun).any (fun s : Sys Unit Unit =>
        s.isIdle () && decide ((s.dinode 1).type = .file ∧ (s.dinode 1).addrs 0 = 2)) = true := by
    decide +kernel
  obtain ⟨s, hs, hend⟩ := (Option.any_eq_true _ _).mp hcheck
  obtain ⟨hidle, haddr⟩ := Bool.and_eq_true_iff.mp hend
  obtain ⟨htype, haddr⟩ := of_decide_eq_true haddr
  refine ⟨s, hs, ⟨by rw [htype]; decide, haddr, by decide⟩, ?_⟩
  exact ((oneOwner_of_visits consistent_emptyDisk (Lib.Visits.last hs)).1
    fun _ => stage_of_idle hidle).1

end Sys

end Xv6.Block
