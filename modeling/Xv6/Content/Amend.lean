import Xv6.Content.Lookup

/-!
# Changing inodes and directories

The functions of `kernel/fs.c` that change an inode: the files stay intact, the copies in memory
agree with the disk, and the header of the log grows by the free map, the block of the inode and
the blocks that are written.
-/

namespace Xv6.Content

open Lib Mkfs
open Function (update update_eq_self update_of_ne update_self)

section Rewrite

variable {s t : Disk} {d d' : Dinode} {inode inode' : Fin NINODES → Dinode} {i : Fin NINODES}

theorem number_of_addrs (h : d'.addrs = d.addrs) (sect : ℕ → Buf) (y : Mkfs.Slot) :
    number sect d' y = number sect d y := by
  have hind : d'.indirect = d.indirect := by rw [Dinode.indirect, Dinode.indirect, h]
  cases y with
  | addr k => rw [number, number, h]
  | entry k => rw [number, number, hind]

/-- Blocks may be dropped from the files. -/
theorem Sound.of_le (h : Sound inode s) (hmap : t.sect bmapstart = s.sect bmapstart)
    (hnumber : ∀ j y, number t.sect (inode' j) y = 0 ∨
      number t.sect (inode' j) y = number s.sect (inode j) y) : Sound inode' t where
  metaMarked c hc := by
    rw [Disk.bit_congr hmap (hc.trans (by decide))]
    exact h.metaMarked c hc
  range j y hne := by
    have hsame := (hnumber j y).resolve_left hne
    rw [hsame] at hne ⊢
    exact h.range j y hne
  marked j y hne := by
    have hsame := (hnumber j y).resolve_left hne
    rw [hsame] at hne ⊢
    rw [Disk.bit_congr hmap (h.range j y hne).2]
    exact h.marked j y hne
  inj j y k z hne heq := by
    have hne' : number t.sect (inode' k) z ≠ 0 := heq ▸ hne
    rw [(hnumber k z).resolve_left hne', (hnumber j y).resolve_left hne] at heq
    rw [(hnumber j y).resolve_left hne] at hne
    exact h.inj j y k z hne heq

/-- The inode `i` is written with the blocks it has, or without any. -/
theorem Intact.rewrite (h : Intact s.inodes s) (ht : t.Holds i d s)
    (hnumber : ∀ y, number s.sect d y = 0 ∨ number s.sect d y = number s.sect (s.inodes i) y)
    (hwhole : Whole s.sect d) : Intact t.inodes t := by
  have hind : d.indirect ≠ 0 → d.indirect ≠ IBLOCK i := by
    intro hne heq
    have hsame := (hnumber (.addr (Fin.last NDIRECT))).resolve_left hne
    have hge := (h.sound.range i (.addr (Fin.last NDIRECT)) (hsame ▸ hne)).1
    rw [← hsame, number_last, heq] at hge
    exact absurd (iblock_lt_nmeta i).2 (not_lt.mpr hge)
  have hself : ∀ y, number t.sect d y = number s.sect d y :=
    number_congr fun hne => sect_of_holds ht (hind hne)
  rw [inodes_of_holds ht]
  refine ⟨h.sound.of_le (sect_of_holds ht (iblock_lt_nmeta i).1.ne') fun j y => ?_, fun j => ?_⟩
  · by_cases hj : j = i
    · rw [hj, update_self, hself]
      exact hnumber y
    · rw [update_of_ne hj, number_of_holds ht h.sound]
      exact .inr rfl
  · by_cases hj : j = i
    · rw [hj, update_self]
      exact ⟨hwhole.size_le, fun bn hbn => by rw [hself]; exact hwhole.stored bn hbn⟩
    · rw [update_of_ne hj]
      refine ⟨(h.whole j).size_le, fun bn hbn => ?_⟩
      rw [number_of_holds ht h.sound]
      exact (h.whole j).stored bn hbn

theorem Whole.of_addrs (h : Whole s.sect d) (haddrs : d'.addrs = d.addrs)
    (hsize : d'.size = d.size) : Whole s.sect d' := by
  refine ⟨hsize ▸ h.size_le, fun bn hbn => ?_⟩
  rw [number_of_addrs haddrs]
  exact h.stored bn (hsize ▸ hbn)

theorem inode_of_holds (ht : t.Holds i d s) : t.inode i = d := by
  have := congrFun (inodes_of_holds ht) i
  rwa [update_self] at this

theorem inode_of_holds_of_ne (ht : t.Holds i d s) {j : ℕ} (hj : j < NINODES) (hne : j ≠ i) :
    t.inode j = s.inode j := by
  have := congrFun (inodes_of_holds ht) ⟨j, hj⟩
  rwa [update_of_ne (fun heq => hne (congrArg Fin.val heq))] at this

end Rewrite

namespace Fs

variable {R : Finset ℕ} {k : ℕ} {l : List ℕ} {s t u : Fs} {i j : ℕ}

/-- A copy of the inode is in memory. -/
structure Held (s : Fs) (i : ℕ) : Prop where
  lt : i < NINODES
  pos : 0 < s.ref i
  valid : s.valid i = true

/-- The files are intact, and the header has grown by blocks of `R` and at most `k` others. -/
structure During (R : Finset ℕ) (k : ℕ) (l : List ℕ) (s : Fs) : Prop where
  intact : Intact s.disk.inodes s.disk
  coherent : s.Coherent
  lh : Grew R k l s.disk.lh

theorem During.weaken (h : During R k l s) {R' : Finset ℕ} {k' : ℕ} (hR : R ⊆ R') (hk : k ≤ k') :
    During R' k' l s :=
  ⟨h.intact, h.coherent, h.lh.weaken hR hk⟩

theorem During.mem_eq (h : During R k l s) (hi : s.Held i) :
    s.mem i = s.disk.inode i ∧ (s.disk.inode i).type ≠ 0 :=
  h.coherent i hi.lt hi.pos hi.valid

theorem During.whole (h : During R k l s) (hi : s.Held i) : Whole s.disk.sect (s.mem i) := by
  rw [(h.mem_eq hi).1]
  exact h.intact.whole ⟨i, hi.lt⟩

theorem During.peek (h : During R k l s) (hp : Peek s t) : During R k l t := by
  refine ⟨?_, hp.coherent h.coherent, ?_⟩
  · rw [hp.disk]
    exact h.intact
  · rw [hp.disk]
    exact h.lh

/-- Only the inode `i` and the disk have changed, and copies of inodes nobody refers to. -/
structure Amended (s : Fs) (i : ℕ) (t : Fs) : Prop where
  ref : t.ref = s.ref
  lock : t.lock = s.lock
  cwd : t.cwd = s.cwd
  valid : ∀ j, 0 < s.ref j → t.valid j = s.valid j
  mem : ∀ j, j ≠ i → t.mem j = s.mem j

theorem Amended.held (h : Amended s i t) (hj : s.Held j) : t.Held j :=
  ⟨hj.lt, by rw [h.ref]; exact hj.pos, by rw [h.valid j hj.pos]; exact hj.valid⟩

/-- The copy and the disk have changed together. -/
theorem coherent_amend (hs : s.Coherent) (h : Amended s i t)
    (hvalid : t.valid = s.valid) (hself : t.mem i = t.disk.inode i ∧ (t.mem i).type ≠ 0)
    (hothers : ∀ j, j < NINODES → j ≠ i → t.disk.inode j = s.disk.inode j) : t.Coherent := by
  intro j hj href hvalidj
  by_cases hji : j = i
  · subst hji
    exact ⟨hself.1, hself.1 ▸ hself.2⟩
  · rw [h.mem j hji, hothers j hj hji]
    exact hs j hj (h.ref ▸ href) (hvalid ▸ hvalidj)

/-! ## Inodes -/

/-- What the calls change in an inode: neither its kind nor its blocks. -/
def Mild (f : Dinode → Dinode) : Prop :=
  ∀ d, (f d).addrs = d.addrs ∧ (f d).size = d.size ∧ (f d).type = d.type

theorem iupdate_during (h : During R k l s) (hi : s.Held i) (hR : IBLOCK i ∈ R)
    {f : Dinode → Dinode} (hf : Mild f) :
    Post (fun p => Grew R k l p.lh)
      (fun t => During R k l t ∧ Amended s i t ∧ t.disk.Holds ⟨i, hi.lt⟩ (f (s.mem i)) s.disk ∧
        t.mem i = f (s.mem i) ∧ t.valid = s.valid) ((s.modify i f).iupdate i) := by
  have hmem := h.mem_eq hi
  have hself : (s.modify i f).mem i = f (s.mem i) := update_self ..
  obtain ⟨haddrs, hsize, htype⟩ := hf (s.mem i)
  unfold iupdate
  refine (logWrite_post _ _).seq (fun p hp => ?_) fun d hd _ => ?_
  · rw [hp.1, Disk.lh_put]
    exact h.lh
  · obtain ⟨-, hholds, hlh⟩ := iupdate_eq_ok (i := ⟨i, hi.lt⟩).mp hd
    rw [hself] at hholds
    have ham : Amended s i { s.modify i f with disk := d } :=
      ⟨rfl, rfl, rfl, fun _ _ => rfl, fun j hj => update_of_ne hj ..⟩
    refine .ok ⟨⟨?_, ?_, ?_⟩, ham, hholds, hself, rfl⟩
    · refine h.intact.rewrite hholds (fun y => .inr ?_) ((h.whole hi).of_addrs haddrs hsize)
      rw [number_of_addrs haddrs, hmem.1]
      rfl
    · refine coherent_amend h.coherent ham rfl ⟨?_, ?_⟩ fun j hj hne => ?_
      · exact hself.trans (inode_of_holds hholds).symm
      · change ((s.modify i f).mem i).type ≠ 0
        rw [hself, htype, hmem.1]
        exact hmem.2
      · exact inode_of_holds_of_ne hholds hj hne
    · change Grew R k l d.lh
      rw [hlh]
      exact h.lh.trans (.logged (.inl hR) 0)

/-- `writei` has returned `r`: it has refused its arguments, or the source is in the file. -/
def Written (s : Fs) (i : Fin NINODES) (src : Source) (off n : UInt32) (r : ℤ) (t : Fs) : Prop :=
  (Refused (s.mem i) off n ∧ r = -1 ∧ t = s) ∨ ¬ Refused (s.mem i) off n ∧ ∃ m e : ℕ, r = m ∧
    m ≤ n.toNat ∧ Spliced i src off.toNat n.toNat m e s.disk (s.mem i) t.disk (t.mem i)

/-- A write to the file `i`. -/
theorem writei_during (h : During R k l s) (hi : s.Held i) (hmap : bmapstart ∈ R)
    (hR : IBLOCK i ∈ R) (src : Source) (off n : UInt32) :
    Post (Stopped True R (k + (touched off.toNat n.toNat + 1)) l)
      (fun r => During R (k + (touched off.toNat n.toNat + 1)) l r.2 ∧ Amended s i r.2 ∧
        r.2.valid = s.valid ∧ Written s ⟨i, hi.lt⟩ src off n r.1 r.2)
      (s.writei i src off n) := by
  have hmem := h.mem_eq hi
  have hupdate : update s.disk.inodes ⟨i, hi.lt⟩ (s.mem i) = s.disk.inodes := by
    rw [hmem.1]
    exact update_eq_self ..
  have hsound : Sound (update s.disk.inodes ⟨i, hi.lt⟩ (s.mem i)) s.disk := by
    rw [hupdate]
    exact h.intact.sound
  have hsub : ({bmapstart, IBLOCK i} : Finset ℕ) ⊆ R := pair_subset hmap hR
  unfold writei
  refine (writei_logs src off n hsound).seq
    (fun p hp => ⟨h.lh.trans (hp.grew.weaken hsub le_rfl), hp.full⟩) ?_
  rintro ⟨d, jp, r⟩ hok hgrew
  have hlh := h.lh.trans (hgrew.weaken hsub le_rfl)
  have ham : Amended s i { s.modify i fun _ => jp with disk := d } :=
    ⟨rfl, rfl, rfl, fun _ _ => rfl, fun j hj => update_of_ne hj ..⟩
  have hself : (s.modify i fun _ => jp).mem i = jp := update_self ..
  rcases writei_cases hsound hok with ⟨href, rfl, rfl, rfl⟩ | ⟨href, m, e, rfl, hm, hsp⟩
  · have hsame : { s.modify i fun _ => s.mem i with disk := s.disk } = s := by
      simp [modify]
    refine .ok ⟨⟨h.intact, ?_, hlh⟩, ham, rfl, .inl ⟨href, rfl, hsame⟩⟩
    refine coherent_amend h.coherent ham rfl ⟨hself.trans hmem.1, ?_⟩ fun _ _ _ => rfl
    exact (hself ▸ hmem.1 ▸ hmem.2 :)
  · have hjp : d.inode i = jp := by
      have := congrFun hsp.inodes ⟨i, hi.lt⟩
      rwa [update_self] at this
    have hwritten : Written s ⟨i, hi.lt⟩ src off n m { s.modify i fun _ => jp with disk := d } := by
      refine .inr ⟨href, m, e, rfl, hm, ?_⟩
      change Spliced _ _ _ _ _ _ _ _ d ((s.modify i fun _ => jp).mem i)
      rwa [hself]
    rw [Refused] at href
    refine .ok ⟨⟨?_, ?_, hlh⟩, ham, rfl, hwritten⟩
    · exact hsp.intact (by rw [hupdate]; exact h.intact) (by omega) (by omega)
    · refine coherent_amend h.coherent ham rfl ⟨hself.trans hjp.symm, ?_⟩ fun j hj hne => ?_
      · change ((s.modify i fun _ => jp).mem i).type ≠ 0
        obtain ⟨g, z, rfl⟩ := hsp.kind
        rw [hself]
        exact (hmem.1 ▸ hmem.2 :)
      · have := congrFun hsp.inodes ⟨j, hj⟩
        rwa [update_of_ne (fun heq => hne (congrArg Fin.val heq))] at this

/-- An inode nobody can refer to is allocated. -/
theorem ialloc_during (h : During R k l s) (type : UInt16) :
    Post (fun p => Grew R (k + 1) l p.lh)
      (fun r => r.1 < NINODES ∧ (s.disk.inode r.1).type = 0 ∧
        During (insert (IBLOCK r.1) R) k l r.2 ∧ r.2.ref = inc s.ref r.1 ∧ r.2.mem = s.mem ∧
        ∀ j, 0 < s.ref j → r.2.valid j = s.valid j) (s.ialloc type) := by
  unfold ialloc
  split
  · exact .error (h.lh.weaken subset_rfl (by omega))
  next i hfree =>
  have hlt : i < NINODES := List.mem_range.mp (List.mem_of_find?_eq_some hfree)
  have htype : (s.disk.inode i).type = 0 := by
    have := List.find?_some hfree
    rw [Bool.and_eq_true, decide_eq_true_eq, decide_eq_true_eq] at this
    exact this.2
  refine (logWrite_post _ _).seq (fun p hp => ?_) fun d hd _ => ?_
  · rw [hp.1, Disk.lh_put]
    exact h.lh.weaken subset_rfl (by omega)
  obtain ⟨-, hholds, hlh⟩ := iupdate_eq_ok (i := ⟨i, hlt⟩).mp hd
  have hgrew : Grew (insert (IBLOCK i) R) k l d.lh := by
    rw [hlh]
    exact (h.lh.weaken (Finset.subset_insert _ _) le_rfl).trans
      (.logged (.inl (Finset.mem_insert_self _ _)) 0)
  have hnumber : ∀ y, number s.disk.sect (newInode type) y = 0 := by
    intro y
    cases y <;> rfl
  have hduring : During (insert (IBLOCK i) R) k l { s with disk := d } := by
    refine ⟨h.intact.rewrite hholds (fun y => .inl (hnumber y)) ⟨Nat.zero_le _, fun bn hbn => ?_⟩,
      fun j hj href hvalid => ?_, hgrew⟩
    · exact absurd hbn (Nat.not_lt_zero _)
    · obtain ⟨hmem, htypej⟩ := h.coherent j hj href hvalid
      -- a free inode has no copy in memory
      have hne : j ≠ i := by
        rintro rfl
        exact htypej htype
      rw [inode_of_holds_of_ne hholds hj hne]
      exact ⟨hmem, htypej⟩
  refine (iget_post _ i).seq (fun p hp => ?_) fun t _ hgot => ?_
  · rw [hp.1]
    exact hgrew.mono (X := {IBLOCK i}) (by intro c; simp) (by simp)
  · exact .ok ⟨hlt, htype, hduring.peek hgot.peek, hgot.ref, hgot.mem, hgot.valid⟩

/-- A reference that has just been taken is dropped. -/
theorem Got.put (h : s.Got i t) : t.iput i = .ok (t.unref i) ∧ (t.unref i).ref = s.ref := by
  have hlast : ¬ t.Last i := by
    rintro ⟨href, hvalid, -⟩
    rw [h.ref, inc, update_self] at href
    rw [h.fresh (by omega)] at hvalid
    cases hvalid
  refine ⟨iput_of_not_last hlast, ?_⟩
  rw [unref, h.ref]
  exact unref_inc s.ref i

theorem touched_dirent {off : ℕ} (h : off % DIRENT = 0) : touched off DIRENT = 1 := by
  simp only [touched, endBlock, BSIZE, DIRENT] at *
  omega

/-- A name is entered, or it is there already. -/
theorem dirlink_during (h : During R k l s) (hi : s.Held i) (hmap : bmapstart ∈ R)
    (hR : IBLOCK i ∈ R) (name : Buf) (inum : ℕ) :
    Post (fun p => Grew R (k + 2) l p.lh)
      (fun r => During R (k + 2) l r.2 ∧ Amended s i r.2 ∧ (r.1 = false → Peek s r.2))
      (s.dirlink i name inum) := by
  have hwhole := h.whole hi
  have hpanic : ∀ p : Panic, p.lh = s.disk.lh → Grew R (k + 2) l p.lh := by
    intro p hp
    rw [hp]
    exact h.lh.weaken subset_rfl (by omega)
  unfold dirlink
  refine (dirlookup_post hwhole name).seq (fun p hp => hpanic p hp.1) ?_
  rintro ⟨r, t⟩ - hfound
  cases hfound with
  | @some next off t hat hgot =>
    obtain ⟨hput, href⟩ := hgot.put
    have hpeek := hgot.peek.trans (t.unref_peek next)
    simp only [hput, bind, Except.bind]
    refine .ok ⟨(h.weaken subset_rfl (by omega)).peek hpeek, ⟨href, hgot.lock, hpeek.cwd,
      hgot.valid, fun j _ => congrFun hgot.mem j⟩, fun _ => hpeek⟩
  | none habsent =>
    have hturns : (s.mem i).size.toNat ≤ 0 + DIRENT * s.turns i := by
      simp only [turns, DIRENT]
      omega
    refine (scan_post hwhole (fun e => decide (e.1 = 0)) (fun _ _ => rfl) _ hturns).seq
      (fun p hp => hpanic p hp.1) ?_
    rintro ⟨r, off, t⟩ - ⟨rfl, hscan⟩
    have hoff : (UInt32.ofNat off).toNat % DIRENT = 0 := by
      have hmod := hscan.mod
      rw [UInt32.toNat_ofNat']
      simp only [DIRENT] at *
      omega
    have hcount := touched_dirent hoff
    have hwrite := writei_during h hi hmap hR (.kernel (direntBytes inum name)) (.ofNat off) 16
    rw [show (16 : UInt32).toNat = DIRENT from rfl, hcount] at hwrite
    refine hwrite.seq (fun p hp => hp.grew) ?_
    rintro ⟨r, u⟩ - ⟨hduring, ham, -⟩
    simp only
    split
    · exact .error hduring.lh
    · exact .ok ⟨hduring, ham, fun hfalse => by cases hfalse⟩

end Fs

end Xv6.Content
