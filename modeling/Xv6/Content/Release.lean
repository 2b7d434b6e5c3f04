import Xv6.Content.Path

/-!
# Dropping inodes

`iput` frees an inode that has no link and no other reference: its blocks are returned to the free
map, and the inode is written back twice. All of this logs two blocks, the free map and the block
of the inode, and leaves the other inodes as they are.
-/

namespace Xv6.Content

open Lib Mkfs
open Function (update update_of_ne update_self)

namespace Fs

variable {R : Finset ℕ} {k : ℕ} {l : List ℕ} {s t u : Fs} {i j : ℕ}

/-- The blocks of the copy in memory are blocks of the disk that hold no metadata. -/
def Ranged (s : Fs) (i : ℕ) : Prop := ∀ y, number s.disk.sect (s.mem i) y ≠ 0 →
  nmeta ≤ number s.disk.sect (s.mem i) y ∧ number s.disk.sect (s.mem i) y < FSSIZE

theorem During.ranged (h : During R k l s) (hi : s.Held i) : s.Ranged i := by
  intro y hne
  rw [(h.mem_eq hi).1] at hne ⊢
  exact h.intact.sound.range ⟨i, hi.lt⟩ y hne

/-- Only the free map, the block of the inode `i` and its copy have changed. -/
structure Cleared (s : Fs) (i : ℕ) (t : Fs) : Prop where
  lh : Grew {bmapstart, IBLOCK i} 0 s.disk.lh t.disk.lh
  sect : ∀ c, c ≠ bmapstart → c ≠ IBLOCK i → t.disk.sect c = s.disk.sect c
  mem : ∀ j, j ≠ i → t.mem j = s.mem j
  valid : ∀ j, j ≠ i → t.valid j = s.valid j

theorem Cleared.trans (h : Cleared s i t) (h' : Cleared t i u) : Cleared s i u :=
  ⟨h.lh.trans h'.lh, fun c hmap hc => (h'.sect c hmap hc).trans (h.sect c hmap hc),
    fun j hj => (h'.mem j hj).trans (h.mem j hj),
    fun j hj => (h'.valid j hj).trans (h.valid j hj)⟩

theorem Cleared.number_eq (h : Cleared s i t) (hi : i < NINODES) {d : Dinode}
    (hd : d.indirect ≠ 0 → nmeta ≤ d.indirect) (y : Mkfs.Slot) :
    number t.disk.sect d y = number s.disk.sect d y := by
  refine number_congr (fun hne => h.sect _ ?_ ?_) y
  · have := hd hne
    have := Disk.bmapstart_lt
    omega
  · have := hd hne
    have := (iblock_lt_nmeta ⟨i, hi⟩).2
    simp only at this
    omega

theorem Ranged.indirect (h : s.Ranged i) (hne : (s.mem i).indirect ≠ 0) :
    nmeta ≤ (s.mem i).indirect :=
  (h (.addr (Fin.last NDIRECT)) hne).1

/-- The blocks of the other inodes stay. -/
theorem Cleared.ranged (h : Cleared s i t) (hi : i < NINODES) (hj : s.Ranged j) (hne : j ≠ i) :
    t.Ranged j := by
  intro y
  rw [h.mem j hne, h.number_eq hi hj.indirect]
  exact hj y

/-- The copy is written back. -/
theorem iupdate_cleared (s : Fs) (i : ℕ) (f : Dinode → Dinode) :
    Post (fun p => p.lh = s.disk.lh)
      (fun t => Cleared s i t ∧ t.mem i = f (s.mem i) ∧ t.ref = s.ref ∧ t.lock = s.lock)
      ((s.modify i f).iupdate i) := by
  unfold iupdate
  refine (logWrite_post _ _).seq (fun p hp => hp.1) fun d _ hd => .ok ⟨⟨?_, fun c _ hc => ?_,
    fun j hj => update_of_ne hj .., fun _ _ => rfl⟩, update_self .., rfl, rfl⟩
  · change Grew _ 0 s.disk.lh d.lh
    rw [hd.1, Disk.lh_put]
    exact .logged (by simp) 0
  · change d.sect c = s.disk.sect c
    rw [hd.2, Disk.sect_put]
    exact update_of_ne hc _ _

theorem Ranged.of_addrs (h : s.Ranged i) (ht : Cleared s i t) (hi : i < NINODES)
    (haddrs : (t.mem i).addrs = (s.mem i).addrs) : t.Ranged i := by
  intro y
  rw [number_of_addrs haddrs, ht.number_eq hi h.indirect]
  exact h y

theorem itrunc_cleared (h : s.Ranged i) :
    Post (fun p => Grew {bmapstart, IBLOCK i} 0 s.disk.lh p.lh) (Cleared s i) (s.itrunc i) := by
  have hrange : ∀ y, number s.disk.sect (s.mem i) y < FSSIZE := by
    intro y
    by_cases hne : number s.disk.sect (s.mem i) y = 0
    · rw [hne]
      decide
    · exact (h y hne).2
  have hind : (s.mem i).indirect ≠ bmapstart := by
    intro heq
    have hge := h.indirect (by rw [heq]; decide)
    have := Disk.bmapstart_lt
    omega
  unfold itrunc
  refine (itrunc_logs i hrange hind).seq (fun _ => id) ?_
  rintro ⟨ip, d⟩ - ⟨hgrew, hsect⟩
  exact .ok ⟨hgrew, hsect, fun j hj => update_of_ne hj .., fun _ _ => rfl⟩

theorem ifree_cleared (h : s.Ranged i) :
    Post (fun p => Grew {bmapstart, IBLOCK i} 0 s.disk.lh p.lh) (Cleared s i) (s.ifree i) := by
  unfold ifree
  refine (itrunc_cleared h).seq (fun _ => id) fun t _ ht => ?_
  refine (iupdate_cleared t i _).seq (fun p hp => ?_) fun u _ hu => .ok ?_
  · rw [hp]
    exact ht.lh
  · obtain ⟨hlh, hsect, hmem, hvalid⟩ := ht.trans hu.1
    exact ⟨hlh, hsect, hmem, fun j hj => (update_of_ne hj ..).trans (hvalid j hj)⟩

/-- **`iput` logs** the free map and the block of the inode. -/
theorem iput_cleared (h : s.Last i → s.Ranged i) :
    Post (fun p => Grew {bmapstart, IBLOCK i} 0 s.disk.lh p.lh) (Cleared s i) (s.iput i) := by
  unfold iput
  split
  · next hlast =>
      exact (ifree_cleared (h hlast)).bind fun t ht => .ok ⟨ht.lh, ht.sect, ht.mem, ht.valid⟩
  · exact .ok ⟨.refl _ _ _, fun _ _ _ => rfl, fun _ _ => rfl, fun _ _ => rfl⟩

theorem iunlockput_cleared (h : s.Ranged i) :
    Post (fun p => Grew {bmapstart, IBLOCK i} 0 s.disk.lh p.lh) (Cleared s i)
      (s.iunlockput i) := by
  refine (iunlock_post s i).seq (fun p hp => ?_) ?_
  · rw [hp]
    exact .refl _ _ _
  · rintro t - rfl
    exact (iput_cleared (s := { s with lock := update s.lock i false })
      fun _ => h).mono (fun _ => id) fun t ht => ⟨ht.lh, ht.sect, ht.mem, ht.valid⟩

end Fs

end Xv6.Content
