import Xv6.Mkfs.Append

/-!
# Allocating and filling inodes

`Sound` is the block map of the inodes in the image, with the blocks that their sizes ask for.
`ialloc` and `iappend` keep it, and change nothing but the inode that they are about: `Stores` says
what a file contains.
-/

namespace Xv6.Mkfs

open Lib
open Function (update update_of_ne update_self)

variable {s t : Img} {i : Fin NINODES}

/-! ## Inodes of the image -/

/-- The block map of the image is that of its inodes. -/
structure Sound (s : Img) : Prop where
  maps : Maps (fun i => s.inode i) s.sect s.freeblock fun i => blocks (s.inode i).size.toNat
  nsect : s.nsect = FSSIZE

theorem iblock_lt_nsect (hsect : s.nsect = FSSIZE) (i : Fin NINODES) : IBLOCK i < s.nsect := by
  rw [hsect]
  exact lt_trans (Img.iblock_lt i.isLt) (by decide)

theorem rinode_eq (hsect : s.nsect = FSSIZE) (i : Fin NINODES) : s.rinode i = .ok (s.inode i) := by
  rw [Img.rinode, Img.rsect, if_pos (iblock_lt_nsect hsect i)]
  rfl

theorem winode_eq (hsect : s.nsect = FSSIZE) (i : Fin NINODES) (d : Dinode) :
    s.winode i d = .ok (s.setInode i d) := by
  rw [Img.winode, Img.rsect, if_pos (iblock_lt_nsect hsect i)]
  rfl

theorem nsect_setInode (hsect : s.nsect = FSSIZE) (i : Fin NINODES) (d : Dinode) :
    (s.setInode i d).nsect = FSSIZE := by
  rw [Img.setInode, Img.nsect_wsect (iblock_lt_nsect hsect i), hsect]

theorem inode_setInode (s : Img) (i : Fin NINODES) (d : Dinode) (j : Fin NINODES) :
    (s.setInode i d).inode j = if j = i then d else s.inode j := by
  split
  · next hj => rw [hj, Img.inode_setInode_self]
  · next hj => rw [Img.inode_setInode_of_ne (fun h => hj (Fin.ext h))]

section Frame
variable {inode g : Fin NINODES → Dinode} {sect sect' : ℕ → Buf} {free : ℕ}
  {nb nb' : Fin NINODES → ℕ}

/-- The block numbers are in the addresses and in blocks past the meta blocks. -/
theorem Owns.number_eq (h : Owns inode sect free) (hsect : ∀ b, nmeta ≤ b → sect' b = sect b)
    (haddrs : ∀ j, (g j).addrs = (inode j).addrs) (j : Fin NINODES) (x : Slot) :
    number sect' (g j) x = number sect (inode j) x := by
  have hind : (g j).indirect = (inode j).indirect := by
    rw [Dinode.indirect, Dinode.indirect, haddrs]
  have hlarge : (inode j).indirect ≠ 0 → sect' (inode j).indirect = sect (inode j).indirect :=
    fun hne => hsect _ (h.bounds (a := .addr (Fin.last NDIRECT)) hne).1
  rw [← number_congr hlarge]
  cases x with
  | addr k => simp only [number, haddrs]
  | entry k => simp only [number, hind]

theorem Maps.congr (h : Maps inode sect free nb) (hsect : ∀ b, nmeta ≤ b → sect' b = sect b)
    (haddrs : ∀ j, (g j).addrs = (inode j).addrs) (hnb : ∀ j, nb' j = nb j) :
    Maps g sect' free nb' := by
  have hnumber := h.toOwns.number_eq hsect haddrs
  refine ⟨h.toOwns.congr (fun b hb => hsect b (h.nmeta_le.trans hb)) hnumber, fun j x => ?_⟩
  rw [hnumber, h.used, hnb]

theorem Owns.byteAt_eq (h : Owns inode sect free) (hsect : ∀ b, nmeta ≤ b → sect' b = sect b)
    (haddrs : ∀ j, (g j).addrs = (inode j).addrs) (j : Fin NINODES) (a : ℕ) :
    byteAt sect' (g j) a = byteAt sect (inode j) a := by
  unfold byteAt
  rw [h.number_eq hsect haddrs]
  split
  · rfl
  · next hne => rw [hsect _ (h.bounds hne).1]

end Frame

theorem sect_setInode {b : ℕ} (hb : b < inodestart ∨ nmeta ≤ b) (i : Fin NINODES) (d : Dinode) :
    (s.setInode i d).sect b = s.sect b := by
  have hblock := Img.iblock_lt i.isLt
  have hmap : bmapstart ≤ nmeta := by decide
  have hstart : inodestart ≤ IBLOCK i := Nat.le_add_left ..
  exact Img.sect_setInode_of_ne (by omega) d

theorem inode_congr (hsect : ∀ b, inodestart ≤ b → b < bmapstart → t.sect b = s.sect b)
    (j : Fin NINODES) : t.inode j = s.inode j := by
  rw [Img.inode, Img.inode, hsect _ (Nat.le_add_left ..) (Img.iblock_lt j.isLt)]

/-! ## `iappend` -/

/-- The inode `i` has the type and the contents; the rest of its last block is zero. -/
structure Stores (s : Img) (i : Fin NINODES) (type : UInt16) (data : List UInt8) : Prop where
  type : (s.inode i).type = type
  size : (s.inode i).size.toNat = data.length
  byteAt : ∀ a, a / BSIZE < MAXFILE → byteAt s.sect (s.inode i) a = data.getD a 0

/-- The bytes `p` have been appended to the inode `i`. -/
structure Appends (s : Img) (i : Fin NINODES) (p : List UInt8) (t : Img) : Prop where
  sound : Sound t
  size : (t.inode i).size.toNat = (s.inode i).size.toNat + p.length
  stores : ∀ {type data}, Stores s i type data → Stores t i type (data ++ p)
  other : ∀ j ≠ i, t.inode j = s.inode j
  kept : ∀ {j type data}, j ≠ i → Stores s j type data → Stores t j type data
  freeblock : t.freeblock + taken (blocks (s.inode i).size.toNat) =
    s.freeblock + taken (blocks ((s.inode i).size.toNat + p.length))
  freeinode : t.freeinode = s.freeinode
  sect : ∀ b, 0 < b → b < inodestart → t.sect b = s.sect b

namespace Appends

variable {p q : List UInt8} {u : Img}

theorem nothing (h : Sound s) (i : Fin NINODES) : Appends s i [] s :=
  ⟨h, rfl, fun hst => by rwa [List.append_nil], fun _ _ => rfl, fun _ hst => hst, rfl, rfl,
    fun _ _ _ => rfl⟩

theorem trans (h : Appends s i p t) (h' : Appends t i q u) : Appends s i (p ++ q) u where
  sound := h'.sound
  size := by rw [h'.size, h.size, List.length_append, Nat.add_assoc]
  stores hst := by
    rw [← List.append_assoc]
    exact h'.stores (h.stores hst)
  other j hj := (h'.other j hj).trans (h.other j hj)
  kept hj hst := h'.kept hj (h.kept hj hst)
  freeblock := by
    have hfirst := h.freeblock
    have hsecond := h'.freeblock
    rw [h.size, Nat.add_assoc] at hsecond
    rw [List.length_append]
    omega
  freeinode := h'.freeinode.trans h.freeinode
  sect b hpos hb := (h'.sect b hpos hb).trans (h.sect b hpos hb)

end Appends

/-- The inode is written back with its new size. -/
theorem Appended.appends {p : List UInt8} {din d : Dinode}
    (h : Appended (fun i => s.inode i) (fun i => blocks (s.inode i).size.toNat) s i
      (s.inode i).size.toNat p din t)
    (hd : d.addrs = din.addrs) (htype : d.type = din.type)
    (hsize : d.size.toNat = (s.inode i).size.toNat + p.length) :
    Appends s i p (t.setInode i d) := by
  have hinode : ∀ j : Fin NINODES, t.inode j = s.inode j := inode_congr fun b hle hlt =>
    h.sect b (lt_of_lt_of_le (by decide) hle) (lt_of_lt_of_le hlt (by decide))
  have haddrs : ∀ j : Fin NINODES, ((t.setInode i d).inode j).addrs =
      (update (fun j : Fin NINODES => s.inode j) i din j).addrs := by
    intro j
    rw [inode_setInode]
    split
    · next hj => rw [hj, update_self, hd]
    · next hj => rw [update_of_ne hj, hinode]
  have hsect : ∀ b, nmeta ≤ b → (t.setInode i d).sect b = t.sect b := fun b hb =>
    sect_setInode (.inr hb) i d
  have hbyte : ∀ (j : Fin NINODES) a, a / BSIZE < MAXFILE →
      Mkfs.byteAt (t.setInode i d).sect ((t.setInode i d).inode j) a =
        if j = i ∧ (s.inode i).size.toNat ≤ a ∧ a < (s.inode i).size.toNat + p.length
        then p.getD (a - (s.inode i).size.toNat) 0 else Mkfs.byteAt s.sect (s.inode j) a :=
    fun j a ha => (h.maps.toOwns.byteAt_eq hsect haddrs j a).trans (h.byteAt j a ha)
  refine ⟨⟨h.maps.congr hsect haddrs fun j => ?_, nsect_setInode h.nsect i d⟩, ?_,
    fun hst => ⟨?_, ?_, fun a ha => ?_⟩, fun j hj => ?_, fun hj hst => ⟨?_, ?_, fun a ha => ?_⟩,
    h.freeblock, h.freeinode, fun b hpos hb => ?_⟩
  · rw [inode_setInode]
    split
    · next hj => rw [hj, update_self, hsize]
    · next hj => rw [update_of_ne hj, hinode]
  · rw [inode_setInode, if_pos rfl, hsize]
  · obtain ⟨f, rfl⟩ := h.addrs
    rw [inode_setInode, if_pos rfl, htype]
    exact hst.type
  · rw [inode_setInode, if_pos rfl, hsize, hst.size, List.length_append]
  · rw [hbyte i a ha, hst.byteAt a ha, hst.size, getD_append_eq]
    simp only [true_and]
  · rw [inode_setInode, if_neg hj, hinode]
  · rw [inode_setInode, if_neg hj, hinode, hst.type]
  · rw [inode_setInode, if_neg hj, hinode, hst.size]
  · rw [hbyte _ a ha, if_neg fun h => hj h.1, hst.byteAt a ha]
  · rw [sect_setInode (.inl hb), h.sect b hpos (lt_trans hb (by decide))]

/-- `iappend` succeeds if there is room. -/
theorem appends_iappend {p : List UInt8} (h : Sound s)
    (hmax : (s.inode i).size.toNat + p.length ≤ MAXFILE * BSIZE)
    (hroom : s.freeblock + taken (blocks ((s.inode i).size.toNat + p.length)) ≤
      FSSIZE + taken (blocks (s.inode i).size.toNat)) :
    ∃ t, s.iappend i p = .ok t ∧ Appends s i p t := by
  obtain ⟨din, u, hloop, happ⟩ := appended_iappendLoop (i := i) (t := p.length) h.maps h.nsect rfl
    le_rfl hmax hroom
  refine ⟨_, ?_, happ.appends
    (d := { din with size := .ofNat ((s.inode i).size.toNat + p.length) }) rfl rfl ?_⟩
  · rw [Img.iappend, rinode_eq h.nsect]
    simp only [bind, Except.bind]
    rw [hloop]
    exact winode_eq happ.nsect i _
  · exact Nat.mod_eq_of_lt (lt_of_le_of_lt hmax (by decide))

/-- The loop that copies a file in succeeds if there is room for the file. -/
theorem appends_copyFile {n : ℕ} (data : List UInt8) (h : Sound s) (hn : data.length ≤ n)
    (hmax : (s.inode i).size.toNat + data.length ≤ MAXFILE * BSIZE)
    (hroom : s.freeblock + taken (blocks ((s.inode i).size.toNat + data.length)) ≤
      FSSIZE + taken (blocks (s.inode i).size.toNat)) :
    ∃ t, copyFile i n s data = .ok t ∧ Appends s i data t := by
  induction n generalizing s data with
  | zero =>
    obtain rfl : data = [] := List.eq_nil_of_length_eq_zero (by omega)
    exact ⟨s, rfl, .nothing h i⟩
  | succ n ih =>
    rw [copyFile]
    by_cases hdata : (data.take BSIZE).length > 0
    · have hsum : (data.take BSIZE).length + (data.drop BSIZE).length = data.length := by
        rw [← List.length_append, List.take_append_drop]
      have htaken : taken (blocks ((s.inode i).size.toNat + (data.take BSIZE).length)) ≤
          taken (blocks ((s.inode i).size.toNat + data.length)) :=
        taken_mono (blocks_mono (by omega))
      obtain ⟨t, ht, happ⟩ := appends_iappend (i := i) (p := data.take BSIZE) h (by omega)
        (by omega)
      have hfree := happ.freeblock
      obtain ⟨u, hu, hrest⟩ := ih (s := t) (data.drop BSIZE) happ.sound (by omega)
        (by rw [happ.size]; omega)
        (by rw [happ.size, Nat.add_assoc, hsum]; omega)
      refine ⟨u, ?_, ?_⟩
      · rw [if_pos hdata, ht]
        exact hu
      · have htrans := happ.trans hrest
        rwa [List.take_append_drop] at htrans
    · have hnil : data = [] := by
        rw [List.length_take] at hdata
        refine List.eq_nil_of_length_eq_zero ?_
        simp only [BSIZE] at hdata
        omega
      subst hnil
      exact ⟨s, by rw [if_neg hdata], .nothing h i⟩

/-- The inode `i` has been allocated. -/
structure Allocs (s : Img) (i : Fin NINODES) (type : UInt16) (t : Img) : Prop where
  sound : Sound t
  stores : Stores t i type []
  other : ∀ j ≠ i, t.inode j = s.inode j
  kept : ∀ {j type data}, j ≠ i → Stores s j type data → Stores t j type data
  freeblock : t.freeblock = s.freeblock
  freeinode : t.freeinode = s.freeinode + 1
  sect : ∀ b, b < inodestart → t.sect b = s.sect b

/-- An inode of size 0 has no blocks. -/
theorem Sound.number_eq_zero (h : Sound s) (hsize : (s.inode i).size = 0) (x : Slot) :
    number s.sect (s.inode i) x = 0 := by
  by_contra hne
  have hused := (h.maps.used i x).mp hne
  rw [hsize] at hused
  cases x <;> simp [Slot.Used, blocks, BSIZE] at hused

theorem allocs_ialloc (h : Sound s) (type : UInt16) (hi : s.freeinode = i)
    (hsize : (s.inode i).size = 0) : ∃ t, s.ialloc type = .ok (↑i, t) ∧ Allocs s i type t := by
  set s₁ : Img := { s with freeinode := s.freeinode + 1 } with hs₁
  set d : Dinode := ⟨type, 0, 0, 1, 0, fun _ => 0⟩ with hd
  have haddrs : ∀ j : Fin NINODES, ((s₁.setInode i d).inode j).addrs = (s.inode j).addrs := by
    intro j
    rw [inode_setInode]
    split
    · next hj =>
        funext k
        have hzero := h.number_eq_zero hsize (.addr k)
        rw [hj, hd]
        exact UInt32.toNat_inj.mp hzero.symm
    · rfl
  have hsect : ∀ b, nmeta ≤ b → (s₁.setInode i d).sect b = s.sect b := fun b hb =>
    sect_setInode (.inr hb) i d
  refine ⟨s₁.setInode i d, ?_, ⟨h.maps.congr hsect haddrs fun j => ?_, nsect_setInode h.nsect i d⟩,
    ⟨?_, ?_, fun a ha => ?_⟩, fun j hj => ?_, fun hj hst => ⟨?_, ?_, fun a ha => ?_⟩, rfl, rfl,
    fun b hb => sect_setInode (.inl hb) i d⟩
  · have hwrite : s₁.winode s.freeinode d = .ok (s₁.setInode i d) := by
      rw [hi]
      exact winode_eq (s := s₁) h.nsect i d
    rw [Img.ialloc, hwrite, hi]
    rfl
  · rw [inode_setInode]
    split
    · next hj => rw [hj, hsize, hd]
    · rfl
  · rw [inode_setInode, if_pos rfl]
  · rw [inode_setInode, if_pos rfl]
    rfl
  · rw [h.maps.toOwns.byteAt_eq hsect haddrs, byteAt, if_pos (h.number_eq_zero hsize _)]
    rfl
  · rw [inode_setInode, if_neg hj]
    rfl
  · rw [inode_setInode, if_neg hj]
    exact hst.type
  · rw [inode_setInode, if_neg hj]
    exact hst.size
  · rw [h.maps.toOwns.byteAt_eq hsect haddrs, hst.byteAt a ha]

end Xv6.Mkfs
