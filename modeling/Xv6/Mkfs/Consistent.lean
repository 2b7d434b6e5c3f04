import Mathlib.Data.List.Induction
import Xv6.Mkfs.Sound

/-!
# The image that `mkfs` builds

For files that fit, `mkfs` succeeds, and before its last two steps the image holds the root
directory and the files, in blocks of their own (`built_addFiles`). Then it rounds the size of the
root directory up to the next multiple of the block size, to a larger one if it is a multiple
already. In that case the size covers a block that has not been allocated.
-/

namespace Xv6.Mkfs

open Lib
open Function (update update_eq_self update_of_ne update_self)

variable {s t : Img} {files : List File}

/-! ## The files -/

/-- The name of a file in the root directory. -/
def nameOf (path : List UInt8) : List UInt8 :=
  if (strip path).head? = some '_'.toUInt8 then (strip path).drop 1 else strip path

theorem shortname_eq {path : List UInt8} (h : '/'.toUInt8 ∉ strip path) :
    shortname path = .ok (nameOf path) := by
  rw [shortname]
  exact if_neg h

/-- The contents of the root directory. -/
def rootData (files : List File) : List UInt8 :=
  dirent ROOTINO (chars ".") ++ dirent ROOTINO (chars "..") ++
    (files.zipIdx 2).flatMap fun f => dirent f.2 (nameOf f.1.path)

/-- The first blocks that the image needs. -/
def need (files : List File) : ℕ :=
  nmeta + taken (blocks (rootData files).length) +
    (files.map fun f => taken (blocks f.data.length)).sum

/-- The files fit into the image. -/
structure Fits (files : List File) : Prop where
  inodes : files.length + 1 ≤ NINODES - 1
  names : ∀ f ∈ files, '/'.toUInt8 ∉ strip f.path
  sizes : ∀ f ∈ files, f.data.length ≤ MAXFILE * BSIZE
  need_le : need files ≤ FSSIZE

theorem length_dirent (inum : ℕ) (name : List UInt8) : (dirent inum name).length = DIRENT := by
  simp [dirent, DIRSIZ, DIRENT]

theorem rootData_concat (files : List File) (f : File) :
    rootData (files ++ [f]) = rootData files ++ dirent (files.length + 2) (nameOf f.path) := by
  simp [rootData, List.zipIdx_append, Nat.add_comm]

theorem length_rootData (files : List File) :
    (rootData files).length = DIRENT * (files.length + 2) := by
  induction files using List.reverseRecOn with
  | nil => rfl
  | append_singleton files f ih =>
    rw [rootData_concat, List.length_append, ih, length_dirent, List.length_append]
    simp only [DIRENT, List.length_cons, List.length_nil]
    omega

theorem need_mono (done : List File) (f : File) (rest : List File) :
    need (done ++ [f]) ≤ need (done ++ f :: rest) := by
  have hroot : taken (blocks (rootData (done ++ [f])).length) ≤
      taken (blocks (rootData (done ++ f :: rest)).length) := by
    refine taken_mono (blocks_mono ?_)
    simp only [length_rootData, List.length_append, List.length_cons, List.length_nil, DIRENT]
    omega
  simp only [need, List.map_append, List.map_cons, List.map_nil, List.sum_append, List.sum_cons,
    List.sum_nil]
  omega

/-! ## Building -/

/-- The inode of the root directory. -/
def root : Fin NINODES := ⟨ROOTINO, by decide⟩

/-- The root directory and the files are in the image. -/
structure Built (files : List File) (s : Img) : Prop where
  sound : Sound s
  freeinode : s.freeinode = files.length + 2
  blank : ∀ j : Fin NINODES, j.val = 0 ∨ s.freeinode ≤ j → (s.inode j).size = 0
  dir : Stores s root T_DIR (rootData files)
  file : ∀ j : Fin NINODES, ∀ f, 2 ≤ j.val → files[j.val - 2]? = some f → Stores s j T_FILE f.data
  freeblock : s.freeblock = need files

theorem zeroed (n : ℕ) : (List.range n).foldl (fun s i => Img.wsect s i fun _ => 0)
    ⟨0, fun _ _ => 0, 1, nmeta⟩ = ⟨n, fun _ _ => 0, 1, nmeta⟩ := by
  induction n with
  | zero => rfl
  | succ n ih =>
    rw [List.range_succ, List.foldl_append, ih, List.foldl_cons, List.foldl_nil, Img.wsect]
    congr
    · exact max_eq_right (Nat.le_succ n)
    · exact update_eq_self n _

theorem format_eq : format = Img.wsect ⟨FSSIZE, fun _ _ => 0, 1, nmeta⟩ 1
    (blit (fun _ => 0) 0 32 fun i => byteLe (superblock.getD (i / 4) 0) (i % 4)) := by
  simp only [format, zeroed]

theorem sect_format {b : ℕ} (hb : b ≠ 1) : format.sect b = fun _ => 0 := by
  rw [format_eq, Img.sect_wsect_of_ne hb]

theorem inode_format (i : ℕ) : format.inode i = ⟨0, 0, 0, 0, 0, fun _ => 0⟩ := by
  have hblock : IBLOCK i ≠ 1 := by
    have : IBLOCK i = i / 16 + 32 := rfl
    omega
  rw [Img.inode, sect_format hblock, getDinode]
  simp only [getLe_zero]
  rfl

/-- The image starts without inodes. -/
theorem sound_format : Sound format := by
  have hnumber : ∀ (i : Fin NINODES) x, number format.sect (format.inode i) x = 0 := by
    intro i x
    rw [inode_format]
    cases x <;> rfl
  have hfree : format.freeblock = nmeta := by
    rw [format_eq]
    rfl
  refine ⟨⟨⟨⟨?_, fun b => ?_⟩, fun b hb => ?_, hfree.ge⟩, fun i x => ?_⟩, ?_⟩
  · rintro a a' b ⟨hne, hb⟩
    exact absurd (hb.symm.trans (hnumber a.1 a.2)) hne
  · constructor
    · omega
    · rintro ⟨a, hne, hb⟩
      exact absurd (hb.symm.trans (hnumber a.1 a.2)) hne
  · refine sect_format ?_
    have hmeta : 1 < nmeta := by decide
    omega
  · rw [hnumber, inode_format]
    cases x <;> simp [Slot.Used, blocks, BSIZE]
  · rw [format_eq]
    rfl

theorem need_concat (files : List File) (f : File) :
    need (files ++ [f]) + taken (blocks (rootData files).length) =
      need files + taken (blocks ((rootData files).length + DIRENT)) +
        taken (blocks f.data.length) := by
  simp only [need, rootData_concat, List.length_append, length_dirent, List.map_append,
    List.map_cons, List.map_nil, List.sum_append, List.sum_cons, List.sum_nil]
  omega

theorem built_addFile {f : File} (h : Built files s) (hino : files.length + 2 < NINODES)
    (hname : '/'.toUInt8 ∉ strip f.path) (hsize : f.data.length ≤ MAXFILE * BSIZE)
    (hneed : need (files ++ [f]) ≤ FSSIZE) :
    ∃ t, addFile root s f = .ok t ∧ Built (files ++ [f]) t := by
  have hcount : files.length < 198 := by
    rw [NINODES] at hino
    omega
  set i : Fin NINODES := ⟨files.length + 2, hino⟩ with hi
  have hroot : root ≠ i := fun heq => by
    have := congrArg Fin.val heq
    simp [root, hi, ROOTINO] at this
  have hconcat := need_concat files f
  have hlen := length_rootData files
  obtain ⟨s₁, hs₁, halloc⟩ := allocs_ialloc (i := i) h.sound T_FILE h.freeinode
    (h.blank i (.inr (by rw [h.freeinode])))
  have hdir := halloc.kept hroot h.dir
  have hfree₁ : s₁.freeblock = need files := halloc.freeblock.trans h.freeblock
  obtain ⟨s₂, hs₂, happ⟩ := appends_iappend (i := root)
    (p := dirent (files.length + 2) (nameOf f.path)) halloc.sound
    (by
      rw [hdir.size, length_dirent, hlen]
      simp only [DIRENT, MAXFILE, NDIRECT, NINDIRECT, BSIZE]
      omega)
    (by rw [hdir.size, length_dirent]; omega)
  have hfree₂ := happ.freeblock
  rw [hdir.size, length_dirent] at hfree₂
  have hnew := happ.kept (Ne.symm hroot) halloc.stores
  obtain ⟨s₃, hs₃, hcopy⟩ := appends_copyFile (i := i) (n := f.data.length) f.data
    happ.sound le_rfl (by rw [hnew.size]; simpa using hsize)
    (by rw [hnew.size, List.length_nil, Nat.zero_add]; omega)
  have hfree₃ := hcopy.freeblock
  rw [hnew.size, List.length_nil, Nat.zero_add] at hfree₃
  have hzero : taken (blocks 0) = 0 := by decide
  refine ⟨s₃, ?_, hcopy.sound, ?_, fun j hj => ?_, ?_, fun j g hj hg => ?_, ?_⟩
  · rw [addFile, shortname_eq hname]
    simp only [bind, Except.bind]
    rw [hs₁]
    dsimp only
    rw [hs₂]
    exact hs₃
  · rw [hcopy.freeinode, happ.freeinode, halloc.freeinode, h.freeinode, List.length_append]
    rfl
  · rw [hcopy.freeinode, happ.freeinode, halloc.freeinode] at hj
    have hji : j ≠ i := by
      rintro rfl
      have hval : i.val = files.length + 2 := rfl
      rw [hval, h.freeinode] at hj
      omega
    have hjr : j ≠ root := by
      rintro rfl
      have hval : root.val = 1 := rfl
      rw [hval, h.freeinode] at hj
      omega
    rw [hcopy.other j hji, happ.other j hjr, halloc.other j hji]
    exact h.blank j (by omega)
  · rw [rootData_concat]
    exact hcopy.kept hroot (happ.stores hdir)
  · by_cases hji : j = i
    · subst hji
      have hget : (files ++ [f])[files.length + 2 - 2]? = some f := by simp
      obtain rfl : f = g := Option.some.inj (hget.symm.trans hg)
      exact hcopy.stores hnew
    · have hjr : j ≠ root := by
        rintro rfl
        have hval : root.val = 1 := rfl
        omega
      have hold : files[j.val - 2]? = some g := by
        rw [List.getElem?_append] at hg
        split at hg
        · exact hg
        · next hge =>
            have hval : j.val = files.length + 2 := by
              have := (List.getElem?_eq_some_iff.mp hg).1
              simp only [List.length_cons, List.length_nil] at this
              omega
            exact absurd (Fin.ext hval) hji
      exact hcopy.kept hji (happ.kept hjr (halloc.kept hji (h.file j g hj hold)))
  · omega

/-- The root directory with its two entries. -/
theorem built_nil : ∃ s₁ s₂ s₃, format.ialloc T_DIR = .ok (ROOTINO, s₁) ∧
    s₁.iappend ROOTINO (dirent ROOTINO (chars ".")) = .ok s₂ ∧
    s₂.iappend ROOTINO (dirent ROOTINO (chars "..")) = .ok s₃ ∧ Built [] s₃ := by
  have hino : format.freeinode = 1 := by
    rw [format_eq]
    rfl
  have hfree : format.freeblock = nmeta := by
    rw [format_eq]
    rfl
  obtain ⟨s₁, hs₁, halloc⟩ := allocs_ialloc (i := root) sound_format T_DIR hino
    (by rw [inode_format])
  have hdir := halloc.stores
  have hfree₁ := halloc.freeblock.trans hfree
  obtain ⟨s₂, hs₂, happ⟩ := appends_iappend (i := root) (p := dirent ROOTINO (chars "."))
    halloc.sound (by rw [hdir.size]; decide) (by rw [hdir.size, hfree₁]; decide)
  have hdir₂ := happ.stores hdir
  have hfree₂ := happ.freeblock
  rw [hdir.size, hfree₁] at hfree₂
  have hcount : s₂.freeblock = nmeta + 1 := by
    have hcost : taken (blocks ([] : List UInt8).length) = 0 ∧
        taken (blocks (([] : List UInt8).length + (dirent ROOTINO (chars ".")).length)) = 1 := by
      decide
    omega
  obtain ⟨s₃, hs₃, happ'⟩ := appends_iappend (i := root) (p := dirent ROOTINO (chars ".."))
    happ.sound (by rw [hdir₂.size]; decide) (by rw [hdir₂.size, hcount]; decide)
  have hfree₃ := happ'.freeblock
  rw [hdir₂.size, hcount] at hfree₃
  refine ⟨s₁, s₂, s₃, hs₁, hs₂, hs₃, happ'.sound, ?_, fun j hj => ?_, ?_, fun j f hj hf => ?_, ?_⟩
  · rw [happ'.freeinode, happ.freeinode, halloc.freeinode, hino]
    rfl
  · rw [happ'.freeinode, happ.freeinode, halloc.freeinode, hino] at hj
    have hjr : j ≠ root := by
      rintro rfl
      have hval : root.val = 1 := rfl
      omega
    rw [happ'.other j hjr, happ.other j hjr, halloc.other j hjr, inode_format]
  · exact happ'.stores hdir₂
  · simp at hf
  · have hcost : need [] = nmeta + 1 := by decide
    have hcost' : taken (blocks ([] ++ dirent ROOTINO (chars ".")).length) = 1 ∧
        taken (blocks (([] ++ dirent ROOTINO (chars ".")).length +
          (dirent ROOTINO (chars "..")).length)) = 1 := by
      decide
    omega

/-- The image before its last two steps. -/
theorem built_addFiles (h : Fits files) :
    ∃ s, Built files s ∧ main files = (fixRoot s ROOTINO).bind fun t => t.balloc t.freeblock := by
  obtain ⟨s₁, s₂, s₃, hs₁, hs₂, hs₃, hnil⟩ := built_nil
  obtain ⟨s, hs, hbuilt⟩ := foldlM_prefix files (f := addFile root) (P := Built) hnil
    fun done f rest hfiles s hdone => by
      have hlen : files.length = done.length + (rest.length + 1) := by simp [hfiles]
      have hmem : f ∈ files := by simp [hfiles]
      have hinodes := h.inodes
      refine built_addFile hdone ?_ (h.names f hmem) (h.sizes f hmem) ?_
      · simp only [NINODES] at *
        omega
      · exact (need_mono done f rest).trans (hfiles ▸ h.need_le)
  refine ⟨s, hbuilt, ?_⟩
  rw [main, hs₁]
  simp only [bind, Except.bind, ne_eq, not_true_eq_false, if_false]
  rw [hs₂]
  dsimp only
  rw [hs₃]
  dsimp only
  have hroot : addFile ROOTINO = addFile root := rfl
  rw [hroot, hs]

/-- The bit of the block `b` in the free map. -/
def Img.bit (s : Img) (b : ℕ) : Bool :=
  (s.sect (bmapstart + b / BPB) (b % BPB / 8)).toNat.testBit (b % 8)

theorem testBit_bits (used b : ℕ) :
    (Img.bits used (b / 8)).toNat.testBit (b % 8) = decide (b < used) := by
  induction used with
  | zero => simp [Img.bits]
  | succ n ih =>
    rw [Img.bits, List.range_succ, List.foldl_append, List.foldl_cons, List.foldl_nil]
    change ((update (Img.bits n) (n / 8) _) (b / 8)).toNat.testBit (b % 8) = _
    by_cases hbyte : b / 8 = n / 8
    · have hpow : 2 ^ (n % 8) < 2 ^ 8 := Nat.pow_lt_pow_right (by omega) (Nat.mod_lt _ (by omega))
      change ((update (Img.bits n) (n / 8)
        (Img.bits n (n / 8) ||| UInt8.ofNat (0x1 <<< (n % 8)))) (b / 8)).toNat.testBit (b % 8) = _
      rw [hbyte, update_self, UInt8.toNat_or, Nat.testBit_or, ← hbyte, ih,
        UInt8.toNat_ofNat', Nat.one_shiftLeft, Nat.mod_eq_of_lt hpow, Nat.testBit_two_pow,
        ← Bool.decide_or, decide_eq_decide]
      omega
    · rw [update_of_ne hbyte, ih, decide_eq_decide]
      omega

/-! ## Consistency -/

/-- The number of the block with index `bn`; 0 is none. -/
def Img.addr (s : Img) (i : Fin NINODES) (bn : ℕ) : ℕ :=
  if bn < MAXFILE then number s.sect (s.inode i) (slotOf bn) else 0

/-- Is the inode allocated? -/
def Img.Allocated (s : Img) (i : Fin NINODES) : Prop := (s.inode i).type ≠ 0

/-- What an image has to be. -/
structure Consistent (s : Img) : Prop where
  /-- The blocks of a file are those that its size covers. -/
  mapped : ∀ i, s.Allocated i → ∀ bn, s.addr i bn ≠ 0 ↔ bn < blocks (s.inode i).size.toNat
  /-- There is an indirect block if the file has more blocks than the inode has addresses for. -/
  indirect : ∀ i, s.Allocated i →
    ((s.inode i).indirect ≠ 0 ↔ NDIRECT < blocks (s.inode i).size.toNat)
  /-- No block is stored twice. -/
  once : ∀ i j x y, s.Allocated i → s.Allocated j → number s.sect (s.inode i) x ≠ 0 →
    number s.sect (s.inode i) x = number s.sect (s.inode j) y → i = j ∧ x = y
  /-- The blocks have been allocated. -/
  range : ∀ i x, s.Allocated i → number s.sect (s.inode i) x ≠ 0 →
    nmeta ≤ number s.sect (s.inode i) x ∧ number s.sect (s.inode i) x < s.freeblock
  /-- The free map has the bits of the allocated blocks. -/
  bitmap : ∀ b < nbitmap * BPB, s.bit b = true ↔ b < s.freeblock

/-- The image when `mkfs` is done. -/
structure Finished (s t : Img) : Prop where
  inode_root : t.inode root =
    { s.inode root with size := .ofNat (((s.inode root).size.toNat / BSIZE + 1) * BSIZE) }
  inode : ∀ j ≠ root, t.inode j = s.inode j
  sect : ∀ b, nmeta ≤ b → t.sect b = s.sect b
  freeblock : t.freeblock = s.freeblock
  bit : ∀ b < nbitmap * BPB, t.bit b = decide (b < s.freeblock)

theorem Finished.addrs (h : Finished s t) (j : Fin NINODES) :
    (t.inode j).addrs = (s.inode j).addrs := by
  by_cases hj : j = root
  · rw [hj, h.inode_root]
  · rw [h.inode j hj]

theorem Finished.type (h : Finished s t) (j : Fin NINODES) :
    (t.inode j).type = (s.inode j).type := by
  by_cases hj : j = root
  · rw [hj, h.inode_root]
  · rw [h.inode j hj]

theorem finished_main (h : Fits files) :
    ∃ s t, Built files s ∧ main files = .ok t ∧ Finished s t := by
  obtain ⟨s, hbuilt, hmain⟩ := built_addFiles h
  set d : Dinode :=
    { s.inode root with size := .ofNat (((s.inode root).size.toNat / BSIZE + 1) * BSIZE) } with hd
  have hfix : fixRoot s ROOTINO = .ok (s.setInode root d) := by
    have hread := rinode_eq hbuilt.sound.nsect root
    rw [fixRoot, show ROOTINO = (root : ℕ) from rfl, hread]
    exact winode_eq hbuilt.sound.nsect root d
  have hfree : s.freeblock < BSIZE * 8 := by
    rw [hbuilt.freeblock]
    exact lt_of_le_of_lt h.need_le (by decide)
  have hinode : ∀ j : Fin NINODES, ((s.setInode root d).wsect bmapstart
      (Img.bits s.freeblock)).inode j = (s.setInode root d).inode j :=
    inode_congr fun b _ hlt => Img.sect_wsect_of_ne (by omega) _
  refine ⟨s, (s.setInode root d).wsect bmapstart (Img.bits s.freeblock), hbuilt, ?_, ?_,
    fun j hj => ?_, fun b hb => ?_, rfl, fun b hb => ?_⟩
  · rw [hmain, hfix]
    exact if_pos hfree
  · rw [hinode, inode_setInode, if_pos rfl]
  · rw [hinode, inode_setInode, if_neg hj]
  · have hmap : bmapstart < nmeta := by decide
    rw [Img.sect_wsect_of_ne (by omega), sect_setInode (.inr hb)]
  · have hlt : b < BPB := lt_of_lt_of_eq hb (by decide)
    have hblock : b / BPB = 0 ∧ b % BPB = b := ⟨Nat.div_eq_of_lt hlt, Nat.mod_eq_of_lt hlt⟩
    rw [Img.bit, hblock.1, hblock.2, Nat.add_zero, Img.sect_wsect_self, testBit_bits]

/-- The blocks of an inode are those of its size before the root was rounded up. -/
theorem Finished.addr_ne_zero (hb : Built files s) (h : Finished s t) (i : Fin NINODES) (bn : ℕ) :
    t.addr i bn ≠ 0 ↔ bn < MAXFILE ∧ bn < blocks (s.inode i).size.toNat := by
  rw [Img.addr]
  split
  · next hbn =>
      rw [hb.sound.maps.toOwns.number_eq (g := fun j => t.inode j) h.sect h.addrs i,
        hb.sound.maps.used, used_slotOf_iff hbn]
      simp [hbn]
  · next hbn => simp [hbn]

/-- No inode is larger than a file may be. -/
theorem Built.blocks_le (h : Built files s) (hfit : Fits files) (i : Fin NINODES) :
    blocks (s.inode i).size.toNat ≤ MAXFILE := by
  have hmax : ∀ n, n ≤ MAXFILE * BSIZE → blocks n ≤ MAXFILE := fun n hn => by
    simp only [blocks, MAXFILE, NDIRECT, NINDIRECT, BSIZE] at *
    omega
  refine hmax _ ?_
  by_cases hblank : i.val = 0 ∨ s.freeinode ≤ i
  · rw [h.blank i hblank]
    exact Nat.zero_le _
  rw [h.freeinode] at hblank
  by_cases hroot : i = root
  · rw [hroot, h.dir.size, length_rootData]
    have hcount : files.length + 1 ≤ 199 := hfit.inodes
    simp only [DIRENT, MAXFILE, NDIRECT, NINDIRECT, BSIZE]
    omega
  · have hval : i.val ≠ 1 := fun heq => hroot (Fin.ext heq)
    obtain ⟨f, hf⟩ : ∃ f, files[i.val - 2]? = some f :=
      ⟨_, List.getElem?_eq_getElem (by omega)⟩
    rw [(h.file i f (by omega) hf).size]
    exact hfit.sizes f (List.mem_of_getElem? hf)

/-- **Consistency of the image.** For files that fit, `mkfs` succeeds, and its image is consistent
if and only if the entries of the root directory do not fill their blocks. -/
theorem consistent_iff_not_full (hfit : Fits files) : ∃ t, main files = .ok t ∧
    (Consistent t ↔ (files.length + 2) % (BSIZE / DIRENT) ≠ 0) := by
  obtain ⟨s, t, hb, hmain, hfin⟩ := finished_main hfit
  refine ⟨t, hmain, ?_⟩
  have hroot : (s.inode root).size.toNat = 16 * (files.length + 2) := by
    rw [hb.dir.size, length_rootData]
  have hcount : files.length + 1 ≤ 199 := hfit.inodes
  have hsize : (t.inode root).size.toNat = ((s.inode root).size.toNat / BSIZE + 1) * BSIZE := by
    rw [hfin.inode_root, hroot]
    exact Nat.mod_eq_of_lt (by simp only [BSIZE]; omega)
  have hblocks : blocks (t.inode root).size.toNat = (s.inode root).size.toNat / BSIZE + 1 := by
    rw [hsize]
    simp only [blocks, BSIZE]
    omega
  have hfull : blocks (s.inode root).size.toNat = (s.inode root).size.toNat / BSIZE + 1 ↔
      (files.length + 2) % (BSIZE / DIRENT) ≠ 0 := by
    rw [hroot]
    simp only [blocks, BSIZE, DIRENT]
    omega
  rw [← hfull]
  constructor
  · intro hcons
    have hdir : t.Allocated root := by
      rw [Img.Allocated, hfin.type, hb.dir.type]
      decide
    have hlast := hcons.mapped root hdir ((s.inode root).size.toNat / BSIZE)
    rw [hfin.addr_ne_zero hb, hblocks] at hlast
    have hlt := (hlast.mpr (Nat.lt_succ_self _)).2
    have hle : blocks (s.inode root).size.toNat ≤ (s.inode root).size.toNat / BSIZE + 1 := by
      simp only [blocks, BSIZE]
      omega
    exact le_antisymm hle hlt
  · intro hsame
    have hnumber := hb.sound.maps.toOwns.number_eq (g := fun j => t.inode j) hfin.sect
      hfin.addrs
    have hnb : ∀ i : Fin NINODES, blocks (t.inode i).size.toNat = blocks (s.inode i).size.toNat := by
      intro i
      by_cases hi : i = root
      · rw [hi, hblocks, hsame]
      · rw [hfin.inode i hi]
    refine ⟨fun i _ bn => ?_, fun i _ => ?_, fun i j x y _ _ hne heq => ?_, fun i x _ hne => ?_,
      fun b hbit => ?_⟩
    · have hle := hb.blocks_le hfit i
      rw [hfin.addr_ne_zero hb, hnb]
      omega
    · have hlast := hb.sound.maps.used i (.addr (Fin.last NDIRECT))
      rw [hnb, Dinode.indirect, hfin.addrs]
      exact hlast
    · rw [hnumber] at hne heq
      rw [hnumber] at heq
      obtain ⟨hj, hy⟩ := hb.sound.maps.toOwns.eq_of_number hne heq.symm
      exact ⟨hj.symm, hy.symm⟩
    · rw [hnumber] at hne ⊢
      rw [hfin.freeblock]
      exact hb.sound.maps.toOwns.bounds hne
    · rw [hfin.bit b hbit, hfin.freeblock, decide_eq_true_iff]

/-- A file with blocks behind the indirect block, and a short one. -/
def twoFiles : List File :=
  [⟨chars "user/_cat", List.replicate (13 * BSIZE + 1) 7⟩, ⟨chars "README", chars "xv6"⟩]

theorem consistent_twoFiles : ∃ t, main twoFiles = .ok t ∧ Consistent t := by
  have hlong : (List.replicate (13 * BSIZE + 1) (7 : UInt8)).length = 13 * BSIZE + 1 :=
    List.length_replicate
  have hfit : Fits twoFiles := by
    refine ⟨by decide, by decide, List.forall_mem_cons.mpr ⟨?_, by decide⟩, ?_⟩
    · rw [hlong]
      decide
    · simp only [need, length_rootData, twoFiles, List.map_cons, hlong]
      decide
  obtain ⟨t, hmain, hiff⟩ := consistent_iff_not_full hfit
  exact ⟨t, hmain, hiff.mpr (by decide)⟩

/-- Empty files with names of two letters. -/
def emptyFiles (n : ℕ) : List File :=
  (List.range n).map fun k => ⟨[UInt8.ofNat (97 + k / 26), UInt8.ofNat (97 + k % 26)], []⟩

/-- With 62 files the root directory has 64 entries in one block. Its size says two. -/
theorem fullRoot_unmapped : ∃ t, main (emptyFiles 62) = .ok t ∧ t.Allocated root ∧
    (t.inode root).size.toNat = 2 * BSIZE ∧ t.addr root 1 = 0 ∧ ¬ Consistent t := by
  have hfit : Fits (emptyFiles 62) :=
    ⟨by decide +kernel, by decide +kernel, by decide +kernel, by decide +kernel⟩
  obtain ⟨s, t, hb, hmain, hfin⟩ := finished_main hfit
  have hsize : (s.inode root).size.toNat = BSIZE := by
    rw [hb.dir.size, length_rootData]
    decide
  have hlarge : (t.inode root).size.toNat = 2 * BSIZE := by
    rw [hfin.inode_root, hsize]
    rfl
  have haddr : t.addr root 1 = 0 := by
    have hiff := hfin.addr_ne_zero hb root 1
    rw [hsize] at hiff
    by_contra hne
    exact absurd (hiff.mp hne).2 (by decide)
  have hdir : t.Allocated root := by
    rw [Img.Allocated, hfin.type, hb.dir.type]
    decide
  refine ⟨t, hmain, hdir, hlarge, haddr, fun hcons => ?_⟩
  have hmapped := (hcons.mapped root hdir 1).mpr (by rw [hlarge]; decide)
  exact hmapped haddr

end Xv6.Mkfs
