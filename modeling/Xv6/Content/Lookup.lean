import Xv6.Content.Calls
import Xv6.Content.File

/-!
# Looking up names

A lookup reads directories and takes references, and leaves the disk as it is: the directories have
all their blocks, and an inode on the way to a name is kept by a link or by another reference, so
that `iput` does not free it.
-/

namespace Xv6.Content

open Lib Mkfs
open Function (update update_comm update_eq_self update_idem update_of_ne update_self)

theorem nameOf_congr {n : ℕ} {b b' : Buf} (h : ∀ k, k < n → b k = b' k) :
    nameOf n b = nameOf n b' := by
  induction n generalizing b b' with
  | zero => rfl
  | succ n ih =>
    rw [nameOf, nameOf, h 0 (by omega), ih fun k hk => h (k + 1) (by omega)]

/-- `strncmp` does not tell two buffers apart if they hold the same name. -/
theorem strncmp_eq_zero_iff (n : ℕ) (p q : Buf) : strncmp n p q = 0 ↔ nameOf n p = nameOf n q := by
  induction n generalizing p q with
  | zero => simp [strncmp, nameOf]
  | succ n ih =>
    rw [strncmp, nameOf, nameOf]
    split
    · next h => rw [ih, if_neg h.1, if_neg (h.2 ▸ h.1), h.2, List.cons.injEq, and_iff_right rfl]
    · next h =>
        rw [sub_eq_zero, Nat.cast_inj, UInt8.toNat_inj]
        by_cases hp : p 0 = 0
        · by_cases hq : q 0 = 0
          · simp [hp, hq]
          · simp [hp, hq, Ne.symm hq]
        · have hne : p 0 ≠ q 0 := fun heq => h ⟨hp, heq⟩
          by_cases hq : q 0 = 0
          · simp [hp, hq]
          · simp [hp, hq, hne]

theorem namecmp_eq_zero_iff {s t : Buf} : namecmp s t = 0 ↔ cname s = cname t :=
  strncmp_eq_zero_iff DIRSIZ s t

/-- What `strncpy` copies is read back. -/
theorem nameOf_strncpy (n : ℕ) (s t : Buf) : nameOf n (strncpy n s t) = nameOf n t := by
  induction n generalizing s t with
  | zero => rfl
  | succ n ih =>
    rw [nameOf, nameOf]
    by_cases h : t 0 = 0
    · rw [if_pos (show strncpy (n + 1) s t 0 = 0 from h), if_pos h]
    · have hrest : (fun k => strncpy (n + 1) s t (k + 1)) =
          strncpy n (fun k => s (k + 1)) fun k => t (k + 1) := by
        funext k
        simp only [strncpy, if_neg h]
      rw [if_neg (show strncpy (n + 1) s t 0 ≠ 0 from h), if_neg h, hrest, ih]
      rfl

/-! ## Reading a directory -/

theorem direntAt_blit (f : Buf) (off : ℕ) :
    direntAt (blit (fun _ => 0) 0 DIRENT fun k => f (off + k)) 0 = direntAt f off := by
  have hin : ∀ k, k < DIRENT → blit (fun _ => 0) 0 DIRENT (fun k => f (off + k)) k = f (off + k) :=
    fun k hk => blit_of_in (Nat.zero_le k) (by omega)
  have hname : ∀ k, k < DIRSIZ → blit (fun _ => 0) 0 DIRENT (fun k => f (off + k)) (0 + 2 + k) =
      f (off + 2 + k) := by
    intro k hk
    rw [hin _ (by simp only [DIRSIZ, DIRENT] at *; omega)]
    congr 1
    omega
  rw [direntAt, direntAt, cname, cname, nameOf_congr hname]
  simp only [getLe, hin 0 (by decide), hin (0 + 1) (by decide), Nat.add_zero, Nat.zero_add]

theorem direntAt_zero (de : Buf) : direntAt de 0 = (getLe de 0 2, cname (deName de)) := by
  simp only [direntAt, Nat.zero_add]
  rfl

/-- A loop over the entries of a directory has ended at `off'`: there it has found what it has
looked for, or it has passed the last entry. -/
structure Scanned (f : Buf) (size : ℕ) (is : ℕ × List UInt8 → Bool) (off : ℕ) (r : Option ℕ)
    (off' : ℕ) : Prop where
  le : off ≤ off'
  mod : off' % DIRENT = off % DIRENT
  before : ∀ o, off ≤ o → o < off' → o % DIRENT = off % DIRENT → o < size →
    is (direntAt f o) = false
  found : ∀ i, r = some i → off' < size ∧ (direntAt f off').1 = i ∧ is (direntAt f off') = true
  past : r = none → size ≤ off'
  bound : off' ≤ off ∨ off' < size + DIRENT

namespace Fs

variable {s t : Fs} {i : ℕ}

/-- A read that changes neither the disk nor the inode. -/
theorem readi_of_keeps {dst dst' : Dest} {off n : UInt32} {r : ℤ}
    (h : Content.readi s.disk (s.mem i) dst off n = .ok (s.disk, s.mem i, dst', r)) :
    s.readi i dst off n = .ok (dst', r, s) := by
  rw [readi, h]
  simp [modify, bind, Except.bind]

/-- A read of a file that has all its blocks. -/
theorem readi_of_whole (h : Whole s.disk.sect (s.mem i)) (dst : Dest) (off n : UInt32)
    (hsum : off.toNat + n.toNat < 2 ^ 32)
    (hfits : dst.Fits (min (off.toNat + n.toNat) (s.mem i).size.toNat - off.toNat)) :
    s.readi i dst off n = .ok
      (dst.put 0 (min (off.toNat + n.toNat) (s.mem i).size.toNat - off.toNat)
        (fun k => byteAt s.disk.sect (s.mem i) (off.toNat + k)),
      (min (off.toNat + n.toNat) (s.mem i).size.toNat - off.toNat : ℕ), s) :=
  readi_of_keeps (Content.readi_of_whole h hsum hfits)

theorem readi_dirent {dp off : ℕ} (h : Whole s.disk.sect (s.mem dp))
    (hlt : off < (s.mem dp).size.toNat) :
    s.readi dp (.kernel fun _ => 0) (.ofNat off) 16 = .ok
      (.kernel (blit (fun _ => 0) 0 (min (off + DIRENT) (s.mem dp).size.toNat - off)
        (fun k => byteAt s.disk.sect (s.mem dp) (off + k))),
      (min (off + DIRENT) (s.mem dp).size.toNat - off : ℕ), s) := by
  have hsize := h.size_le
  have hsmall : MAXFILE * BSIZE < 2 ^ 31 := by decide
  have htoNat : (UInt32.ofNat off).toNat = off :=
    UInt32.toNat_ofNat_of_lt' (show off < 2 ^ 32 by omega)
  have hsixteen : (16 : UInt32).toNat = DIRENT := rfl
  have hread := s.readi_of_whole h (.kernel fun _ => 0) (.ofNat off) 16
    (by rw [htoNat, hsixteen]; simp only [DIRENT]; omega) trivial
  rwa [htoNat, hsixteen] at hread

/-- **A loop over a directory.** -/
theorem scan_post {dp : ℕ} (h : Whole s.disk.sect (s.mem dp)) {test : ℕ → Buf → Bool}
    (is : ℕ × List UInt8 → Bool) (htest : ∀ inum b, test inum b = is (inum, cname b))
    (msg : String) {turns off : ℕ} (hturns : (s.mem dp).size.toNat ≤ off + DIRENT * turns) :
    Post (fun p => p.lh = s.disk.lh ∧ (off % DIRENT = 0 → (s.mem dp).size.toNat % DIRENT ≠ 0))
      (fun r => r.2.2 = s ∧ Scanned (byteAt s.disk.sect (s.mem dp)) (s.mem dp).size.toNat is off
        r.1 r.2.1) (s.scan dp test msg turns off) := by
  induction turns generalizing off with
  | zero =>
    exact .ok ⟨rfl, le_rfl, rfl, fun o ho hlt => absurd hlt (not_lt.mpr ho),
      fun i hi => (by cases hi), fun _ => (by omega), .inl le_rfl⟩
  | succ turns ih =>
    rw [scan]
    split
    · next hlt =>
        rw [readi_dirent h hlt]
        simp only [bind, Except.bind]
        split
        · next hpart =>
            refine .error ⟨rfl, fun hoff hsize => hpart ?_⟩
            simp only [DIRENT] at *
            omega
        next hfull =>
        have hcount : min (off + DIRENT) (s.mem dp).size.toNat - off = DIRENT := by
          exact_mod_cast not_not.mp hfull
        have hentry := (direntAt_zero _).symm.trans
          (direntAt_blit (byteAt s.disk.sect (s.mem dp)) off)
        have hinum := congrArg Prod.fst hentry
        simp only at hinum
        rw [hcount, htest, hentry, hinum]
        split
        · next his =>
            refine .ok ⟨rfl, le_rfl, rfl, fun o ho hlt' => absurd hlt' (not_lt.mpr ho),
              fun i hi => ?_, fun hn => ?_, .inl le_rfl⟩
            · cases hi
              exact ⟨hlt, rfl, his⟩
            · cases hn
        · next his =>
            refine (ih (by rw [Nat.mul_succ] at hturns; omega)).mono
              (fun p hp => ⟨hp.1, by simpa using hp.2⟩) ?_
            rintro ⟨r, off', t⟩ ⟨ht, hscan⟩
            have hle := hscan.le
            have hmod := hscan.mod
            rw [Nat.add_mod_right] at hmod
            refine ⟨ht, by omega, hmod, fun o ho hlt' hom hos => ?_, hscan.found, hscan.past, ?_⟩
            · by_cases heq : o = off
              · rw [heq]
                simpa using his
              · refine hscan.before o ?_ hlt' (by rw [Nat.add_mod_right]; exact hom) hos
                simp only [DIRENT] at *
                omega
            · rcases hscan.bound with hbound | hbound
              · exact .inr (by omega)
              · exact .inr hbound
    · next hge =>
        exact .ok ⟨rfl, le_rfl, rfl, fun o ho hlt => absurd hlt (not_lt.mpr ho),
          fun i hi => (by cases hi), fun _ => not_lt.mp hge, .inl le_rfl⟩

/-! ## References -/

/-- A copy of an inode in memory is the inode on the disk, which is allocated. -/
def Coherent (s : Fs) : Prop := ∀ i, i < NINODES → 0 < s.ref i → s.valid i = true →
  s.mem i = s.disk.inode i ∧ (s.disk.inode i).type ≠ 0

/-- Only the table of inodes has changed. -/
structure Peek (s t : Fs) : Prop where
  disk : t.disk = s.disk
  file : t.file = s.file
  ofile : t.ofile = s.ofile
  cwd : t.cwd = s.cwd
  coherent : s.Coherent → t.Coherent

theorem Peek.refl (s : Fs) : Peek s s := ⟨rfl, rfl, rfl, rfl, id⟩

theorem Peek.trans {r : Fs} (h : Peek s t) (h' : Peek t r) : Peek s r :=
  ⟨h'.disk.trans h.disk, h'.file.trans h.file, h'.ofile.trans h.ofile, h'.cwd.trans h.cwd,
    fun hs => h'.coherent (h.coherent hs)⟩

/-- The copies that are there were there before. -/
theorem Coherent.of_kept (hs : s.Coherent) (hdisk : t.disk = s.disk)
    (h : ∀ i, 0 < t.ref i → t.valid i = true →
      0 < s.ref i ∧ s.valid i = true ∧ t.mem i = s.mem i) : t.Coherent := by
  intro i hi href hvalid
  obtain ⟨href', hvalid', hmem⟩ := h i href hvalid
  rw [hmem, hdisk]
  exact hs i hi href' hvalid'

/-- One more reference to `i`. -/
def inc (ref : ℕ → ℕ) (i : ℕ) : ℕ → ℕ := update ref i (ref i + 1)

theorem inc_pos_iff {ref : ℕ → ℕ} {i j : ℕ} : 0 < inc ref i j ↔ j = i ∨ 0 < ref j := by
  by_cases h : j = i
  · simp [inc, h]
  · simp [inc, h]

/-- `iget` finds an entry of the table for the inode. -/
def Gettable (s : Fs) (i : ℕ) : Prop := 0 < s.ref i ∨ s.used < NINODE

theorem gettable_congr (h : t.ref = s.ref) : t.Gettable i ↔ s.Gettable i := by
  simp only [Gettable, used, h]

/-- A reference to `i` has been taken. -/
structure Got (s : Fs) (i : ℕ) (t : Fs) : Prop where
  gettable : s.Gettable i
  peek : Peek s t
  ref : t.ref = inc s.ref i
  lock : t.lock = s.lock
  mem : t.mem = s.mem
  valid : ∀ j, 0 < s.ref j → t.valid j = s.valid j
  fresh : s.ref i = 0 → t.valid i = false

theorem iget_post (s : Fs) (i : ℕ) :
    Post (fun p => p.lh = s.disk.lh ∧ p.msg = "iget: no inodes" ∧ ¬ s.Gettable i) (s.Got i)
      (s.iget i) := by
  unfold iget
  split
  · next hpos =>
      refine .ok ⟨.inl hpos, ⟨rfl, rfl, rfl, rfl, fun hs => hs.of_kept rfl fun j href hvalid => ?_⟩,
        rfl, rfl, rfl, fun _ _ => rfl, fun h0 => absurd hpos (by omega)⟩
      refine ⟨?_, hvalid, rfl⟩
      rcases inc_pos_iff.mp href with rfl | href
      · exact hpos
      · exact href
  split
  · next hzero hfull =>
      refine .error ⟨rfl, rfl, fun h => ?_⟩
      rcases h with h | h <;> omega
  · next hzero hroom =>
      have hinc : update s.ref i 1 = inc s.ref i := by rw [inc, show s.ref i = 0 by omega]
      refine .ok ⟨.inr (not_le.mp hroom), ⟨rfl, rfl, rfl, rfl, fun hs =>
        hs.of_kept rfl fun j href hvalid => ?_⟩, hinc, rfl, rfl,
        fun j hj => update_of_ne (fun hji => hzero (by rwa [← hji])) .., fun _ => update_self ..⟩
      by_cases hji : j = i
      · simp [hji] at hvalid
      · simp only [update_of_ne hji] at href hvalid
        exact ⟨href, hvalid, rfl⟩

theorem idup_peek (h : 0 < s.ref i) : Peek s (s.idup i) := by
  refine ⟨rfl, rfl, rfl, rfl, fun hs => hs.of_kept rfl fun j href hvalid => ⟨?_, hvalid, rfl⟩⟩
  rcases inc_pos_iff.mp href with rfl | href
  · exact h
  · exact href

theorem unref_peek (s : Fs) (i : ℕ) : Peek s (s.unref i) := by
  refine ⟨rfl, rfl, rfl, rfl, fun hs => hs.of_kept rfl fun j href hvalid => ⟨?_, hvalid, rfl⟩⟩
  by_cases hji : j = i
  · simp only [unref, hji, update_self] at href
    rw [hji]
    omega
  · simpa [unref, update_of_ne hji] using href

/-- A locked inode: the copy in memory is the inode on the disk. -/
structure Locked (s : Fs) (i : ℕ) (t : Fs) : Prop where
  peek : Peek s t
  ref : t.ref = s.ref
  pos : 0 < s.ref i
  unlocked : s.lock i = false
  lock : t.lock = update s.lock i true
  mem : t.mem i = s.disk.inode i
  valid : t.valid i = true
  type : (s.disk.inode i).type ≠ 0
  others : ∀ j, j ≠ i → t.mem j = s.mem j ∧ t.valid j = s.valid j

theorem ilock_post (hi : i < NINODES) (hs : s.Coherent) : Post (fun p => p.lh = s.disk.lh ∧
        (s.ref i = 0 ∨ s.lock i = true ∨ (s.disk.inode i).type = 0)) (Locked s i) (s.ilock i) := by
  unfold ilock
  split
  · next href => exact .error ⟨rfl, .inl (by omega)⟩
  next href =>
  split
  · next hlock => exact .error ⟨rfl, .inr (.inl hlock)⟩
  next hlock =>
  have hfree : s.lock i = false := by simpa using hlock
  have hpos : 0 < s.ref i := by omega
  simp only
  split
  · next hvalid =>
      obtain ⟨hmem, htype⟩ := hs i hi hpos hvalid
      exact .ok ⟨⟨rfl, rfl, rfl, rfl, fun hs => hs⟩, rfl, hpos, hfree, rfl, hmem, hvalid, htype,
        fun j _ => ⟨rfl, rfl⟩⟩
  split
  · next htype => exact .error ⟨rfl, .inr (.inr htype)⟩
  · next htype =>
      refine .ok ⟨⟨rfl, rfl, rfl, rfl, fun hs j hj hrefj hvalidj => ?_⟩, rfl, hpos, hfree, rfl,
        update_self .., update_self .., htype,
        fun j hj => ⟨update_of_ne hj .., update_of_ne hj ..⟩⟩
      by_cases hji : j = i
      · rw [hji]
        exact ⟨update_self .., htype⟩
      · have hold := hs j hj hrefj (by simpa [update_of_ne hji] using hvalidj)
        simpa [update_of_ne hji] using hold

/-- The lock is released, and nothing else has changed. -/
def Released (s : Fs) (i : ℕ) (t : Fs) : Prop :=
  t = { s with lock := update s.lock i false }

theorem iunlock_of_lock (hlock : s.lock i = true) (href : 0 < s.ref i) :
    ∃ t, s.iunlock i = .ok t ∧ s.Released i t :=
  ⟨_, by rw [iunlock, if_neg (by rw [hlock]; simp; omega)], rfl⟩

theorem iunlock_post (s : Fs) (i : ℕ) :
    Post (fun p => p.lh = s.disk.lh) (s.Released i) (s.iunlock i) := by
  unfold iunlock
  split
  · exact .error rfl
  · exact .ok rfl

theorem iput_of_not_last (h : ¬ s.Last i) : s.iput i = .ok (s.unref i) := by
  rw [iput, if_neg h]

/-! ## Names -/

/-- The first entry in use with the name is at `off`, and is that of the inode `i`. -/
structure FirstAt (s : Fs) (dp : ℕ) (name : Buf) (i off : ℕ) : Prop where
  mod : off % DIRENT = 0
  lt : off < (s.mem dp).size.toNat
  entry : direntAt (byteAt s.disk.sect (s.mem dp)) off = (i, cname name)
  ne : i ≠ 0
  first : ∀ o, o < off → o % DIRENT = 0 → (direntAt (byteAt s.disk.sect (s.mem dp)) o).1 ≠ 0 →
    (direntAt (byteAt s.disk.sect (s.mem dp)) o).2 ≠ cname name

/-- The result of a lookup: the first entry with the name, with a reference to its inode. -/
inductive Found (s : Fs) (dp : ℕ) (name : Buf) : Option (ℕ × ℕ) × Fs → Prop
  | none (h : ∀ off, off % DIRENT = 0 → off < (s.mem dp).size.toNat →
      (direntAt (byteAt s.disk.sect (s.mem dp)) off).1 ≠ 0 →
      (direntAt (byteAt s.disk.sect (s.mem dp)) off).2 ≠ cname name) :
      Found s dp name (none, s)
  | some {i off : ℕ} {t : Fs} (hat : s.FirstAt dp name i off) (hgot : s.Got i t) :
      Found s dp name (some (i, off), t)

theorem type_of_dirlookup {dp : ℕ} {name : Buf} {r : Option (ℕ × ℕ) × Fs}
    (h : s.dirlookup dp name = .ok r) : (s.mem dp).type = T_DIR := by
  by_contra hfile
  rw [dirlookup, if_pos hfile] at h
  cases h

theorem dirlookup_post {dp : ℕ} (h : Whole s.disk.sect (s.mem dp)) (name : Buf) :
    Post (fun p => p.lh = s.disk.lh ∧ ((s.mem dp).type = T_DIR →
        (s.mem dp).size.toNat % DIRENT = 0 → p.msg = "iget: no inodes" ∧
          ∃ i off, s.FirstAt dp name i off ∧ ¬ s.Gettable i))
      (s.Found dp name) (s.dirlookup dp name) := by
  unfold dirlookup
  split
  · next htype => exact .error ⟨rfl, fun hdir => absurd hdir htype⟩
  have hturns : (s.mem dp).size.toNat ≤ 0 + DIRENT * s.turns dp := by
    simp only [turns, DIRENT]
    omega
  refine (scan_post h (fun e => decide (e.1 ≠ 0) && decide (cname name = e.2))
    (fun inum b => by simp only [namecmp_eq_zero_iff]) _ hturns).seq
    (fun p hp => ⟨hp.1, fun _ hsize => absurd hsize (hp.2 rfl)⟩) ?_
  rintro ⟨r, off, t⟩ - ⟨rfl, hscan⟩
  have hbefore : ∀ o, o < off → o % DIRENT = 0 → o < (t.mem dp).size.toNat →
      (direntAt (byteAt t.disk.sect (t.mem dp)) o).1 ≠ 0 →
      (direntAt (byteAt t.disk.sect (t.mem dp)) o).2 ≠ cname name := by
    intro o ho hmod hlt hne heq
    have hfalse := hscan.before o (Nat.zero_le o) ho hmod hlt
    simp [hne, heq] at hfalse
  cases r with
  | none =>
    exact .ok (.none fun o ho hlt => hbefore o (hlt.trans_le (hscan.past rfl)) ho hlt)
  | some i =>
    obtain ⟨hlt, hinum, his⟩ := hscan.found i rfl
    rw [Bool.and_eq_true, decide_eq_true_eq, decide_eq_true_eq] at his
    have hat : t.FirstAt dp name i off := by
      refine ⟨hscan.mod, hlt, ?_, ?_, fun o ho hmod => hbefore o ho hmod (ho.trans hlt)⟩
      · rw [← hinum, his.2]
      · rw [← hinum]
        exact his.1
    exact (iget_post t i).seq (fun p hp => ⟨hp.1, fun _ _ => ⟨hp.2.1, i, off, hat, hp.2.2⟩⟩)
      fun u _ hgot => .ok (.some hat hgot)

/-- The inode is kept, as far as it is allocated: by a link, or by a reference of `base`. -/
def Kept (base : ℕ → ℕ) (d : Disk) (i : ℕ) : Prop :=
  i < NINODES ∧ ((d.inode i).type ≠ 0 → (d.inode i).nlink ≠ 0 ∨ 1 ≤ base i)

/-- The names that can be reached are those of inodes that are kept. -/
structure Rooted (base : ℕ → ℕ) (d : Disk) : Prop where
  root : Kept base d ROOTINO
  entries : ∀ i, Kept base d i → (d.inode i).type = T_DIR → ∀ off, off % DIRENT = 0 →
    off < (d.inode i).size.toNat → (direntAt (byteAt d.sect (d.inode i)) off).1 ≠ 0 →
    Kept base d (direntAt (byteAt d.sect (d.inode i)) off).1

/-- A lookup that started at `s₀` has a reference to `ip`, and no other beyond those of `base`. -/
structure Walking (base : ℕ → ℕ) (s₀ s : Fs) (ip : ℕ) : Prop where
  peek : Peek s₀ s
  ref : s.ref = inc base ip
  lock : s.lock = s₀.lock
  kept : Kept base s₀.disk ip

/-- The result of a lookup: nothing, and no reference is left, or an inode. -/
def Walked (base : ℕ → ℕ) (s₀ : Fs) : Option (ℕ × Buf) × Fs → Prop
  | (none, s) => Peek s₀ s ∧ s.ref = base ∧ s.lock = s₀.lock
  | (some (ip, _), s) => Walking base s₀ s ip

variable {base : ℕ → ℕ} {s₀ : Fs} {ip : ℕ}

theorem unref_inc (ref : ℕ → ℕ) (i : ℕ) : update (inc ref i) i (inc ref i i - 1) = ref := by
  simp [inc]

/-- The inode of a lookup is not the last to be held. -/
theorem Walking.not_last (h : Walking base s₀ s ip) (hs : s₀.Coherent) : ¬ s.Last ip := by
  rintro ⟨href, hvalid, hnlink⟩
  obtain ⟨hmem, htype⟩ := h.peek.coherent hs ip h.kept.1 (by omega) hvalid
  rw [h.peek.disk] at hmem htype
  rw [h.ref, inc, update_self] at href
  rcases h.kept.2 htype with hlink | hbase
  · rw [hmem] at hnlink
    exact hlink hnlink
  · omega

theorem Walking.put (h : Walking base s₀ s ip) (hs : s₀.Coherent) :
    s.iput ip = .ok (s.unref ip) ∧ Walked base s₀ (none, s.unref ip) := by
  refine ⟨iput_of_not_last (h.not_last hs), h.peek.trans (s.unref_peek ip), ?_, h.lock⟩
  rw [unref, h.ref]
  exact unref_inc base ip

theorem inc_comm (ref : ℕ → ℕ) (i j : ℕ) : inc (inc ref i) j = inc (inc ref j) i := by
  by_cases h : i = j
  · rw [h]
  · rw [inc, inc, inc, inc, update_of_ne h, update_of_ne (Ne.symm h),
      update_comm h]

theorem Kept.inc {d : Disk} (h : Kept base d i) (j : ℕ) : Kept (inc base j) d i := by
  refine ⟨h.1, fun htype => (h.2 htype).imp_right fun hbase => ?_⟩
  exact inc_pos_iff.mpr (.inr hbase)

section
variable (h : Walking base s₀ s ip)
include h

/-- The inode is locked and unlocked, and a reference to `j` is taken meanwhile. -/
theorem Walking.unlock (hl : Locked s ip t) {u v : Fs}
    (hu : Peek t u) (hlock : u.lock = t.lock) (hv : u.Released ip v) :
    Peek s₀ v ∧ v.ref = u.ref ∧ v.lock = s₀.lock := by
  obtain rfl := hv
  refine ⟨⟨?_, ?_, ?_, ?_, fun hs => ?_⟩, rfl, ?_⟩
  · exact (hu.disk.trans hl.peek.disk).trans h.peek.disk
  · exact (hu.file.trans hl.peek.file).trans h.peek.file
  · exact (hu.ofile.trans hl.peek.ofile).trans h.peek.ofile
  · exact (hu.cwd.trans hl.peek.cwd).trans h.peek.cwd
  · exact hu.coherent (hl.peek.coherent (h.peek.coherent hs))
  · change update u.lock ip false = s₀.lock
    rw [hlock, hl.lock, update_idem, ← hl.unlocked, update_eq_self, h.lock]

/-- Unlocked again, the inode is as it was. -/
theorem Walking.back (hl : Locked s ip t) {u v : Fs} (hu : Peek t u)
    (hlock : u.lock = t.lock) (href : u.ref = t.ref) (hv : u.Released ip v) :
    Walking base s₀ v ip := by
  obtain ⟨hpeek, hrefv, hlockv⟩ := h.unlock hl hu hlock hv
  exact ⟨hpeek, by rw [hrefv, href, hl.ref, h.ref], hlockv, h.kept⟩

theorem Walking.lh {p : Panic} (hp : p.lh = s.disk.lh) : p.lh = s₀.disk.lh := by
  rw [hp, h.peek.disk]

theorem Walking.lh_locked (hl : Locked s ip t) {p : Panic}
    (hp : p.lh = t.disk.lh) : p.lh = s₀.disk.lh := by
  rw [hp, hl.peek.disk, h.peek.disk]

end

theorem Locked.held (hl : Locked s ip t) : t.lock ip = true ∧ 0 < t.ref ip :=
  ⟨by rw [hl.lock, update_self], by rw [hl.ref]; exact hl.pos⟩

variable (h : Walking base s₀ s ip)
include h

theorem Walking.unlockput (hs : s₀.Coherent) (hl : Locked s ip t)
    {u : Fs} (hu : Peek t u) (hlock : u.lock = t.lock) (href : u.ref = t.ref) :
    ∃ v, u.iunlockput ip = .ok v ∧ Walked base s₀ (none, v) := by
  obtain ⟨v, hunlock, hv⟩ := iunlock_of_lock (hlock ▸ hl.held.1) (href ▸ hl.held.2)
  obtain ⟨hput, hwalked⟩ := (h.back hl hu hlock href hv).put hs
  refine ⟨v.unref ip, ?_, hwalked⟩
  rw [iunlockput, hunlock]
  exact hput

/-- A lookup goes on from the locked inode to one that it names. -/
theorem Walking.next (hs : s₀.Coherent) (hl : Locked s ip t) {next : ℕ}
    {u : Fs} (hgot : t.Got next u) (hkept : Kept base s₀.disk next) :
    ∃ v, u.iunlockput ip = .ok v ∧ Walking base s₀ v next := by
  have hpos : 0 < u.ref ip := by
    rw [hgot.ref]
    exact inc_pos_iff.mpr (.inr hl.held.2)
  obtain ⟨v, hunlock, hv⟩ := iunlock_of_lock (hgot.lock ▸ hl.held.1) hpos
  obtain ⟨hpeek, href, hlock⟩ := h.unlock hl hgot.peek hgot.lock hv
  have hwalk : Walking (inc base next) s₀ v ip := by
    refine ⟨hpeek, ?_, hlock, h.kept.inc next⟩
    rw [href, hgot.ref, hl.ref, h.ref, inc_comm]
  obtain ⟨hput, hpeek, href, hlock⟩ := hwalk.put hs
  refine ⟨v.unref ip, ?_, hpeek, href, hlock, hkept⟩
  rw [iunlockput, hunlock]
  exact hput

variable (hl : Locked s ip t)
include hl

theorem Walking.mem_eq : t.mem ip = s₀.disk.inode ip := by
  rw [hl.mem, h.peek.disk]

theorem Walking.disk_eq : t.disk = s₀.disk :=
  hl.peek.disk.trans h.peek.disk

theorem Walking.whole (hintact : Intact s₀.disk.inodes s₀.disk) : Whole t.disk.sect (t.mem ip) := by
  rw [h.mem_eq hl, h.disk_eq hl]
  exact hintact.whole ⟨ip, h.kept.1⟩

/-- What a directory on the way names is kept. -/
theorem Walking.kept_entry
    (hrooted : Rooted base s₀.disk) (htype : (t.mem ip).type = T_DIR) {off next : ℕ}
    {name : Buf} (hat : t.FirstAt ip name next off) : Kept base s₀.disk next := by
  have hlt := hat.lt
  have hentry := hat.entry
  rw [h.mem_eq hl] at htype hlt
  rw [h.mem_eq hl, h.disk_eq hl] at hentry
  have hentries := hrooted.entries ip h.kept htype off hat.mod hlt
  rw [hentry] at hentries
  exact hentries hat.ne

end Fs

end Xv6.Content
