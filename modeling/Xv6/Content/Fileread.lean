import Xv6.Content.Path
import Xv6.Content.Partial

/-!
# The count of a read

`fileread` gets an `int` and hands it to `readi`, which takes a `uint`. A negative count is a large
one there: it is refused if it makes the offset wrap, and otherwise cut to what is left of the file.
-/

namespace Xv6.Content

open Lib Mkfs
open Function (update update_eq_self update_self)

variable {d : Disk} {ip : Dinode} {u : UserMem} {va : ℕ}

theorem eitherCopyout_of_span {tot m w : ℕ} (h : u.Span (va + tot) m w) (src : Buf) :
    eitherCopyout tot src m (.user u va) = ((Dest.user u va).put tot w src, decide (w = m)) := by
  rw [eitherCopyout, UserMem.copyout_of_span h]
  rfl

/-- **The loop of `readi`, to user memory.** It fails at the first byte that is not mapped, with the
bytes before it stored. -/
theorem readLoop_user {turns tot off n w : ℕ} (htot : tot ≤ n) (hturns : n - tot ≤ turns)
    (h : Present d ip off (off + (n - tot))) (hspan : u.Span (va + tot) (n - tot) w) :
    readLoop turns d ip (.user u va) tot off n =
      .ok (d, ip, (Dest.user u va).put tot w (fun k => byteAt d.sect ip (off + k)),
        if tot + w = n then n else -1) := by
  induction turns generalizing u tot off w with
  | zero =>
    have hle := hspan.le
    obtain rfl : tot = n := by omega
    obtain rfl : w = 0 := by omega
    rw [readLoop, Dest.put_zero, if_pos (Nat.add_zero tot)]
  | succ turns ih =>
    have hle := hspan.le
    rw [readLoop]
    split
    · next hlt =>
        have hmod := Nat.mod_lt off (show 0 < BSIZE by decide)
        obtain ⟨hmax, hne⟩ := h off le_rfl (by omega)
        set m := min (n - tot) (BSIZE - off % BSIZE) with hm
        have hpart : off % BSIZE + m ≤ BSIZE := by omega
        have hsrc : ∀ k, k < m →
            d.sect (number d.sect ip (slotOf (off / BSIZE))) (off % BSIZE + k) =
              byteAt d.sect ip (off + k) := fun k hk => sect_of_part hpart hk hne
        rw [bmap_of_stored hmax hne]
        rcases Nat.lt_or_ge w m with hwm | hmw
        · -- the copy of this part fails
          have hcopy : u.Span (va + tot) m w :=
            ⟨hwm.le, hspan.has, fun _ => hspan.stop (by omega)⟩
          simp only [bind, Except.bind, eitherCopyout_of_span hcopy, decide_eq_false hwm.ne,
            Bool.false_eq_true, if_false, Dest.put_congr fun k hk => hsrc k (hk.trans hwm)]
          rw [if_neg (by omega)]
        · have hcopy : u.Span (va + tot) m m :=
            ⟨le_rfl, fun k hk => hspan.has k (by omega), fun hlt => absurd hlt (lt_irrefl m)⟩
          have hrest : u.Span (va + (tot + m)) (n - (tot + m)) (w - m) := by
            refine ⟨by omega, fun k hk => ?_, fun hlt => ?_⟩
            · rw [show va + (tot + m) + k = va + tot + (m + k) by omega]
              exact hspan.has (m + k) (by omega)
            · rw [show va + (tot + m) + (w - m) = va + tot + w by omega]
              exact hspan.stop (by omega)
          simp only [bind, Except.bind, eitherCopyout_of_span hcopy, decide_true, if_true,
            Dest.put_congr hsrc]
          have hput := Dest.put_put (.user u va) tot m (w - m) fun k => byteAt d.sect ip (off + k)
          simp only [← Nat.add_assoc off m] at hput
          rw [Dest.put, ih (by omega) (by omega) (fun a hlo hhi => h a (by omega) (by omega))
            hrest.congr, ← Dest.put, hput]
          simp only [show m + (w - m) = w by omega, show tot + m + (w - m) = tot + w by omega]
    · obtain rfl : tot = n := by omega
      obtain rfl : w = 0 := by omega
      rw [Dest.put_zero, if_pos (Nat.add_zero tot)]

/-- The bytes that `readi` copies, if all are mapped. -/
def readCount (size off n : ℕ) : ℕ :=
  if size < off ∨ 2 ^ 32 ≤ off + n then 0 else min (off + n) size - off

theorem readi_user (h : Whole d.sect ip) {off n : UInt32} {w : ℕ}
    (hspan : u.Span va (readCount ip.size.toNat off.toNat n.toNat) w) :
    readi d ip (.user u va) off n =
      .ok (d, ip, (Dest.user u va).put 0 w (fun k => byteAt d.sect ip (off.toNat + k)),
        if w = readCount ip.size.toNat off.toNat n.toNat then (w : ℤ) else -1) := by
  have hoff := off.toNat_lt
  have hn := n.toNat_lt
  have hguard : off > ip.size ∨ off + n < off ↔
      ip.size.toNat < off.toNat ∨ 2 ^ 32 ≤ off.toNat + n.toNat := by
    rw [gt_iff_lt, UInt32.lt_iff_toNat_lt, UInt32.lt_iff_toNat_lt, UInt32.toNat_add]
    omega
  rw [readi]
  simp only [hguard]
  unfold readCount at hspan ⊢
  split
  · next hrefused =>
      rw [if_pos hrefused] at hspan
      obtain rfl : w = 0 := by have := hspan.le; omega
      rw [Dest.put_zero]
      rfl
  · next hinside =>
      rw [if_neg hinside] at hspan
      set m := if off + n > ip.size then ip.size - off else n with hm
      have hcount : m.toNat = _ := toNat_clipped (by omega) (by omega)
      rw [← hcount] at hspan ⊢
      have hpresent : Present d ip off.toNat (off.toNat + (m.toNat - 0)) := h.present (by omega)
      rw [readLoop_user (n := m.toNat) (Nat.zero_le _) (le_refl m.toNat) hpresent hspan,
        Nat.zero_add]
      congr 4
      split
      · next heq => rw [heq]
      · rfl

namespace Fs

variable {s : Fs} {f : Fin NFILE} {addr : ℕ} {n : Int32}

/-- `fileread` of a file with an inode. -/
def fileread (s : Fs) (f : Fin NFILE) (u : UserMem) (addr : ℕ) (n : Int32) :
    Except Panic (ℤ × UserMem × Fs) :=
  if !(s.file f).readable then .ok (-1, u, s)
  else do
    let ip := (s.file f).ip
    let s ← s.ilock ip
    let (dst, r, s) ← s.readi ip (.user u addr) (s.file f).off n.toUInt32
    let s := if r > 0 then s.advance f (.ofNat r.toNat) else s
    let s ← s.iunlock ip
    .ok (r, (match dst with | .user u _ => u | .kernel _ => u), s)

/-- The file has an inode, to which it holds a reference. -/
structure Opened (s : Fs) (f : Fin NFILE) : Prop where
  type : (s.file f).type = .inode
  lt : (s.file f).ip < NINODES
  ref : 0 < s.ref (s.file f).ip
  lock : s.lock (s.file f).ip = false
  inode : (s.disk.inode (s.file f).ip).type ≠ 0

/-- The inode of a file. -/
def inodeOf (s : Fs) (f : Fin NFILE) : Dinode := s.disk.inode (s.file f).ip

/-- The bytes of a file from its offset on. -/
def rest (s : Fs) (f : Fin NFILE) : Buf := fun k =>
  byteAt s.disk.sect (s.inodeOf f) ((s.file f).off.toNat + k)

/-- A read with the result `r` has stored `w` bytes of the file, and moved its offset. -/
structure Delivered (s : Fs) (f : Fin NFILE) (u : UserMem) (addr w : ℕ) (r : ℤ) (u' : UserMem)
    (t : Fs) : Prop where
  mem : u' = { u with byte := blit u.byte addr w (s.rest f) }
  inside : w = 0 ∨ (s.file f).off.toNat + w ≤ (s.inodeOf f).size.toNat
  ok : 0 ≤ r → (w : ℤ) = r ∧ ((t.file f).off.toNat : ℤ) = (s.file f).off.toNat + r
  failed : r < 0 → (t.file f).off = (s.file f).off

/-- The bytes that `fileread` copies, if all are mapped. -/
def fileCount (s : Fs) (f : Fin NFILE) (n : Int32) : ℕ :=
  readCount (s.inodeOf f).size.toNat (s.file f).off.toNat n.toUInt32.toNat

theorem readCount_inside (size off n : ℕ) :
    readCount size off n = 0 ∨ off + readCount size off n ≤ size := by
  unfold readCount
  split <;> omega

/-- **`fileread`** stores the bytes before the first unmapped one, and fails if there is one. -/
theorem fileread_eq (hintact : Intact s.disk.inodes s.disk) (hcoherent : s.Coherent)
    (h : s.Opened f) (hread : (s.file f).readable = true) {w : ℕ}
    (hspan : u.Span addr (s.fileCount f n) w) :
    ∃ u' t, s.fileread f u addr n =
      .ok (if w = s.fileCount f n then (w : ℤ) else -1, u', t) ∧
      s.Delivered f u addr w (if w = s.fileCount f n then (w : ℤ) else -1) u' t := by
  obtain ⟨t, hlock, hl⟩ := (ilock_post h.lt hcoherent).total fun p hp => by
    rcases hp.2 with href | hlock | htype
    · exact h.ref.ne' href
    · exact absurd hlock (by rw [h.lock]; decide)
    · exact h.inode htype
  have hmem : t.mem (s.file f).ip = s.inodeOf f := hl.mem
  have hwhole : Whole t.disk.sect (t.mem (s.file f).ip) := by
    rw [hmem, hl.peek.disk]
    exact hintact.whole ⟨_, h.lt⟩
  have hcount : readCount (t.mem (s.file f).ip).size.toNat (t.file f).off.toNat n.toUInt32.toNat =
      s.fileCount f n := by
    rw [hmem, hl.peek.file]
    rfl
  have hrest : (fun k => byteAt t.disk.sect (t.mem (s.file f).ip) ((t.file f).off.toNat + k)) =
      s.rest f := by
    rw [hmem, hl.peek.disk, hl.peek.file]
    rfl
  have hok := readi_of_keeps (readi_user hwhole (hcount.symm ▸ hspan))
  rw [hcount, hrest] at hok
  have hle := hspan.le
  have hbound : s.fileCount f n = 0 ∨
      (s.file f).off.toNat + s.fileCount f n ≤ (s.inodeOf f).size.toNat := readCount_inside ..
  set r : ℤ := if w = s.fileCount f n then (w : ℤ) else -1 with hr
  set v := if r > 0 then t.advance f (.ofNat r.toNat) else t with hv
  have hvlock : v.lock (s.file f).ip = true ∧ 0 < v.ref (s.file f).ip := by
    rw [hv]
    split <;> exact hl.held
  obtain ⟨x, hunlock, hx⟩ := iunlock_of_lock hvlock.1 hvlock.2
  have hfile : x.file = v.file := by rw [hx]
  refine ⟨_, x, ?_, rfl, ?_, fun hpos => ?_, fun hneg => ?_⟩
  · unfold fileread
    simp only [hread, Bool.not_true, Bool.false_eq_true, if_false, hlock, hok, bind, Except.bind,
      hunlock, ← hv]
    rfl
  · omega
  · have hw : w = s.fileCount f n := by
      by_contra hne
      rw [hr, if_neg hne] at hpos
      omega
    have hrw : r = w := by rw [hr, if_pos hw]
    refine ⟨hrw.symm, ?_⟩
    rw [hfile, hv, hrw]
    split
    · have hsize := (s.inodeOf f).size.toNat_lt
      rw [off_advance, UInt32.toNat_add, UInt32.toNat_ofNat', Int.toNat_natCast, hl.peek.file]
      omega
    · rw [hl.peek.file]
      omega
  · rw [hfile, hv, if_neg (by omega), hl.peek.file]

/-- The call stores no more bytes than it was asked for, and reports them. -/
def Respects (s : Fs) (f : Fin NFILE) (u : UserMem) (addr : ℕ) (n : Int32) (r : ℤ) (u' : UserMem)
    (t : Fs) : Prop :=
  ∃ w : ℕ, w ≤ max n.toInt 0 ∧ s.Delivered f u addr w r u' t

/-- A count that is not negative, or one for which nothing is read. -/
def Counts (s : Fs) (f : Fin NFILE) (u : UserMem) (addr : ℕ) (n : Int32) : Prop :=
  (s.file f).readable = false ∨ 0 ≤ n.toInt ∨ -n.toInt ≤ (s.file f).off.toNat ∨
    (s.inodeOf f).size.toNat ≤ (s.file f).off.toNat ∨ ¬ u.Has addr

theorem toNat_toUInt32 (n : Int32) :
    (n.toUInt32.toNat : ℤ) = if 0 ≤ n.toInt then n.toInt else n.toInt + 2 ^ 32 := by
  have htoInt : n.toInt = n.toBitVec.toInt := rfl
  have htoNat : n.toUInt32.toNat = n.toBitVec.toNat := rfl
  have hcond := BitVec.toInt_eq_toNat_cond n.toBitVec
  have hlt := n.toBitVec.isLt
  rw [htoInt, htoNat, hcond]
  split <;> split <;> omega

theorem fileCount_of_nonneg (hn : 0 ≤ n.toInt) : (s.fileCount f n : ℤ) ≤ n.toInt := by
  have hcast := toNat_toUInt32 n
  rw [if_pos hn] at hcast
  unfold fileCount readCount
  split <;> omega

/-- What a negative count comes to. -/
theorem fileCount_of_neg (hsize : (s.inodeOf f).size.toNat ≤ MAXFILE * BSIZE) (hn : n.toInt < 0) :
    s.fileCount f n = if -n.toInt ≤ (s.file f).off.toNat then 0
      else (s.inodeOf f).size.toNat - (s.file f).off.toNat := by
  have hcast := toNat_toUInt32 n
  have hmin := n.le_toInt
  have hmax : MAXFILE * BSIZE < 2 ^ 31 := by decide
  rw [if_neg (not_le.mpr hn)] at hcast
  unfold fileCount readCount
  split <;> split <;> omega

/-- **Counts.** A read of a file respects its count, whatever is in user memory, if and only if the
count is not negative or nothing is read. -/
theorem respects_iff (hintact : Intact s.disk.inodes s.disk) (hcoherent : s.Coherent)
    (h : s.Opened f) :
    (∀ b : Buf, ∃ r u' t, s.fileread f { u with byte := b } addr n = .ok (r, u', t) ∧
      s.Respects f { u with byte := b } addr n r u' t) ↔ s.Counts f u addr n := by
  have hsize : (s.inodeOf f).size.toNat ≤ MAXFILE * BSIZE := (hintact.whole ⟨_, h.lt⟩).size_le
  obtain ⟨w, hspan⟩ := u.exists_span addr (s.fileCount f n)
  constructor
  · intro hall
    by_contra hnot
    simp only [Counts, not_or, not_le, not_not, Bool.not_eq_false] at hnot
    obtain ⟨hread, hn, hoff, hleft, hhas⟩ := hnot
    have hcount : 0 < s.fileCount f n := by
      rw [fileCount_of_neg hsize hn, if_neg (not_le.mpr hoff)]
      omega
    have hw : 0 < w := (hspan.pos_iff hcount).mpr hhas
    -- the byte at the address is another one than the file has
    obtain ⟨r, u', t, hok, w', hw', hdel⟩ := hall fun _ => s.rest f 0 + 1
    obtain ⟨v', x, hok', hdel'⟩ := fileread_eq hintact hcoherent h hread
      (hspan.congr (b := fun _ => s.rest f 0 + 1))
    obtain rfl : w' = 0 := by omega
    have hsame : v' = u' := congrArg (fun r => r.2.1) (Except.ok.inj (hok'.symm.trans hok))
    have hbyte := congrArg (fun u => u.byte addr) (hdel'.mem.symm.trans (hsame.trans hdel.mem))
    simp only [blit_zero, blit_of_in le_rfl (show addr < addr + w by omega), Nat.sub_self] at hbyte
    exact absurd hbyte (by simp)
  · intro hcounts b
    by_cases hread : (s.file f).readable = true
    · obtain ⟨u', t, hok, hdel⟩ := fileread_eq hintact hcoherent h hread (hspan.congr (b := b))
      refine ⟨_, u', t, hok, w, ?_, hdel⟩
      have hle := hspan.le
      rcases Int.lt_or_le n.toInt 0 with hn | hn
      · rcases hcounts with hfalse | hn' | hcounts
        · exact absurd hread (by rw [hfalse]; decide)
        · omega
        have hcount := fileCount_of_neg hsize hn
        have hzero : w = 0 := by
          rcases hcounts with hoff | hleft | hhas
          · rw [if_pos hoff] at hcount
            omega
          · split at hcount <;> omega
          · by_contra hw
            exact hhas ((hspan.pos_iff (by omega)).mp (by omega))
        omega
      · have hcount := fileCount_of_nonneg (s := s) (f := f) hn
        omega
    · refine ⟨-1, _, s, by rw [fileread, if_pos (by simpa using hread)], 0, by omega, ?_, .inl rfl,
        fun h => absurd h (by decide), fun _ => rfl⟩
      rw [blit_zero]

end Fs

/-! ## A count of `-1` -/

/-- There is a disk with a file of five bytes. -/
theorem exists_file : ∃ d : Disk, Intact d.inodes d ∧ (d.inode 1).type = T_FILE ∧
    (d.inode 1).size.toNat = 5 := by
  obtain ⟨hintact, -, hsize, -, hself⟩ := sevens_spec
  generalize sevens.1 = d at *
  generalize sevens.2 = ip at *
  have hwhole := hintact.whole 1
  rw [update_self] at hwhole
  rw [← hself, update_eq_self] at hintact
  have hholds := d.holds_setInode 1 { ip with type := T_FILE }
  have hinode : (d.setInode 1 { ip with type := T_FILE }).inode 1 = { ip with type := T_FILE } :=
    inode_of_holds hholds
  refine ⟨_, hintact.rewrite hholds (fun y => .inr ?_) (hwhole.of_addrs rfl rfl), ?_, ?_⟩
  · rw [hself]
    exact number_of_addrs rfl _ y
  · rw [hinode]
  · rw [hinode]
    exact hsize

namespace Fs

/-- A file with the inode 1 is open for reading. -/
def reader (d : Disk) : Fs :=
  { rootOnly with disk := d, file := fun _ => ⟨1, .inode, true, false, 1, 0, 0⟩ }

theorem coherent_reader (d : Disk) : (reader d).Coherent := fun _ _ _ hvalid => by cases hvalid

theorem opened_reader {d : Disk} (h : (d.inode 1).type = T_FILE) (f : Fin NFILE) :
    (reader d).Opened f :=
  ⟨rfl, by simp [reader], by simp [reader, rootOnly, inc], rfl, ne_of_eq_of_ne h (by decide)⟩

theorem onePage_byte (x : UInt8) : ({ onePage x with byte := fun _ => x } : UserMem) = onePage x :=
  rfl

/-- A read of three bytes at the start of the file. -/
theorem respects_iff_reader : ∃ d r u' t,
    (reader d).fileread 0 (onePage 0) 0 3 = .ok (r, u', t) ∧
    (reader d).Respects 0 (onePage 0) 0 3 r u' t := by
  obtain ⟨d, hintact, htype, -⟩ := exists_file
  have hcounts : (reader d).Counts 0 (onePage 0) 0 3 := .inr (.inl (by decide))
  have hall := (respects_iff hintact (coherent_reader d) (opened_reader htype 0)).mpr hcounts
  have hread := hall fun _ => 0
  rw [onePage_byte] at hread
  exact ⟨d, hread⟩

/-- A count of `-1` is one that a file at its start does not respect. -/
theorem reader_not_respected : ∃ d, Intact (reader d).disk.inodes (reader d).disk ∧
    (reader d).Coherent ∧ (reader d).Opened 0 ∧ ∃ u' t,
      (reader d).fileread 0 (onePage 0) 0 (-1) = .ok (5, u', t) ∧
      ¬ (reader d).Respects 0 (onePage 0) 0 (-1) 5 u' t := by
  obtain ⟨d, hintact, htype, hsize⟩ := exists_file
  refine ⟨d, hintact, coherent_reader d, opened_reader htype 0, ?_⟩
  have hsize : ((reader d).inodeOf 0).size.toNat = 5 := hsize
  have hoff : ((reader d).file 0).off.toNat = 0 := rfl
  have hcount : (reader d).fileCount 0 (-1) = 5 := by
    rw [fileCount_of_neg (hsize.trans_le (by decide)) (by decide), hsize, hoff]
    decide
  have hspan : (onePage 0).Span 0 ((reader d).fileCount 0 (-1)) 5 := by
    rw [hcount]
    refine ⟨le_rfl, fun k hk => ?_, fun h => absurd h (lt_irrefl 5)⟩
    revert k
    decide
  obtain ⟨u', t, hok, -⟩ := fileread_eq (s := reader d) hintact (coherent_reader d)
    (opened_reader htype 0) rfl hspan
  rw [if_pos hcount.symm] at hok
  refine ⟨u', t, hok, ?_⟩
  rintro ⟨w, hle, hdel⟩
  have hw := (hdel.ok (by decide)).1
  rw [hw] at hle
  exact absurd hle (by decide)

end Fs

end Xv6.Content
