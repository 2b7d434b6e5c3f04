import Xv6.Content.Path

/-!
# Directories are finite maps

A directory holds names in entries of 16 bytes; an entry whose number is zero is free, and may be
anywhere. `dirlink` puts a name that is not there into the first free entry, or into a new one at
the end, and `sys_unlink` clears an entry that `dirlookup` has found. No two entries have names
that `namecmp` does not tell apart, so the directory is a map from names to inode numbers.
-/

namespace Xv6.Content

open Lib Mkfs
open Function (update update_eq_self_iff update_of_ne update_self)

/-! ## Entries -/

section Entries

variable {f g d : Buf} {off : ℕ}

theorem direntAt_congr (h : ∀ a, off ≤ a → a < off + DIRENT → f a = g a) :
    direntAt f off = direntAt g off := by
  have hname : cname (fun k => f (off + 2 + k)) = cname fun k => g (off + 2 + k) := by
    refine nameOf_congr fun k hk => h _ (by omega) ?_
    simp only [DIRSIZ, DIRENT] at *
    omega
  rw [direntAt, direntAt, hname, getLe_congr fun a ha hlt => h a ha (by simp only [DIRENT]; omega)]

/-- An entry is overwritten. -/
theorem direntAt_blit_self (f d : Buf) (off : ℕ) :
    direntAt (blit f off DIRENT d) off = (getLe d 0 2, cname (deName d)) := by
  have hin : ∀ k, k < DIRENT → blit f off DIRENT d (off + k) = d k := by
    intro k hk
    rw [blit_of_in (by omega) (by omega), Nat.add_sub_cancel_left]
  have hname : cname (fun k => blit f off DIRENT d (off + 2 + k)) = cname (deName d) := by
    refine nameOf_congr fun k hk => ?_
    rw [Nat.add_assoc, hin _ (by simp only [DIRSIZ, DIRENT] at *; omega)]
    rfl
  have h0 := hin 0 (by decide)
  have h1 := hin 1 (by decide)
  rw [Nat.add_zero] at h0
  rw [direntAt, hname]
  simp only [getLe, h0, h1]

/-- What an entry holds. -/
def deSlot (de : Buf) : Option (List UInt8 × ℕ) :=
  if getLe de 0 2 = 0 then none else some (cname (deName de), getLe de 0 2)

theorem slotAt_congr {k : ℕ} (h : ∀ a, DIRENT * k ≤ a → a < DIRENT * k + DIRENT → f a = g a) :
    slotAt f k = slotAt g k := by
  rw [slotAt, slotAt, direntAt_congr h]

theorem slotAt_blit (f d : Buf) (k j : ℕ) :
    slotAt (blit f (DIRENT * k) DIRENT d) j = update (slotAt f) k (deSlot d) j := by
  by_cases hj : j = k
  · rw [hj, update_self, slotAt, direntAt_blit_self]
    rfl
  · rw [update_of_ne hj]
    refine slotAt_congr fun a ha hlt => blit_of_out ?_
    simp only [DIRENT] at *
    omega

theorem deSlot_direntBytes {inum : ℕ} (h0 : 0 < inum) (hlt : inum < 65536) (name : Buf) :
    deSlot (direntBytes inum name) = some (cname name, inum) := by
  have hinum : getLe (direntBytes inum name) 0 2 = inum := by
    have hbytes : ∀ k, 0 ≤ k → k < 0 + 2 → direntBytes inum name k = byteLe inum (k - 0) :=
      fun k _ hk => if_pos (by omega)
    rw [getLe_byteLe hbytes]
    exact Nat.mod_eq_of_lt hlt
  have hname : cname (deName (direntBytes inum name)) = cname name := by
    have hcopy : deName (direntBytes inum name) = strncpy DIRSIZ (fun _ => 0) name := by
      funext k
      rw [deName, direntBytes, if_neg (by omega), Nat.add_sub_cancel_left]
    rw [hcopy]
    exact nameOf_strncpy _ _ _
  rw [deSlot, hinum, hname, if_neg (by omega)]

theorem deSlot_zero : deSlot (fun _ => 0) = none := by
  rw [deSlot, getLe_zero, if_pos rfl]

end Entries

namespace Fs

variable {s t : Fs} {dp k inum : ℕ} {name d : Buf}

/-- The contents of a file. -/
def contents (s : Fs) (i : ℕ) : Buf := byteAt s.disk.sect (s.mem i)

/-- The entries of a directory. -/
def slots (s : Fs) (dp : ℕ) : ℕ := (s.mem dp).size.toNat / DIRENT

/-- A directory whose entries have distinct names; the files are intact, and the copy of its inode
in memory agrees with the disk. -/
structure IsDirectory (s : Fs) (dp : ℕ) : Prop where
  intact : Intact s.disk.inodes s.disk
  coherent : s.Coherent
  held : s.Held dp
  type : (s.mem dp).type = T_DIR
  size : (s.mem dp).size.toNat % DIRENT = 0
  distinct : Distinct (s.slots dp) (slotAt (s.contents dp))

/-- The map from names to inode numbers. -/
def dirMap (s : Fs) (dp : ℕ) : List UInt8 → Option ℕ := find (s.slots dp) (slotAt (s.contents dp))

theorem IsDirectory.during (h : s.IsDirectory dp) : During {bmapstart, IBLOCK dp} 0 s.disk.lh s :=
  ⟨h.intact, h.coherent, .refl _ _ _⟩

theorem IsDirectory.whole (h : s.IsDirectory dp) : Whole s.disk.sect (s.mem dp) :=
  h.during.whole h.held

theorem IsDirectory.size_eq (h : s.IsDirectory dp) : DIRENT * s.slots dp = (s.mem dp).size.toNat :=
  Nat.mul_div_cancel' (Nat.dvd_of_mod_eq_zero h.size)

/-- The entry `k` of the directory has been written. -/
structure PutEntry (s : Fs) (dp k : ℕ) (d : Buf) (t : Fs) : Prop where
  intact : Intact t.disk.inodes t.disk
  coherent : t.Coherent
  amended : Amended s dp t
  valid : t.valid = s.valid
  type : (t.mem dp).type = (s.mem dp).type
  size : (t.mem dp).size.toNat = max (s.mem dp).size.toNat (DIRENT * k + DIRENT)
  slots : ∀ j, j < t.slots dp →
    slotAt (t.contents dp) j = update (slotAt (s.contents dp)) k (deSlot d) j

section
variable (h : s.IsDirectory dp)
include h

theorem writei_entry (hk : k ≤ s.slots dp) (d : Buf) : Post Exhausted
      (fun r : ℤ × Fs => (k < s.slots dp → r.1 = (DIRENT : ℕ)) ∧
        (r.1 = (DIRENT : ℕ) → s.PutEntry dp k d r.2))
      (s.writei dp (.kernel d) (.ofNat (DIRENT * k)) 16) := by
  have hsize := h.size_eq
  have hmax := h.whole.size_le
  have hsmall : MAXFILE * BSIZE = 274432 := rfl
  have hoff : (UInt32.ofNat (DIRENT * k)).toNat = DIRENT * k :=
    UInt32.toNat_ofNat_of_lt' (show DIRENT * k < 2 ^ 32 by simp only [DIRENT] at *; omega)
  have hsixteen : (16 : UInt32).toNat = DIRENT := rfl
  refine (writei_during h.during h.held (by simp) (by simp) (.kernel d)
    (.ofNat (DIRENT * k)) 16).mono (fun p hp => hp.exhausted) ?_
  rintro ⟨r, t⟩ ⟨hduring, ham, hvalid, hwritten⟩
  rcases hwritten with ⟨href, rfl, -⟩ | ⟨href, m, e, rfl, hm, hsp⟩
  · refine ⟨fun hlt => ?_, fun heq => (by cases heq)⟩
    rw [Refused, hoff, hsixteen] at href
    simp only [DIRENT] at *
    omega
  · obtain ⟨rfl, rfl⟩ := hsp.eq_of_kernel hm
    have hcontents := hsp.byteAt_eq
    have hgrown := hsp.size
    have hfits := (hduring.whole (ham.held h.held)).size_le
    obtain ⟨g, z, hkind⟩ := hsp.kind
    rw [hoff, hsixteen] at hcontents hgrown
    refine ⟨fun _ => rfl, fun _ => ⟨hduring.intact, hduring.coherent, ham, hvalid,
      (congrArg Dinode.type hkind :), hgrown, fun j hj => ?_⟩⟩
    rw [← slotAt_blit]
    refine slotAt_congr fun a ha hlt => ?_
    have hbound : a / BSIZE < MAXFILE := by
      apply Nat.div_lt_of_lt_mul
      rw [slots] at hj
      simp only [DIRENT, BSIZE] at *
      omega
    rw [contents, hcontents a hbound]
    rfl

/-! ## The operations -/

theorem IsDirectory.of_eq (hdisk : t.disk = s.disk)
    (hmem : t.mem dp = s.mem dp) (hcoherent : t.Coherent) (hheld : t.Held dp) :
    t.IsDirectory dp ∧ t.dirMap dp = s.dirMap dp := by
  have hcontents : t.contents dp = s.contents dp := by rw [contents, contents, hdisk, hmem]
  have hslots : t.slots dp = s.slots dp := by rw [slots, slots, hmem]
  refine ⟨⟨?_, hcoherent, hheld, ?_, ?_, ?_⟩, by rw [dirMap, dirMap, hcontents, hslots]⟩
  · rw [hdisk]
    exact h.intact
  · rw [hmem]
    exact h.type
  · rw [hmem]
    exact h.size
  · rw [hcontents, hslots]
    exact h.distinct

/-- A reference has been taken. -/
theorem IsDirectory.got {i : ℕ} (hgot : s.Got i t) :
    t.IsDirectory dp ∧ t.dirMap dp = s.dirMap dp := by
  refine h.of_eq hgot.peek.disk (congrFun hgot.mem dp) (hgot.peek.coherent h.coherent)
    ⟨h.held.lt, ?_, ?_⟩
  · rw [hgot.ref]
    exact inc_pos_iff.mpr (.inr h.held.pos)
  · rw [hgot.valid dp h.held.pos]
    exact h.held.valid

/-- What `dirlookup` finds is in the map. -/
theorem IsDirectory.found {r : Option (ℕ × ℕ)}
    (hfound : s.Found dp name (r, t)) : s.dirMap dp (cname name) = r.map Prod.fst := by
  have hentry := hfound.entry
  rw [entry, show ((s.mem dp).size.toNat + 15) / DIRENT = s.slots dp by
    have := h.size
    simp only [slots, DIRENT] at *
    omega] at hentry
  exact hentry

end

/-- The table of inodes, the log, the disk or the directory is full. -/
def DirFull (p : Panic) : Prop :=
  p.msg = "iget: no inodes" ∨ p.msg = "dirlink" ∨ Exhausted p

theorem dirlookup_dir (h : s.IsDirectory dp) (name : Buf) :
    Post DirFull (s.Found dp name) (s.dirlookup dp name) :=
  (dirlookup_post h.whole name).mono (fun _ hp => .inl (hp.2 h.type h.size).1) fun _ => id

/-- The reference to what has been looked up is given back. -/
theorem Got.unref_dir (h : s.IsDirectory dp) {i : ℕ} (hgot : s.Got i t) :
    t.iput i = .ok (t.unref i) ∧ Amended s dp (t.unref i) ∧ (t.unref i).IsDirectory dp ∧
      (t.unref i).dirMap dp = s.dirMap dp := by
  obtain ⟨hput, href⟩ := hgot.put
  obtain ⟨hdir, hmap⟩ := h.got hgot
  have ham : Amended s dp (t.unref i) :=
    ⟨href, hgot.lock, hgot.peek.cwd, hgot.valid, fun j _ => congrFun hgot.mem j⟩
  obtain ⟨hdir', hmap'⟩ := hdir.of_eq (t := t.unref i) rfl rfl
    ((t.unref_peek i).coherent hdir.coherent) (ham.held h.held)
  exact ⟨hput, ham, hdir', hmap'.trans hmap⟩

/-- A lookup by a caller that gives back the reference. The result is an inode number, or 0. -/
def lookup (s : Fs) (dp : ℕ) (name : Buf) : Except Panic (ℤ × Fs) := do
  let (r, s) ← s.dirlookup dp name
  match r with
  | none => .ok (0, s)
  | some (i, _) => do
      let s ← s.iput i
      .ok (i, s)

theorem lookup_dir (h : s.IsDirectory dp) (name : Buf) :
    Post DirFull (fun r : ℤ × Fs => r.1 = ((s.dirMap dp (cname name)).getD 0 : ℕ) ∧
      r.2.IsDirectory dp ∧ r.2.dirMap dp = s.dirMap dp) (s.lookup dp name) := by
  refine (dirlookup_dir h name).seq (fun _ => id) ?_
  rintro ⟨r, t⟩ - hfound
  rw [h.found hfound]
  cases hfound with
  | none _ => exact .ok ⟨rfl, h, rfl⟩
  | @some i off t hat hgot =>
    obtain ⟨hput, -, hdir, hmap⟩ := hgot.unref_dir h
    simp only [hput, bind, Except.bind]
    exact .ok ⟨rfl, hdir, hmap⟩

theorem PutEntry.slots_eq (h : s.PutEntry dp k d t) (hs : s.IsDirectory dp) :
    t.slots dp = max (s.slots dp) (k + 1) ∧ (t.mem dp).size.toNat % DIRENT = 0 := by
  have hsize := h.size
  have hold := hs.size_eq
  rw [Fs.slots, hsize]
  simp only [DIRENT] at *
  omega

/-- A directory with an entry written. -/
theorem PutEntry.isDirectory (h : s.PutEntry dp k d t) (hs : s.IsDirectory dp)
    (hdistinct : Distinct (max (s.slots dp) (k + 1))
      (update (slotAt (s.contents dp)) k (deSlot d))) :
    t.IsDirectory dp ∧ t.dirMap dp = find (max (s.slots dp) (k + 1))
      (update (slotAt (s.contents dp)) k (deSlot d)) := by
  obtain ⟨hslots, hsize⟩ := h.slots_eq hs
  refine ⟨⟨h.intact, h.coherent, h.amended.held hs.held, h.type.trans hs.type, hsize, ?_⟩, ?_⟩
  · rw [← hslots] at hdistinct
    exact hdistinct.congr h.slots
  · rw [dirMap, find_congr h.slots, hslots]

/-- **`dirlink`** adds the name to the map, or fails if it is there. -/
theorem dirlink_dir (h : s.IsDirectory dp) (name : Buf) (h0 : 0 < inum) (hlt : inum < 65536) :
    Post DirFull (fun r => r.2.IsDirectory dp ∧
        (r.1 = false ↔ s.dirMap dp (cname name) ≠ none) ∧
        r.2.dirMap dp = if r.1 then update (s.dirMap dp) (cname name) (some inum)
          else s.dirMap dp) (s.dirlink dp name inum) := by
  refine (dirlookup_dir h name).seq (fun _ => id) ?_
  rintro ⟨r, t⟩ - hfound
  have hmap := h.found hfound
  rw [hmap]
  cases hfound with
  | @some i off t hat hgot =>
    obtain ⟨hput, -, hdir, hsame⟩ := hgot.unref_dir h
    simp only [hput, bind, Except.bind]
    exact .ok ⟨hdir, by simp, hsame⟩
  | none _ =>
    have hturns : (s.mem dp).size.toNat ≤ 0 + DIRENT * s.turns dp := by
      simp only [turns, DIRENT]
      omega
    refine (scan_post h.whole (fun e => decide (e.1 = 0)) (fun _ _ => rfl) _ hturns).seq
      (fun p hp => absurd h.size (hp.2 rfl)) ?_
    rintro ⟨r, off, t⟩ - ⟨rfl, hscan⟩
    have hold := h.size_eq
    obtain ⟨k, rfl⟩ : ∃ k, off = DIRENT * k := Nat.dvd_of_mod_eq_zero hscan.mod
    have hk : k ≤ t.slots dp := by
      have hbound := hscan.bound
      simp only [DIRENT] at *
      omega
    have hfree : k < t.slots dp → slotAt (t.contents dp) k = none := by
      intro hlt
      cases r with
      | none =>
        have := hscan.past rfl
        simp only [DIRENT] at *
        omega
      | some i =>
        have his := (hscan.found i rfl).2.2
        rw [decide_eq_true_eq] at his
        exact if_pos his
    refine (writei_entry h hk _).seq (fun p hp => .inr (.inr hp)) ?_
    rintro ⟨r, u⟩ - ⟨-, hput⟩
    simp only
    split
    · exact .error (.inr (.inl rfl))
    · next hfull =>
        have hput := hput (not_not.mp hfull)
        have hslot := deSlot_direntBytes h0 hlt name
        obtain ⟨hdistinct, hfind⟩ := h.distinct.put (v := inum) hk hfree hmap
        rw [← hslot] at hdistinct hfind
        obtain ⟨hdir, hnew⟩ := hput.isDirectory h hdistinct
        refine .ok ⟨hdir, by simp, ?_⟩
        rw [hnew, hfind]
        rfl

/-- What `sys_unlink` does to the entry with a name: it is looked up and overwritten with zeros.
The reference to the inode is given back. -/
def erase (s : Fs) (dp : ℕ) (name : Buf) : Except Panic (ℤ × Fs) := do
  let (r, s) ← s.dirlookup dp name
  match r with
  | none => .ok (-1, s)
  | some (i, off) => do
      let (r, s) ← s.writei dp (.kernel fun _ => 0) (.ofNat off) 16
      if r ≠ DIRENT then s.panic "unlink: writei"
      else do
        let s ← s.iput i
        .ok (0, s)

/-- **Erasing an entry** removes its name from the map, and no other. -/
theorem erase_dir (h : s.IsDirectory dp) (name : Buf) :
    Post DirFull (fun r : ℤ × Fs => r.2.IsDirectory dp ∧
        r.1 = (if s.dirMap dp (cname name) = none then -1 else 0) ∧
        r.2.dirMap dp = update (s.dirMap dp) (cname name) none)
      (s.erase dp name) := by
  refine (dirlookup_dir h name).seq (fun _ => id) ?_
  rintro ⟨r, t⟩ - hfound
  have hmap := h.found hfound
  rw [hmap]
  cases hfound with
  | none _ => exact .ok ⟨h, rfl, (update_eq_self_iff.mpr hmap.symm).symm⟩
  | @some i off t hat hgot =>
    obtain ⟨hdir, hsame⟩ := h.got hgot
    obtain ⟨k, rfl⟩ : ∃ k, off = DIRENT * k := Nat.dvd_of_mod_eq_zero hat.mod
    have hcontents : t.contents dp = s.contents dp := by
      rw [contents, contents, hgot.peek.disk, hgot.mem]
    have hslots : t.slots dp = s.slots dp := by rw [slots, slots, hgot.mem]
    have hk : k < t.slots dp := by
      have hold := h.size_eq
      have hlt := hat.lt
      rw [hslots]
      simp only [DIRENT] at *
      omega
    have hslot : slotAt (t.contents dp) k = some (cname name, i) := by
      rw [hcontents]
      exact slotAt_eq_some.mpr ⟨hat.entry, hat.ne⟩
    refine (writei_entry hdir hk.le _).seq (fun p hp => .inr (.inr hp)) ?_
    rintro ⟨r, u⟩ - ⟨hall, hput⟩
    simp only
    rw [if_neg (not_not.mpr (hall hk))]
    have hput := hput (hall hk)
    obtain ⟨hdistinct, hfind⟩ := hdir.distinct.clear hk hslot
    rw [← deSlot_zero, ← max_eq_left (show k + 1 ≤ t.slots dp from hk)] at hdistinct
    obtain ⟨hdir', hnew⟩ := hput.isDirectory hdir hdistinct
    -- a reference that has been taken without the lock is not the last one
    have hlast : ¬ u.Last i := by
      rintro ⟨href, hvalid, -⟩
      rw [hput.amended.ref, hgot.ref, inc, update_self] at href
      rw [hput.valid, hgot.fresh (by omega)] at hvalid
      cases hvalid
    have href : (u.unref i).ref = s.ref := by
      rw [unref, hput.amended.ref, hgot.ref]
      exact unref_inc s.ref i
    have hheld : (u.unref i).Held dp := by
      refine ⟨h.held.lt, by rw [href]; exact h.held.pos, ?_⟩
      change u.valid dp = true
      rw [hput.valid, hgot.valid dp h.held.pos]
      exact h.held.valid
    obtain ⟨hdir'', hsame'⟩ := hdir'.of_eq (t := u.unref i) rfl rfl
      ((u.unref_peek i).coherent hdir'.coherent) hheld
    rw [iput_of_not_last hlast]
    refine .ok ⟨hdir'', rfl, ?_⟩
    rw [hsame', hnew, max_eq_left (show k + 1 ≤ t.slots dp from hk), deSlot_zero, hfind, ← hsame]
    rfl

/-! ## Sequences -/

end Fs

/-- An operation on a directory, or the end of a transaction, which empties the header of the log.
-/
inductive DirOp
  | link (name : Buf) (inum : ℕ)
  | erase (name : Buf)
  | lookup (name : Buf)
  | commit

namespace DirOp

/-- What an operation does. -/
def run (dp : ℕ) : DirOp → Fs → Except Panic (ℤ × Fs)
  | .link name inum, s => do
      let (ok, s) ← s.dirlink dp name inum
      .ok (if ok then 0 else -1, s)
  | .erase name, s => s.erase dp name
  | .lookup name, s => s.lookup dp name
  | .commit, s => .ok (0, { s with disk := { s.disk with lh := [] } })

/-- What an operation is to do to a map from names. -/
def spec : DirOp → (List UInt8 → Option ℕ) → ℤ × (List UInt8 → Option ℕ)
  | .link name inum, m =>
    if m (cname name) = none then (0, update m (cname name) (some inum)) else (-1, m)
  | .erase name, m =>
    (if m (cname name) = none then -1 else 0, update m (cname name) none)
  | .lookup name, m => (((m (cname name)).getD 0 : ℕ), m)
  | .commit, m => (0, m)

/-- The number that is linked is one of an entry. -/
def Ok : DirOp → Prop
  | .link _ inum => 0 < inum ∧ inum < 65536
  | _ => True

variable {s : Fs} {dp : ℕ}

theorem run_dir (h : s.IsDirectory dp) {op : DirOp} (hop : op.Ok) :
    Post Fs.DirFull (fun r => (r.1, r.2.dirMap dp) = op.spec (s.dirMap dp) ∧ r.2.IsDirectory dp)
      (op.run dp s) := by
  cases op with
  | link name inum =>
    refine (Fs.dirlink_dir h name hop.1 hop.2).seq (fun _ => id) ?_
    rintro ⟨ok, t⟩ - ⟨hdir, hok, hmap⟩
    refine .ok ⟨?_, hdir⟩
    cases ok with
    | true =>
      have hnone : s.dirMap dp (cname name) = none := by
        by_contra hsome
        cases hok.mpr hsome
      simp only [spec, hnone, if_true, hmap]
    | false => simp only [spec, if_neg (hok.mp rfl), hmap, Bool.false_eq_true, if_false]
  | erase name =>
    refine (Fs.erase_dir h name).mono (fun _ => id) ?_
    rintro ⟨r, t⟩ ⟨hdir, hr, hmap⟩
    exact ⟨Prod.ext hr hmap, hdir⟩
  | lookup name =>
    refine (Fs.lookup_dir h name).mono (fun _ => id) ?_
    rintro ⟨r, t⟩ ⟨hr, hdir, hmap⟩
    exact ⟨Prod.ext hr hmap, hdir⟩
  | commit =>
    refine .ok ⟨rfl, ⟨⟨?_, h.intact.whole⟩, h.coherent, ⟨h.held.lt, h.held.pos, h.held.valid⟩,
      h.type, h.size, h.distinct⟩⟩
    exact h.intact.sound.congr rfl fun _ _ => rfl

/-- A sequence of operations, and its results. -/
def runAll (dp : ℕ) : List DirOp → Fs → Except Panic (List ℤ × Fs)
  | [], s => .ok ([], s)
  | op :: ops, s => do
      let (r, s) ← op.run dp s
      let (rs, s) ← runAll dp ops s
      .ok (r :: rs, s)

/-- What the sequence is to do. -/
def specAll : List DirOp → (List UInt8 → Option ℕ) → List ℤ × (List UInt8 → Option ℕ)
  | [], m => ([], m)
  | op :: ops, m => ((op.spec m).1 :: (specAll ops (op.spec m).2).1, (specAll ops (op.spec m).2).2)

theorem runAll_dir (h : s.IsDirectory dp) {ops : List DirOp} (hops : ∀ op ∈ ops, op.Ok) :
    Post Fs.DirFull
      (fun r => (r.1, r.2.dirMap dp) = specAll ops (s.dirMap dp) ∧ r.2.IsDirectory dp)
      (runAll dp ops s) := by
  induction ops generalizing s with
  | nil => exact .ok ⟨rfl, h⟩
  | cons op ops ih =>
    refine (run_dir h (hops op List.mem_cons_self)).seq (fun _ => id) ?_
    rintro ⟨r, t⟩ - ⟨hspec, ht⟩
    refine (ih ht fun op' hop' => hops op' (List.mem_cons_of_mem op hop')).seq (fun _ => id) ?_
    rintro ⟨rs, u⟩ - ⟨hrest, hu⟩
    refine .ok ⟨?_, hu⟩
    simp only [specAll, ← hspec, ← hrest]

/-- No two entries in use have names that `namecmp` does not tell apart. -/
def NoTwins (s : Fs) (dp : ℕ) : Prop :=
  ∀ o o', o % DIRENT = 0 → o' % DIRENT = 0 → o < (s.mem dp).size.toNat →
    o' < (s.mem dp).size.toNat → (direntAt (s.contents dp) o).1 ≠ 0 →
    (direntAt (s.contents dp) o').1 ≠ 0 →
    namecmp (fun k => s.contents dp (o + 2 + k)) (fun k => s.contents dp (o' + 2 + k)) = 0 → o = o'

theorem noTwins_of_isDirectory (h : s.IsDirectory dp) : NoTwins s dp := by
  intro o o' hmod hmod' hlt hlt' hne hne' hcmp
  obtain ⟨j, rfl⟩ : ∃ j, o = DIRENT * j := Nat.dvd_of_mod_eq_zero hmod
  obtain ⟨k, rfl⟩ : ∃ k, o' = DIRENT * k := Nat.dvd_of_mod_eq_zero hmod'
  have hsize := h.size_eq
  rw [namecmp_eq_zero_iff] at hcmp
  have hjk := h.distinct j k _ _ _ (by simp only [DIRENT] at *; omega)
    (by simp only [DIRENT] at *; omega) (slotAt_eq_some.mpr ⟨rfl, hne⟩)
    (slotAt_eq_some.mpr ⟨Prod.ext rfl hcmp.symm, hne'⟩)
  rw [hjk]

/-- **Directories are finite maps.** A sequence of operations on a directory does what it is to do
on the map from names. Entries in use have different names, and entries fill the directory. The
sequence stops only if a table, the log, the disk or the directory is full. -/
theorem directory_is_map (h : s.IsDirectory dp) {ops : List DirOp} (hops : ∀ op ∈ ops, op.Ok) :
    Post Fs.DirFull
      (fun r => (r.1, r.2.dirMap dp) = specAll ops (s.dirMap dp) ∧ NoTwins r.2 dp ∧
        (r.2.mem dp).size.toNat % DIRENT = 0) (runAll dp ops s) := by
  refine (runAll_dir h hops).mono (fun _ => id) fun r hr => ?_
  exact ⟨hr.1, noTwins_of_isDirectory hr.2, hr.2.size⟩

/-- The root alone, with a copy of it in memory. -/
def heldRoot : Fs :=
  { Fs.rootOnly with valid := fun i => i = 1, mem := update Fs.rootOnly.mem 1 rootDir }

theorem isDirectory_heldRoot : heldRoot.IsDirectory 1 := by
  refine ⟨intact_rootDisk, fun i hi _ hvalid => ?_, ⟨by decide, by decide, by decide⟩, rfl, rfl,
    fun j _ _ _ _ hj => absurd hj (Nat.not_lt_zero j)⟩
  obtain rfl : i = 1 := by simpa [heldRoot] using hvalid
  have hroot : heldRoot.disk.inode 1 = rootDir := inode_rootDisk hi
  rw [hroot]
  exact ⟨rfl, by decide⟩

/-- A name of 14 bytes and a short one are linked; the short one is erased, and its slot is used for
another. -/
def reuse : List DirOp :=
  [.link (cstr [97]) 1, .link (fun _ => 120) 1, .erase (cstr [97]), .lookup (cstr [97]),
    .link (cstr [98]) 1, .lookup (fun _ => 120), .link (fun _ => 120) 1]

theorem directory_is_map_reuse : ∃ t,
    runAll 1 reuse heldRoot = .ok ([0, 0, 0, 0, 0, 1, -1], t) ∧ (t.mem 1).size = 32 ∧
      t.dirMap 1 [98] = some 1 ∧ t.dirMap 1 [97] = none ∧ NoTwins t 1 := by
  have hops : ∀ op ∈ reuse, op.Ok := by
    simp [reuse, Ok]
  have hrun : (runAll 1 reuse heldRoot).toOption.any (fun r => (r.2.mem 1).size = 32) = true := by
    decide +kernel
  have hempty : heldRoot.dirMap 1 = fun _ => none := rfl
  have hmap := directory_is_map isDirectory_heldRoot hops
  rw [hempty] at hmap
  cases hok : runAll 1 reuse heldRoot with
  | error p =>
    rw [hok] at hrun
    cases hrun
  | ok r =>
    obtain ⟨hspec, htwins, -⟩ := hmap.result hok
    obtain ⟨rs, t⟩ := r
    obtain ⟨hrs, hdir⟩ := Prod.mk.inj hspec
    rw [hok] at hrun
    obtain rfl : rs = [0, 0, 0, 0, 0, 1, -1] := hrs.trans (by decide)
    exact ⟨t, rfl, of_decide_eq_true hrun, (congrFun hdir [98]).trans (by decide),
      (congrFun hdir [97]).trans (by decide), htwins⟩

/-- **Numbers beyond 16 bits.** The number 65536 is linked under a name, and the name is not found:
the entry has room for 16 bits of it. -/
theorem bigLink_lost :
    (runAll 1 [.link (cstr [97]) 65536, .lookup (cstr [97])] heldRoot).toOption.map Prod.fst =
      some [0, 0] := by
  decide +kernel

end DirOp

end Xv6.Content
