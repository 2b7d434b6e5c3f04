import Xv6.Content.Model

/-!
# Inodes, directories and names

The functions of `kernel/fs.c` on inodes, directories and paths, run by one process while no other
acts. The table of inodes in memory is a map from inode numbers. A second lock on an inode by the
process would never be granted; the model stops then.
-/

namespace Xv6.Content

open Lib Mkfs
open Function (update)

abbrev NFILE : ℕ := 100
abbrev NOFILE : ℕ := 16
abbrev ROOTINO : ℕ := 1

/-- The size of `struct dirent`. -/
abbrev DIRENT : ℕ := 16

abbrev T_DIR : UInt16 := 1
abbrev T_FILE : UInt16 := 2
abbrev T_DEVICE : UInt16 := 3

abbrev O_RDONLY : UInt32 := 0x000
abbrev O_WRONLY : UInt32 := 0x001
abbrev O_RDWR : UInt32 := 0x002
abbrev O_CREATE : UInt32 := 0x200
abbrev O_TRUNC : UInt32 := 0x400

/-- The kinds of `struct file`. -/
inductive FdType
  | none | pipe | inode | device
  deriving DecidableEq

/-- `struct file`. -/
structure File where
  ref : ℕ
  type : FdType
  readable : Bool
  writable : Bool
  ip : ℕ
  off : UInt32
  major : UInt16

/-- The disk, the inodes in memory, the open files of the system, and those of the process. -/
structure Fs where
  disk : Disk
  ref : ℕ → ℕ
  valid : ℕ → Bool
  mem : ℕ → Dinode
  /-- The inodes that the process has locked. -/
  lock : ℕ → Bool
  file : Fin NFILE → File
  ofile : Fin NOFILE → Option (Fin NFILE)
  cwd : ℕ

/-! ## Freeing blocks -/

namespace Disk

/-- The buffer of the free map with the bit of `b` clear. -/
def clearBit (s : Disk) (b : ℕ) : Buf :=
  update (s.sect (BBLOCK b)) (b % BPB / 8)
    (s.sect (BBLOCK b) (b % BPB / 8) &&& ~~~ mask (b % BPB))

def bfree (s : Disk) (b : ℕ) : Except Panic Disk :=
  if s.bit b then (s.put (BBLOCK b) (s.clearBit b)).logWrite (BBLOCK b)
  else s.panic "freeing free block"

/-- Free the block of a slot, if there is one. -/
def bfreeSlot (s : Disk) (b : ℕ) : Except Panic Disk := if b = 0 then .ok s else s.bfree b

/-- Free the blocks that the indirect block lists. -/
def freeEntries (s : Disk) (ind : ℕ) : Except Panic Disk :=
  (List.range NINDIRECT).foldlM (fun s k => s.bfreeSlot (getLe (s.sect ind) (4 * k) 4)) s

/-- Free the indirect block, if there is one, and the blocks that it lists. -/
def freeIndirect (s : Disk) (ind : ℕ) : Except Panic Disk :=
  if ind = 0 then .ok s
  else do
    let s ← s.freeEntries ind
    s.bfree ind

/-- Free the blocks of the inode `i`, and write it back without them. -/
def itrunc (s : Disk) (i : ℕ) (ip : Dinode) : Except Panic (Dinode × Disk) := do
  let s ← (List.finRange NDIRECT).foldlM (fun s k => s.bfreeSlot (ip.addrs k.castSucc).toNat) s
  let s ← s.freeIndirect ip.indirect
  let ip : Dinode := { ip with addrs := fun _ => 0, size := 0 }
  let s ← s.iupdate i ip
  .ok (ip, s)

end Disk

namespace Fs

/-- Stop with a message. -/
def panic {α : Type} (s : Fs) (msg : String) : Except Panic α := s.disk.panic msg

/-! ## Inodes in memory -/

/-- The entries of the table that are in use. -/
def used (s : Fs) : ℕ := (List.range 65536).countP fun i => 0 < s.ref i

/-- Change the copy of an inode in memory. -/
def modify (s : Fs) (i : ℕ) (f : Dinode → Dinode) : Fs :=
  { s with mem := update s.mem i (f (s.mem i)) }

def iget (s : Fs) (i : ℕ) : Except Panic Fs :=
  if 0 < s.ref i then .ok { s with ref := update s.ref i (s.ref i + 1) }
  else if NINODE ≤ s.used then s.panic "iget: no inodes"
  else .ok { s with ref := update s.ref i 1, valid := update s.valid i false }

def idup (s : Fs) (i : ℕ) : Fs := { s with ref := update s.ref i (s.ref i + 1) }

def ilock (s : Fs) (i : ℕ) : Except Panic Fs :=
  if s.ref i < 1 then s.panic "ilock"
  else if s.lock i then s.panic "acquiresleep"
  else
    let s := { s with lock := update s.lock i true }
    if s.valid i then .ok s
    else if (s.disk.inode i).type = 0 then s.panic "ilock: no type"
    else .ok { s with
      mem := update s.mem i (s.disk.inode i), valid := update s.valid i true }

def iunlock (s : Fs) (i : ℕ) : Except Panic Fs :=
  if s.lock i = false ∨ s.ref i < 1 then s.panic "iunlock"
  else .ok { s with lock := update s.lock i false }

def iupdate (s : Fs) (i : ℕ) : Except Panic Fs := do
  let d ← s.disk.iupdate i (s.mem i)
  .ok { s with disk := d }

def itrunc (s : Fs) (i : ℕ) : Except Panic Fs := do
  let (ip, d) ← s.disk.itrunc i (s.mem i)
  .ok { s.modify i fun _ => ip with disk := d }

/-- Free an inode that has no link and no other reference. -/
def ifree (s : Fs) (i : ℕ) : Except Panic Fs := do
  let s ← s.itrunc i
  let s ← (s.modify i fun ip => { ip with type := 0 }).iupdate i
  .ok { s with valid := update s.valid i false }

/-- No name and no other reference keeps the inode. -/
def Last (s : Fs) (i : ℕ) : Prop := s.ref i = 1 ∧ s.valid i = true ∧ (s.mem i).nlink = 0

instance (s : Fs) (i : ℕ) : Decidable (s.Last i) := by unfold Last; infer_instance

/-- Drop a reference. -/
def unref (s : Fs) (i : ℕ) : Fs := { s with ref := update s.ref i (s.ref i - 1) }

def iput (s : Fs) (i : ℕ) : Except Panic Fs :=
  if s.Last i then do
    let s ← s.ifree i
    .ok (s.unref i)
  else .ok (s.unref i)

def iunlockput (s : Fs) (i : ℕ) : Except Panic Fs := do
  let s ← s.iunlock i
  s.iput i

/-- The first inode that is free on the disk. -/
def freeInode (s : Disk) : Option ℕ :=
  (List.range NINODES).find? fun i => decide (1 ≤ i) && decide ((s.inode i).type = 0)

/-- An inode that is allocated and has nothing else. -/
def newInode (type : UInt16) : Dinode := ⟨type, 0, 0, 0, 0, fun _ => 0⟩

def ialloc (s : Fs) (type : UInt16) : Except Panic (ℕ × Fs) :=
  match freeInode s.disk with
  | none => s.panic "ialloc: no inodes"
  | some i => do
      let d ← s.disk.iupdate i (newInode type)
      let s ← { s with disk := d }.iget i
      .ok (i, s)

def readi (s : Fs) (i : ℕ) (dst : Dest) (off n : UInt32) : Except Panic (Dest × ℤ × Fs) := do
  let (d, ip, dst, r) ← Content.readi s.disk (s.mem i) dst off n
  .ok (dst, r, { s.modify i fun _ => ip with disk := d })

def writei (s : Fs) (i : ℕ) (src : Source) (off n : UInt32) : Except Panic (ℤ × Fs) := do
  let (d, ip, r) ← Content.writei s.disk i (s.mem i) src off n
  .ok (r, { s.modify i fun _ => ip with disk := d })

end Fs

/-! ## Strings -/

/-- The bytes of a string, and zeros from its end on. -/
def cstr (l : List UInt8) : Buf := fun k => l.getD k 0

/-- Compare at most `n` bytes; the arguments are moved on with the loop. -/
def strncmp : ℕ → Buf → Buf → ℤ
  | 0, _, _ => 0
  | n + 1, p, q =>
    if p 0 ≠ 0 ∧ p 0 = q 0 then strncmp n (fun k => p (k + 1)) fun k => q (k + 1)
    else (p 0).toNat - (q 0).toNat

/-- Copy at most `n` bytes up to a zero, and fill up with zeros. -/
def strncpy : ℕ → Buf → Buf → Buf
  | 0, s, _ => s
  | n + 1, s, t => fun
      | 0 => t 0
      | k + 1 =>
        if t 0 = 0 then if k < n then 0 else s (k + 1)
        else strncpy n (fun k => s (k + 1)) (fun k => t (k + 1)) k

/-- The name in a buffer: the bytes up to the first zero, at most `n`. -/
def nameOf : ℕ → Buf → List UInt8
  | 0, _ => []
  | n + 1, b => if b 0 = 0 then [] else b 0 :: nameOf n fun k => b (k + 1)

/-- The name of a directory entry in a buffer. -/
def cname (b : Buf) : List UInt8 := nameOf DIRSIZ b

/-! ## Directories -/

def namecmp (s t : Buf) : ℤ := strncmp DIRSIZ s t

/-- The name of the entry in `de`. -/
def deName (de : Buf) : Buf := fun k => de (2 + k)

/-- The number and the name of the entry at a place in the contents of a directory. -/
def direntAt (f : Buf) (off : ℕ) : ℕ × List UInt8 :=
  (getLe f off 2, cname fun k => f (off + 2 + k))

/-- The bytes of an entry; the number is cut to 16 bits. -/
def direntBytes (inum : ℕ) (name : Buf) : Buf := fun k =>
  if k < 2 then byteLe inum k else strncpy DIRSIZ (fun _ => 0) name (k - 2)

namespace Fs

/-- Read the entries of a directory from `off` on, up to one that is looked for. The result is its
inode number, and the offset where the loop has ended. -/
def scan (s : Fs) (dp : ℕ) (is : ℕ → Buf → Bool) (msg : String) :
    ℕ → ℕ → Except Panic (Option ℕ × ℕ × Fs)
  | 0, off => .ok (none, off, s)
  | turns + 1, off =>
    if off < (s.mem dp).size.toNat then do
      let (dst, r, s) ← s.readi dp (.kernel fun _ => 0) (.ofNat off) 16
      if r ≠ DIRENT then s.panic msg
      else match dst with
        | .user .. => .ok (none, off, s)
        | .kernel de =>
          if is (getLe de 0 2) (deName de) then .ok (some (getLe de 0 2), off, s)
          else s.scan dp is msg turns (off + DIRENT)
    else .ok (none, off, s)

/-- The turns that a loop over a directory may take. -/
def turns (s : Fs) (dp : ℕ) : ℕ := (s.mem dp).size.toNat / DIRENT + 1

/-- The result is an inode, with a reference to it, and the offset of its entry. -/
def dirlookup (s : Fs) (dp : ℕ) (name : Buf) : Except Panic (Option (ℕ × ℕ) × Fs) :=
  if (s.mem dp).type ≠ T_DIR then s.panic "dirlookup not DIR"
  else do
    let (r, off, s) ← s.scan dp (fun inum de => decide (inum ≠ 0) && decide (namecmp name de = 0))
      "dirlookup read" (s.turns dp) 0
    match r with
    | none => .ok (none, s)
    | some i => do
        let s ← s.iget i
        .ok (some (i, off), s)

/-- The result is `false` if the name is there already. -/
def dirlink (s : Fs) (dp : ℕ) (name : Buf) (inum : ℕ) : Except Panic (Bool × Fs) := do
  let (r, s) ← s.dirlookup dp name
  match r with
  | some (i, _) => do
      let s ← s.iput i
      .ok (false, s)
  | none => do
      let (_, off, s) ← s.scan dp (fun inum _ => decide (inum = 0)) "dirlink read" (s.turns dp) 0
      let (r, s) ← s.writei dp (.kernel (direntBytes inum name)) (.ofNat off) 16
      if r ≠ DIRENT then s.panic "dirlink" else .ok (true, s)

def isdirempty (s : Fs) (dp : ℕ) : Except Panic (Bool × Fs) := do
  let (r, _, s) ← s.scan dp (fun inum _ => decide (inum ≠ 0)) "isdirempty: readi"
    (s.turns dp) (2 * DIRENT)
  .ok (r.isNone, s)

end Fs

/-! ## Paths -/

/-- Copy the next element of a path to `name`. The rest of the path has no leading slashes. -/
def skipelem (path : List UInt8) (name : Buf) : Option (Buf × List UInt8) :=
  let path := path.dropWhile (· = 47)
  if path = [] then none
  else
    let s := path.takeWhile (· ≠ 47)
    let name :=
      if DIRSIZ ≤ s.length then blit name 0 DIRSIZ (cstr s)
      else update (blit name 0 s.length (cstr s)) s.length 0
    some (name, (path.dropWhile (· ≠ 47)).dropWhile (· = 47))

namespace Fs

/-- The loop of `namex`; each turn takes an element off the path. The result is an inode, with a
reference to it, and the buffer of the name. -/
def namexLoop (parent : Bool) : ℕ → Fs → ℕ → List UInt8 → Buf →
    Except Panic (Option (ℕ × Buf) × Fs)
  | 0, s, _, _, _ => .ok (none, s)
  | turns + 1, s, ip, path, name =>
    match skipelem path name with
    | none =>
      if parent then do
        let s ← s.iput ip
        .ok (none, s)
      else .ok (some (ip, name), s)
    | some (name, path) => do
        let s ← s.ilock ip
        if (s.mem ip).type ≠ T_DIR then do
          let s ← s.iunlockput ip
          .ok (none, s)
        else if parent ∧ path = [] then do
          let s ← s.iunlock ip
          .ok (some (ip, name), s)
        else do
          let (r, s) ← s.dirlookup ip name
          let s ← s.iunlockput ip
          match r with
          | none => .ok (none, s)
          | some (next, _) => namexLoop parent turns s next path name

def namex (s : Fs) (path : List UInt8) (parent : Bool) (name : Buf) :
    Except Panic (Option (ℕ × Buf) × Fs) :=
  if path.head? = some 47 then do
    let s ← s.iget ROOTINO
    namexLoop parent (path.length + 1) s ROOTINO path name
  else namexLoop parent (path.length + 1) (s.idup s.cwd) s.cwd path name

def namei (s : Fs) (path : List UInt8) : Except Panic (Option ℕ × Fs) := do
  let (r, s) ← s.namex path false fun _ => 0
  .ok (r.map Prod.fst, s)

def nameiparent (s : Fs) (path : List UInt8) (name : Buf) :
    Except Panic (Option (ℕ × Buf) × Fs) :=
  s.namex path true name

end Fs

end Xv6.Content
