import Xv6.Param
import Mathlib.Data.List.FinRange

/-!
# Inodes and directories

The inode layer of `kernel/fs.c`: the fields of an inode that the name space depends on, the
reference counts of the in-memory table, and directories as lists of entries. Every change of
an in-memory inode is written to disk by `iupdate` before its lock is released, so the fields
are kept once; `valid` says whether the in-memory copy has been read. A file's data, the minor
device number and the blocks a directory occupies are left out.
-/

namespace Xv6.Fs

/-- An inode number. Zero marks an empty directory entry. -/
abbrev Inum := Fin NINODES

/-- `ROOTINO`. -/
def rootino : Inum := 1

/-- A path element or the name in a directory entry, without its padding. -/
abbrev Name := List UInt8

/-- The name `"."`. -/
def dot : Name := [46]

/-- The name `".."`. -/
def dotdot : Name := [46, 46]

/-- A name other than `"."` and `".."`. -/
def Plain (name : Name) : Prop := name ≠ dot ∧ name ≠ dotdot

instance (name : Name) : Decidable (Plain name) := inferInstanceAs (Decidable (_ ∧ _))

/-- The `type` of an inode: zero, `T_DIR`, `T_FILE` or `T_DEVICE`. -/
inductive FileType
  | free | dir | file | device
  deriving DecidableEq, Repr

/-- The type of an inode in use. -/
abbrev NewType := { type : FileType // type ≠ .free }

theorem file_ne_free : FileType.file ≠ .free := by decide

/-- `struct dirent`. -/
structure Dirent where
  name : Name
  inum : Inum
  deriving DecidableEq, Repr

/-- The entry `memset` writes over an erased one. -/
def Dirent.zero : Dirent := ⟨[], 0⟩

/-- The entry is in use and has this name. -/
def Dirent.is (e : Dirent) (name : Name) : Bool := e.inum ≠ 0 && e.name = name

/-- `struct inode`, with the entries of a directory in place of its data. -/
structure Inode where
  type : FileType
  major : Int16
  nlink : Int16
  dirents : List Dirent
  ref : ℕ
  valid : Bool
  deriving DecidableEq, Repr

/-- Put an entry into the first empty place of a directory, or at its end. -/
def place (e : Dirent) : List Dirent → List Dirent
  | [] => [e]
  | d :: ds => if d.inum = 0 then e :: ds else d :: place e ds

/-- Write zeros over the first entry in use that has this name. -/
def erase (name : Name) : List Dirent → List Dirent
  | [] => []
  | d :: ds => if d.is name then .zero :: ds else d :: erase name ds

namespace Inode

/-- The inode number a directory has under a name. -/
def lookup (x : Inode) (name : Name) : Option Inum :=
  (x.dirents.find? fun e => e.is name).map Dirent.inum

/-- The directory has no entry in use beyond the first two. -/
def isdirempty (x : Inode) : Bool := (x.dirents.drop 2).all fun e => e.inum = 0

end Inode

/-- All inodes of the device. -/
abbrev Inodes := Inum → Inode

namespace Inodes

/-- Change one inode. -/
def mod (s : Inodes) (i : Inum) (f : Inode → Inode) : Inodes := Function.update s i (f (s i))

/-- Number of entries of the in-memory table that are in use. -/
def used (s : Inodes) : ℕ := (List.finRange NINODES).countP fun i => 0 < (s i).ref

/-- `iget`: one more reference, to a new entry of the table if there is none. -/
def iget (s : Inodes) (i : Inum) : Except String Inodes :=
  if 0 < (s i).ref then .ok (s.mod i fun x => { x with ref := x.ref + 1 })
  else if NINODE ≤ s.used then .error "iget: no inodes"
  else .ok (s.mod i fun x => { x with ref := 1, valid := false })

def idup (s : Inodes) (i : Inum) : Inodes := s.mod i fun x => { x with ref := x.ref + 1 }

/-- `ilock`, which reads the inode if that has not been done. -/
def ilock (s : Inodes) (i : Inum) : Except String Inodes :=
  if (s i).ref < 1 then .error "ilock"
  else if (s i).valid then .ok s
  else if (s i).type = .free then .error "ilock: no type"
  else .ok (s.mod i fun x => { x with valid := true })

/-- The test of `iput`: the last reference to an inode without links. -/
def Frees (s : Inodes) (i : Inum) : Prop :=
  (s i).ref = 1 ∧ (s i).valid = true ∧ (s i).nlink = 0

instance (s : Inodes) (i : Inum) : Decidable (s.Frees i) :=
  inferInstanceAs (Decidable (_ ∧ _))

/-- `iput`: drop a reference, and free the inode with the last one if it has no links. -/
def iput (s : Inodes) (i : Inum) : Inodes :=
  let s := if s.Frees i then
      s.mod i fun x => { x with type := .free, dirents := [], valid := false }
    else s
  s.mod i fun x => { x with ref := x.ref - 1 }

/-- `ialloc`: take the first free inode, and a reference to it. -/
def ialloc (s : Inodes) (type : FileType) : Except String (Inodes × Inum) :=
  match (List.finRange NINODES).find? fun i => i ≠ 0 ∧ (s i).type = .free with
  | none => .error "ialloc: no inodes"
  | some i => do
      let s ← (s.mod i fun x =>
        { x with type := type, major := 0, nlink := 0, dirents := [] }).iget i
      return (s, i)

/-- `dirlookup`: the inode under a name, with a reference to it. -/
def dirlookup (s : Inodes) (dp : Inum) (name : Name) : Except String (Inodes × Option Inum) :=
  if (s dp).type ≠ .dir then .error "dirlookup not DIR"
  else match (s dp).lookup name with
    | none => .ok (s, none)
    | some i => do
        let s ← s.iget i
        return (s, some i)

/-- `dirlink`: write a new entry unless the name is present. -/
def dirlink (s : Inodes) (dp : Inum) (name : Name) (i : Inum) : Except String (Inodes × Bool) := do
  let (s, found) ← s.dirlookup dp name
  match found with
  | some j => return (s.iput j, false)
  | none => return (s.mod dp fun x => { x with dirents := place ⟨name, i⟩ x.dirents }, true)

end Inodes

end Xv6.Fs
