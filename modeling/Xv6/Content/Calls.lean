import Xv6.Content.Names

/-!
# The calls of `sysfile.c`

What the system calls on names and files do between their `begin_op` and their `end_op`. A path is
`none` if it could not be fetched.
-/

namespace Xv6.Content

open Lib Mkfs
open Function (update)

namespace Fs

def filealloc (s : Fs) : Option (Fin NFILE × Fs) :=
  match (List.finRange NFILE).find? fun f => (s.file f).ref = 0 with
  | none => none
  | some f => some (f, { s with file := update s.file f { s.file f with ref := 1 } })

def fdalloc (s : Fs) (f : Fin NFILE) : Option (Fin NOFILE × Fs) :=
  match (List.finRange NOFILE).find? fun fd => (s.ofile fd).isNone with
  | none => none
  | some fd => some (fd, { s with ofile := update s.ofile fd (some f) })

/-- `fileclose` of a file that has just been allocated: it has no kind yet. -/
def unalloc (s : Fs) (f : Fin NFILE) : Fs :=
  { s with file := update s.file f { s.file f with ref := 0, type := .none } }

/-! ## Names -/

/-- The entries of a new directory, and the link to its parent. -/
def createDots (s : Fs) (dp ip : ℕ) : Except Panic Fs := do
  let s ← (s.modify dp fun d => { d with nlink := d.nlink + 1 }).iupdate dp
  let (ok, s) ← s.dirlink ip (cstr [46]) ip
  if !ok then s.panic "create dots" else do
    let (ok, s) ← s.dirlink ip (cstr [46, 46]) dp
    if !ok then s.panic "create dots" else .ok s

/-- Enter the new inode, which has its links, in its directory. -/
def createEntry (s : Fs) (dp : ℕ) (name : Buf) (ip : ℕ) : Except Panic (ℕ × Fs) := do
  let (ok, s) ← s.dirlink dp name ip
  if !ok then s.panic "create: dirlink" else do
    let s ← s.iunlockput dp
    .ok (ip, s)

/-- The new inode of `create`, which is locked. -/
def createNew (s : Fs) (dp : ℕ) (name : Buf) (type major minor : UInt16) :
    Except Panic (ℕ × Fs) := do
  let (ip, s) ← s.ialloc type
  let s ← s.ilock ip
  let s ← (s.modify ip fun d => { d with major := major, minor := minor, nlink := 1 }).iupdate ip
  if type = T_DIR then do
    let s ← s.createDots dp ip
    s.createEntry dp name ip
  else s.createEntry dp name ip

/-- The result is an inode, which is locked. -/
def create (s : Fs) (path : List UInt8) (type major minor : UInt16) :
    Except Panic (Option ℕ × Fs) := do
  let (r, s) ← s.nameiparent path fun _ => 0
  match r with
  | none => .ok (none, s)
  | some (dp, name) => do
      let s ← s.ilock dp
      let (r, s) ← s.dirlookup dp name
      match r with
      | some (ip, _) => do
          let s ← s.iunlockput dp
          let s ← s.ilock ip
          if type = T_FILE ∧ ((s.mem ip).type = T_FILE ∨ (s.mem ip).type = T_DEVICE) then
            .ok (some ip, s)
          else do
            let s ← s.iunlockput ip
            .ok (none, s)
      | none => do
          let (ip, s) ← s.createNew dp name type major minor
          .ok (some ip, s)

/-- `sys_mkdir` and `sys_mknod`. -/
def mknod (s : Fs) (path : Option (List UInt8)) (type major minor : UInt16) :
    Except Panic (ℤ × Fs) :=
  match path with
  | none => .ok (-1, s)
  | some path => do
      let (r, s) ← s.create path type major minor
      match r with
      | none => .ok (-1, s)
      | some ip => do
          let s ← s.iunlockput ip
          .ok (0, s)

def sysMkdir (s : Fs) (path : Option (List UInt8)) : Except Panic (ℤ × Fs) :=
  s.mknod path T_DIR 0 0

def sysMknod (s : Fs) (path : Option (List UInt8)) (major minor : UInt16) : Except Panic (ℤ × Fs) :=
  s.mknod path T_DEVICE major minor

/-- Where `sys_open` gets its inode, which is locked. -/
def openInode (s : Fs) (path : List UInt8) (omode : UInt32) : Except Panic (Option ℕ × Fs) :=
  if omode &&& O_CREATE ≠ 0 then s.create path T_FILE 0 0
  else do
    let (r, s) ← s.namei path
    match r with
    | none => .ok (none, s)
    | some ip => do
        let s ← s.ilock ip
        if (s.mem ip).type = T_DIR ∧ omode ≠ O_RDONLY then do
          let s ← s.iunlockput ip
          .ok (none, s)
        else .ok (some ip, s)

/-- Truncate the locked inode if `omode` asks for it, and unlock it. -/
def openDone (s : Fs) (ip : ℕ) (omode : UInt32) (fd : ℤ) : Except Panic (ℤ × Fs) :=
  if omode &&& O_TRUNC ≠ 0 ∧ (s.mem ip).type = T_FILE then do
    let s ← s.itrunc ip
    let s ← s.iunlock ip
    .ok (fd, s)
  else do
    let s ← s.iunlock ip
    .ok (fd, s)

/-- Give the locked inode `ip` a file and a descriptor. -/
def openFile (s : Fs) (ip : ℕ) (omode : UInt32) : Except Panic (ℤ × Fs) :=
  match s.filealloc with
  | none => do
      let s ← s.iunlockput ip
      .ok (-1, s)
  | some (f, s) =>
    match s.fdalloc f with
    | none => do
        let s ← (s.unalloc f).iunlockput ip
        .ok (-1, s)
    | some (fd, s) =>
      let d := s.mem ip
      let entry : File :=
        { ref := (s.file f).ref
          type := if d.type = T_DEVICE then .device else .inode
          readable := omode &&& O_WRONLY = 0
          writable := omode &&& O_WRONLY ≠ 0 ∨ omode &&& O_RDWR ≠ 0
          ip := ip
          off := if d.type = T_DEVICE then (s.file f).off else 0
          major := if d.type = T_DEVICE then d.major else (s.file f).major }
      openDone { s with file := update s.file f entry } ip omode (fd : ℕ)

def sysOpen (s : Fs) (path : List UInt8) (omode : UInt32) : Except Panic (ℤ × Fs) := do
  let (r, s) ← s.openInode path omode
  match r with
  | none => .ok (-1, s)
  | some ip =>
    let d := s.mem ip
    if d.type = T_DEVICE ∧ (d.major.toInt16 < 0 ∨ d.major.toInt16 ≥ 10) then do
      let s ← s.iunlockput ip
      .ok (-1, s)
    else s.openFile ip omode

/-- Take the link back. -/
def linkBad (s : Fs) (ip : ℕ) : Except Panic (ℤ × Fs) := do
  let s ← s.ilock ip
  let s ← (s.modify ip fun d => { d with nlink := d.nlink - 1 }).iupdate ip
  let s ← s.iunlockput ip
  .ok (-1, s)

/-- Enter the new name of `ip`, which has the link already. -/
def linkNew (s : Fs) (ip : ℕ) (new : List UInt8) : Except Panic (ℤ × Fs) := do
  let (r, s) ← s.nameiparent new fun _ => 0
  match r with
  | none => s.linkBad ip
  | some (dp, name) => do
      let s ← s.ilock dp
      let (ok, s) ← s.dirlink dp name ip
      let s ← s.iunlockput dp
      if ok then do
        let s ← s.iput ip
        .ok (0, s)
      else s.linkBad ip

def sysLink (s : Fs) (old new : List UInt8) : Except Panic (ℤ × Fs) := do
  let (r, s) ← s.namei old
  match r with
  | none => .ok (-1, s)
  | some ip => do
      let s ← s.ilock ip
      if (s.mem ip).type = T_DIR then do
        let s ← s.iunlockput ip
        .ok (-1, s)
      else do
        let s ← (s.modify ip fun d => { d with nlink := d.nlink + 1 }).iupdate ip
        let s ← s.iunlock ip
        s.linkNew ip new

/-- Unlock the parent, and drop the link to `ip`. -/
def unlinkDone (s : Fs) (dp ip : ℕ) : Except Panic (ℤ × Fs) := do
  let s ← s.iunlockput dp
  let s ← (s.modify ip fun d => { d with nlink := d.nlink - 1 }).iupdate ip
  let s ← s.iunlockput ip
  .ok (0, s)

/-- Remove the entry at `off` of `dp`, and the link to `ip`; both are locked. -/
def unlinkEntry (s : Fs) (dp ip off : ℕ) : Except Panic (ℤ × Fs) := do
  let (r, s) ← s.writei dp (.kernel fun _ => 0) (.ofNat off) 16
  if r ≠ DIRENT then s.panic "unlink: writei"
  else if (s.mem ip).type = T_DIR then do
    let s ← (s.modify dp fun d => { d with nlink := d.nlink - 1 }).iupdate dp
    s.unlinkDone dp ip
  else s.unlinkDone dp ip

/-- Is there nothing against the removal of `ip`? -/
def unlinkable (s : Fs) (ip : ℕ) : Except Panic (Bool × Fs) :=
  if (s.mem ip).nlink.toInt16 < 1 then s.panic "unlink: nlink < 1"
  else if (s.mem ip).type = T_DIR then s.isdirempty ip
  else .ok (true, s)

def sysUnlink (s : Fs) (path : List UInt8) : Except Panic (ℤ × Fs) := do
  let (r, s) ← s.nameiparent path fun _ => 0
  match r with
  | none => .ok (-1, s)
  | some (dp, name) => do
      let s ← s.ilock dp
      if namecmp name (cstr [46]) = 0 ∨ namecmp name (cstr [46, 46]) = 0 then do
        let s ← s.iunlockput dp
        .ok (-1, s)
      else do
        let (r, s) ← s.dirlookup dp name
        match r with
        | none => do
            let s ← s.iunlockput dp
            .ok (-1, s)
        | some (ip, off) => do
            let s ← s.ilock ip
            let (ok, s) ← s.unlinkable ip
            if !ok then do
              let s ← s.iunlockput ip
              let s ← s.iunlockput dp
              .ok (-1, s)
            else s.unlinkEntry dp ip off

def sysChdir (s : Fs) (path : Option (List UInt8)) : Except Panic (ℤ × Fs) :=
  match path with
  | none => .ok (-1, s)
  | some path => do
      let (r, s) ← s.namei path
      match r with
      | none => .ok (-1, s)
      | some ip => do
          let s ← s.ilock ip
          if (s.mem ip).type ≠ T_DIR then do
            let s ← s.iunlockput ip
            .ok (-1, s)
          else do
            let s ← s.iunlock ip
            let s ← s.iput s.cwd
            .ok (0, { s with cwd := ip })

/-! ## The rest -/

/-- The parts of a file that `exec` reads. -/
def readParts (s : Fs) (ip : ℕ) : List (Dest × UInt32 × UInt32) → Except Panic Fs
  | [] => .ok s
  | (dst, off, n) :: parts => do
      let (_, _, s) ← s.readi ip dst off n
      s.readParts ip parts

/-- What `exec` does with the file system. -/
def execRead (s : Fs) (path : List UInt8) (parts : List (Dest × UInt32 × UInt32)) :
    Except Panic (ℤ × Fs) := do
  let (r, s) ← s.namei path
  match r with
  | none => .ok (-1, s)
  | some ip => do
      let s ← s.ilock ip
      let s ← s.readParts ip parts
      let s ← s.iunlockput ip
      .ok (0, s)

/-- The bytes that `filewrite` writes at a time. -/
def maxWrite : ℕ := ((MAXOPBLOCKS - 1 - 1 - 2) / 2) * BSIZE

/-- Move the offset of a file. -/
def advance (s : Fs) (f : Fin NFILE) (n : UInt32) : Fs :=
  { s with file := update s.file f { s.file f with off := (s.file f).off + n } }

theorem off_advance (s : Fs) (f : Fin NFILE) (n : UInt32) :
    ((s.advance f n).file f).off = (s.file f).off + n := by
  simp [advance]

/-- The `iput` of `fileclose`, by the last that has the file open. -/
def closeLast (s : Fs) (f : Fin NFILE) : Except Panic (ℤ × Fs) := do
  let s ← (s.unalloc f).iput (s.file f).ip
  .ok (0, s)

/-- The `iput` of `exit`. -/
def exitCwd (s : Fs) : Except Panic (ℤ × Fs) := do
  let s ← s.iput s.cwd
  .ok (0, { s with cwd := 0 })

/-- A turn of `filewrite`: `n` bytes at the address `va` of the process. -/
def writeChunk (s : Fs) (f : Fin NFILE) (u : UserMem) (va : ℕ) (n : UInt32) :
    Except Panic (ℤ × Fs) := do
  let ip := (s.file f).ip
  let s ← s.ilock ip
  let (r, s) ← s.writei ip (.user u va) (s.file f).off n
  let s := if r > 0 then s.advance f (.ofNat r.toNat) else s
  let s ← s.iunlock ip
  .ok (r, s)

end Fs

/-- A path as the calls get it. -/
abbrev Path := { path : List UInt8 // 0 ∉ path }

/-- What runs between a `begin_op` and its `end_op`. -/
inductive Section
  /-- A turn of `filewrite` when `i` of `n` bytes have been written. -/
  | write (f : Fin NFILE) (u : UserMem) (addr n i : ℕ)
  | open (path : Path) (omode : UInt32)
  | mkdir (path : Option Path)
  | mknod (path : Option Path) (major minor : UInt16)
  | link (old new : Path)
  | unlink (path : Path)
  | chdir (path : Option Path)
  /-- What `exec` does until it unlocks the file. -/
  | exec (path : Path) (parts : List (Dest × UInt32 × UInt32))
  | close (f : Fin NFILE)
  | exit

namespace Section

def run : Section → Fs → Except Panic (ℤ × Fs)
  | .write f u addr n i, s => s.writeChunk f u (addr + i) (.ofNat (min (n - i) Fs.maxWrite))
  | .open path omode, s => s.sysOpen path.1 omode
  | .mkdir path, s => s.sysMkdir (path.map Subtype.val)
  | .mknod path major minor, s => s.sysMknod (path.map Subtype.val) major minor
  | .link old new, s => s.sysLink old.1 new.1
  | .unlink path, s => s.sysUnlink path.1
  | .chdir path, s => s.sysChdir (path.map Subtype.val)
  | .exec path parts, s => s.execRead path.1 parts
  | .close f, s => s.closeLast f
  | .exit, s => s.exitCwd

/-- The file of the section is one of an inode; other files take no section. -/
def Applies : Section → Fs → Prop
  | .write f .., s => (s.file f).type = .inode
  | .close f, s => (s.file f).type = .inode ∨ (s.file f).type = .device
  | _, _ => True

end Section

end Xv6.Content
