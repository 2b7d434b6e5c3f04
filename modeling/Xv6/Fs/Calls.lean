import Xv6.Fs.Inode
import Mathlib.Data.Fintype.Card

/-!
# The name-space system calls

`create`, `sys_open`, `sys_link`, `sys_unlink`, `sys_mkdir`, `sys_mknod`, `sys_chdir` and
`namex` of `kernel/sysfile.c` and `kernel/fs.c`, cut at the places where the kernel holds no
inode lock. A `Task` is what one process has under way: the call it is in, the inodes it still
has to `iput`, its open files and its working directory. Each `iput` is a step of its own, and
so is each turn of the loop of `namex`; what happens under one lock is one step.
-/

namespace Xv6.Fs

/-- A path as `skipelem` cuts it, and whether it starts at the root. -/
structure Path where
  abs : Bool
  elems : List Name
  deriving DecidableEq, Repr

/-- What is to be done with the inode `namex` returns. -/
inductive Call
  /-- `create`. If it is called by `sys_open`, `opens` says whether `filealloc` and `fdalloc`
  will succeed. -/
  | create (type : NewType) (major : Int16) (opens : Option Bool)
  /-- `sys_open` without `O_CREATE`. -/
  | openAt (rdonly room : Bool)
  /-- `sys_link`, looking for the old name. -/
  | linkOld (new : Path)
  /-- `sys_link`, looking for the directory of the new name; `ip` has its new link counted. -/
  | linkNew (ip : Inum)
  | unlink
  | chdir
  deriving DecidableEq, Repr

/-- Does the call look for the parent of the last element? -/
def Call.nameiparent : Call → Bool
  | .create .. | .linkNew _ | .unlink => true
  | .openAt .. | .linkOld _ | .chdir => false

/-- Where a process is between two lock sections. -/
inductive Stage
  | idle
  /-- In the loop of `namex`. -/
  | namex (ip : Inum) (path : List Name) (call : Call)
  /-- `namex` has returned `ip`, and the last element in `name`. -/
  | found (ip : Inum) (name : Name) (call : Call)
  /-- `create` has found the name in use. -/
  | existing (ip : Inum) (type : NewType) (opens : Option Bool)
  /-- At the label `bad` of `sys_link`. -/
  | bad (ip : Inum)
  deriving DecidableEq, Repr

/-- Where a call goes when `namex` returns zero. -/
def Call.failed : Call → Stage
  | .linkNew ip => .bad ip
  | _ => .idle

/-- A process as the file system sees it. -/
structure Task where
  cwd : Option Inum
  /-- The inodes of the open files. -/
  ofile : List Inum
  /-- The inodes whose `iput` comes next, in this order. -/
  puts : List Inum
  stage : Stage
  deriving DecidableEq, Repr

namespace Inodes

/-- The entries `"."` and `".."` of a new directory. -/
def dots (s : Inodes) (dp ip : Inum) : Except String Inodes := do
  let s := s.mod dp fun x => { x with nlink := x.nlink + 1 }
  let (s, linked) ← s.dirlink ip dot ip
  if linked then
    let (s, linked) ← s.dirlink ip dotdot dp
    if linked then return s else throw "create dots"
  else throw "create dots"

/-- The part of `create` that only a directory needs. -/
def mkdir (s : Inodes) (type : FileType) (dp ip : Inum) : Except String Inodes :=
  if type = .dir then s.dots dp ip else .ok s

/-- `create` once `nameiparent` has returned `dp`, up to the `iput` of `dp`: the inode, and
whether the name was already in use. -/
def create (s : Inodes) (dp : Inum) (name : Name) (type : FileType) (major : Int16) :
    Except String (Inodes × Inum × Bool) := do
  let s ← s.ilock dp
  let (s, found) ← s.dirlookup dp name
  match found with
  | some ip => return (s, ip, true)
  | none =>
    let (s, ip) ← s.ialloc type
    let s ← s.ilock ip
    let s := s.mod ip fun x => { x with major := major, nlink := 1 }
    let s ← s.mkdir type dp ip
    let (s, linked) ← s.dirlink dp name ip
    if linked then return (s, ip, false) else throw "create: dirlink"

/-- `sys_unlink` once `nameiparent` has returned `dp`: the inodes to `iput` are returned. -/
def unlink (s : Inodes) (dp : Inum) (name : Name) : Except String (Inodes × List Inum) := do
  let s ← s.ilock dp
  if name = dot ∨ name = dotdot then return (s, [dp])
  else
    let (s, found) ← s.dirlookup dp name
    match found with
    | none => return (s, [dp])
    | some ip =>
      let s ← s.ilock ip
      if (s ip).nlink < 1 then throw "unlink: nlink < 1"
      else if (s ip).type = .dir ∧ (s ip).isdirempty = false then return (s, [ip, dp])
      else
        let isdir := decide ((s ip).type = .dir)
        let s := s.mod dp fun x => { x with dirents := erase name x.dirents }
        let s := if isdir then s.mod dp fun x => { x with nlink := x.nlink - 1 } else s
        return (s.mod ip fun x => { x with nlink := x.nlink - 1 }, [dp, ip])

end Inodes

namespace Task

/-- The call returns, after these `iput`s. -/
def ret (t : Task) (puts : List Inum) : Task := { t with puts := puts, stage := .idle }

/-- The end of `sys_open`, from the check of the device number on. -/
def openFile (t : Task) (x : Inode) (ip : Inum) (puts : List Inum) (room : Bool) : Task :=
  if x.type = .device ∧ (x.major.toInt < 0 ∨ (NDEV : ℤ) ≤ x.major.toInt) then t.ret (puts ++ [ip])
  else if room = false then t.ret (puts ++ [ip])
  else { t.ret puts with ofile := t.ofile ++ [ip] }

/-- What `create`'s caller does with the inode it returned: `sys_open` opens it, `sys_mkdir` and
`sys_mknod` put it. -/
def created (t : Task) (x : Inode) (ip : Inum) (puts : List Inum) : Option Bool → Task
  | some room => t.openFile x ip puts room
  | none => t.ret (puts ++ [ip])

/-- The start of `namex`, from the root or the working directory. -/
def startNamex (t : Task) (s : Inodes) (path : Path) (call : Call) :
    Except String (Inodes × Task) :=
  if path.abs then do
    let s ← s.iget rootino
    return (s, { t with stage := .namex rootino path.elems call })
  else match t.cwd with
    | some ip => .ok (s.idup ip, { t with stage := .namex ip path.elems call })
    -- a process that has exited has no working directory, and runs no more
    | none => .error "kerneltrap"

/-- One turn of the loop of `namex`, or its end. -/
def namexTurn (t : Task) (s : Inodes) (ip : Inum) (call : Call) :
    List Name → Except String (Inodes × Task)
  | [] =>
    if call.nameiparent then .ok (s, { t with puts := [ip], stage := call.failed })
    else .ok (s, { t with stage := .found ip [] call })
  | name :: path => do
      let s ← s.ilock ip
      if (s ip).type ≠ .dir then return (s, { t with puts := [ip], stage := call.failed })
      else if call.nameiparent ∧ path = [] then
        return (s, { t with stage := .found ip name call })
      else
        let (s, next) ← s.dirlookup ip name
        match next with
        | none => return (s, { t with puts := [ip], stage := call.failed })
        | some next => return (s, { t with puts := [ip], stage := .namex next path call })

/-- What follows a successful `namex`, up to the next unlocked point. -/
def foundTurn (t : Task) (s : Inodes) (ip : Inum) (name : Name) :
    Call → Except String (Inodes × Task)
  | .create type major opens => do
      let (s, i, inUse) ← s.create ip name type.1 major
      if inUse then return (s, { t with puts := [ip], stage := .existing i type opens })
      else return (s, t.created (s i) i [ip] opens)
  | .openAt rdonly room => do
      let s ← s.ilock ip
      if (s ip).type = .dir ∧ rdonly = false then return (s, t.ret [ip])
      else return (s, t.openFile (s ip) ip [] room)
  | .linkOld new => do
      let s ← s.ilock ip
      if (s ip).type = .dir then return (s, t.ret [ip])
      else
        t.startNamex (s.mod ip fun x => { x with nlink := x.nlink + 1 }) new (.linkNew ip)
  | .linkNew i => do
      let s ← s.ilock ip
      let (s, linked) ← s.dirlink ip name i
      if linked then return (s, t.ret [ip, i])
      else return (s, { t with puts := [ip], stage := .bad i })
  | .unlink => do
      let (s, puts) ← s.unlink ip name
      return (s, t.ret puts)
  | .chdir => do
      let s ← s.ilock ip
      if (s ip).type ≠ .dir then return (s, t.ret [ip])
      else return (s, { t.ret t.cwd.toList with cwd := some ip })

/-- The next step of a process that is in a call; none if it is in none. -/
def run (t : Task) (s : Inodes) : Option (Except String (Inodes × Task)) :=
  match t.puts, t.stage with
  | i :: puts, _ => some (.ok (s.iput i, { t with puts := puts }))
  | [], .idle => none
  | [], .namex ip path call => some (t.namexTurn s ip call path)
  | [], .found ip name call => some (t.foundTurn s ip name call)
  | [], .existing ip type opens => some do
      let s ← s.ilock ip
      if type.1 = .file ∧ ((s ip).type = .file ∨ (s ip).type = .device) then
        return (s, t.created (s ip) ip [] opens)
      else return (s, t.ret [ip])
  | [], .bad ip => some do
      let s ← s.ilock ip
      return (s.mod ip fun x => { x with nlink := x.nlink - 1 }, t.ret [ip])

end Task

/-- A system call a process makes. In `open`, `room` says whether `filealloc` and `fdalloc`
succeed. -/
inductive Syscall
  | open (path : Path) (create rdonly room : Bool)
  | mkdir (path : Path)
  | mknod (path : Path) (major : Int16)
  | link (old new : Path)
  | unlink (path : Path)
  | chdir (path : Path)
  | close (fd : ℕ)
  | exit
  deriving DecidableEq, Repr

/-- The beginning of a system call. -/
def Task.begin (t : Task) (s : Inodes) : Syscall → Except String (Inodes × Task)
  | .open path create rdonly room =>
    t.startNamex s path
      (if create then .create ⟨.file, file_ne_free⟩ 0 (some room) else .openAt rdonly room)
  | .mkdir path => t.startNamex s path (.create ⟨.dir, by decide⟩ 0 none)
  | .mknod path major => t.startNamex s path (.create ⟨.device, by decide⟩ major none)
  | .link old new => t.startNamex s old (.linkOld new)
  | .unlink path => t.startNamex s path .unlink
  | .chdir path => t.startNamex s path .chdir
  | .close fd =>
    match t.ofile[fd]? with
    | some ip => .ok (s, { t with ofile := t.ofile.eraseIdx fd, puts := [ip] })
    | none => .ok (s, t)
  | .exit => .ok (s, { t with cwd := none, ofile := [], puts := t.ofile ++ t.cwd.toList })

/-- The process is in no call and has not exited. -/
def Task.Ready (t : Task) : Prop := t.stage = .idle ∧ t.puts = [] ∧ t.cwd.isSome

instance (t : Task) : Decidable t.Ready := inferInstanceAs (Decidable (_ ∧ _))

/-- The file system and the processes that use it. -/
structure FsSys (P : Type) where
  inodes : Inodes
  task : P → Task

/-- A process makes a system call, or goes on with the one it is in. -/
inductive FsAct (P : Type)
  | call (p : P) (c : Syscall)
  | run (p : P)

namespace FsSys

variable {P : Type} [DecidableEq P]

/-- The process `p` has left these inodes and is now here. -/
def set (s : FsSys P) (p : P) (r : Inodes × Task) : FsSys P :=
  ⟨r.1, Function.update s.task p r.2⟩

/-- One step, which may panic; none if the action is not enabled. -/
def next (s : FsSys P) : FsAct P → Option (Except String (FsSys P))
  | .call p c =>
    if (s.task p).Ready then some (((s.task p).begin s.inodes c).map (s.set p)) else none
  | .run p => ((s.task p).run s.inodes).map fun r => r.map (s.set p)

/-- One step. The machine stops at a panic. -/
def step (s : FsSys P) (a : FsAct P) : Option (FsSys P) := (s.next a).bind Except.toOption

end FsSys

/-- A file system as `mkfs` makes it: the names of the files put into the root directory. -/
structure Image where
  files : List Name
  plain : ∀ name ∈ files, Plain name
  fits : files.length + 2 ≤ NINODES

namespace Image

theorem inum_lt (m : Image) (k : Fin m.files.length) : k + 2 < NINODES := by
  have := m.fits
  omega

/-- The entries of the root directory, which `mkfs` extends to whole blocks of 64. -/
def rootDirents (m : Image) : List Dirent :=
  ⟨dot, rootino⟩ :: ⟨dotdot, rootino⟩ ::
    ((List.finRange m.files.length).map fun k =>
      ⟨m.files.get k, ⟨k + 2, m.inum_lt k⟩⟩) ++
    List.replicate (64 - (m.files.length + 2) % 64) .zero

/-- The inodes of the image, with `n` references to the root directory. -/
def inodes (m : Image) (n : ℕ) : Inodes := fun i =>
  if i = rootino then ⟨.dir, 0, 1, m.rootDirents, n, false⟩
  else if 2 ≤ i.val ∧ i.val < m.files.length + 2 then ⟨.file, 0, 1, [], 0, false⟩
  else ⟨.free, 0, 0, [], 0, false⟩

/-- The processes `P` start with the root as their working directory. -/
def boot (P : Type) [Fintype P] (m : Image) : FsSys P where
  inodes := m.inodes (Fintype.card P)
  task := fun _ => ⟨some rootino, [], [], .idle⟩

end Image

end Xv6.Fs
