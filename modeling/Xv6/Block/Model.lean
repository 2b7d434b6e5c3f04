import Xv6.Fs.Inode
import Xv6.Lib.Run

/-!
# Blocks and the inodes that hold them

`balloc`, `bfree`, `bzero`, `bmap`, `itrunc`, `readi`, `writei`, `ialloc`, `iget`, `idup`, `ilock`,
`iunlock`, `iput` and `iupdate` of `kernel/fs.c`, run by any number of processes. What happens
under the lock of one buffer is one step: a block of the free map is searched and a bit is set, a
block is zeroed or filled, an inode is copied to its block. The system calls reach the blocks of
the disk only through these functions, in an order that depends on the names; here a process may
call any of them at any time, as long as it has the pointer or the lock the function needs. The
size of the in-memory table is left out: where `iget` panics because the table is full, the model
goes on.

The contents of a block are the `uint`s that an indirect block is made of; what `writei` copies
into a block is up to the caller.
-/

namespace Xv6.Block

open Function (update)

open Fs (FileType NewType)

/-- The part of `struct superblock` the functions read. The data blocks are the last `nblocks`
blocks. -/
structure Superblock where
  size : ℕ
  nblocks : ℕ
  ninodes : ℕ
  deriving DecidableEq

/-- Is the block a data block? -/
def Superblock.IsData (sb : Superblock) (b : ℕ) : Prop := sb.size - sb.nblocks ≤ b ∧ b < sb.size

instance (sb : Superblock) (b : ℕ) : Decidable (sb.IsData b) :=
  inferInstanceAs (Decidable (_ ∧ _))

/-- `struct dinode`, and the same fields of `struct inode`. The device numbers are left out. -/
structure Dinode where
  type : FileType
  nlink : Int16
  size : ℕ
  addrs : Fin (NDIRECT + 1) → ℕ

namespace Dinode

def setAddr (x : Dinode) (k : Fin (NDIRECT + 1)) (b : ℕ) : Dinode :=
  { x with addrs := update x.addrs k b }

def setSize (x : Dinode) (size : ℕ) : Dinode := { x with size := size }

def setType (x : Dinode) (type : FileType) : Dinode := { x with type := type }

def setNlink (x : Dinode) (nlink : Int16) : Dinode := { x with nlink := nlink }

end Dinode

/-- The contents of an indirect block. -/
abbrev Entries := Fin NINDIRECT → ℕ

/-- A place in an inode that can hold a block number. -/
inductive Slot
  | addr (k : Fin (NDIRECT + 1))
  | entry (j : Fin NINDIRECT)
  deriving DecidableEq

/-- What `bmap` finds. -/
inductive Mapped
  | block (b : ℕ)
  /-- The place is zero, and gets a new block. -/
  | hole (slot : Slot)
  /-- `panic("bmap: out of range")` -/
  | out
  deriving DecidableEq

/-- The lookups of `bmap`. -/
def Dinode.bmap (x : Dinode) (data : ℕ → Entries) (bn : ℕ) : Mapped :=
  if h : bn < NDIRECT then
    let k : Fin (NDIRECT + 1) := ⟨bn, Nat.lt_succ_of_lt h⟩
    if x.addrs k = 0 then .hole (.addr k) else .block (x.addrs k)
  else if h : bn - NDIRECT < NINDIRECT then
    let a := x.addrs (Fin.last NDIRECT)
    if a = 0 then .hole (.addr (Fin.last NDIRECT))
    else if data a ⟨bn - NDIRECT, h⟩ = 0 then .hole (.entry ⟨bn - NDIRECT, h⟩)
    else .block (data a ⟨bn - NDIRECT, h⟩)
  else .out

/-- Where `readi` or `writei` is. -/
inductive IoAt
  /-- At the loop test. -/
  | loop
  /-- In `balloc`, at the block of the free map that starts with the bit of `b`. -/
  | balloc (b : ℕ) (slot : Slot)
  /-- In `balloc`, at `bzero` of the block that has been found. -/
  | bzero (b : ℕ) (slot : Slot)
  /-- Past the loop of `writei`. -/
  | update
  deriving DecidableEq

/-- Where `itrunc` is. -/
inductive TruncAt
  /-- In the loop over the direct blocks. -/
  | direct (k : ℕ)
  /-- In the loop over the entries of the indirect block. -/
  | entry (j : ℕ)
  /-- At `bfree` of the indirect block. -/
  | indirect
  /-- At `ip->size = 0` and `iupdate`. -/
  | update
  deriving DecidableEq

/-- Where a process is. `T` names the pointers to inodes: open files, working directories and
local variables. -/
inductive Stage (T : Type)
  | idle
  /-- In `readi` or `writei`, with `tot` of `n` bytes done. -/
  | io (i : ℕ) (write : Bool) (off n tot : ℕ) (pc : IoAt)
  /-- In `itrunc`, called by `iput` of a pointer or not. -/
  | trunc (i : ℕ) (t : Option T) (pc : TruncAt)
  /-- In `iput`, at `ip->type = 0`. -/
  | iputFree (i : ℕ) (t : T)
  /-- In `iput`, at `ip->ref--` after the inode has been freed. -/
  | iputDrop (i : ℕ)
  /-- In the loop of `ialloc`. -/
  | ialloc (i : ℕ) (type : NewType) (t : T)
  /-- At the end of `ialloc`, at `iget`. -/
  | allocated (i : ℕ) (t : T)

/-- The disk, the in-memory inodes and the processes. -/
structure Sys (P T : Type) where
  /-- The free map. -/
  bitmap : ℕ → Bool
  data : ℕ → Entries
  /-- The inodes on disk. -/
  dinode : ℕ → Dinode
  /-- The inodes in memory. -/
  inode : ℕ → Dinode
  valid : ℕ → Bool
  ref : ℕ → ℕ
  /-- Who has the lock of an inode, and by which pointer. -/
  lock : ℕ → Option (P × T)
  /-- The inode that a pointer is to. -/
  ptr : T → Option ℕ
  stage : P → Stage T

/-- What can happen next. -/
inductive Act (P T : Type)
  | iget (p : P) (t : T) (i : ℕ)
  | idup (p : P) (t u : T)
  | ilock (p : P) (t : T)
  | iunlock (p : P) (i : ℕ)
  | readi (p : P) (i : ℕ) (off n : UInt32)
  | writei (p : P) (i : ℕ) (off n : UInt32)
  | itrunc (p : P) (i : ℕ)
  /-- `ip->nlink = nlink; iupdate(ip)` -/
  | setNlink (p : P) (i : ℕ) (nlink : Int16)
  | iput (p : P) (t : T)
  | ialloc (p : P) (type : NewType) (t : T)
  /-- A process goes on; `ok` is whether a copy from or to user memory succeeds, and `new` what a
  copy from it, complete or not, makes of the block. -/
  | run (p : P) (ok : Bool) (new : Entries)

namespace Sys

variable {P T : Type} [DecidableEq P] [DecidableEq T]

def goto (s : Sys P T) (p : P) (st : Stage T) : Sys P T :=
  { s with stage := update s.stage p st }

def setInode (s : Sys P T) (i : ℕ) (x : Dinode) : Sys P T :=
  { s with inode := update s.inode i x }

def iupdate (s : Sys P T) (i : ℕ) : Sys P T :=
  { s with dinode := update s.dinode i (s.inode i) }

/-- Assign a block number. -/
def assign (s : Sys P T) (i : ℕ) (slot : Slot) (b : ℕ) : Sys P T :=
  match slot with
  | .addr k => s.setInode i ((s.inode i).setAddr k b)
  | .entry j =>
    let a := (s.inode i).addrs (Fin.last NDIRECT)
    { s with data := update s.data a (update (s.data a) j b) }

/-- The search of `balloc` in one block of the free map. -/
def findFree (sb : Superblock) (s : Sys P T) (b : ℕ) : Option ℕ :=
  ((List.range BPB).map (b + ·)).find? fun x => x < sb.size ∧ s.bitmap x = false

def bfree (s : Sys P T) (b : ℕ) : Except String (Sys P T) :=
  if s.bitmap b = false then .error "freeing free block"
  else .ok { s with bitmap := update s.bitmap b false }

/-- A place of `itrunc`: free the block if there is one. -/
def bfreeAt (s : Sys P T) (b : ℕ) : Except String (Sys P T) := if b = 0 then .ok s else s.bfree b

/-- `iget`, with the new pointer `t`. -/
def iget (s : Sys P T) (t : T) (i : ℕ) : Sys P T :=
  if 0 < s.ref i then
    { s with ref := update s.ref i (s.ref i + 1), ptr := update s.ptr t (some i) }
  else
    { s with
      ref := update s.ref i 1
      valid := update s.valid i false
      ptr := update s.ptr t (some i) }

/-- `ilock`; a lock that is held is waited for. -/
def ilock (s : Sys P T) (p : P) (t : T) (i : ℕ) : Option (Except String (Sys P T)) :=
  if s.ref i < 1 then some (.error "ilock")
  else if s.lock i ≠ none then none
  else if s.valid i then some (.ok { s with lock := update s.lock i (some (p, t)) })
  else if (s.dinode i).type = .free then some (.error "ilock: no type")
  else some (.ok
    { s with
      inode := update s.inode i (s.dinode i)
      valid := update s.valid i true
      lock := update s.lock i (some (p, t)) })

/-- `ip->ref--` -/
def deref (s : Sys P T) (i : ℕ) : Sys P T :=
  { s with ref := update s.ref i (s.ref i - 1) }

/-- The start of `iput`, and all of it if the inode is not freed. A pointer whose inode is locked
through it is not put. -/
def iput (s : Sys P T) (p : P) (t : T) (i : ℕ) : Option (Sys P T) :=
  match s.lock i with
  | some (_, u) =>
    if u = t ∨ s.ref i = 1 ∧ s.valid i ∧ (s.inode i).nlink = 0 then none
    else some { s.deref i with ptr := update s.ptr t none }
  | none =>
    if s.ref i = 1 ∧ s.valid i ∧ (s.inode i).nlink = 0 then
      some ({ s with lock := update s.lock i (some (p, t)) }.goto p
        (.trunc i (some t) (.direct 0)))
    else some { s.deref i with ptr := update s.ptr t none }

/-- One step of `readi` or `writei`. -/
def io (sb : Superblock) (s : Sys P T) (p : P) (ok : Bool) (new : Entries) (i : ℕ) (write : Bool)
    (off n tot : ℕ) : IoAt → Except String (Sys P T)
  | .loop =>
    if n ≤ tot then
      .ok (s.goto p (if write then .io i write off n tot .update else .idle))
    else match (s.inode i).bmap s.data (off / BSIZE) with
      | .out => .error "bmap: out of range"
      | .hole slot => .ok (s.goto p (.io i write off n tot (.balloc 0 slot)))
      | .block b =>
        let m := min (n - tot) (BSIZE - off % BSIZE)
        let next := Stage.io i write (off + m) n (tot + m) .loop
        if write then
          .ok ({ s with data := update s.data b new }.goto p
            (if ok then next else .io i write off n tot .update))
        else .ok (s.goto p (if ok then next else .idle))
  | .balloc b slot =>
    if b < sb.size then
      match s.findFree sb b with
      | some x => .ok ({ s with bitmap := update s.bitmap x true }.goto p
          (.io i write off n tot (.bzero x slot)))
      | none => .ok (s.goto p (.io i write off n tot (.balloc (b + BPB) slot)))
    else .error "balloc: out of blocks"
  -- `bmap` returns the block it has just assigned; the next turn finds it there
  | .bzero b slot =>
    .ok (({ s with data := update s.data b fun _ => 0 }.assign i slot b).goto p
      (.io i write off n tot .loop))
  | .update =>
    .ok (((s.setInode i ((s.inode i).setSize (max off (s.inode i).size))).iupdate i).goto p
      .idle)

/-- One step of `itrunc`. -/
def trunc (s : Sys P T) (p : P) (i : ℕ) (t : Option T) : TruncAt → Except String (Sys P T)
  | .direct k =>
    if h : k < NDIRECT then do
      let slot : Fin (NDIRECT + 1) := ⟨k, Nat.lt_succ_of_lt h⟩
      let s ← s.bfreeAt ((s.inode i).addrs slot)
      return (s.assign i (.addr slot) 0).goto p (.trunc i t (.direct (k + 1)))
    else if (s.inode i).addrs (Fin.last NDIRECT) = 0 then
      .ok (s.goto p (.trunc i t .update))
    else .ok (s.goto p (.trunc i t (.entry 0)))
  | .entry j =>
    if h : j < NINDIRECT then do
      let s ← s.bfreeAt (s.data ((s.inode i).addrs (Fin.last NDIRECT)) ⟨j, h⟩)
      return s.goto p (.trunc i t (.entry (j + 1)))
    else .ok (s.goto p (.trunc i t .indirect))
  | .indirect => do
      let s ← s.bfree ((s.inode i).addrs (Fin.last NDIRECT))
      return (s.assign i (.addr (Fin.last NDIRECT)) 0).goto p (.trunc i t .update)
  | .update =>
    let s := (s.setInode i ((s.inode i).setSize 0)).iupdate i
    match t with
    | none => .ok (s.goto p .idle)
    | some t => .ok (s.goto p (.iputFree i t))

/-- The next step of a process that is in a call; none if it is in none. -/
def run (sb : Superblock) (s : Sys P T) (p : P) (ok : Bool) (new : Entries) :
    Option (Except String (Sys P T)) :=
  match s.stage p with
  | .idle => none
  | .io i write off n tot pc => some (s.io sb p ok new i write off n tot pc)
  | .trunc i t pc => some (s.trunc p i t pc)
  | .iputFree i t =>
    let s := (s.setInode i ((s.inode i).setType .free)).iupdate i
    some (.ok ({ s with
      valid := update s.valid i false
      lock := update s.lock i none
      ptr := update s.ptr t none }.goto p (.iputDrop i)))
  | .iputDrop i => some (.ok ((s.deref i).goto p .idle))
  | .ialloc i type t =>
    if i < sb.ninodes then
      if (s.dinode i).type = .free then
        some (.ok ({ s with dinode := update s.dinode i ⟨type, 0, 0, fun _ => 0⟩ }.goto p
          (.allocated i t)))
      else some (.ok (s.goto p (.ialloc (i + 1) type t)))
    else some (.error "ialloc: no inodes")
  | .allocated i t => if s.ptr t = none then some (.ok ((s.iget t i).goto p .idle)) else none

/-- Is the process in no call? -/
def isIdle (s : Sys P T) (p : P) : Bool :=
  match s.stage p with
  | .idle => true
  | _ => false

/-- Is the process in no call, and does it have the lock of the inode? -/
def canUse (s : Sys P T) (p : P) (i : ℕ) : Bool :=
  s.isIdle p && (s.lock i).any fun h => h.1 = p

/-- The step function; none where a step is not possible. -/
def step (sb : Superblock) (s : Sys P T) : Act P T → Option (Except String (Sys P T))
  | .iget p t i => if s.isIdle p ∧ s.ptr t = none then some (.ok (s.iget t i)) else none
  | .idup p t u =>
    if s.isIdle p ∧ s.ptr u = none then
      (s.ptr t).map fun i => .ok
        { s with
          ref := update s.ref i (s.ref i + 1)
          ptr := update s.ptr u (some i) }
    else none
  | .ilock p t => if s.isIdle p then (s.ptr t).bind fun i => s.ilock p t i else none
  | .iunlock p i =>
    if s.canUse p i then some (.ok { s with lock := update s.lock i none }) else none
  | .readi p i off n =>
    if s.canUse p i then
      if (s.inode i).size < off.toNat ∨ off + n < off then some (.ok s)
      else some (.ok (s.goto p
        (.io i false off.toNat (min n.toNat ((s.inode i).size - off.toNat)) 0 .loop)))
    else none
  | .writei p i off n =>
    if s.canUse p i then
      if (s.inode i).size < off.toNat ∨ off + n < off then some (.ok s)
      else if MAXFILE * BSIZE < off.toNat + n.toNat then some (.ok s)
      else some (.ok (s.goto p (.io i true off.toNat n.toNat 0 .loop)))
    else none
  | .itrunc p i =>
    if s.canUse p i then some (.ok (s.goto p (.trunc i none (.direct 0)))) else none
  | .setNlink p i nlink =>
    if s.canUse p i then
      some (.ok ((s.setInode i ((s.inode i).setNlink nlink)).iupdate i))
    else none
  | .iput p t =>
    if s.isIdle p then (s.ptr t).bind fun i => (s.iput p t i).map .ok else none
  | .ialloc p type t => if s.isIdle p then some (.ok (s.goto p (.ialloc 1 type t))) else none
  | .run p ok new => s.run sb p ok new

/-- A step that does not panic. -/
def next (sb : Superblock) (s : Sys P T) (a : Act P T) : Option (Sys P T) :=
  (s.step sb a).bind Except.toOption

/-- A disk, with nothing in memory. -/
def mount (bitmap : ℕ → Bool) (data : ℕ → Entries) (dinode : ℕ → Dinode) : Sys P T where
  bitmap := bitmap
  data := data
  dinode := dinode
  inode := dinode
  valid _ := false
  ref _ := 0
  lock _ := none
  ptr _ := none
  stage _ := .idle

end Sys

end Xv6.Block
