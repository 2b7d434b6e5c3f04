import Xv6.Mkfs.Map
import Xv6.Vm.Copy

/-!
# The contents of files

`balloc`, `bzero`, `bmap`, `iupdate`, `readi` and `writei` of `kernel/fs.c` on the blocks of the
disk, run by one process that has the inode locked. The blocks are those `bread` returns: a
buffer is changed where it is, and `log_write` records its number in the header of the log, which
has room for one block less than `mkfs` reserves. The layout is that of the image of `mkfs`.

Once their tests are passed, the sums of `readi` and `writei` do not wrap around, so the loops
count in natural numbers.
-/

namespace Xv6.Content

open Lib Mkfs

/-- The blocks as `bread` returns them, and the block numbers in the header of the log. -/
structure Disk where
  sect : ℕ → Buf
  lh : List ℕ

/-- A panic: its message, and the header of the log then. -/
structure Panic where
  msg : String
  lh : List ℕ

namespace Disk

/-- Stop with a message. -/
def panic {α : Type} (s : Disk) (msg : String) : Except Panic α := .error ⟨msg, s.lh⟩

/-- The block of the free map that holds the bit of a block. -/
abbrev BBLOCK (b : ℕ) : ℕ := b / BPB + bmapstart

/-- The mask of a bit in its byte. -/
def mask (bi : ℕ) : UInt8 := UInt8.ofNat (1 <<< (bi % 8))

/-- The free map marks a block as used. -/
def bit (s : Disk) (b : ℕ) : Bool := s.sect (BBLOCK b) (b % BPB / 8) &&& mask (b % BPB) ≠ 0

/-- Change a buffer. -/
def put (s : Disk) (b : ℕ) (data : Buf) : Disk := { s with sect := Function.update s.sect b data }

/-- Record a block in the header of the log, inside a transaction. -/
def logWrite (s : Disk) (b : ℕ) : Except Panic Disk :=
  if s.lh.length ≥ LOGSIZE ∨ s.lh.length ≥ nlog - 1 then
    s.panic "too big a transaction"
  else .ok { s with lh := if b ∈ s.lh then s.lh else s.lh ++ [b] }

def bzero (s : Disk) (b : ℕ) : Except Panic Disk := (s.put b fun _ => 0).logWrite b

/-- The buffer of the free map with the bit of `b` set. -/
def markBit (s : Disk) (b : ℕ) : Buf :=
  Function.update (s.sect (BBLOCK b)) (b % BPB / 8)
    (s.sect (BBLOCK b) (b % BPB / 8) ||| mask (b % BPB))

/-- The first block whose bit is clear. -/
def firstFree (s : Disk) : Option ℕ := (List.range FSSIZE).find? fun b => !s.bit b

/-- Take the first block whose bit is clear. -/
def balloc (s : Disk) : Except Panic (ℕ × Disk) :=
  match s.firstFree with
  | none => s.panic "balloc: out of blocks"
  | some b => do
      let s ← (s.put (BBLOCK b) (s.markBit b)).logWrite (BBLOCK b)
      let s ← s.bzero b
      .ok (b, s)

/-- The block at the address `k` of an inode, allocated if there is none. -/
def fillAddr (s : Disk) (ip : Dinode) (k : Fin (NDIRECT + 1)) :
    Except Panic (ℕ × Dinode × Disk) :=
  if ip.addrs k = 0 then do
    let (b, s) ← s.balloc
    .ok (b, ip.setAddr k b, s)
  else .ok ((ip.addrs k).toNat, ip, s)

/-- The block at the entry `k` of the indirect block `ind`, allocated if there is none. -/
def fillEntry (s : Disk) (ind k : ℕ) : Except Panic (ℕ × Disk) :=
  if getLe (s.sect ind) (4 * k) 4 = 0 then do
    let (b, s) ← s.balloc
    let s ← (s.put ind (blit (s.sect ind) (4 * k) 4 (byteLe b))).logWrite ind
    .ok (b, s)
  else .ok (getLe (s.sect ind) (4 * k) 4, s)

def bmap (s : Disk) (ip : Dinode) (bn : ℕ) : Except Panic (ℕ × Dinode × Disk) :=
  if bn < NDIRECT then s.fillAddr ip (Fin.ofNat _ bn)
  else if bn - NDIRECT < NINDIRECT then do
    let (ind, ip, s) ← s.fillAddr ip (Fin.last NDIRECT)
    let (b, s) ← s.fillEntry ind (bn - NDIRECT)
    .ok (b, ip, s)
  else s.panic "bmap: out of range"

/-- Write the inode `inum` back to its block. -/
def iupdate (s : Disk) (inum : ℕ) (ip : Dinode) : Except Panic Disk :=
  (s.put (IBLOCK inum)
    (blit (s.sect (IBLOCK inum)) (inum % IPB * DINODE) DINODE ip.bytes)).logWrite (IBLOCK inum)

/-- The inode `i` on the disk. -/
def inode (s : Disk) (i : ℕ) : Dinode := getDinode (s.sect (IBLOCK i)) (i % IPB * DINODE)

end Disk

/-! ## Sources and destinations -/

/-- Where `writei` takes its data from: kernel memory or the address `va` of a process. -/
inductive Source
  | kernel (data : Buf)
  | user (u : UserMem) (va : ℕ)

/-- Copy `m` bytes of the source, from its byte `tot` on, to `dst` from `at` on. -/
def eitherCopyin (dst : Buf) (at_ : ℕ) : Source → ℕ → ℕ → Buf × Bool
  | .kernel data, tot, m => (blit dst at_ m fun i => data (tot + i), true)
  | .user u va, tot, m => u.copyin dst at_ (va + tot) m

/-- Where `readi` puts its data: kernel memory or the address `va` of a process. -/
inductive Dest
  | kernel (data : Buf)
  | user (u : UserMem) (va : ℕ)

/-- Copy `m` bytes of `src` to the destination, to its byte `tot` and on. -/
def eitherCopyout (tot : ℕ) (src : Buf) (m : ℕ) : Dest → Dest × Bool
  | .kernel data => (.kernel (blit data tot m src), true)
  | .user u va => let r := u.copyout (va + tot) src m; (.user r.1 va, r.2)

/-! ## Reading and writing -/

/-- The loop of `readi`, with `tot` bytes of `n` read and `off` the offset of the next; each turn
reads at least one byte. The result is `-1` if a copy fails. -/
def readLoop : ℕ → Disk → Dinode → Dest → ℕ → ℕ → ℕ →
    Except Panic (Disk × Dinode × Dest × ℤ)
  | 0, s, ip, dst, tot, _, _ => .ok (s, ip, dst, tot)
  | turns + 1, s, ip, dst, tot, off, n =>
    if tot < n then do
      let (b, ip, s) ← s.bmap ip (off / BSIZE)
      let m := min (n - tot) (BSIZE - off % BSIZE)
      let (dst, ok) := eitherCopyout tot (fun i => s.sect b (off % BSIZE + i)) m dst
      if ok then readLoop turns s ip dst (tot + m) (off + m) n
      else .ok (s, ip, dst, -1)
    else .ok (s, ip, dst, tot)

/-- Read `n` bytes at `off`, or as many as there are. -/
def readi (s : Disk) (ip : Dinode) (dst : Dest) (off n : UInt32) :
    Except Panic (Disk × Dinode × Dest × ℤ) :=
  if off > ip.size ∨ off + n < off then .ok (s, ip, dst, 0)
  else
    let n := if off + n > ip.size then ip.size - off else n
    readLoop n.toNat s ip dst 0 off.toNat n.toNat

/-- The loop of `writei`, with `tot` bytes of `n` written and `off` the offset of the next. Where
the copy fails, what it has copied is in the buffer, and the buffer is not logged. -/
def writeLoop (src : Source) : ℕ → Disk → Dinode → ℕ → ℕ → ℕ →
    Except Panic (Disk × Dinode × ℕ)
  | 0, s, ip, tot, _, _ => .ok (s, ip, tot)
  | turns + 1, s, ip, tot, off, n =>
    if tot < n then do
      let (b, ip, s) ← s.bmap ip (off / BSIZE)
      let m := min (n - tot) (BSIZE - off % BSIZE)
      let (data, ok) := eitherCopyin (s.sect b) (off % BSIZE) src tot m
      let s := s.put b data
      if ok then do
        let s ← s.logWrite b
        writeLoop src turns s ip (tot + m) (off + m) n
      else .ok (s, ip, tot)
    else .ok (s, ip, tot)

/-- Write `n` bytes at `off` of the inode `inum`. -/
def writei (s : Disk) (inum : ℕ) (ip : Dinode) (src : Source) (off n : UInt32) :
    Except Panic (Disk × Dinode × ℤ) :=
  if off > ip.size ∨ off + n < off then .ok (s, ip, -1)
  else if (off + n).toNat > MAXFILE * BSIZE then .ok (s, ip, -1)
  else do
    let (s, ip, tot) ← writeLoop src n.toNat s ip 0 off.toNat n.toNat
    let ip := if off.toNat + tot > ip.size.toNat then { ip with size := .ofNat (off.toNat + tot) }
      else ip
    let s ← s.iupdate inum ip
    .ok (s, ip, tot)

end Xv6.Content
