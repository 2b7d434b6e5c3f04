import Xv6.Param
import Xv6.Lib.Bytes

/-!
# Building an image

`mkfs` writes the superblock, allocates the root directory, and adds the files it is given one
after another: an inode, an entry in the root and the contents. Blocks and inodes are handed out
by two counters. At the end it rounds the size of the root up and writes the free map, with a bit
for every block below the counter.

The image is a file of sectors: `wsect` extends it and `rsect` fails past its end. Numbers on the
disk have the least significant byte first, as `xint` and `xshort` arrange. The counters are
natural numbers, since an image of `FSSIZE` blocks does not come near 2³². The input files are
regular files that can be opened and read.
-/

namespace Xv6.Mkfs

open Lib
open Function (update)

/-! ## The layout -/

/-- Size of an inode on the disk. -/
abbrev DINODE : ℕ := 64

/-- Inodes per block. -/
abbrev IPB : ℕ := BSIZE / DINODE

/-- Bytes of a name in a directory entry. -/
abbrev DIRSIZ : ℕ := 14

/-- Size of a directory entry. -/
abbrev DIRENT : ℕ := 16

/-- Blocks of the image. -/
abbrev FSSIZE : ℕ := 1000

abbrev nbitmap : ℕ := FSSIZE / (BSIZE * 8) + 1
abbrev ninodeblocks : ℕ := NINODES / IPB + 1
abbrev nlog : ℕ := LOGSIZE

/-- Number of meta blocks: boot, super, log, inode and bitmap. -/
abbrev nmeta : ℕ := 2 + nlog + ninodeblocks + nbitmap

/-- Number of data blocks. -/
abbrev nblocks : ℕ := FSSIZE - nmeta

abbrev logstart : ℕ := 2
abbrev inodestart : ℕ := 2 + nlog
abbrev bmapstart : ℕ := 2 + nlog + ninodeblocks

abbrev FSMAGIC : ℕ := 0x10203040
abbrev ROOTINO : ℕ := 1
abbrev T_DIR : UInt16 := 1
abbrev T_FILE : UInt16 := 2

/-- The block that holds an inode. -/
abbrev IBLOCK (i : ℕ) : ℕ := i / IPB + inodestart

/-! ## Structures on the disk -/

/-- `struct dinode`. -/
structure Dinode where
  type : UInt16
  major : UInt16
  minor : UInt16
  nlink : UInt16
  size : UInt32
  addrs : Fin (NDIRECT + 1) → UInt32

/-- The bytes of an inode. -/
def Dinode.bytes (d : Dinode) : Buf := fun i =>
  if i < 2 then byteLe d.type.toNat i
  else if i < 4 then byteLe d.major.toNat (i - 2)
  else if i < 6 then byteLe d.minor.toNat (i - 4)
  else if i < 8 then byteLe d.nlink.toNat (i - 6)
  else if i < 12 then byteLe d.size.toNat (i - 8)
  else byteLe (d.addrs (Fin.ofNat _ ((i - 12) / 4))).toNat ((i - 12) % 4)

/-- The inode whose bytes are at `o`. -/
def getDinode (b : Buf) (o : ℕ) : Dinode where
  type := .ofNat (getLe b o 2)
  major := .ofNat (getLe b (o + 2) 2)
  minor := .ofNat (getLe b (o + 4) 2)
  nlink := .ofNat (getLe b (o + 6) 2)
  size := .ofNat (getLe b (o + 8) 4)
  addrs k := .ofNat (getLe b (o + 12 + 4 * k) 4)

/-- The bytes of a string constant. -/
def chars (s : String) : List UInt8 := s.toList.map Char.toUInt8

/-- The bytes of `struct dirent`: `strncpy` cuts the name and fills up with zeros. -/
def dirent (inum : ℕ) (name : List UInt8) : List UInt8 :=
  byteLe inum 0 :: byteLe inum 1 :: (name ++ List.replicate DIRSIZ 0).take DIRSIZ

/-- The numbers of the superblock. -/
def superblock : List ℕ :=
  [FSMAGIC, FSSIZE, nblocks, NINODES, nlog, logstart, inodestart, bmapstart]

/-! ## The image -/

/-- The image, and the counters of `mkfs`. -/
structure Img where
  /-- The length of the image in sectors. -/
  nsect : ℕ
  sect : ℕ → Buf
  freeinode : ℕ
  freeblock : ℕ

namespace Img

def wsect (s : Img) (sec : ℕ) (buf : Buf) : Img :=
  { s with nsect := max s.nsect (sec + 1), sect := update s.sect sec buf }

def rsect (s : Img) (sec : ℕ) : Except String Buf :=
  if sec < s.nsect then .ok (s.sect sec) else .error "read"

def winode (s : Img) (inum : ℕ) (d : Dinode) : Except String Img := do
  let buf ← s.rsect (IBLOCK inum)
  .ok (s.wsect (IBLOCK inum) (blit buf (inum % IPB * DINODE) DINODE d.bytes))

def rinode (s : Img) (inum : ℕ) : Except String Dinode := do
  let buf ← s.rsect (IBLOCK inum)
  .ok (getDinode buf (inum % IPB * DINODE))

def ialloc (s : Img) (type : UInt16) : Except String (ℕ × Img) := do
  let inum := s.freeinode
  let s ← { s with freeinode := inum + 1 }.winode inum ⟨type, 0, 0, 1, 0, fun _ => 0⟩
  .ok (inum, s)

/-- `freeblock++`. -/
def next (s : Img) : Img := { s with freeblock := s.freeblock + 1 }

/-- Allocate a block for the address `k` if it has none. -/
def fillAddr (s : Img) (din : Dinode) (k : Fin (NDIRECT + 1)) : Dinode × Img :=
  if din.addrs k = 0
  then ({ din with addrs := update din.addrs k (.ofNat s.freeblock) }, s.next)
  else (din, s)

/-- Allocate a block for the entry `k` of an indirect block if it has none. -/
def fillEntry (s : Img) (ind k : ℕ) : Except String (ℕ × Img) := do
  let indirect ← s.rsect ind
  if getLe indirect (4 * k) 4 = 0 then
    let indirect := blit indirect (4 * k) 4 (byteLe s.freeblock)
    .ok (getLe indirect (4 * k) 4, s.next.wsect ind indirect)
  else .ok (getLe indirect (4 * k) 4, s)

/-- The block with index `fbn` of the inode, allocated if it has none. -/
def fblock (s : Img) (din : Dinode) (fbn : ℕ) : Except String (ℕ × Dinode × Img) :=
  if fbn < NDIRECT then
    let k := Fin.ofNat (NDIRECT + 1) fbn
    let (din, s) := s.fillAddr din k
    .ok ((din.addrs k).toNat, din, s)
  else do
    let k := Fin.last NDIRECT
    let (din, s) := s.fillAddr din k
    let (x, s) ← s.fillEntry (din.addrs k).toNat (fbn - NDIRECT)
    .ok (x, din, s)

/-- At most `t` turns of the loop of `iappend`. -/
def iappendLoop : ℕ → Img → Dinode → List UInt8 → ℕ → Except String (Dinode × ℕ × Img)
  | 0, s, din, _, off => .ok (din, off, s)
  | t + 1, s, din, p, off =>
    if p = [] then .ok (din, off, s)
    else
      let fbn := off / BSIZE
      if fbn < MAXFILE then do
        let (x, din, s) ← s.fblock din fbn
        let n1 := min p.length ((fbn + 1) * BSIZE - off)
        let buf ← s.rsect x
        let s := s.wsect x (blit buf (off - fbn * BSIZE) n1 (p.getD · 0))
        iappendLoop t s din (p.drop n1) (off + n1)
      else .error "fbn < MAXFILE"

/-- `iappend`. Every turn of the loop takes a byte. -/
def iappend (s : Img) (inum : ℕ) (p : List UInt8) : Except String Img := do
  let din ← s.rinode inum
  let (din, off, s) ← iappendLoop p.length s din p din.size.toNat
  s.winode inum { din with size := .ofNat off }

/-- The loop of `balloc` that sets the bits of the first blocks. -/
def bits (used : ℕ) : Buf :=
  (List.range used).foldl (fun buf i =>
    update buf (i / 8) (buf (i / 8) ||| UInt8.ofNat (0x1 <<< (i % 8)))) fun _ => 0

def balloc (s : Img) (used : ℕ) : Except String Img :=
  if used < BSIZE * 8 then .ok (s.wsect bmapstart (bits used)) else .error "used < BSIZE*8"

end Img

/-! ## The program -/

/-- A file named on the command line. -/
structure File where
  path : List UInt8
  data : List UInt8

/-- The path without `user/`. -/
def strip (path : List UInt8) : List UInt8 :=
  if path.take 5 = chars "user/" then path.drop 5 else path

/-- The name of a file in the image: an underscore at its start is skipped. -/
def shortname (path : List UInt8) : Except String (List UInt8) :=
  let name := strip path
  if '/'.toUInt8 ∈ name then .error "index(shortname, '/') == 0"
  else .ok (if name.head? = some '_'.toUInt8 then name.drop 1 else name)

/-- At most `t` turns of the loop that reads a file and appends what it has read. -/
def copyFile (inum : ℕ) : ℕ → Img → List UInt8 → Except String Img
  | 0, s, _ => .ok s
  | t + 1, s, data =>
    let buf := data.take BSIZE
    if buf.length > 0 then do
      let s ← s.iappend inum buf
      copyFile inum t s (data.drop BSIZE)
    else .ok s

/-- One turn of the loop over the arguments. -/
def addFile (rootino : ℕ) (s : Img) (f : File) : Except String Img := do
  let name ← shortname f.path
  let (inum, s) ← s.ialloc T_FILE
  let s ← s.iappend rootino (dirent inum name)
  copyFile inum f.data.length s f.data

/-- The image of zeros that `mkfs` starts from, with the superblock. -/
def format : Img :=
  let start : Img := ⟨0, fun _ _ => 0, 1, nmeta⟩
  let s := (List.range FSSIZE).foldl (fun s i => s.wsect i fun _ => 0) start
  s.wsect 1 (blit (fun _ => 0) 0 32 fun i => byteLe (superblock.getD (i / 4) 0) (i % 4))

/-- Round the size of the root directory up. -/
def fixRoot (s : Img) (rootino : ℕ) : Except String Img := do
  let din ← s.rinode rootino
  let off := din.size.toNat
  let off := ((off / BSIZE) + 1) * BSIZE
  s.winode rootino { din with size := .ofNat off }

/-- `main`, for the files on its command line. -/
def main (files : List File) : Except String Img := do
  let (rootino, s) ← format.ialloc T_DIR
  if rootino ≠ ROOTINO then .error "rootino == ROOTINO"
  else do
    let s ← s.iappend rootino (dirent rootino (chars "."))
    let s ← s.iappend rootino (dirent rootino (chars ".."))
    let s ← files.foldlM (addFile rootino) s
    let s ← fixRoot s rootino
    s.balloc s.freeblock

end Xv6.Mkfs
