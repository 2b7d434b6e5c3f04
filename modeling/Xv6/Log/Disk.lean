import Xv6.Param
import Xv6.Lib.Crash

/-!
# Blocks, the log header and the buffer cache

The part of `bio.c` and `log.c` that commit and recovery are built from: blocks as arrays of
`int`s, `struct logheader` laid out in a block, `struct log`, and `bread`/`bwrite` over a cache
that sits in front of the disk. The lemmas describe the cache by what `bread` returns through
it (`Mem.look`); no later proof looks inside it.
-/

namespace Xv6

open Function (update update_eq_self update_of_ne)

/-- A `uint` block number. Log headers store them as `int`s of the same 32 bits. -/
abbrev BlockNo := UInt32

/-- A block of `BSIZE` bytes, seen as the array of `int`s that `struct logheader` overlays. -/
abbrev Block := Fin (BSIZE / 4) → UInt32

/-- The contents of the disk. The device writes one block at a time, atomically. -/
abbrev Disk := BlockNo → Block

/-- The `int` at index `i` of a block. -/
def Block.word (b : Block) (i : ℕ) : UInt32 :=
  if h : i < BSIZE / 4 then b ⟨i, h⟩ else 0

/-- The field `n` of a log header stored in a block. -/
def headN (b : Block) : ℤ := (b.word 0).toInt32.toInt

/-- The loop of `read_head`: the entries `block[0..n)` of a header stored in a block. -/
def getHead (b : Block) : List BlockNo :=
  (List.range (headN b).toNat).map fun i => b.word (i + 1)

/-- The stores of `write_head` into the header block: `n` and `block[0..n)` change, the rest of
the block stays as it was read. -/
def putHead (lh : List BlockNo) (b : Block) : Block := fun i =>
  if i.val = 0 then UInt32.ofNat lh.length
  else if h : i.val - 1 < lh.length then lh.get ⟨i.val - 1, h⟩
  else b i

/-- `struct log`. The in-memory header is kept as the list `block[0..n)`. -/
structure Log where
  start : BlockNo
  size : ℤ
  outstanding : ℤ
  committing : Bool
  lh : List BlockNo

/-- Kernel memory as the logging code sees it: `struct log`, the cached contents of blocks and
the number of times the log has pinned each buffer. -/
structure Mem where
  log : Log
  cache : BlockNo → Option Block
  pins : BlockNo → ℕ

/-- Code that reads and writes the disk through the cache. -/
abbrev LogM := Lib.Dev BlockNo Block Mem

/-- The contents `bread` returns: the cached copy if there is one, else the disk block. -/
def Mem.look (m : Mem) (d : Disk) (b : BlockNo) : Block := (m.cache b).getD (d b)

/-- Replace the cached contents of a block. -/
def Mem.fill (m : Mem) (b : BlockNo) (data : Block) : Mem :=
  { m with cache := update m.cache b (some data) }

@[simp] theorem Mem.log_fill (m : Mem) (b : BlockNo) (data : Block) :
    (m.fill b data).log = m.log := rfl

theorem Mem.look_fill (m : Mem) (d : Disk) (b : BlockNo) (data : Block) :
    (m.fill b data).look d = update (m.look d) b data := by
  funext i
  by_cases h : i = b
  · subst h; simp [look, fill]
  · simp [look, fill, update_of_ne h]

open Lib.Dev in
/-- Return the contents of a block, reading it from the disk if it is not cached. -/
def bread (b : BlockNo) : LogM Block := do
  match ← gets fun m => m.cache b with
  | some data => pure data
  | none => do
      let data ← read b
      modify fun m => m.fill b data
      pure data

open Lib.Dev in
/-- Write a buffer whose contents have been changed to `data`. -/
def bwrite (b : BlockNo) (data : Block) : LogM Unit := do
  modify fun m => m.fill b data
  write b data

/-- Take a pin on a buffer. -/
def bpin (m : Mem) (b : BlockNo) : Mem :=
  { m with pins := update m.pins b (m.pins b + 1) }

open Lib.Dev in
/-- Drop a pin on a buffer. -/
def bunpin (b : BlockNo) : LogM Unit :=
  modify fun m => { m with pins := update m.pins b (m.pins b - 1) }

section Bio
variable (m : Mem) (d : Disk) (b : BlockNo) (data : Block)

@[simp] theorem val_bread : (bread b).val m d = m.look d b := by
  unfold bread
  cases h : m.cache b <;> simp [h, Mem.look]

@[simp] theorem writes_bread : (bread b).writes m d = [] := by
  unfold bread
  cases h : m.cache b <;> simp [h]

@[simp] theorem disk_bread : (bread b).disk m d = d := by simp [Lib.Dev.disk]

@[simp] theorem log_bread : ((bread b).state m d).log = m.log := by
  unfold bread
  cases h : m.cache b <;> simp [h]

/-- Reading a block never changes what later reads return. -/
@[simp] theorem look_bread : ((bread b).state m d).look d = m.look d := by
  unfold bread
  cases h : m.cache b with
  | some data => simp [h]
  | none =>
    have hd : m.look d b = d b := by simp [Mem.look, h]
    simp only [Lib.Dev.state_bind, Lib.Dev.state_gets, Lib.Dev.val_gets, h,
      Lib.Dev.state_read, Lib.Dev.val_read, Lib.Dev.state_modify, Lib.Dev.state_pure,
      Lib.Dev.disk_gets, Mem.look_fill]
    rw [← hd, update_eq_self]

@[simp] theorem disk_bwrite : (bwrite b data).disk m d = update d b data := rfl

/-- After a write the cache returns the block written and every other block as before. -/
@[simp] theorem look_bwrite :
    ((bwrite b data).state m d).look (update d b data) =
      update (m.look d) b data := by
  change (m.fill b data).look (update d b data) = _
  funext i
  by_cases h : i = b
  · subst h; simp [Mem.look, Mem.fill]
  · simp [Mem.look, Mem.fill, update_of_ne h]

end Bio

/-! ## The header layout -/

theorem word_zero_putHead (lh : List BlockNo) (b : Block) :
    (putHead lh b).word 0 = UInt32.ofNat lh.length := rfl

@[simp] theorem headN_putHead_nil (b : Block) : headN (putHead [] b) = 0 := by
  rw [headN, word_zero_putHead]; rfl

/-- A header that fits is read back as it was written. -/
theorem getHead_putHead {lh : List BlockNo} (h : lh.length ≤ LOGSIZE) (b : Block) :
    getHead (putHead lh b) = lh := by
  have hn : headN (putHead lh b) = lh.length := by
    have hlt : lh.length < 2 ^ 31 := by simp only [LOGSIZE, MAXOPBLOCKS] at h; omega
    rw [headN, word_zero_putHead, UInt32.toInt32_ofNat']
    exact Int32.toInt_ofNat_of_lt hlt
  apply List.ext_getElem
  · simp [getHead, hn]
  · intro i hi hi'
    have hb : i + 1 < BSIZE / 4 := by simp only [LOGSIZE, MAXOPBLOCKS] at h; simp only [BSIZE]; omega
    simp [getHead, putHead, Block.word, hb, hi']

/-- Clearing a clear header changes nothing. -/
theorem putHead_nil_of_headN {b : Block} (h : headN b = 0) : putHead [] b = b := by
  have hw : b.word 0 = 0 := by
    have h32 : (b.word 0).toInt32 = 0 := Int32.toInt_inj.mp h
    rw [← UInt32.toUInt32_toInt32 (b.word 0), h32]
    rfl
  funext i
  by_cases hi : i.val = 0
  · have hi' : i = ⟨0, by decide⟩ := Fin.ext hi
    subst hi'
    exact hw.symm
  · simp [putHead, hi]

theorem getHead_eq_nil {b : Block} (h : headN b = 0) : getHead b = [] := by
  simp [getHead, h]

end Xv6
