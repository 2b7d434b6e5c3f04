import Mathlib.Tactic.Linarith

/-!
# Kernel parameters

The constants of `kernel/param.h` and `kernel/fs.h` that the modelled code reads.
-/

namespace Xv6

/-- Maximum number of processes. -/
abbrev NPROC : ℕ := 64

/-- Number of feedback queues. -/
abbrev NMLFQ : ℕ := 5

/-- A runnable process that has waited this many ticks moves up one queue. -/
abbrev AGETICK : ℕ := 128

/-- Maximum number of blocks one file-system operation writes. -/
abbrev MAXOPBLOCKS : ℕ := 10

/-- Maximum number of data blocks in the on-disk log. -/
abbrev LOGSIZE : ℕ := MAXOPBLOCKS * 3

/-- Number of buffers in the block cache. -/
abbrev NBUF : ℕ := MAXOPBLOCKS * 3

/-- The device of the root file system. -/
abbrev ROOTDEV : ℕ := 1

/-- Block size in bytes. -/
abbrev BSIZE : ℕ := 1024

/-- Number of direct block addresses of an inode. -/
abbrev NDIRECT : ℕ := 12

/-- Number of block addresses in an indirect block. -/
abbrev NINDIRECT : ℕ := BSIZE / 4

/-- Maximum number of blocks of a file. -/
abbrev MAXFILE : ℕ := NDIRECT + NINDIRECT

/-- Bits of the free map in a block. -/
abbrev BPB : ℕ := BSIZE * 8

/-- Maximum number of inodes in memory. -/
abbrev NINODE : ℕ := 50

/-- Maximum major device number. -/
abbrev NDEV : ℕ := 10

/-- Number of inodes `mkfs` lays out, the first of them unused. -/
abbrev NINODES : ℕ := 200

/-! The numbers that index a table, or the parties of a small run, are not zero. -/

instance neZero_two : NeZero 2 := ⟨by decide⟩

instance neZero_three : NeZero 3 := ⟨by decide⟩

instance : NeZero NPROC := ⟨by decide⟩

instance (priority := 2000) : NeZero (NPROC + 1) := ⟨by decide⟩

instance : NeZero NMLFQ := ⟨by decide⟩

instance : NeZero NINODES := ⟨by decide⟩

instance (priority := 2000) : NeZero (NDIRECT + 1) := ⟨by decide⟩

end Xv6
