import Xv6.Vm.Pte
import Xv6.Lib.Trie

/-!
# Physical memory

Memory is a buffer of bytes. A page that is not free holds the bytes of a process, or the 512 entries
of a page table. Page tables and free pages are named by the numbers of their pages, so that two
entries lie at one place only if they are the same entry.
-/

namespace Xv6.Vm

open Lib

abbrev KERNBASE : ℕ := 0x80000000
abbrev PHYSTOP : ℕ := KERNBASE + 128 * 1024 * 1024

/-- Physical memory and its allocator. -/
structure Mem where
  byte : Buf
  /-- The numbers of the pages on `kmem.freelist`, from its head on. The list of the source goes
  through the pages themselves. -/
  freelist : List ℕ
  /-- The first address after the kernel. -/
  kend : ℕ
  /-- Calls of `kalloc` that find nothing, since others have the pages for the moment. -/
  deny : ℕ → Bool
  /-- The calls of `kalloc` so far. -/
  calls : ℕ

namespace Mem

def memset (s : Mem) (a : ℕ) (c : UInt8) (n : ℕ) : Mem :=
  { s with byte := blit s.byte a n fun _ => c }

/-- The 64-bit word at an address. -/
def load (s : Mem) (a : ℕ) : ℕ := getLe s.byte a 8

def store (s : Mem) (a v : ℕ) : Mem := { s with byte := blit s.byte a 8 (byteLe v) }

@[simp] theorem byte_memset (s : Mem) (a : ℕ) (c : UInt8) (n : ℕ) :
    (s.memset a c n).byte = blit s.byte a n fun _ => c := rfl

@[simp] theorem byte_store (s : Mem) (a v : ℕ) : (s.store a v).byte = blit s.byte a 8 (byteLe v) :=
  rfl

/-- `kmem.freelist = r->next`, and the page is filled with junk. -/
def take (s : Mem) (n : ℕ) (rest : List ℕ) : Mem :=
  { s with freelist := rest, calls := s.calls + 1 }.memset (PGSIZE * n) 5 PGSIZE

/-- The result is the address of a page. -/
def kalloc (s : Mem) : Option ℕ × Mem :=
  match s.freelist with
  | [] => (none, { s with calls := s.calls + 1 })
  | n :: rest =>
    if s.deny s.calls then (none, { s with calls := s.calls + 1 })
    else (some (PGSIZE * n), s.take n rest)

theorem kalloc_cases (s : Mem) : s.kalloc = (none, { s with calls := s.calls + 1 }) ∨
    ∃ n rest, s.freelist = n :: rest ∧ s.kalloc = (some (PGSIZE * n), s.take n rest) := by
  unfold kalloc
  split
  · exact .inl rfl
  · next n rest hfree =>
      split
      · exact .inl rfl
      · exact .inr ⟨n, rest, hfree, rfl⟩

def kfree (s : Mem) (pa : ℕ) : Except String Mem :=
  if pa % PGSIZE ≠ 0 ∨ pa < s.kend ∨ PHYSTOP ≤ pa then .error "kfree"
  else .ok ({ s with freelist := pa / PGSIZE :: s.freelist }.memset pa 1 PGSIZE)

end Mem

/-! ## Pages of entries -/

variable {b b' : Buf} {n m : ℕ} {i j : Fin 512}

/-- The address of an entry of the table in page `n`. -/
def slot (n : ℕ) (i : Fin 512) : ℕ := PGSIZE * n + 8 * i

/-- The entry `i` of the table in page `n`. -/
def entry (b : Buf) (n : ℕ) (i : Fin 512) : ℕ := getLe b (slot n i) 8

/-- The page that a valid entry leads to. -/
def child (b : Buf) (n : ℕ) (i : Fin 512) : Option ℕ :=
  if entry b n i % 2 = 1 then some (ppn (entry b n i)) else none

theorem slot_apart (h : ¬ (m = n ∧ j = i)) : slot m j + 8 ≤ slot n i ∨ slot n i + 8 ≤ slot m j := by
  have hi := i.isLt
  have hj := j.isLt
  have hne : m = n → j.val ≠ i.val := fun hmn heq => h ⟨hmn, Fin.ext heq⟩
  simp only [slot, PGSIZE]
  omega

theorem entry_store (b : Buf) (n : ℕ) (i : Fin 512) {v : ℕ} (hv : v < 2 ^ 64) (m : ℕ)
    (j : Fin 512) : entry (blit b (slot n i) 8 (byteLe v)) m j =
      if m = n ∧ j = i then v else entry b m j := by
  unfold entry
  split
  · next h =>
      rw [h.1, h.2, getLe_blit_byteLe]
      exact Nat.mod_eq_of_lt hv
  · next h => exact getLe_blit_of_disjoint (slot_apart h)

theorem entry_congr (h : ∀ a, a / PGSIZE = n → b' a = b a) : entry b' n i = entry b n i := by
  refine getLe_congr fun a hlo hhi => h a ?_
  have hi := i.isLt
  simp only [slot, PGSIZE] at *
  omega

theorem child_congr (h : ∀ a, a / PGSIZE = n → b' a = b a) : child b' n i = child b n i := by
  rw [child, child, entry_congr h]

/-- A byte outside a page that is filled. -/
theorem blit_page_of_ne {a : ℕ} (src : Buf) (h : a / PGSIZE ≠ n) :
    blit b (PGSIZE * n) PGSIZE src a = b a := by
  refine blit_of_out ?_
  simp only [PGSIZE] at *
  omega

theorem blit_page_of_eq {a : ℕ} (c : UInt8) (h : a / PGSIZE = n) :
    blit b (PGSIZE * n) PGSIZE (fun _ => c) a = c := by
  refine blit_of_in ?_ ?_ <;> simp only [PGSIZE] at * <;> omega

theorem entry_zeroed (b : Buf) (n : ℕ) (i : Fin 512) :
    entry (blit b (PGSIZE * n) PGSIZE fun _ => 0) n i = 0 := by
  rw [← getLe_zero (slot n i) 8]
  refine getLe_congr fun a hlo hhi => blit_page_of_eq 0 ?_
  have hi := i.isLt
  simp only [slot, PGSIZE] at *
  omega

end Xv6.Vm
