import Xv6.Vm.Copy
import Mathlib.Data.Nat.Bitwise

/-!
# Page-table entries

The macros of `kernel/riscv.h` on addresses and page-table entries. An entry has the number of a
physical page in its bits from 10 on, and ten flags.
-/

namespace Xv6.Vm

abbrev PTE_V : ℕ := 1
abbrev PTE_R : ℕ := 2
abbrev PTE_W : ℕ := 4
abbrev PTE_X : ℕ := 8

def PGROUNDDOWN (a : ℕ) : ℕ := a - a % PGSIZE

/-- The place of a physical address in an entry. -/
def PA2PTE (pa : ℕ) : ℕ := pa >>> 12 <<< 10

def PTE2PA (pte : ℕ) : ℕ := pte >>> 10 <<< 12 % 2 ^ 64

def PTE_FLAGS (pte : ℕ) : ℕ := pte &&& 0x3FF

/-- The index of a virtual address in the tables of a level. -/
def PX (level va : ℕ) : ℕ := va >>> (12 + 9 * level) &&& 0x1FF

/-! ## The arithmetic of the macros -/

section

variable {va pa pte perm : ℕ}

theorem PGROUNDDOWN_eq (a : ℕ) : PGROUNDDOWN a = PGSIZE * (a / PGSIZE) := by
  simp only [PGROUNDDOWN, PGSIZE]
  omega

theorem and_PTE_V : pte &&& PTE_V ≠ 0 ↔ pte % 2 = 1 := by
  rw [Nat.and_one_is_mod]
  omega

theorem PTE_FLAGS_eq (pte : ℕ) : PTE_FLAGS pte = pte % 1024 :=
  Nat.and_two_pow_sub_one_eq_mod pte 10

theorem PX_eq (level va : ℕ) : PX level va = va / 2 ^ (12 + 9 * level) % 512 := by
  rw [PX, Nat.shiftRight_eq_div_pow]
  exact Nat.and_two_pow_sub_one_eq_mod _ 9

theorem PX_lt (level va : ℕ) : PX level va < 512 := by
  rw [PX_eq]
  exact Nat.mod_lt _ (by decide)

/-- The number of the page in an entry. -/
def ppn (pte : ℕ) : ℕ := pte / 1024 % 2 ^ 52

theorem PTE2PA_eq (pte : ℕ) : PTE2PA pte = PGSIZE * ppn pte := by
  have hmod : pte / 1024 * 4096 % 2 ^ 64 = 4096 * (pte / 1024 % 2 ^ 52) := by omega
  rw [PTE2PA, Nat.shiftRight_eq_div_pow, Nat.shiftLeft_eq]
  exact hmod

/-- An entry is the number of its page and its flags. -/
theorem PA2PTE_or {flags : ℕ} (h : flags < 1024) :
    PA2PTE pa ||| flags = 1024 * (pa / PGSIZE) + flags := by
  rw [PA2PTE, Nat.shiftRight_eq_div_pow, Nat.shiftLeft_eq, Nat.mul_comm]
  exact (Nat.two_pow_add_eq_or_of_lt h _).symm

theorem or_PTE_V_lt (hperm : perm < 1024) : perm ||| PTE_V < 1024 :=
  Nat.or_lt_two_pow (n := 10) hperm (by decide)

theorem mkEntry_eq (hperm : perm < 1024) :
    PA2PTE pa ||| perm ||| PTE_V = 1024 * (pa / PGSIZE) + (perm ||| PTE_V) := by
  rw [Nat.or_assoc, PA2PTE_or (or_PTE_V_lt hperm)]

theorem mkEntry_odd (perm : ℕ) : (perm ||| PTE_V) % 2 = 1 := by
  have h := Nat.or_mod_two_eq_one (a := perm) (b := PTE_V)
  exact h.mpr (.inr rfl)

/-- What `PA2PTE(pa) | flags` stores is found again. -/
theorem roundtrip {flags : ℕ} (hpa : pa < 2 ^ 64) (h : flags < 1024) :
    PTE2PA (PA2PTE pa ||| flags) = PGROUNDDOWN pa ∧ PTE_FLAGS (PA2PTE pa ||| flags) = flags ∧
    PA2PTE pa ||| flags < 2 ^ 64 := by
  have hdiv : pa / PGSIZE < 2 ^ 52 := by
    simp only [PGSIZE]
    omega
  rw [PA2PTE_or h, PTE2PA_eq, PTE_FLAGS_eq, PGROUNDDOWN_eq, ppn]
  refine ⟨?_, ?_, ?_⟩
  · congr 1
    omega
  · omega
  · omega

/-- **Entries.** The entry that `mappages` stores is valid, with the page and the flags. -/
theorem entry_roundtrip (hpa : pa < 2 ^ 64) (hperm : perm < 1024) :
    PTE2PA (PA2PTE pa ||| perm ||| PTE_V) = PGROUNDDOWN pa ∧
    PTE_FLAGS (PA2PTE pa ||| perm ||| PTE_V) = perm ||| PTE_V ∧
    (PA2PTE pa ||| perm ||| PTE_V) % 2 = 1 ∧ PA2PTE pa ||| perm ||| PTE_V < 2 ^ 64 := by
  have hlow := or_PTE_V_lt hperm
  obtain ⟨hpage, hflags, hlt⟩ := roundtrip hpa hlow
  have hodd := mkEntry_odd perm
  rw [Nat.or_assoc]
  refine ⟨hpage, hflags, ?_, hlt⟩
  rw [PA2PTE_or hlow]
  omega

end

end Xv6.Vm
