import Mathlib.Data.Finset.Card
import Xv6.Content.Model
import Xv6.Mkfs.Append

/-!
# Allocating blocks

What `log_write` and `balloc` leave behind. The cost in free blocks is part of the description, so
that success is a matter of counting.
-/

namespace Xv6.Content

open Lib Mkfs
open Function (update update_apply update_of_ne)

/-! ## The header of the log -/

/-- The header when a block has been recorded. -/
def logged (l : List ℕ) (b : ℕ) : List ℕ := if b ∈ l then l else l ++ [b]

theorem mem_logged {l : List ℕ} {b c : ℕ} : c ∈ logged l b ↔ c ∈ l ∨ c = b := by
  rw [logged]
  split
  · constructor
    · exact .inl
    · rintro (hc | rfl)
      · exact hc
      · assumption
  · simp

theorem nodup_logged {l : List ℕ} (h : l.Nodup) (b : ℕ) : (logged l b).Nodup := by
  rw [logged]
  split
  · exact h
  · next hb =>
      rw [← List.concat_eq_append]
      exact h.concat hb

namespace Disk

variable {s t : Disk} {b : ℕ}

@[simp] theorem lh_put (s : Disk) (b : ℕ) (data : Buf) : (s.put b data).lh = s.lh := rfl

@[simp] theorem sect_put (s : Disk) (b : ℕ) (data : Buf) :
    (s.put b data).sect = update s.sect b data := rfl

/-- `log_write` succeeds as long as the header has an entry left. -/
theorem logWrite_eq_ok : s.logWrite b = .ok t ↔
    s.lh.length < 29 ∧ t = { s with lh := logged s.lh b } := by
  have hroom : (s.lh.length ≥ LOGSIZE ∨ s.lh.length ≥ nlog - 1) ↔ ¬ s.lh.length < 29 := by
    simp only [LOGSIZE, nlog, MAXOPBLOCKS]
    omega
  rw [logWrite]
  split
  · next h => simp [hroom.mp h, panic]
  · next h =>
      simp only [Except.ok.injEq, logged, not_not.mp (hroom.not.mp h), true_and]
      exact eq_comm

/-! ## The free map -/

theorem mask_and_mask (i j : Fin 8) : mask i &&& mask j = if i = j then mask j else 0 := by
  revert i j
  decide

theorem mask_mod (bi : ℕ) : mask (bi % 8) = mask bi := by
  rw [mask, mask, Nat.mod_mod]

theorem mask_ne_zero (bi : ℕ) : mask bi ≠ 0 := by
  have h : ∀ i : Fin 8, mask i ≠ 0 := by decide
  rw [← mask_mod]
  exact h ⟨bi % 8, Nat.mod_lt _ (by decide)⟩

theorem or_and_ne_zero (x : UInt8) (i j : ℕ) :
    (x ||| mask i) &&& mask j ≠ 0 ↔ i % 8 = j % 8 ∨ x &&& mask j ≠ 0 := by
  have hdistrib : (x ||| mask i) &&& mask j = (x &&& mask j) ||| (mask i &&& mask j) := by
    apply UInt8.toBitVec_inj.mp
    ext k
    simp [Bool.and_or_distrib_right]
  have hmask := mask_and_mask ⟨i % 8, Nat.mod_lt _ (by decide)⟩ ⟨j % 8, Nat.mod_lt _ (by decide)⟩
  simp only [mask_mod, Fin.mk.injEq] at hmask
  rw [hdistrib, hmask, Ne, UInt8.or_eq_zero_iff]
  split
  · next h => simp [h, mask_ne_zero]
  · next h => simp [h]

theorem bblock (hb : b < FSSIZE) : BBLOCK b = bmapstart := by
  have : b / BPB = 0 := Nat.div_eq_of_lt (by simp only [FSSIZE, BPB, BSIZE] at *; omega)
  rw [BBLOCK, this, Nat.zero_add]

theorem bit_congr (h : t.sect bmapstart = s.sect bmapstart) (hb : b < FSSIZE) :
    t.bit b = s.bit b := by
  rw [bit, bit, bblock hb, h]

theorem bit_markBit {c : ℕ} (hb : b < FSSIZE) (hc : c < FSSIZE)
    (h : t.sect bmapstart = s.markBit b) : t.bit c = (s.bit c || decide (c = b)) := by
  rw [Bool.eq_iff_iff, Bool.or_eq_true, decide_eq_true_eq, bit, bit, decide_eq_true_eq,
    decide_eq_true_eq, bblock hc, h, markBit, bblock hb, update_apply]
  have hmod : ∀ {x}, x < FSSIZE → x % BPB = x := fun hx =>
    Nat.mod_eq_of_lt (by simp only [FSSIZE, BPB, BSIZE] at *; omega)
  rw [hmod hb, hmod hc]
  split
  · next heq =>
      rw [heq, or_and_ne_zero]
      constructor
      · rintro (hmod | hbit)
        · exact .inr (by omega)
        · exact .inl hbit
      · rintro (hbit | rfl)
        · exact .inr hbit
        · exact .inl rfl
  · next hne =>
      constructor
      · exact .inl
      · rintro (hbit | rfl)
        · exact hbit
        · exact absurd rfl hne

/-- The number of blocks whose bit is clear. -/
def free (s : Disk) : ℕ := ((Finset.range FSSIZE).filter fun b => s.bit b = false).card

theorem free_congr (h : ∀ c, c < FSSIZE → t.bit c = s.bit c) : t.free = s.free := by
  refine congrArg Finset.card (Finset.filter_congr fun c hc => ?_)
  rw [h c (Finset.mem_range.mp hc)]

/-- What `balloc` does: it clears a free block and marks it, and records both. -/
structure Alloced (s : Disk) (b : ℕ) (t : Disk) : Prop where
  nmeta_le : nmeta ≤ b
  lt : b < FSSIZE
  clear : s.bit b = false
  bit : ∀ c, c < FSSIZE → t.bit c = (s.bit c || decide (c = b))
  zero : t.sect b = fun _ => 0
  sect : ∀ c, c ≠ bmapstart → c ≠ b → t.sect c = s.sect c
  lh : t.lh = logged (logged s.lh bmapstart) b

/-- The bits of the meta blocks are set, so `balloc` finds none of them. -/
def MetaMarked (s : Disk) : Prop := ∀ b, b < nmeta → s.bit b = true

theorem bmapstart_lt : bmapstart < nmeta := by decide

theorem alloced_of_balloc (hmeta : s.MetaMarked) (h : s.balloc = .ok (b, t)) : Alloced s b t := by
  unfold balloc at h
  split at h
  · cases h
  · next b' hfind =>
      unfold firstFree at hfind
      obtain ⟨s₁, hs₁, h⟩ := bind_eq_ok.mp h
      obtain ⟨s₂, hs₂, h⟩ := bind_eq_ok.mp h
      cases h
      have hclear : s.bit b = false := by simpa using List.find?_some hfind
      have hlt : b < FSSIZE := List.mem_range.mp (List.mem_of_find?_eq_some hfind)
      have hge : nmeta ≤ b := by
        by_contra hnot
        rw [hmeta b (by omega)] at hclear
        cases hclear
      have hne : bmapstart ≠ b := (bmapstart_lt.trans_le hge).ne
      rw [bblock hlt] at hs₁
      obtain ⟨-, rfl⟩ := logWrite_eq_ok.mp hs₁
      obtain ⟨-, rfl⟩ := logWrite_eq_ok.mp hs₂
      refine ⟨hge, hlt, hclear, fun c hc => bit_markBit hlt hc ?_, ?_, fun c hmap hcb => ?_, ?_⟩
      · simp [update_of_ne hne]
      · simp
      · simp [update_of_ne hcb, update_of_ne hmap]
      · simp

namespace Alloced

variable (h : Alloced s b t)
include h

/-- One block less is free. -/
theorem free_eq : t.free + 1 = s.free := by
  have hset : (Finset.range FSSIZE).filter (fun c => t.bit c = false) =
      ((Finset.range FSSIZE).filter fun c => s.bit c = false).erase b := by
    ext c
    simp only [Finset.mem_filter, Finset.mem_range, Finset.mem_erase]
    constructor
    · rintro ⟨hc, hbit⟩
      rw [h.bit c hc, Bool.or_eq_false_iff] at hbit
      exact ⟨by simpa using hbit.2, hc, hbit.1⟩
    · rintro ⟨hne, hc, hbit⟩
      refine ⟨hc, ?_⟩
      rw [h.bit c hc, hbit]
      simpa using hne
  have hmem : b ∈ (Finset.range FSSIZE).filter fun c => s.bit c = false := by
    simpa using ⟨h.lt, h.clear⟩
  rw [free, free, hset, Finset.card_erase_of_mem hmem]
  have := Finset.card_pos.mpr ⟨b, hmem⟩
  omega

theorem mem_lh : b ∈ t.lh := by
  rw [h.lh]
  exact mem_logged.mpr (.inr rfl)

end Alloced

end Disk

end Xv6.Content
