import Xv6.Lib.Bytes

/-!
# `memmove`

The `memmove` of `kernel/string.c` and the one of `user/ulib.c`. Both copy in place, from the low or
from the high end; they choose the end by different tests. Pointers are 64-bit numbers.
-/

namespace Xv6.Memmove

open Lib
open Function (update update_of_ne update_self)

/-- `while(n-- > 0) *d++ = *s++;` -/
def copyUp : ℕ → Buf → ℕ → ℕ → Buf
  | 0, b, _, _ => b
  | n + 1, b, d, s => copyUp n (update b d (b s)) ((d + 1) % 2 ^ 64) ((s + 1) % 2 ^ 64)

/-- `--p` -/
def dec (p : ℕ) : ℕ := if p = 0 then 2 ^ 64 - 1 else p - 1

/-- `while(n-- > 0) *--d = *--s;` -/
def copyDown : ℕ → Buf → ℕ → ℕ → Buf
  | 0, b, _, _ => b
  | n + 1, b, d, s => copyDown n (update b (dec d) (b (dec s))) (dec d) (dec s)

/-- `memmove` of the kernel. -/
def memmove (b : Buf) (dst src : ℕ) (n : UInt32) : Buf :=
  if n = 0 then b
  else if src < dst ∧ (src + n.toNat) % 2 ^ 64 > dst then
    copyDown n.toNat b ((dst + n.toNat) % 2 ^ 64) ((src + n.toNat) % 2 ^ 64)
  else copyUp n.toNat b dst src

/-- `memmove` of the user library. A negative `n` moves the pointers down and copies nothing. -/
def umemmove (b : Buf) (dst src : ℕ) (n : Int32) : Buf :=
  if src > dst then copyUp n.toInt.toNat b dst src
  else
    copyDown n.toInt.toNat b ((dst + n.toInt) % 2 ^ 64).toNat ((src + n.toInt) % 2 ^ 64).toNat

variable {b : Buf} {d s n : ℕ}

/-- The simultaneous copy: `src[i]` is the byte that was there at the start. -/
def copied (b : Buf) (d s n : ℕ) : Buf := blit b d n fun i => b (s + i)

/-- A copy from the low end reads no byte that it has written, unless `s < d < s + n`. -/
theorem copyUp_eq (hd : d + n ≤ 2 ^ 64) (hs : s + n ≤ 2 ^ 64) (h : d ≤ s ∨ s + n ≤ d) :
    copyUp n b d s = copied b d s n := by
  induction n generalizing b d s with
  | zero => simp [copyUp, copied]
  | succ n ih =>
    -- the pointers wrap around only after the last byte
    have hnext : copyUp n (update b d (b s)) ((d + 1) % 2 ^ 64) ((s + 1) % 2 ^ 64) =
        copied (update b d (b s)) (d + 1) (s + 1) n := by
      cases n with
      | zero => simp [copyUp, copied]
      | succ n =>
        rw [Nat.mod_eq_of_lt (by omega), Nat.mod_eq_of_lt (by omega)]
        exact ih (by omega) (by omega) (by omega)
    rw [copyUp, hnext]
    funext a
    by_cases ha : d + 1 ≤ a ∧ a < d + 1 + n
    · simp only [copied, blit_of_in ha.1 ha.2, blit_of_in (show d ≤ a by omega)
        (show a < d + (n + 1) by omega)]
      rw [update_of_ne (by omega)]
      congr 1
      omega
    · rw [copied, copied, blit_of_out ha]
      by_cases had : a = d
      · subst had
        rw [update_self, blit_of_in le_rfl (by omega), Nat.sub_self, Nat.add_zero]
      · rw [update_of_ne had, blit_of_out (by omega)]

theorem dec_mod (a n : ℕ) : dec ((a + (n + 1)) % 2 ^ 64) = (a + n) % 2 ^ 64 := by
  rw [dec]
  split <;> omega

/-- A copy from the high end reads no byte that it has written if `s ≤ d`. -/
theorem copyDown_eq (hd : d + n ≤ 2 ^ 64) (h : s ≤ d) :
    copyDown n b ((d + n) % 2 ^ 64) ((s + n) % 2 ^ 64) = copied b d s n := by
  induction n generalizing b with
  | zero => simp [copyDown, copied]
  | succ n ih =>
    rw [copyDown, dec_mod, dec_mod, ih (by omega), Nat.mod_eq_of_lt (show d + n < 2 ^ 64 by omega),
      Nat.mod_eq_of_lt (show s + n < 2 ^ 64 by omega)]
    funext a
    by_cases ha : d ≤ a ∧ a < d + n
    · simp only [copied, blit_of_in ha.1 ha.2, blit_of_in ha.1 (show a < d + (n + 1) by omega)]
      rw [update_of_ne (by omega)]
    · rw [copied, copied, blit_of_out ha]
      by_cases had : a = d + n
      · subst had
        rw [update_self, blit_of_in (by omega) (by omega), Nat.add_sub_cancel_left]
      · rw [update_of_ne had, blit_of_out (by omega)]

/-- **`memmove` is a simultaneous copy**, the kernel's and the user library's, in any overlap of
ranges that do not wrap around. -/
theorem memmove_copies (b : Buf) (dst src : ℕ) :
    (∀ n : UInt32, dst + n.toNat ≤ 2 ^ 64 → src + n.toNat ≤ 2 ^ 64 →
      (∀ i, i < n.toNat → memmove b dst src n (dst + i) = b (src + i)) ∧
      ∀ a, ¬ (dst ≤ a ∧ a < dst + n.toNat) → memmove b dst src n a = b a) ∧
    (∀ n : Int32, dst + n.toInt ≤ 2 ^ 64 → src + n.toInt ≤ 2 ^ 64 →
      (∀ i : ℕ, i < n.toInt → umemmove b dst src n (dst + i) = b (src + i)) ∧
      ∀ a : ℕ, ¬ (dst ≤ a ∧ a < dst + n.toInt) → umemmove b dst src n a = b a) := by
  have hcopied : ∀ n, (∀ i, i < n → copied b dst src n (dst + i) = b (src + i)) ∧
      ∀ a, ¬ (dst ≤ a ∧ a < dst + n) → copied b dst src n a = b a := by
    intro n
    refine ⟨fun i hi => ?_, fun a ha => blit_of_out ha⟩
    rw [copied, blit_of_in (by omega) (by omega), Nat.add_sub_cancel_left]
  refine ⟨fun n hd hs => ?_, fun n hd hs => ?_⟩
  · have heq : memmove b dst src n = copied b dst src n.toNat := by
      rw [memmove]
      split
      · next hn => simp [hn, copied]
      split
      · next h => exact copyDown_eq hd h.1.le
      · next h => exact copyUp_eq hd hs (by omega)
    rw [heq]
    exact hcopied _
  · have heq : umemmove b dst src n = copied b dst src n.toInt.toNat := by
      rw [umemmove]
      rcases le_or_gt n.toInt 0 with hn | hn
      · rw [Int.toNat_of_nonpos hn]
        split <;> simp [copyUp, copyDown, copied]
      · have hd' : ((dst + n.toInt) % 2 ^ 64).toNat = (dst + n.toInt.toNat) % 2 ^ 64 := by omega
        have hs' : ((src + n.toInt) % 2 ^ 64).toNat = (src + n.toInt.toNat) % 2 ^ 64 := by omega
        rw [hd', hs']
        split
        · next h => exact copyUp_eq (by omega) (by omega) (.inl h.le)
        · next h => exact copyDown_eq (by omega) (not_lt.mp h)
    rw [heq]
    refine ⟨fun i hi => (hcopied _).1 i (by omega), fun a ha => (hcopied _).2 a ?_⟩
    omega

/-- Three bytes move by one, up in the kernel and down in a user program. -/
theorem memmove_copies_overlap : memmove UInt8.ofNat 11 10 3 (11 + 2) = UInt8.ofNat (10 + 2) ∧
    umemmove UInt8.ofNat 10 11 3 ((10 : ℕ) + (2 : ℕ)) = UInt8.ofNat (11 + 2) :=
  ⟨((memmove_copies _ 11 10).1 3 (by decide) (by decide)).1 2 (by decide),
    ((memmove_copies _ 10 11).2 3 (by decide) (by decide)).1 2 (by decide)⟩

end Xv6.Memmove
