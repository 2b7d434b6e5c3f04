import Mathlib.Data.List.GetD
import Mathlib.Tactic.Ring

/-!
# Buffers of bytes

A buffer is a function from positions to bytes. `blit` copies bytes into it, and `getLe` reads the
number of some bytes at a position, the least significant first; `byteLe` is one byte of a number.
A number that was copied in is read back, up to the bytes it has been given.
-/

namespace Xv6.Lib

/-- A buffer of bytes. -/
abbrev Buf := ℕ → UInt8

variable {b b' : Buf} {o n : ℕ}

/-- The buffer `b` with `n` bytes of `src` at `o`. -/
def blit (b : Buf) (o n : ℕ) (src : Buf) : Buf := fun i =>
  if o ≤ i ∧ i < o + n then src (i - o) else b i

/-- The byte of weight `256 ^ k` of a number. -/
def byteLe (x k : ℕ) : UInt8 := UInt8.ofNat (x / 256 ^ k)

/-- The number of the `n` bytes at `o`. -/
def getLe (b : Buf) (o : ℕ) : ℕ → ℕ
  | 0 => 0
  | n + 1 => (b o).toNat + 256 * getLe b (o + 1) n

theorem getLe_congr (h : ∀ i, o ≤ i → i < o + n → b i = b' i) : getLe b o n = getLe b' o n := by
  induction n generalizing o with
  | zero => rfl
  | succ n ih =>
    rw [getLe, getLe, h o le_rfl (by omega), ih fun i hi hlt => h i (by omega) (by omega)]

theorem getLe_zero (o n : ℕ) : getLe (fun _ => 0) o n = 0 := by
  induction n generalizing o with
  | zero => rfl
  | succ n ih => rw [getLe, ih]; rfl

theorem byteLe_succ (x k : ℕ) : byteLe x (k + 1) = byteLe (x / 256) k := by
  rw [byteLe, byteLe, Nat.div_div_eq_div_mul, pow_succ, mul_comm]

/-- Reading a number where its bytes are. -/
theorem getLe_byteLe {x : ℕ} (h : ∀ i, o ≤ i → i < o + n → b i = byteLe x (i - o)) :
    getLe b o n = x % 256 ^ n := by
  induction n generalizing o x with
  | zero => simp [getLe, Nat.mod_one]
  | succ n ih =>
    have hfirst : (b o).toNat = x % 256 := by
      rw [h o le_rfl (by omega), Nat.sub_self]
      simp [byteLe]
    have hrest : getLe b (o + 1) n = x / 256 % 256 ^ n := by
      refine ih fun i hi hlt => ?_
      rw [h i (by omega) (by omega), ← byteLe_succ]
      congr 1
      omega
    rw [getLe, hfirst, hrest, pow_succ', Nat.mod_mul]

/-- A list that reads as zeros past its end, with more bytes at its end. -/
theorem getD_append_eq (p q : List UInt8) (a : ℕ) : (p ++ q).getD a 0 =
    if p.length ≤ a ∧ a < p.length + q.length then q.getD (a - p.length) 0 else p.getD a 0 := by
  by_cases hp : a < p.length
  · rw [if_neg (by omega), List.getD_append _ _ _ _ hp]
  · rw [List.getD_append_right _ _ _ _ (by omega)]
    split
    · rfl
    · rw [List.getD_eq_default _ _ (by omega), List.getD_eq_default _ _ (by omega)]

section Blit
variable {m p : ℕ} {src : Buf}

theorem blit_of_out {i : ℕ} (h : ¬ (o ≤ i ∧ i < o + n)) : blit b o n src i = b i := if_neg h

theorem blit_of_in {i : ℕ} (hle : o ≤ i) (hlt : i < o + n) : blit b o n src i = src (i - o) :=
  if_pos ⟨hle, hlt⟩

@[simp] theorem blit_zero (b : Buf) (o : ℕ) (src : Buf) : blit b o 0 src = b := by
  funext i
  exact blit_of_out (by omega)

theorem blit_congr {b src src' : Buf} {o n : ℕ} (h : ∀ k, k < n → src' k = src k) :
    blit b o n src' = blit b o n src := by
  funext i
  by_cases hin : o ≤ i ∧ i < o + n
  · rw [blit_of_in hin.1 hin.2, blit_of_in hin.1 hin.2, h _ (by omega)]
  · rw [blit_of_out hin, blit_of_out hin]

/-- A copy made in two parts. -/
theorem blit_blit (b : Buf) (o n m : ℕ) (src : Buf) :
    blit (blit b o n src) (o + n) m (fun i => src (n + i)) = blit b o (n + m) src := by
  funext i
  by_cases hlo : o ≤ i
  · rcases Nat.lt_or_ge i (o + n) with hn | hn
    · rw [blit_of_out (by omega), blit_of_in hlo hn, blit_of_in hlo (by omega)]
    · by_cases hm : i < o + n + m
      · rw [blit_of_in hn hm, blit_of_in hlo (by omega)]
        congr 1
        omega
      · rw [blit_of_out (by omega), blit_of_out (by omega), blit_of_out (by omega)]
  · rw [blit_of_out (by omega), blit_of_out (by omega), blit_of_out (by omega)]

/-- A copy does not change the numbers beside it. -/
theorem getLe_blit_of_disjoint (h : p + m ≤ o ∨ o + n ≤ p) :
    getLe (blit b o n src) p m = getLe b p m :=
  getLe_congr fun i hi hlt => blit_of_out (by omega)

/-- The bytes of a number, copied to a buffer. -/
theorem getLe_blit_byteLe (b : Buf) (o n x : ℕ) : getLe (blit b o n (byteLe x)) o n = x % 256 ^ n :=
  getLe_byteLe fun _ hi hlt => blit_of_in hi hlt

end Blit

end Xv6.Lib
