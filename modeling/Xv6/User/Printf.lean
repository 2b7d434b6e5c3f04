import Mathlib.Data.Nat.Digits.Lemmas

/-!
# `printf`

`printint`, `printptr` and `vprintf` of `user/printf.c`. The characters go to the file one by one;
here they are the result.
-/

namespace Xv6.Printf

/-- `digits[]` -/
def digitChars : List Char := "0123456789ABCDEF".toList

def digit (x : ℕ) : Char := digitChars.getD x '?'

/-- The loop of `printint`: `x / base` gets smaller, so `x + 1` turns are enough. -/
def digitLoop (base : ℕ) : ℕ → ℕ → List Char → List Char
  | 0, _, buf => buf
  | turns + 1, x, buf =>
    if x / base ≠ 0 then digitLoop base turns (x / base) (buf ++ [digit (x % base)])
    else buf ++ [digit (x % base)]

/-- The characters in `buf[]`. The negation of the least `int` is itself. -/
def digitBuf (xx : Int32) (base : ℕ) (sgn : Bool) : List Char :=
  let neg := sgn && xx < 0
  let x := if neg then (-xx).toUInt32 else xx.toUInt32
  let buf := digitLoop base (x.toNat + 1) x.toNat []
  if neg then buf ++ ['-'] else buf

/-- The buffer is written from its end. -/
def printint (xx : Int32) (base : ℕ) (sgn : Bool) : List Char := (digitBuf xx base sgn).reverse

/-- The loop of `printptr`: `i` digits are still to come. -/
def ptrLoop : ℕ → UInt64 → List Char
  | 0, _ => []
  | i + 1, x => digit (x >>> 60).toNat :: ptrLoop i (x <<< 4)

def printptr (x : UInt64) : List Char := '0' :: 'x' :: ptrLoop 16 x

/-- An argument, as `va_arg` finds it: a number, or a string (none for a null pointer). -/
inductive Arg where
  | num (x : UInt64)
  | str (s : Option (List Char))

/-- `va_arg(ap, uint64)` -/
def Arg.toUInt64 : Arg → UInt64
  | .num x => x
  | .str _ => 0

/-- `va_arg(ap, int)`, and the conversion of an argument of 64 bits to an `int`. -/
def Arg.toInt (a : Arg) : Int32 := a.toUInt64.toUInt32.toInt32

/-- `va_arg(ap, char*)`, with the text for a null pointer. -/
def Arg.toStr : Arg → List Char
  | .str (some s) => s
  | _ => "(null)".toList

/-- What `vprintf` writes for a conversion that takes an argument. -/
def convert (c : Char) (a : Arg) : Option (List Char) :=
  match c with
  | 'd' => some (printint a.toInt 10 true)
  | 'l' => some (printint a.toInt 10 false)
  | 'x' => some (printint a.toInt 16 false)
  | 'p' => some (printptr a.toUInt64)
  | 's' => some a.toStr
  | 'c' => some [Char.ofNat (a.toUInt64.toNat % 256)]
  | _ => none

/-- `vprintf`, from a place in the format where no conversion is open. A missing argument is taken
as 0. -/
def vprintf : List Char → List Arg → List Char
  | [], _ => []
  | '%' :: c :: fmt, args =>
    match convert c (args.headD (.num 0)) with
    | some out => out ++ vprintf fmt args.tail
    | none => (if c = '%' then ['%'] else ['%', c]) ++ vprintf fmt args
  | ['%'], _ => []
  | c :: fmt, args => c :: vprintf fmt args

/-! ## Reading back -/

/-- The number that digits denote, the first one the most significant. -/
def readDigits (base : ℕ) (s : List Char) : ℕ :=
  s.foldl (fun x c => x * base + digitChars.idxOf c) 0

variable {base x : ℕ}

theorem idxOf_digit {d : ℕ} (h : d < 16) : digitChars.idxOf (digit d) = d := by
  revert h
  revert d
  decide

/-- The digits of a number, the least significant first, and one digit of 0. -/
def digitsOf (base x : ℕ) : List ℕ := if x = 0 then [0] else Nat.digits base x

theorem digitLoop_eq (hbase : 1 < base) {turns : ℕ} (hturns : x < turns) (buf : List Char) :
    digitLoop base turns x buf = buf ++ (digitsOf base x).map digit := by
  induction turns generalizing x buf with
  | zero => omega
  | succ turns ih =>
    rw [digitLoop]
    by_cases hlast : x / base = 0
    · have hlt : x < base := (Nat.div_eq_zero_iff_lt (by omega)).mp hlast
      rcases eq_or_ne x 0 with rfl | hx
      · simp [digitsOf]
      · simp [hlast, digitsOf, hx, Nat.digits_of_lt base x hx hlt, Nat.mod_eq_of_lt hlt]
    · have hx : x ≠ 0 := by
        rintro rfl
        exact hlast (Nat.zero_div base)
      have hless : x / base < turns := by
        have := Nat.div_lt_self (Nat.pos_of_ne_zero hx) hbase
        omega
      rw [if_pos hlast, ih hless, digitsOf, digitsOf, if_neg hlast, if_neg hx,
        Nat.digits_def' hbase (Nat.pos_of_ne_zero hx)]
      simp

theorem digitsOf_lt (hbase : 1 < base) {d : ℕ} (h : d ∈ digitsOf base x) : d < base := by
  rw [digitsOf] at h
  split at h
  · rw [List.mem_singleton.mp h]
    omega
  · exact Nat.digits_lt_base hbase h

theorem ofDigits_digitsOf : Nat.ofDigits base (digitsOf base x) = x := by
  rw [digitsOf]
  split
  · next h => simp [h]
  · exact Nat.ofDigits_digits base x

/-- The digits of a number, written from the last to the first, denote it. -/
theorem readDigits_digitsOf (hbase : 1 < base) (h16 : base ≤ 16) :
    readDigits base ((digitsOf base x).map digit).reverse = x := by
  have hread : ∀ ds : List ℕ, (∀ d ∈ ds, d < 16) →
      readDigits base (ds.map digit).reverse = Nat.ofDigits base ds := by
    intro ds hds
    induction ds with
    | nil => rfl
    | cons d ds ih =>
      simp only [List.forall_mem_cons] at hds
      have hrest := ih hds.2
      simp only [readDigits] at hrest ⊢
      simp [hrest, idxOf_digit hds.1, Nat.ofDigits_cons]
      ring
  rw [hread _ fun d hd => (digitsOf_lt hbase hd).trans_le h16, ofDigits_digitsOf]

theorem length_digitsOf {k : ℕ} (hbase : 1 < base) (hk : 0 < k) (hx : x < base ^ k) :
    (digitsOf base x).length ≤ k := by
  rw [digitsOf]
  split
  · exact hk
  · exact (Nat.digits_length_le_iff hbase x).mpr hx

/-- **`printint`** writes the digits of an unsigned number of 32 bits, behind a sign if it is one of
a negative number. -/
theorem printint_eq (hbase : 1 < base) (xx : Int32) (sgn : Bool) : printint xx base sgn =
    if sgn && xx < 0 then '-' :: ((digitsOf base (-xx).toUInt32.toNat).map digit).reverse
    else ((digitsOf base xx.toUInt32.toNat).map digit).reverse := by
  rw [printint, digitBuf]
  split <;> simp [digitLoop_eq hbase (Nat.lt_succ_self _), *]

theorem length_digitBuf (hbase : base = 10 ∨ base = 16) (xx : Int32) (sgn : Bool) :
    (digitBuf xx base sgn).length ≤ 16 := by
  have hone : 1 < base := by omega
  have hlen : ∀ x : UInt32, (digitsOf base x.toNat).length ≤ 10 := by
    intro x
    refine length_digitsOf hone (by decide) (lt_of_lt_of_le x.toNat_lt ?_)
    rcases hbase with rfl | rfl <;> decide
  have hpos := hlen (-xx).toUInt32
  have hself := hlen xx.toUInt32
  rw [← List.length_reverse, ← printint, printint_eq hone]
  split <;> simp only [List.length_cons, List.length_reverse, List.length_map] <;> omega

/-- Digits with a sign. -/
def readSigned (s : List Char) : ℤ :=
  if s.head? = some '-' then -(readDigits 10 s.tail : ℤ) else readDigits 10 s

theorem toInt_cases (xx : Int32) : xx.toInt =
    if xx < 0 then -((-xx).toUInt32.toNat : ℤ) else xx.toUInt32.toNat := by
  have hlt := xx.toUInt32.toNat_lt
  have hcond : xx.toInt = if 2 * xx.toUInt32.toNat < 2 ^ 32 then (xx.toUInt32.toNat : ℤ)
      else xx.toUInt32.toNat - 2 ^ 32 := by
    exact_mod_cast BitVec.toInt_eq_toNat_cond xx.toBitVec
  have hneg : (-xx).toUInt32.toNat = (2 ^ 32 - xx.toUInt32.toNat) % 2 ^ 32 := by simp
  have hsign : xx < 0 ↔ xx.toInt < 0 := Int32.lt_iff_toInt_lt
  by_cases h : xx < 0
  · have := hsign.mp h
    rw [if_pos h, hneg]
    split at hcond <;> omega
  · have := mt hsign.mpr h
    rw [if_neg h]
    split at hcond <;> omega

theorem readSigned_printint (xx : Int32) : readSigned (printint xx 10 true) = xx.toInt := by
  have hdigit : ∀ d, d < 10 → digit d ≠ '-' := by decide
  rw [printint_eq (by decide), toInt_cases, readSigned]
  by_cases hneg : xx < 0
  · simp [hneg, readDigits_digitsOf]
  · have hhead : ((digitsOf 10 xx.toUInt32.toNat).map digit).reverse.head? ≠ some '-' := by
      rw [List.head?_reverse, List.getLast?_map]
      intro h
      obtain ⟨d, hd, hdash⟩ := Option.map_eq_some_iff.mp h
      exact hdigit d (digitsOf_lt (by decide) (List.mem_of_getLast? hd)) hdash
    simp only [hneg, decide_false, Bool.and_false, Bool.false_eq_true, if_false, hhead,
      readDigits_digitsOf (show 1 < 10 by decide) (by decide)]

theorem readDigits_printint (hbase : 1 < base) (h16 : base ≤ 16) (xx : Int32) :
    readDigits base (printint xx base false) = xx.toUInt32.toNat := by
  simp [printint_eq hbase, readDigits_digitsOf hbase h16]

theorem readDigits_cons (base : ℕ) (c : Char) (s : List Char) : readDigits base (c :: s) =
    digitChars.idxOf c * base ^ s.length + readDigits base s := by
  have hfold : ∀ (s : List Char) x, s.foldl (fun x c => x * base + digitChars.idxOf c) x =
      x * base ^ s.length + readDigits base s := by
    intro s
    induction s with
    | nil => simp [readDigits]
    | cons c s ih =>
      intro x
      have hfirst : readDigits base (c :: s) = _ := ih (0 * base + digitChars.idxOf c)
      rw [List.foldl_cons, ih, hfirst, List.length_cons]
      ring
  rw [readDigits, List.foldl_cons, hfold, Nat.zero_mul, Nat.zero_add]

theorem readDigits_ptrLoop {i : ℕ} (hi : i ≤ 16) (x : UInt64) :
    readDigits 16 (ptrLoop i x) = x.toNat / 2 ^ (64 - 4 * i) := by
  have hlen : ∀ i x, (ptrLoop i x).length = i := by
    intro i
    induction i with
    | zero => exact fun _ => rfl
    | succ i ih => exact fun x => by rw [ptrLoop, List.length_cons, ih]
  induction i generalizing x with
  | zero =>
    have := x.toNat_lt
    simp only [ptrLoop, readDigits, List.foldl_nil]
    omega
  | succ i ih =>
    have hlt := x.toNat_lt
    have hshift : (x <<< 4).toNat = x.toNat * 16 % 2 ^ 64 := by simp [Nat.shiftLeft_eq]
    have htop : (x >>> 60).toNat = x.toNat / 2 ^ 60 := by simp [Nat.shiftRight_eq_div_pow]
    rw [ptrLoop, readDigits_cons, hlen, ih (by omega), hshift, htop, idxOf_digit (by omega)]
    obtain ⟨k, hk⟩ : ∃ k, k + 4 * i = 60 := ⟨60 - 4 * i, by omega⟩
    have hpow : 2 ^ 60 = 2 ^ k * 16 ^ i := by
      rw [show 16 = 2 ^ 4 from rfl, ← pow_mul, ← pow_add, hk]
    have hlow : x.toNat * 16 % 2 ^ 64 = x.toNat % 2 ^ 60 * 2 ^ 4 := by omega
    have hhigh : x.toNat = 2 ^ k * (16 ^ i * (x.toNat / 2 ^ 60)) + x.toNat % 2 ^ 60 := by
      rw [← mul_assoc, ← hpow, Nat.div_add_mod]
    rw [show 64 - 4 * i = k + 4 by omega, show 64 - 4 * (i + 1) = k by omega, hlow, pow_add,
      Nat.mul_div_mul_right _ _ (by decide)]
    conv_rhs => rw [hhigh, Nat.mul_add_div (by positivity), mul_comm (16 ^ i)]

/-- The conversions of numbers. -/
inductive Conv where
  | d | x | l | p
  deriving DecidableEq

namespace Conv

def char : Conv → Char
  | .d => 'd'
  | .x => 'x'
  | .l => 'l'
  | .p => 'p'

/-- The value of an argument: an `int`, an `int` as an unsigned number, or a `uint64`. -/
def value (a : UInt64) : Conv → ℤ
  | .d => a.toUInt32.toInt32.toInt
  | .x => a.toUInt32.toNat
  | .l => a.toNat
  | .p => a.toNat

/-- What characters denote. -/
def reads (s : List Char) : Conv → ℤ
  | .d => readSigned s
  | .x => readDigits 16 s
  | .l => readDigits 10 s
  | .p => if s.take 2 = ['0', 'x'] then readDigits 16 (s.drop 2) else -1

end Conv

/-- **Numbers.** What `vprintf` writes for a conversion of a number denotes the argument, if and only
if the argument of `%l` has 32 bits; and `printint` stays in its buffer. -/
theorem reads_iff (c : Conv) (a : UInt64) (fmt : List Char) (args : List Arg) :
    (∃ out, vprintf ('%' :: c.char :: fmt) (.num a :: args) = out ++ vprintf fmt args ∧
      (c.reads out = c.value a ↔ (c = .l → a.toNat < 2 ^ 32))) ∧
    ∀ (xx : Int32) (sgn : Bool), (digitBuf xx 10 sgn).length ≤ 16 ∧
      (digitBuf xx 16 sgn).length ≤ 16 := by
  refine ⟨?_, fun xx sgn => ⟨length_digitBuf (.inl rfl) xx sgn, length_digitBuf (.inr rfl) xx sgn⟩⟩
  cases c with
  | d =>
    exact ⟨_, rfl, by simp [Conv.reads, Conv.value, readSigned_printint, Arg.toInt, Arg.toUInt64]⟩
  | x =>
    refine ⟨_, rfl, ?_⟩
    simp [Conv.reads, Conv.value, readDigits_printint (show 1 < 16 by decide), Arg.toInt,
      Arg.toUInt64]
  | l =>
    refine ⟨_, rfl, ?_⟩
    have hlt := a.toNat_lt
    simp [Conv.reads, Conv.value, readDigits_printint (show 1 < 10 by decide), Arg.toInt,
      Arg.toUInt64]
    omega
  | p =>
    refine ⟨_, rfl, ?_⟩
    have hread : readDigits 16 (ptrLoop 16 a) = a.toNat / 2 ^ 0 := readDigits_ptrLoop le_rfl a
    simp [Conv.reads, Conv.value, printptr, hread, Arg.toUInt64]

/-- The upper half of the argument of `%l` is lost. -/
theorem reads_loses_half : vprintf ['%', 'l'] [.num 4294967303] = ['7'] ∧
    Conv.l.reads ['7'] ≠ Conv.l.value 4294967303 := by
  decide +kernel

/-- The loop of `atoi` of `user/ulib.c`; none where `n*10 + *s` is too large for an `int`. -/
def atoiLoop (n : ℕ) : List Char → Option ℕ
  | [] => some n
  | c :: s =>
    if c.isDigit then
      if n * 10 + c.toNat < 2 ^ 31 then atoiLoop (n * 10 + c.toNat - '0'.toNat) s else none
    else some n

def atoi (s : List Char) : Option ℕ := atoiLoop 0 s

theorem atoiLoop_append {s t : List Char} (h : ∀ c ∈ s, c.isDigit) (n : ℕ) :
    atoiLoop n (s ++ t) = (atoiLoop n s).bind (atoiLoop · t) := by
  induction s generalizing n with
  | nil => rfl
  | cons c s ih =>
    simp only [List.forall_mem_cons] at h
    simp only [List.cons_append, atoiLoop, h.1, if_true, ih h.2]
    split <;> rfl

theorem atoi_digitsOf (x : ℕ) : atoi ((digitsOf 10 x).map digit).reverse =
    if x + 48 < 2 ^ 31 then some x else none := by
  have hdigit : ∀ d < 10, (digit d).isDigit ∧ (digit d).toNat = 48 + d := by decide
  induction x using Nat.strong_induction_on with
  | _ x ih =>
    by_cases hx : x < 10
    · interval_cases x <;> rfl
    · have hd := hdigit (x % 10) (by omega)
      have hds : digitsOf 10 x = x % 10 :: digitsOf 10 (x / 10) := by
        rw [digitsOf, digitsOf, if_neg (by omega), if_neg (by omega),
          Nat.digits_def' (by decide) (by omega)]
      have hrest : ∀ c ∈ ((digitsOf 10 (x / 10)).map digit).reverse, c.isDigit := by
        simpa using fun d h => (hdigit d (digitsOf_lt (by decide) h)).1
      rw [hds, List.map_cons, List.reverse_cons, atoi, atoiLoop_append hrest, ← atoi,
        ih _ (by omega)]
      split <;> simp [atoiLoop, hd] <;> grind

/-- **`atoi` reads what `printf` writes** for `%d`, but for the numbers within 48 of the largest
`int`, for which C does not define its sum; of a negative number it reads nothing. -/
theorem atoi_printint (xx : Int32) : atoi (printint xx 10 true) =
    if xx < 0 then some 0
    else if xx.toInt + 48 < 2 ^ 31 then some xx.toInt.toNat else none := by
  rw [printint_eq (by decide), toInt_cases]
  by_cases hneg : xx < 0
  · simp [hneg, atoi, atoiLoop]
  · simp only [hneg, decide_false, Bool.and_false, Bool.false_eq_true, if_false, atoi_digitsOf]
    norm_cast

end Xv6.Printf
