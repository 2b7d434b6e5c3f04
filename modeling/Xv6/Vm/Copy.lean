import Xv6.Lib.Bytes

/-!
# Copies to and from user memory

`copyout` and `copyin` of `vm.c` go over a user range page by page and stop at the first page
that is not mapped, with the pages before it copied. No two pages of a process share memory, so
user memory is taken as a function of the virtual address.
-/

namespace Xv6

open Lib

abbrev PGSIZE : ℕ := 4096

/-- One beyond the highest virtual address. -/
abbrev MAXVA : ℕ := 2 ^ 38

/-- The memory of a process: the pages its page table maps with `PTE_V` and `PTE_U`, and the
bytes in them. -/
structure UserMem where
  mapped : ℕ → Bool
  byte : Buf

namespace UserMem

variable {σ : Type*} {u : UserMem}

/-- `walkaddr` finds the page that starts at `va`. -/
def walkaddr (u : UserMem) (va : ℕ) : Bool := va < MAXVA && u.mapped (va / PGSIZE)

/-- The loop that `copyout` and `copyin` share: `move` copies the `n` bytes at `va` when `done`
bytes have been copied. Each turn copies at least one byte, so `len` turns are enough. -/
def pageLoop (u : UserMem) (move : ℕ → ℕ → ℕ → σ → σ) : ℕ → ℕ → ℕ → ℕ → σ → σ × Bool
  | 0, _, _, _, s => (s, true)
  | turns + 1, done, va, len, s =>
    if len = 0 then (s, true)
    else
      let va0 := va - va % PGSIZE
      if u.walkaddr va0 then
        let n := min (PGSIZE - (va - va0)) len
        pageLoop u move turns (done + n) (va0 + PGSIZE) (len - n) (move done va n s)
      else (s, false)

/-- Copy `len` bytes of `src` to the user address `dstva`; the result is false for `-1`. -/
def copyout (u : UserMem) (dstva : ℕ) (src : Buf) (len : ℕ) : UserMem × Bool :=
  let r := u.pageLoop (fun done va n b => blit b va n fun i => src (done + i)) len 0 dstva len
    u.byte
  ({ u with byte := r.1 }, r.2)

/-- Copy `len` bytes at the user address `srcva` to `dst` from `at` on. -/
def copyin (u : UserMem) (dst : Buf) (at_ srcva len : ℕ) : Buf × Bool :=
  u.pageLoop (fun done va n b => blit b (at_ + done) n fun i => u.byte (va + i)) len 0 srcva len
    dst

/-! ## How far a copy gets -/

/-- The byte at a user address is in a mapped page. -/
def Has (u : UserMem) (a : ℕ) : Prop := u.walkaddr (a - a % PGSIZE) = true

instance (u : UserMem) (a : ℕ) : Decidable (u.Has a) := by unfold Has; infer_instance

/-- The first `w` of the `len` bytes at `va` are mapped, and no more. -/
structure Span (u : UserMem) (va len w : ℕ) : Prop where
  le : w ≤ len
  has : ∀ i, i < w → u.Has (va + i)
  stop : w < len → ¬ u.Has (va + w)

theorem Span.unique {va len w w' : ℕ} (h : u.Span va len w) (h' : u.Span va len w') : w = w' := by
  have hle := h.le
  have hle' := h'.le
  rcases lt_trichotomy w w' with hlt | heq | hlt
  · exact absurd (h'.has w hlt) (h.stop (by omega))
  · exact heq
  · exact absurd (h.has w' hlt) (h'.stop (by omega))

theorem Span.append {va len n w : ℕ} (hn : n ≤ len) (hhas : ∀ i, i < n → u.Has (va + i))
    (h : u.Span (va + n) (len - n) w) : u.Span va len (n + w) := by
  have hle := h.le
  refine ⟨by omega, fun i hi => ?_, fun hlt => ?_⟩
  · rcases Nat.lt_or_ge i n with hin | hin
    · exact hhas i hin
    · have := h.has (i - n) (by omega)
      rwa [show va + n + (i - n) = va + i by omega] at this
  · have := h.stop (by omega)
    rwa [Nat.add_assoc] at this

theorem has_of_page {va i : ℕ} (h : u.Has va) (hi : va % PGSIZE + i < PGSIZE) : u.Has (va + i) := by
  have heq : va + i - (va + i) % PGSIZE = va - va % PGSIZE := by
    have hmod : (va + i) % PGSIZE = va % PGSIZE + i := by
      rw [Nat.add_mod, Nat.mod_eq_of_lt (a := i) (by omega)]
      exact Nat.mod_eq_of_lt (by omega)
    have hle := Nat.mod_le va PGSIZE
    omega
  rw [Has, heq]
  exact h

@[simp] theorem pageLoop_zero (move : ℕ → ℕ → ℕ → σ → σ) (turns done va : ℕ) (s : σ) :
    u.pageLoop move turns done va 0 s = (s, true) := by
  cases turns <;> rfl

/-- **The page loop.** What a copy of mapped bytes of one page preserves holds of the result, with
the number of bytes up to the first unmapped one. -/
theorem pageLoop_rule (u : UserMem) (base limit : ℕ) (move : ℕ → ℕ → ℕ → σ → σ)
    {P : ℕ → σ → Prop} (hmove : ∀ done n s, P done s →
      (∀ i, i < n → u.Has (base + done + i)) → (base + done) % PGSIZE + n ≤ PGSIZE →
      done + n ≤ limit → P (done + n) (move done (base + done) n s))
    {turns done len : ℕ} {s : σ} (hlimit : done + len ≤ limit) (hturns : len ≤ turns)
    (hs : P done s) :
    ∃ w, u.Span (base + done) len w ∧ P (done + w)
      (u.pageLoop move turns done (base + done) len s).1 ∧
      (u.pageLoop move turns done (base + done) len s).2 = decide (w = len) := by
  induction turns generalizing done len s with
  | zero =>
    obtain rfl : len = 0 := by omega
    exact ⟨0, ⟨le_rfl, by simp, by simp⟩, hs, rfl⟩
  | succ turns ih =>
    rw [pageLoop]
    by_cases hlen : len = 0
    · subst hlen
      exact ⟨0, ⟨le_rfl, by simp, by simp⟩, by simpa using hs, by simp⟩
    · simp only [hlen, if_false]
      have hmod := Nat.mod_lt (base + done) (show 0 < PGSIZE by decide)
      have hle := Nat.mod_le (base + done) PGSIZE
      by_cases hpage : u.walkaddr (base + done - (base + done) % PGSIZE) = true
      · rw [if_pos hpage]
        have hhas : ∀ i, (base + done) % PGSIZE + i < PGSIZE → u.Has (base + done + i) :=
          fun i hi => has_of_page hpage hi
        rcases Nat.lt_or_ge (PGSIZE - (base + done) % PGSIZE) len with hlt | hge
        · -- the copy reaches the end of the page and goes on with the next
          have hn : min (PGSIZE - (base + done - (base + done - (base + done) % PGSIZE))) len =
              PGSIZE - (base + done) % PGSIZE := by omega
          have hnext : base + done - (base + done) % PGSIZE + PGSIZE =
              base + (done + (PGSIZE - (base + done) % PGSIZE)) := by omega
          rw [hn, hnext]
          obtain ⟨w, hspan, hP, hok⟩ := ih (by omega)
            (show len - (PGSIZE - (base + done) % PGSIZE) ≤ turns by omega)
            (hmove done (PGSIZE - (base + done) % PGSIZE) s hs (fun i hi => hhas i (by omega))
              (by omega) (by omega))
          rw [← Nat.add_assoc] at hspan
          refine ⟨_, .append hlt.le (fun i hi => hhas i (by omega)) hspan, ?_, ?_⟩
          · rwa [← Nat.add_assoc]
          · rw [hok]
            exact decide_eq_decide.mpr (by omega)
        · have hn : min (PGSIZE - (base + done - (base + done - (base + done) % PGSIZE))) len =
              len := by omega
          rw [hn, Nat.sub_self, pageLoop_zero]
          have hall : ∀ i, i < len → u.Has (base + done + i) := fun i hi => hhas i (by omega)
          exact ⟨len, ⟨le_rfl, hall, fun h => absurd h (lt_irrefl len)⟩,
            hmove done len s hs hall (by omega) hlimit, by simp⟩
      · rw [if_neg hpage]
        exact ⟨0, ⟨Nat.zero_le len, by simp, fun _ => by simpa [Has] using hpage⟩, hs, by
          simp [Ne.symm hlen]⟩

/-- What `copyout` writes. -/
theorem copyout_eq (u : UserMem) (dstva : ℕ) (src : Buf) (len : ℕ) :
    ∃ w, u.Span dstva len w ∧ u.copyout dstva src len =
      ({ u with byte := blit u.byte dstva w src }, decide (w = len)) := by
  have hmove : ∀ done n b, b = blit u.byte dstva done src →
      (∀ i, i < n → u.Has (dstva + done + i)) → (dstva + done) % PGSIZE + n ≤ PGSIZE →
      done + n ≤ len →
      blit b (dstva + done) n (fun i => src (done + i)) = blit u.byte dstva (done + n) src := by
    rintro done n _ rfl - - -
    exact blit_blit u.byte dstva done n src
  obtain ⟨w, hspan, hbyte, hok⟩ := pageLoop_rule u dstva len
    (fun done va n b => blit b va n fun i => src (done + i))
    (P := fun done b => b = blit u.byte dstva done src) hmove (Nat.zero_add len).le (le_refl len)
    (blit_zero _ _ _).symm
  rw [Nat.zero_add] at hbyte
  exact ⟨w, hspan, Prod.ext (congrArg (fun b => { u with byte := b }) hbyte) hok⟩

/-- What `copyin` stores in the kernel's buffer. -/
theorem copyin_eq (u : UserMem) (dst : Buf) (at_ srcva len : ℕ) :
    ∃ w, u.Span srcva len w ∧ u.copyin dst at_ srcva len =
      (blit dst at_ w fun i => u.byte (srcva + i), decide (w = len)) := by
  have hmove : ∀ done n b, b = blit dst at_ done (fun i => u.byte (srcva + i)) →
      (∀ i, i < n → u.Has (srcva + done + i)) → (srcva + done) % PGSIZE + n ≤ PGSIZE →
      done + n ≤ len →
      blit b (at_ + done) n (fun i => u.byte (srcva + done + i)) =
        blit dst at_ (done + n) fun i => u.byte (srcva + i) := by
    rintro done n _ rfl - - -
    rw [← blit_blit dst at_ done n]
    simp only [Nat.add_assoc]
  obtain ⟨w, hspan, hbyte, hok⟩ := pageLoop_rule u srcva len
    (fun done va n b => blit b (at_ + done) n fun i => u.byte (va + i))
    (P := fun done b => b = blit dst at_ done fun i => u.byte (srcva + i)) hmove
    (Nat.zero_add len).le (le_refl len) (blit_zero _ _ _).symm
  rw [Nat.zero_add] at hbyte
  exact ⟨w, hspan, Prod.ext hbyte hok⟩

theorem exists_span (u : UserMem) (va len : ℕ) : ∃ w, u.Span va len w := by
  obtain ⟨w, hspan, -⟩ := u.copyout_eq va u.byte len
  exact ⟨w, hspan⟩

theorem copyout_of_span {dstva len w : ℕ} (h : u.Span dstva len w) (src : Buf) :
    u.copyout dstva src len =
      ({ u with byte := blit u.byte dstva w src }, decide (w = len)) := by
  obtain ⟨w', hspan, heq⟩ := u.copyout_eq dstva src len
  rw [heq, hspan.unique h]

theorem Span.congr {va len w : ℕ} (h : u.Span va len w) {b : Buf} :
    ({ u with byte := b } : UserMem).Span va len w := ⟨h.le, h.has, h.stop⟩

theorem Span.eq_len_iff {va len w : ℕ} (h : u.Span va len w) :
    w = len ↔ ∀ i, i < len → u.Has (va + i) := by
  constructor
  · rintro rfl
    exact h.has
  · intro hall
    by_contra hne
    exact h.stop (lt_of_le_of_ne h.le hne) (hall w (lt_of_le_of_ne h.le hne))

theorem Span.pos_iff {va len w : ℕ} (h : u.Span va len w) (hlen : 0 < len) : 0 < w ↔ u.Has va := by
  constructor
  · exact fun hw => h.has 0 hw
  · intro hhas
    by_contra hzero
    obtain rfl : w = 0 := by omega
    exact h.stop hlen hhas

end UserMem

end Xv6
