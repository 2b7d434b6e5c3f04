import Xv6.Pipe.Fifo
import Xv6.Vm.Copy

/-!
# Bytes that a reader cannot store

`piperead` takes a byte out of the pipe before it knows whether `copyout` can store it. Where the
user's range has a hole that the read reaches, the byte at the hole is lost.
-/

namespace Xv6.Pipes

open Lib

variable {p : Pipe} {u : UserMem} {addr : ℕ} {n : ℤ}

/-- The loop in which `piperead` copies, with `i` bytes copied. Each turn takes a byte out of the
pipe. -/
def copyLoop (addr : ℕ) (n : ℤ) : ℕ → ℕ → Pipe → UserMem → ℕ × Pipe × UserMem
  | 0, i, p, u => (i, p, u)
  | turns + 1, i, p, u =>
    if i < n then
      if p.empty then (i, p, u)
      else
        let ch := p.first
        let (u, ok) := u.copyout (addr + i) (fun _ => ch) 1
        if ok then copyLoop addr n turns (i + 1) p.drop u else (i, p.drop, u)
    else (i, p, u)

/-- `piperead` by a process that has the lock. Where it sleeps, there is no result: it goes on in
the same way with the pipe as it is when the process has been woken. -/
def piperead (p : Pipe) (killed : Bool) (addr : ℕ) (n : ℤ) (u : UserMem) :
    Option (ℤ × Pipe × UserMem) :=
  if p.empty ∧ p.writeopen = true then
    if killed then some (-1, p, u) else none
  else
    let r := copyLoop addr n (p.count + 1) 0 p u
    some (r.1, r.2.1, r.2.2)

/-! ## The loop -/

/-- The unread bytes, as the source of a copy. -/
def Pipe.bytes (p : Pipe) : Buf := fun k => p.contents.getD k 0

theorem Pipe.bytes_drop (h : ¬ p.empty) (k : ℕ) : p.drop.bytes k = p.bytes (1 + k) := by
  rw [Pipe.bytes, Pipe.bytes, contents_drop h, Nat.add_comm, List.getD_cons_succ]

theorem Pipe.bytes_zero (h : ¬ p.empty) : p.bytes 0 = p.first := by
  rw [Pipe.bytes, contents_drop h, List.getD_cons_zero]

theorem Pipe.count_of_empty (h : p.empty) : p.count = 0 := by
  have hsub : p.nwrite - p.nread = 0 := by
    rw [h]
    exact UInt32.sub_self _
  rw [count, hsub]
  rfl

/-- Store the next byte of the pipe, and then those after it. -/
theorem blit_bytes (h : ¬ p.empty) (b : Buf) (a w : ℕ) :
    blit (blit b a 1 fun _ => p.first) (a + 1) w p.drop.bytes = blit b a (1 + w) p.bytes := by
  have hfirst : ∀ k, k < 1 → p.first = p.bytes k := by
    intro k hk
    obtain rfl : k = 0 := by omega
    exact (Pipe.bytes_zero h).symm
  rw [blit_congr hfirst, funext (Pipe.bytes_drop h), blit_blit]

/-- A copy of one byte. -/
theorem copyout_one (u : UserMem) (a : ℕ) (src : Buf) : u.copyout a src 1 =
    if u.Has a then ({ u with byte := blit u.byte a 1 src }, true) else (u, false) := by
  obtain ⟨w, hspan, heq⟩ := u.copyout_eq a src 1
  have hle := hspan.le
  have hpos := hspan.pos_iff Nat.one_pos
  rw [heq]
  split
  · next hhas =>
      obtain rfl : w = 1 := by have := hpos.mpr hhas; omega
      rfl
  · next hhas =>
      obtain rfl : w = 0 := by
        by_contra hw
        exact hhas (hpos.mp (by omega))
      rw [blit_zero]
      rfl

section Turn

variable {turns i : ℕ} (hin : i < n) (h : ¬ p.empty)
include hin h

theorem copyLoop_of_has (hhas : u.Has (addr + i)) : copyLoop addr n (turns + 1) i p u =
    copyLoop addr n turns (i + 1) p.drop
      { u with byte := blit u.byte (addr + i) 1 fun _ => p.first } := by
  rw [copyLoop, if_pos hin, if_neg h]
  simp only [copyout_one, if_pos hhas, if_true]

theorem copyLoop_of_not_has (hhas : ¬ u.Has (addr + i)) :
    copyLoop addr n (turns + 1) i p u = (i, p.drop, u) := by
  rw [copyLoop, if_pos hin, if_neg h]
  simp only [copyout_one, if_neg hhas, Bool.false_eq_true, if_false]

end Turn

theorem copyLoop_of_done {turns i : ℕ} (h : n ≤ i ∨ p.empty) :
    copyLoop addr n turns i p u = (i, p, u) := by
  cases turns with
  | zero => rfl
  | succ turns =>
    rw [copyLoop]
    rcases h with h | h
    · rw [if_neg (by omega)]
    · rw [if_pos h, ite_self]

/-- What a read of `m` bytes, `w` of which can be stored, leaves. -/
structure Took (p : Pipe) (u : UserMem) (addr m w : ℕ) (p' : Pipe) (u' : UserMem) : Prop where
  pipe : p'.contents = p.contents.drop (if w = m then w else w + 1)
  mem : u' = { u with byte := blit u.byte addr w p.bytes }

/-- **The loop of `piperead`.** It ends before the first byte that is not mapped, but has taken that
byte too. -/
theorem copyLoop_spec {turns i m w : ℕ} (hturns : p.count < turns)
    (hm : m = min (n - i).toNat p.count) (hspan : u.Span (addr + i) m w) :
    (copyLoop addr n turns i p u).1 = i + w ∧
    Took p u (addr + i) m w (copyLoop addr n turns i p u).2.1
      (copyLoop addr n turns i p u).2.2 := by
  induction turns generalizing i m p u w with
  | zero => omega
  | succ turns ih =>
    have hle := hspan.le
    by_cases hdone : n ≤ i ∨ p.empty
    · have hzero : m = 0 := by
        rcases hdone with hdone | hempty
        · omega
        · have := Pipe.count_of_empty hempty
          omega
      obtain rfl : w = 0 := by omega
      rw [copyLoop_of_done hdone]
      refine ⟨rfl, ?_, by rw [blit_zero]⟩
      rw [if_pos hzero.symm, List.drop_zero]
    simp only [not_or, not_le] at hdone
    obtain ⟨hin, hempty⟩ := hdone
    have hcount := Pipe.count_drop hempty
    obtain ⟨m, rfl⟩ : ∃ m', m = 1 + m' := ⟨m - 1, by omega⟩
    by_cases hhas : u.Has (addr + i)
    · have hw : 0 < w := (hspan.pos_iff (by omega)).mpr hhas
      obtain ⟨w, rfl⟩ : ∃ w', w = 1 + w' := ⟨w - 1, by omega⟩
      have hrest : u.Span (addr + (i + 1)) m w := by
        refine ⟨by omega, fun k hk => ?_, fun hlt => ?_⟩
        · have := hspan.has (1 + k) (by omega)
          rwa [show addr + (i + 1) + k = addr + i + (1 + k) by omega]
        · have := hspan.stop (by omega)
          rwa [show addr + (i + 1) + w = addr + i + (1 + w) by omega]
      obtain ⟨hr, htook⟩ := ih (p := p.drop) (by omega) (by omega)
        (hrest.congr (b := blit u.byte (addr + i) 1 fun _ => p.first))
      rw [copyLoop_of_has hin hempty hhas]
      refine ⟨by rw [hr]; omega, ?_, ?_⟩
      · rw [htook.pipe, Pipe.contents_drop hempty]
        simp only [Nat.add_left_cancel_iff]
        split
        · rw [Nat.add_comm, List.drop_succ_cons]
        · rw [Nat.add_comm 1 w, List.drop_succ_cons]
      · rw [htook.mem]
        simp only [← Nat.add_assoc, blit_bytes hempty]
    · obtain rfl : w = 0 := by
        by_contra hw
        exact hhas ((hspan.pos_iff (by omega)).mp (by omega))
      rw [copyLoop_of_not_has hin hempty hhas]
      refine ⟨rfl, ?_, by rw [blit_zero]⟩
      rw [if_neg (by omega), Pipe.contents_drop hempty]
      rfl

/-! ## The loop in the system of the pipe -/

section Run

variable {P : Type*} [DecidableEq P] {s : PipeSys P} {pr : P}

theorem PipeSys.step_reading {i : ℕ} (hst : s.stage pr = .reading i n) (c : Option UInt8) :
    s.step (.run pr c) = some (s.pipereadCopy pr i n c.isSome) := by
  rw [PipeSys.step, PipeSys.run, hst]

/-- The loop is a run of the process: `copyout` succeeds where the address is mapped. -/
theorem exec_copyLoop (u : UserMem) (addr : ℕ) {turns i : ℕ} (hst : s.stage pr = .reading i n)
    (hturns : s.pipe.count < turns) : ∃ (cs : List (Option UInt8)) (t : PipeSys P),
      exec PipeSys.step s (cs.map (PipeAct.run pr)) = some t ∧
      t.stage pr = .finished (copyLoop addr n turns i s.pipe u).1 ∧
      t.pipe = (copyLoop addr n turns i s.pipe u).2.1 := by
  induction turns generalizing i s u with
  | zero => omega
  | succ turns ih =>
    by_cases hdone : n ≤ i ∨ s.pipe.empty
    · rw [copyLoop_of_done hdone]
      refine ⟨[none], s.goto pr (.finished i), ?_, PipeSys.goto_stage_self .., rfl⟩
      simp only [List.map_cons, List.map_nil, exec_cons, PipeSys.step_reading hst,
        PipeSys.pipereadCopy]
      rcases hdone with hdone | hempty
      · rw [if_neg (by omega)]
        rfl
      · rw [if_pos hempty, ite_self]
        rfl
    simp only [not_or, not_le] at hdone
    obtain ⟨hin, hempty⟩ := hdone
    have hcount := Pipe.count_drop hempty
    by_cases hhas : u.Has (addr + i)
    · rw [copyLoop_of_has hin hempty hhas]
      obtain ⟨cs, t, hexec, hend⟩ := ih (s := s.take.goto pr (.reading (i + 1 : ℕ) n))
        _ (PipeSys.goto_stage_self ..) (by change s.pipe.drop.count < turns; omega)
      refine ⟨some 0 :: cs, t, ?_, hend⟩
      rw [List.map_cons, exec_cons, PipeSys.step_reading hst, PipeSys.pipereadCopy, if_pos hin,
        if_neg hempty]
      exact hexec
    · rw [copyLoop_of_not_has hin hempty hhas]
      refine ⟨[none], s.take.goto pr (.finished i), ?_, PipeSys.goto_stage_self .., rfl⟩
      simp only [List.map_cons, List.map_nil, exec_cons, PipeSys.step_reading hst,
        PipeSys.pipereadCopy, if_pos hin, if_neg hempty]
      rfl

/-- **`piperead` is a run of the process in the system of the pipe.** -/
theorem exec_piperead {r : ℤ × Pipe × UserMem} (hst : s.stage pr = .waiting n)
    (hr : piperead s.pipe (s.killed pr) addr n u = some r) :
    ∃ (cs : List (Option UInt8)) (t : PipeSys P),
      exec PipeSys.step s (cs.map (PipeAct.run pr)) = some t ∧ t.stage pr = .out r.1 ∧
      t.pipe = r.2.1 := by
  have hstep : ∀ c, s.step (.run pr c) = some (s.pipereadWait pr n) := fun c => by
    rw [PipeSys.step, PipeSys.run, hst]
  rw [piperead] at hr
  split at hr
  · next hwait =>
      obtain ⟨hkilled, rfl⟩ := Lib.of_guard hr
      refine ⟨[none], s.release.goto pr (.out (-1)), ?_, PipeSys.goto_stage_self .., rfl⟩
      simp only [List.map_cons, List.map_nil, exec_cons, hstep, PipeSys.pipereadWait,
        if_pos hwait, if_pos hkilled]
      rfl
  · next hwait =>
      cases hr
      obtain ⟨cs, t, hexec, hstage, hpipe⟩ := exec_copyLoop u addr (i := 0)
        (PipeSys.goto_stage_self s pr (.reading 0 n)) (Nat.lt_succ_self s.pipe.count)
      refine ⟨none :: cs ++ [none], (t.wakeup pr .nwrite).release.goto pr (.out _), ?_,
        PipeSys.goto_stage_self .., hpipe⟩
      rw [List.map_append, List.map_cons, List.cons_append, exec_cons, hstep, PipeSys.pipereadWait,
        if_neg hwait]
      refine exec_concat.mpr ⟨t, hexec, ?_⟩
      rw [PipeSys.step, PipeSys.run, hstage]
      rfl

end Run

/-! ## Lost bytes -/

/-- The `r` oldest bytes have been taken out of the pipe and stored, and nothing else; a call with
the result `-1` has done nothing. -/
def Kept (p : Pipe) (u : UserMem) (addr : ℕ) : ℤ × Pipe × UserMem → Prop
  | (r, p', u') =>
    if r = -1 then p' = p ∧ u' = u
    else 0 ≤ r ∧ r ≤ p.count ∧ p'.contents = p.contents.drop r.toNat ∧
      u' = { u with byte := blit u.byte addr r.toNat p.bytes }

/-- The process waits, or every byte that it gets can be stored. -/
def Storable (p : Pipe) (u : UserMem) (addr : ℕ) (n : ℤ) : Prop :=
  (p.empty ∧ p.writeopen = true) ∨ ∀ i, i < min n.toNat p.count → u.Has (addr + i)

/-- **Lost bytes.** A read that ends has taken what it has stored, and no more, if and only if it
can store all that it gets. -/
theorem kept_iff (p : Pipe) (killed : Bool) (addr : ℕ) (n : ℤ) (u : UserMem) :
    (∀ r ∈ piperead p killed addr n u, Kept p u addr r) ↔ Storable p u addr n := by
  unfold piperead Storable
  split
  · next hwait =>
      refine iff_of_true (fun r hr => ?_) (.inl hwait)
      obtain ⟨-, hr⟩ := Option.ite_none_right_eq_some.mp hr
      obtain rfl : (-1, p, u) = r := by simpa using hr
      exact ⟨rfl, rfl⟩
  · next hwait =>
      obtain ⟨w, hspan⟩ := u.exists_span addr (min n.toNat p.count)
      obtain ⟨hr, hpipe, hmem⟩ := copyLoop_spec (n := n) (i := 0) (Nat.lt_succ_self p.count)
        (by simp) hspan
      have hle := hspan.le
      simp only [hwait, false_or, Option.mem_some_iff, forall_eq', ← hspan.eq_len_iff, Kept, hr,
        hpipe, hmem, Nat.zero_add, Int.toNat_natCast, Nat.add_zero]
      rw [if_neg (by omega)]
      constructor
      · rintro ⟨-, -, hdrop, -⟩
        by_contra hne
        rw [if_neg hne] at hdrop
        have hlen := congrArg List.length hdrop
        rw [List.length_drop, List.length_drop, Pipe.length_contents] at hlen
        omega
      · intro heq
        refine ⟨by omega, by omega, ?_, trivial⟩
        rw [if_pos heq]

/-- A pipe with one byte. -/
def onePending : Pipe := (Pipe.alloc fun _ => 0).put 65

/-- A process without memory. -/
def unmapped : UserMem := ⟨fun _ => false, fun _ => 0⟩

/-- A byte is lost: the read reports that it got none, and the pipe is empty. -/
theorem lost_byte : onePending.contents = [65] ∧ ∃ p' u',
    piperead onePending false 0 1 unmapped = some (0, p', u') ∧ p'.contents = [] ∧
    ¬ Kept onePending unmapped 0 (0, p', u') := by
  refine ⟨by decide, _, _, rfl, by decide, ?_⟩
  rintro ⟨-, -, hdrop, -⟩
  exact absurd hdrop (by decide)

end Xv6.Pipes
