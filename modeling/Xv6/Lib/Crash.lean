import Mathlib.Data.List.Basic

/-!
# Programs over a crash-prone block device

A device is a function `ι → β` from addresses to blocks. A program of `Dev` reads it, keeps a
volatile state `σ`, and issues block writes; its meaning is the result, the volatile state and
the writes in the order they are issued. A power failure between two writes leaves the device
with a prefix of them and the volatile state lost, so all crash states of a program are read
off its list of writes: `crash p s d k` is the device after the first `k` of them. `Recovers`
is a boot program run again and again until one run of it completes.
-/

namespace Xv6.Lib

open Function (update update_of_ne update_self)

universe u v w x
variable {ι : Type u} {β : Type v} {σ : Type w} {α γ : Type x}

section Store
variable [DecidableEq ι]

/-- Carry out a list of writes in order. -/
def store : List (ι × β) → (ι → β) → ι → β
  | [], d => d
  | w :: ws, d => store ws (update d w.1 w.2)

@[simp] theorem store_nil (d : ι → β) : store [] d = d := rfl

@[simp] theorem store_cons (w : ι × β) (ws : List (ι × β)) (d : ι → β) :
    store (w :: ws) d = store ws (update d w.1 w.2) := rfl

theorem store_append (ws vs : List (ι × β)) (d : ι → β) :
    store (ws ++ vs) d = store vs (store ws d) := by
  induction ws generalizing d with
  | nil => rfl
  | cons w ws ih => simpa using ih _

variable {ws : List (ι × β)}

/-- A block that is not written keeps its contents. -/
theorem store_of_notMem {i : ι} (h : i ∉ ws.map Prod.fst) (d : ι → β) : store ws d i = d i := by
  induction ws generalizing d with
  | nil => rfl
  | cons w ws ih =>
    simp only [List.map_cons, List.mem_cons, not_or] at h
    rw [store_cons, ih h.2, update_of_ne h.1]

/-- A written block does not depend on what the device held before. -/
theorem store_congr {d e : ι → β} {i : ι}
    (h : i ∈ ws.map Prod.fst ∨ d i = e i) : store ws d i = store ws e i := by
  induction ws generalizing d e with
  | nil => simpa using h
  | cons w ws ih =>
    simp only [store_cons]
    apply ih
    by_cases hi : i = w.1
    · right; subst hi; simp
    · rcases h with h | h
      · left; simpa [hi] using h
      · right; simp [update_of_ne hi, h]

/-- Among writes to distinct addresses each written block holds what was written to it. -/
theorem store_of_mem (hnd : (ws.map Prod.fst).Nodup) {i : ι} {b : β}
    (h : (i, b) ∈ ws) (d : ι → β) : store ws d i = b := by
  induction ws generalizing d with
  | nil => simp at h
  | cons w ws ih =>
    simp only [List.map_cons, List.nodup_cons] at hnd
    rcases List.mem_cons.mp h with rfl | h
    · rw [store_cons, store_of_notMem hnd.1, update_self]
    · exact ih hnd.2 h _

end Store

/-- A program over a device: its result, volatile state and writes, from a volatile state and
the device contents it starts with. -/
structure Dev (ι : Type u) (β : Type v) (σ : Type w) (α : Type x) where
  run : σ → (ι → β) → α × σ × List (ι × β)

namespace Dev

/-- The result of a program. -/
def val (p : Dev ι β σ α) (s : σ) (d : ι → β) : α := (p.run s d).1

/-- The volatile state a program ends in. -/
def state (p : Dev ι β σ α) (s : σ) (d : ι → β) : σ := (p.run s d).2.1

/-- The writes a program issues, in order. -/
def writes (p : Dev ι β σ α) (s : σ) (d : ι → β) : List (ι × β) := (p.run s d).2.2

/-- Read a block of the device. -/
def read (i : ι) : Dev ι β σ β := ⟨fun s d => (d i, s, [])⟩

/-- Write a block of the device. -/
def write (i : ι) (b : β) : Dev ι β σ PUnit := ⟨fun s _ => (⟨⟩, s, [(i, b)])⟩

/-- Read the volatile state through a function. -/
def gets (f : σ → α) : Dev ι β σ α := ⟨fun s _ => (f s, s, [])⟩

/-- Change the volatile state. -/
def modify (f : σ → σ) : Dev ι β σ PUnit := ⟨fun s _ => (⟨⟩, f s, [])⟩

section Primitives
variable (s : σ) (d : ι → β)

@[simp] theorem val_read (i : ι) : (read i : Dev ι β σ β).val s d = d i := rfl
@[simp] theorem state_read (i : ι) : (read i : Dev ι β σ β).state s d = s := rfl
@[simp] theorem writes_read (i : ι) : (read i : Dev ι β σ β).writes s d = [] := rfl

@[simp] theorem writes_write (i : ι) (b : β) :
    (write i b : Dev ι β σ PUnit).writes s d = [(i, b)] := rfl

@[simp] theorem val_gets (f : σ → α) : (gets f : Dev ι β σ α).val s d = f s := rfl
@[simp] theorem state_gets (f : σ → α) : (gets f : Dev ι β σ α).state s d = s := rfl
@[simp] theorem writes_gets (f : σ → α) : (gets f : Dev ι β σ α).writes s d = [] := rfl

@[simp] theorem state_modify (f : σ → σ) : (modify f : Dev ι β σ PUnit).state s d = f s := rfl
@[simp] theorem writes_modify (f : σ → σ) : (modify f : Dev ι β σ PUnit).writes s d = [] := rfl

end Primitives

variable [DecidableEq ι]

/-- The device after the program has completed. -/
def disk (p : Dev ι β σ α) (s : σ) (d : ι → β) : ι → β := store (p.writes s d) d

/-- The device after a power failure that lets the first `k` writes reach it. -/
def crash (p : Dev ι β σ α) (s : σ) (d : ι → β) (k : ℕ) : ι → β :=
  store ((p.writes s d).take k) d

/-- Completing is being cut off after the last write. -/
theorem disk_eq_crash (p : Dev ι β σ α) (s : σ) (d : ι → β) :
    p.disk s d = p.crash s d (p.writes s d).length := by
  rw [disk, crash, List.take_length]

/-- Return a value without touching anything. -/
protected def pure (a : α) : Dev ι β σ α := ⟨fun s _ => (a, s, [])⟩

/-- Run the continuation on the device the first program leaves. -/
protected def bind (p : Dev ι β σ α) (f : α → Dev ι β σ γ) : Dev ι β σ γ :=
  ⟨fun s d =>
    let q := (f (p.val s d)).run (p.state s d) (p.disk s d)
    (q.1, q.2.1, p.writes s d ++ q.2.2)⟩

instance : Monad (Dev ι β σ) where
  pure := Dev.pure
  bind := Dev.bind

section Sequencing
variable (s : σ) (d : ι → β)

@[simp] theorem val_pure (a : α) : (pure a : Dev ι β σ α).val s d = a := rfl
@[simp] theorem state_pure (a : α) : (pure a : Dev ι β σ α).state s d = s := rfl
@[simp] theorem writes_pure (a : α) : (pure a : Dev ι β σ α).writes s d = [] := rfl

@[simp] theorem val_bind (p : Dev ι β σ α) (f : α → Dev ι β σ γ) :
    (p >>= f).val s d = (f (p.val s d)).val (p.state s d) (p.disk s d) := rfl
@[simp] theorem state_bind (p : Dev ι β σ α) (f : α → Dev ι β σ γ) :
    (p >>= f).state s d = (f (p.val s d)).state (p.state s d) (p.disk s d) := rfl
@[simp] theorem writes_bind (p : Dev ι β σ α) (f : α → Dev ι β σ γ) :
    (p >>= f).writes s d =
      p.writes s d ++ (f (p.val s d)).writes (p.state s d) (p.disk s d) := rfl
@[simp] theorem disk_bind (p : Dev ι β σ α) (f : α → Dev ι β σ γ) :
    (p >>= f).disk s d = (f (p.val s d)).disk (p.state s d) (p.disk s d) := by
  simp [disk, store_append]

@[simp] theorem disk_read (i : ι) : (read i : Dev ι β σ β).disk s d = d := rfl
@[simp] theorem disk_write (i : ι) (b : β) :
    (write i b : Dev ι β σ PUnit).disk s d = update d i b := rfl
@[simp] theorem disk_gets (f : σ → α) : (gets f : Dev ι β σ α).disk s d = d := rfl

end Sequencing

/-- Boot from `d`: the boot program is cut off any number of times, each time losing the
volatile state, and then completes with the device holding `e`. -/
inductive Recovers (boot : Dev ι β σ α) (s : σ) : (ι → β) → (ι → β) → Prop
  | done (d : ι → β) : Recovers boot s d (boot.disk s d)
  | again {d e : ι → β} (k : ℕ) : Recovers boot s (boot.crash s d k) e → Recovers boot s d e

/-- **The rule for recovery.** An invariant that every crash of the boot program keeps, and
from which its completion gives `Q`, gives `Q` after any number of crashes. -/
theorem Recovers.rule {boot : Dev ι β σ α} {s : σ} {I Q : (ι → β) → Prop}
    (hcrash : ∀ d k, I d → I (boot.crash s d k)) (hdone : ∀ d, I d → Q (boot.disk s d))
    {d e : ι → β} (h : Recovers boot s d e) (hd : I d) : Q e := by
  induction h with
  | done d => exact hdone d hd
  | again k _ ih => exact ih (hcrash _ k hd)

end Dev
end Xv6.Lib
