import Xv6.Lib.Fuel
import Xv6.Lib.Loop
import Xv6.Sched.Queue

/-!
# The code of the run queues

`queue.c` with its indices as the integers they are, and the tests that bring an index back into
the array. `RawQueue` does what `Queue` does (`push_ofQueue`, `pop_ofQueue`, `qerase_ofQueue`), and
with that it is a list, in every sequence of operations that keeps to the rules of the callers.
-/

namespace Xv6

open Lib
open Function (update update_of_ne update_self)

/-- `struct Queue`. The array is a function of the index; the entries outside its bounds are not
part of it. -/
structure RawQueue where
  head : ℤ
  tail : ℤ
  array : ℤ → Option Slot
  size : ℤ

/-- A call of an operation of `queue.c`. `qerase` reads the pids of the processes. -/
inductive QueueOp
  | push (element : Slot)
  | pop
  | front
  | qerase (pids : Slot → Int32) (pid : Int32)

namespace RawQueue

variable {q : RawQueue}

/-- The zeroed `struct Queue`. -/
def zeroed : RawQueue := ⟨0, 0, fun _ => none, 0⟩

def push (q : RawQueue) (element : Slot) : Fuel String RawQueue :=
  if q.size = NPROC then .fail "Proccess limit exceeded"
  else
    let array := update q.array q.tail (some element)
    let tail := q.tail + 1
    let tail := if tail = NPROC + 1 then 0 else tail
    .done ⟨q.head, tail, array, q.size + 1⟩

def pop (q : RawQueue) : Fuel String RawQueue :=
  if q.size = 0 then .fail "Poping from empty queue"
  else
    let head := q.head + 1
    let head := if head = NPROC + 1 then 0 else head
    .done ⟨head, q.tail, q.array, q.size - 1⟩

def front (q : RawQueue) : Option Slot := if q.head = q.tail then none else q.array q.head

/-- At most `t` turns of the loop of `qerase`. -/
def qeraseLoop (pids : Slot → Int32) (pid : Int32) (tail : ℤ) :
    ℕ → ℤ → (ℤ → Option Slot) → Fuel String (ℤ → Option Slot)
  | 0, _, _ => .spin
  | t + 1, curr, array =>
    if curr = tail then .done array
    else match array curr with
      | none => .fail nullDeref
      | some p =>
        let next := (curr + 1).tmod (NPROC + 1)
        qeraseLoop pids pid tail t next
          (if pids p = pid then
            update (update array curr (array next)) next (array curr)
          else array)

def qerase (q : RawQueue) (pids : Slot → Int32) (pid : Int32) : Fuel String RawQueue := do
  let array ← qeraseLoop pids pid q.tail (NPROC + 1) q.head q.array
  let tail := q.tail - 1
  let tail := if tail < 0 then (NPROC : ℤ) else tail
  .done ⟨q.head, tail, array, q.size - 1⟩

/-- The entries of `m` cells from the index `i` on. -/
def cells (array : ℤ → Option Slot) : ℕ → ℤ → List (Option Slot)
  | 0, _ => []
  | m + 1, i => array i :: cells array m ((i + 1) % (NPROC + 1))

/-- The entries from `head` to `tail`. -/
def entries (q : RawQueue) : List (Option Slot) :=
  cells q.array ((q.tail - q.head) % (NPROC + 1)).toNat q.head

/-- The queue is the list `xs`. -/
structure IsList (q : RawQueue) (xs : List Slot) : Prop where
  entries : q.entries = xs.map some
  size : q.size = xs.length
  head : 0 ≤ q.head ∧ q.head ≤ NPROC
  tail : 0 ≤ q.tail ∧ q.tail ≤ NPROC

/-! ## The indices as positions of a ring -/

/-- The array of a ring, indexed by integers. -/
def spread (f : Fin (NPROC + 1) → Option Slot) : ℤ → Option Slot := fun i =>
  if 0 ≤ i ∧ i ≤ NPROC then f (Fin.ofNat _ i.toNat) else none

/-- The code's view of a queue. -/
def ofQueue (q : Queue) : RawQueue := ⟨q.head, q.tail, spread q.array, q.size⟩

theorem coe_NPROC : ((NPROC : ℕ) : ℤ) = 64 := rfl

theorem spread_coe (f : Fin (NPROC + 1) → Option Slot) (i : Fin (NPROC + 1)) :
    spread f i = f i := by
  have hlt : (i : ℕ) < 65 := i.isLt
  rw [spread, if_pos (by rw [coe_NPROC]; omega), Int.toNat_natCast, Fin.ofNat_val_eq_self]

theorem update_spread (f : Fin (NPROC + 1) → Option Slot) (i : Fin (NPROC + 1)) (x : Option Slot) :
    update (spread f) i x = spread (update f i x) := by
  funext j
  by_cases hj : j = i
  · rw [hj, update_self, spread_coe, update_self]
  · rw [update_of_ne hj, spread, spread]
    split
    · next hrange =>
        rw [update_of_ne]
        rintro rfl
        apply hj
        have hval : ((Fin.ofNat (NPROC + 1) j.toNat : Fin (NPROC + 1)) : ℕ) = j.toNat % 65 := rfl
        rw [coe_NPROC] at hrange
        rw [hval]
        omega
    · rfl

theorem coe_add_one (i : Fin (NPROC + 1)) :
    ((i + 1 : Fin (NPROC + 1)) : ℤ) = if (i : ℤ) + 1 = NPROC + 1 then 0 else (i : ℤ) + 1 := by
  have hlt : (i : ℕ) < 65 := i.isLt
  have hval : ((i + 1 : Fin (NPROC + 1)) : ℕ) = ((i : ℕ) + 1) % 65 := Fin.val_add i 1
  rw [hval, coe_NPROC]
  split <;> omega

theorem coe_sub_one (i : Fin (NPROC + 1)) :
    ((i - 1 : Fin (NPROC + 1)) : ℤ) = if (i : ℤ) - 1 < 0 then (NPROC : ℤ) else (i : ℤ) - 1 := by
  have hlt : (i : ℕ) < 65 := i.isLt
  have hval : ((i - 1 : Fin (NPROC + 1)) : ℕ) = (65 - 1 + (i : ℕ)) % 65 := Fin.val_sub i 1
  rw [hval, coe_NPROC]
  split <;> omega

theorem coe_next (i : Fin (NPROC + 1)) :
    ((i : ℤ) + 1).tmod (NPROC + 1) = ((i + 1 : Fin (NPROC + 1)) : ℤ) := by
  have hlt : (i : ℕ) < 65 := i.isLt
  have hval : ((i + 1 : Fin (NPROC + 1)) : ℕ) = ((i : ℕ) + 1) % 65 := Fin.val_add i 1
  rw [Int.tmod_eq_emod_of_nonneg (by omega), hval, coe_NPROC]
  omega

/-! ## The operations -/

theorem push_ofQueue {q q' : Queue} {element : Slot} (h : q.push element = .ok q') :
    (ofQueue q).push element = .done (ofQueue q') := by
  unfold Queue.push at h
  split at h
  · cases h
  · next hsize =>
      cases h
      rw [push, if_neg (show (ofQueue q).size ≠ NPROC from hsize)]
      simp only [ofQueue, Ring.push, update_spread, coe_add_one]
      rfl

theorem pop_ofQueue {q q' : Queue} (h : q.pop = .ok q') : (ofQueue q).pop = .done (ofQueue q') := by
  unfold Queue.pop at h
  split at h
  · cases h
  · next hsize =>
      cases h
      rw [pop, if_neg (show (ofQueue q).size ≠ 0 from hsize)]
      simp only [ofQueue, Ring.pop, coe_add_one]
      rfl

theorem front_ofQueue (q : Queue) : (ofQueue q).front = q.front := by
  have hiff : ((q.head : ℕ) : ℤ) = q.tail ↔ q.head = q.tail := by
    rw [Nat.cast_inj, Fin.ext_iff]
  simp only [front, ofQueue, Queue.front, hiff, spread_coe]

/-- The loop comes to `tail`, for the indices go round. -/
theorem qeraseLoop_spread {pids : Slot → Int32} {pid : Int32} {tail : Fin (NPROC + 1)} {t : ℕ}
    {i : Fin (NPROC + 1)} {f g : Fin (NPROC + 1) → Option Slot} (ht : gap i tail < t)
    (h : siftM (Queue.isPid pids pid) tail t i f = .ok g) :
    qeraseLoop pids pid tail t i (spread f) = .done (spread g) := by
  induction t generalizing i f with
  | zero => omega
  | succ t ih =>
    have hiff : ((i : ℕ) : ℤ) = tail ↔ i = tail := by rw [Nat.cast_inj, Fin.ext_iff]
    rw [siftM] at h
    rw [qeraseLoop]
    split at h
    · next hi =>
        cases h
        rw [if_pos (hiff.mpr hi)]
    · next hi =>
        have hgap := gap_add_one_left hi
        rw [if_neg (hiff.not.mpr hi), spread_coe]
        cases hf : f i with
        | none =>
          rw [hf] at h
          cases h
        | some p =>
          rw [hf] at h
          simp only [Queue.isPid, bind, Except.bind, decide_eq_true_eq] at h
          simp only [coe_next, spread_coe]
          split at h
          · next hpid =>
              rw [if_pos hpid, update_spread, update_spread, ← hf]
              exact ih (by omega) h
          · next hpid =>
              rw [if_neg hpid]
              exact ih (by omega) h

theorem qerase_ofQueue {q q' : Queue} {pids : Slot → Int32} {pid : Int32}
    (h : q.qerase pids pid = .ok q') : (ofQueue q).qerase pids pid = .done (ofQueue q') := by
  obtain ⟨g, hg, rfl⟩ := map_eq_ok.mp h
  have hgap : gap q.head q.tail < NPROC + 1 := Nat.lt_succ_of_le (gap_le _ _)
  have hloop := qeraseLoop_spread hgap hg
  rw [qerase]
  change (qeraseLoop pids pid q.tail (NPROC + 1) q.head (spread q.array) >>= _) = _
  rw [hloop, Fuel.done_bind]
  simp only [ofQueue, coe_sub_one]
  rfl

theorem cells_spread (f : Fin (NPROC + 1) → Option Slot) (m : ℕ) (i : Fin (NPROC + 1)) :
    cells (spread f) m i = window f i m := by
  induction m generalizing i with
  | zero => rfl
  | succ m ih =>
    have hnext : ((i : ℤ) + 1) % (NPROC + 1) = ((i + 1 : Fin (NPROC + 1)) : ℤ) := by
      rw [← coe_next, Int.tmod_eq_emod_of_nonneg (by omega)]
    rw [cells, window, spread_coe, hnext, ih]

theorem entries_ofQueue (q : Queue) : (ofQueue q).entries = q.toList := by
  have hgap : (((q.tail : ℤ) - q.head) % (NPROC + 1)).toNat = gap q.head q.tail := by
    have hhead : (q.head : ℕ) < 65 := q.head.isLt
    have hval : ((q.tail - q.head : Fin (NPROC + 1)) : ℕ) = (65 - (q.head : ℕ) + q.tail) % 65 :=
      Fin.val_sub q.tail q.head
    rw [gap, hval, coe_NPROC]
    omega
  rw [entries, Ring.toList, Ring.length, ← hgap]
  exact cells_spread q.array _ q.head

/-- The code's view of a queue that holds a list is that list. -/
theorem isList_ofQueue {q : Queue} {xs : List Slot} (h : q.Holds xs) : (ofQueue q).IsList xs where
  entries := (entries_ofQueue q).trans h.toList
  size := h.size
  head := ⟨Int.natCast_nonneg _, Int.ofNat_le.mpr (Nat.le_of_lt_succ q.head.isLt)⟩
  tail := ⟨Int.natCast_nonneg _, Int.ofNat_le.mpr (Nat.le_of_lt_succ q.tail.isLt)⟩

/-! ## Sequences of operations -/

/-- The rules for a call: `push` needs room and `pop` an entry, and `qerase` is called for a pid
that exactly one entry has. -/
def Allows (q : RawQueue) : QueueOp → Prop
  | .push _ => q.size < NPROC
  | .pop => q.size > 0
  | .front => True
  | .qerase pids pid => q.entries.countP (fun z => z.any fun p => pids p = pid) = 1

instance (q : RawQueue) : DecidablePred q.Allows
  | .push _ => inferInstanceAs (Decidable (q.size < NPROC))
  | .pop => inferInstanceAs (Decidable (q.size > 0))
  | .front => inferInstanceAs (Decidable True)
  | .qerase pids pid => inferInstanceAs
      (Decidable (q.entries.countP (fun z => z.any fun p => pids p = pid) = 1))

/-- A call, and the pointers it returns. -/
def call (q : RawQueue) : QueueOp → Fuel String (RawQueue × List (Option Slot))
  | .push element => do
      let q ← q.push element
      .done (q, [])
  | .pop => do
      let q ← q.pop
      .done (q, [])
  | .front => .done (q, [q.front])
  | .qerase pids pid => do
      let q ← q.qerase pids pid
      .done (q, [])

/-- A sequence of calls. -/
def run (q : RawQueue) : List QueueOp → Fuel String (RawQueue × List (Option Slot))
  | [] => .done (q, [])
  | op :: ops => do
      let (q, out) ← q.call op
      let (q, outs) ← q.run ops
      .done (q, out ++ outs)

/-- Every call of the sequence keeps to the rules. -/
def AllowsAll (q : RawQueue) : List QueueOp → Prop
  | [] => True
  | op :: ops => q.Allows op ∧ match q.call op with
      | .done (q, _) => q.AllowsAll ops
      | _ => True

instance decidableAllowsAll (q : RawQueue) : ∀ ops, Decidable (q.AllowsAll ops)
  | [] => inferInstanceAs (Decidable True)
  | op :: ops =>
    have : Decidable (match q.call op with
        | .done (q, _) => q.AllowsAll ops
        | _ => True) :=
      match q.call op with
      | .done (q, _) => decidableAllowsAll q ops
      | .fail _ => inferInstanceAs (Decidable True)
      | .spin => inferInstanceAs (Decidable True)
    inferInstanceAs (Decidable (_ ∧ _))

end RawQueue

namespace QueueOp

/-- A call on a list. -/
def apply (xs : List Slot) : QueueOp → List Slot
  | .push element => xs ++ [element]
  | .pop => xs.tail
  | .front => xs
  | .qerase pids pid => xs.filter fun p => pids p ≠ pid

/-- What the call returns for a list: `front` its first entry, or a null pointer if it is empty. -/
def returns (xs : List Slot) : QueueOp → List (Option Slot)
  | .front => [xs.head?]
  | _ => []

/-- What a sequence of calls returns for a list. -/
def returnsAll (xs : List Slot) : List QueueOp → List (Option Slot)
  | [] => []
  | op :: ops => op.returns xs ++ returnsAll (op.apply xs) ops

end QueueOp

namespace RawQueue

theorem front_ofQueue_of_holds {q : Queue} {xs : List Slot} (h : q.Holds xs) :
    (ofQueue q).front = xs.head? := by
  rw [front_ofQueue]
  cases xs with
  | nil =>
    rw [Queue.front, if_pos (Ring.toList_eq_nil.mp h.toList)]
    rfl
  | cons p xs => exact h.pop.1

/-- The one entry with the pid, and what is before and behind it. -/
theorem exists_split {pids : Slot → Int32} {pid : Int32} {xs : List Slot}
    (h : xs.countP (fun p => pids p = pid) = 1) : ∃ ws p ys, xs = ws ++ p :: ys ∧ pids p = pid ∧
      ∀ r ∈ ws ++ ys, pids r ≠ pid := by
  obtain ⟨p, hp, hpid⟩ := List.countP_pos_iff.mp (by rw [h]; exact Nat.one_pos)
  obtain ⟨ws, ys, rfl⟩ := List.append_of_mem hp
  refine ⟨ws, p, ys, rfl, by simpa using hpid, fun r hr heq => ?_⟩
  have hrest : (ws ++ ys).countP (fun p => pids p = pid) = 0 := by
    rw [List.countP_append, List.countP_cons, hpid] at h
    rw [List.countP_append]
    simp only [if_true] at h
    omega
  exact List.countP_eq_zero.mp hrest r hr (by simpa using heq)

/-- One call. -/
theorem call_ofQueue {q : Queue} {xs : List Slot} (h : q.Holds xs) {op : QueueOp}
    (hop : (ofQueue q).Allows op) :
    ∃ q' : Queue, (ofQueue q).call op = .done (ofQueue q', op.returns xs) ∧
      q'.Holds (op.apply xs) := by
  have hlist := isList_ofQueue h
  cases op with
  | push element =>
    have hlt : xs.length < NPROC := by
      have hsize : (ofQueue q).size < NPROC := hop
      rw [hlist.size] at hsize
      omega
    obtain ⟨q', hpush, hholds⟩ := h.push hlt element
    exact ⟨q', by rw [call, push_ofQueue hpush]; rfl, hholds⟩
  | pop =>
    cases xs with
    | nil =>
      have hsize : (ofQueue q).size > 0 := hop
      rw [hlist.size] at hsize
      exact absurd hsize (by simp)
    | cons p xs =>
      obtain ⟨-, q', hpop, hholds⟩ := h.pop
      exact ⟨q', by rw [call, pop_ofQueue hpop]; rfl, hholds⟩
  | front =>
    refine ⟨q, ?_, h⟩
    rw [call, front_ofQueue_of_holds h]
    rfl
  | qerase pids pid =>
    have hone : xs.countP (fun p => pids p = pid) = 1 := by
      have hcount : (ofQueue q).entries.countP (fun z => z.any fun p => pids p = pid) = 1 := hop
      rw [hlist.entries, List.countP_map] at hcount
      exact hcount
    obtain ⟨ws, p, ys, rfl, rfl, hne⟩ := exists_split hone
    obtain ⟨q', herase, hholds⟩ := h.qerase hne
    refine ⟨q', by rw [call, qerase_ofQueue herase]; rfl, ?_⟩
    have hfilter : (ws ++ p :: ys).filter (fun r => pids r ≠ pids p) = ws ++ ys := by
      rw [← List.filter_eq_self.mpr fun r hr => decide_eq_true (hne r hr)]
      simp
    rw [QueueOp.apply, hfilter]
    exact hholds

theorem run_ofQueue {q : Queue} {xs : List Slot} (h : q.Holds xs) {ops : List QueueOp}
    (hops : (ofQueue q).AllowsAll ops) :
    ∃ q' : Queue, (ofQueue q).run ops = .done (ofQueue q', QueueOp.returnsAll xs ops) ∧
      q'.Holds (ops.foldl QueueOp.apply xs) := by
  induction ops generalizing q xs with
  | nil => exact ⟨q, rfl, h⟩
  | cons op ops ih =>
    obtain ⟨q₁, hcall, hholds⟩ := call_ofQueue h hops.1
    have hrest := hops.2
    rw [hcall] at hrest
    obtain ⟨q₂, hrun, hholds₂⟩ := ih hholds hrest
    exact ⟨q₂, by rw [run, hcall, Fuel.done_bind]; simp only [hrun]; rfl, hholds₂⟩

theorem ofQueue_empty : ofQueue Queue.empty = zeroed := by
  have harray : spread (fun _ => none) = fun _ => none := by
    funext i
    rw [spread, ite_self]
  rw [ofQueue]
  exact congrArg (fun f => RawQueue.mk 0 0 f 0) harray

/-- **A queue is a list.** In every sequence of calls from the zeroed queue that keeps to the
rules, each call succeeds and returns what it returns for the list, and the entries from `head` to
`tail` are the list that the calls make of the empty one. -/
theorem run_isList {ops : List QueueOp} (hops : zeroed.AllowsAll ops) :
    ∃ q, zeroed.run ops = .done (q, QueueOp.returnsAll [] ops) ∧
      q.IsList (ops.foldl QueueOp.apply []) := by
  rw [← ofQueue_empty] at hops ⊢
  obtain ⟨q, hrun, hholds⟩ := run_ofQueue Queue.holds_empty hops
  exact ⟨ofQueue q, hrun, isList_ofQueue hholds⟩

/-- The first of two processes is erased. -/
def eraseOps : List QueueOp := [.push 3, .push 5, .qerase (fun p => .ofNat p) 3, .front]

theorem run_isList_erase : zeroed.AllowsAll eraseOps ∧
    ∃ q, zeroed.run eraseOps = .done (q, [some 5]) ∧ q.IsList [5] :=
  have hops : zeroed.AllowsAll eraseOps := by decide
  ⟨hops, run_isList hops⟩

end RawQueue

end Xv6
