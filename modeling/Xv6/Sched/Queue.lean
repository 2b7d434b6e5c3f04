import Xv6.Param
import Xv6.Lib.Ring

/-!
# The run queues of the multi-level feedback scheduler

`queue.c`: a `struct Queue` is a ring of `NPROC + 1` process pointers with a count of its own
beside the two indices, and nothing but the callers' discipline keeps the three consistent.
`Queue.Holds` says that they are; the lemmas describe the operations on queues that are.
-/

namespace Xv6

open Lib

/-- A slot of the process table. -/
abbrev Slot := Fin NPROC

/-- `struct Queue`. The indices run over `0..NPROC`; `none` is a null pointer. -/
structure Queue extends Ring NPROC (Option Slot) where
  size : ℤ

/-- The panic a null pointer dereferenced by the kernel ends in. -/
def nullDeref : String := "kerneltrap"

namespace Queue

/-- The queue of a zeroed `struct Queue`. -/
def empty : Queue where
  head := 0
  tail := 0
  array := fun _ => none
  size := 0

def push (q : Queue) (element : Slot) : Except String Queue :=
  if q.size = NPROC then .error "Proccess limit exceeded"
  else .ok { toRing := q.toRing.push (some element), size := q.size + 1 }

def pop (q : Queue) : Except String Queue :=
  if q.size = 0 then .error "Poping from empty queue"
  else .ok { toRing := q.toRing.pop, size := q.size - 1 }

def front (q : Queue) : Option Slot := if q.head = q.tail then none else q.array q.head

/-- The test of the loop of `qerase`, which reads the `pid` behind an entry. -/
def isPid (pids : Slot → Int32) (pid : Int32) : Option Slot → Except String Bool
  | none => .error nullDeref
  | some p => .ok (pids p = pid)

/-- Carry the entries with the given pid to the tail and drop the last entry. -/
def qerase (q : Queue) (pids : Slot → Int32) (pid : Int32) : Except String Queue :=
  (siftM (isPid pids pid) q.tail (NPROC + 1) q.head q.array).map fun array =>
    { head := q.head, tail := q.tail - 1, array, size := q.size - 1 }

/-- The queue holds exactly the processes `xs`, in this order, and its count is right. -/
structure Holds (q : Queue) (xs : List Slot) : Prop where
  toList : q.toList = xs.map some
  size : q.size = xs.length

variable {q : Queue} {xs : List Slot}

theorem Holds.length (h : q.Holds xs) : q.length = xs.length := by
  rw [← Ring.length_toList, h.toList, List.length_map]

theorem Holds.length_le (h : q.Holds xs) : xs.length ≤ NPROC :=
  h.length ▸ gap_le _ _

theorem holds_empty : empty.Holds [] := ⟨rfl, rfl⟩

/-- A queue with room takes a process at its tail. -/
theorem Holds.push (h : q.Holds xs) (hlt : xs.length < NPROC)
    (p : Slot) : ∃ q', q.push p = .ok q' ∧ q'.Holds (xs ++ [p]) := by
  have hsize : q.size ≠ NPROC := by rw [h.size]; omega
  refine ⟨_, if_neg hsize, ?_, by simp [h.size]⟩
  rw [Ring.toList_push (by rw [h.length]; exact hlt), h.toList]
  simp

/-- A queue gives up its first process. -/
theorem Holds.pop {p : Slot} (h : q.Holds (p :: xs)) :
    q.front = some p ∧ ∃ q', q.pop = .ok q' ∧ q'.Holds xs := by
  have hne : q.head ≠ q.tail := fun heq => by
    have := Ring.toList_eq_nil.mpr heq
    rw [h.toList] at this
    simp at this
  have hlist := Ring.toList_pop hne
  rw [h.toList, List.map_cons, List.cons.injEq] at hlist
  have hsize : q.size ≠ 0 := by rw [h.size]; simp; omega
  refine ⟨by rw [front, if_neg hne, ← hlist.1], _, if_neg hsize, hlist.2.symm, ?_⟩
  simp [h.size]

/-- A process that a queue holds once, under a pid that no other process in it has, is erased
and nothing else is. -/
theorem Holds.qerase {ws xs : List Slot} {p : Slot} (h : q.Holds (ws ++ p :: xs))
    {pids : Slot → Int32} (hpid : ∀ r ∈ ws ++ xs, pids r ≠ pids p) :
    ∃ q', q.qerase pids (pids p) = .ok q' ∧ q'.Holds (ws ++ xs) := by
  have hlist : q.toList = ws.map some ++ some p :: xs.map some := by rw [h.toList]; simp
  have hmiss : ∀ rs : List Slot, (∀ r ∈ rs, pids r ≠ pids p) → ∀ z ∈ rs.map some,
      z.any (fun r => pids r = pids p) = false := by
    intro rs hrs z hz
    obtain ⟨r, hr, rfl⟩ := List.mem_map.mp hz
    simpa using hrs r hr
  have hread : ∀ z ∈ q.toList, isPid pids (pids p) z = .ok (z.any fun r => pids r = pids p) := by
    intro z hz
    rw [h.toList] at hz
    obtain ⟨r, -, rfl⟩ := List.mem_map.mp hz
    rfl
  obtain ⟨g, hg, hto⟩ := Ring.toList_siftM hlist hread (by simp)
    (hmiss ws fun r hr => hpid r (by simp [hr])) (hmiss xs fun r hr => hpid r (by simp [hr]))
  refine ⟨_, by rw [Queue.qerase, hg]; rfl, ?_, ?_⟩
  · rw [List.map_append]; exact hto
  · simp [h.size]; omega

end Queue

end Xv6
