import Mathlib.Data.List.Chain
import Mathlib.Data.List.Nodup

/-!
# Doubly linked rings

The links of a ring of elements with a head, which is `none`. `Lists` ties the links to the list
of the elements; inserting after the head and taking an element out act on that list, and walking
along the links searches it, in either direction.
-/

namespace Xv6.Lib

open Function (update update_of_ne update_self)

structure Links (α : Type*) where
  next : Option α → Option α
  prev : Option α → Option α

namespace Links

variable {α : Type*} {k : Links α} {l m : List α} {i : α} {a b : Option α}

/-- Each of the two is the neighbour of the other. -/
def Linked (k : Links α) (a b : Option α) : Prop := k.next a = b ∧ k.prev b = a

/-- From the head, `next` leads through the list and back, and `prev` the other way. -/
def Lists (k : Links α) (l : List α) : Prop :=
  l.Nodup ∧ List.IsChain k.Linked (none :: (l.map some ++ [none]))

/-- The ring seen from the other side. -/
def flip (k : Links α) : Links α := ⟨k.prev, k.next⟩

/-- Search from `a` on, in at most `n` steps. -/
def walk (step : Option α → Option α) (test : α → Bool) : ℕ → Option α → Option α
  | n + 1, some i => if test i then some i else walk step test n (step (some i))
  | _, _ => none

/-- What follows the head, the head at its end. -/
theorem Lists.nodup (h : k.Lists l) : (l.map some ++ [none]).Nodup := by
  simp [List.nodup_append, h.1.map fun _ _ => Option.some.inj]

theorem Lists.flip (h : k.Lists l) : k.flip.Lists l.reverse := by
  refine ⟨List.nodup_reverse.mpr h.1, ?_⟩
  have hrev : List.IsChain k.flip.Linked (none :: (l.map some ++ [none])).reverse :=
    List.isChain_reverse.mpr (h.2.imp fun _ _ hab => hab.symm)
  simpa using hrev

theorem walk_of_chain (test : α → Bool) {n : ℕ} (hn : l.length < n)
    (h : List.IsChain k.Linked (a :: (l.map some ++ [none]))) :
    walk k.next test n (k.next a) = l.find? test := by
  induction l generalizing a n with
  | nil =>
    simp only [List.map_nil, List.nil_append, List.isChain_pair] at h
    cases n <;> simp [walk, h.1]
  | cons i l ih =>
    obtain ⟨n, rfl⟩ := Nat.exists_eq_succ_of_ne_zero (Nat.ne_zero_of_lt hn)
    simp only [List.map_cons, List.cons_append, List.isChain_cons_cons] at h
    rw [h.1.1, walk, ih (by simpa using hn) h.2, List.find?_cons]
    cases test i <;> simp

variable [DecidableEq α]

def setNext (k : Links α) (a b : Option α) : Links α := { k with next := update k.next a b }

def setPrev (k : Links α) (a b : Option α) : Links α := { k with prev := update k.prev a b }

/-- Make two elements neighbours. -/
def link (k : Links α) (a b : Option α) : Links α := (k.setNext a b).setPrev b a

theorem linked_link : (k.link a b).Linked a b := ⟨update_self .., update_self ..⟩

/-- A chain in which neither of the two has another neighbour stays one. -/
theorem chain_link {c : List (Option α)} (hc : c.IsChain k.Linked)
    (ha : a ∈ c → k.next a ∉ c.tail) (hb : b ∉ c.tail) :
    c.IsChain (k.link a b).Linked := by
  refine hc.imp_of_mem_tail_imp fun x y hx hy hxy => ⟨?_, ?_⟩
  · refine (update_of_ne ?_ _ _).trans hxy.1
    rintro rfl
    exact ha hx (hxy.1 ▸ hy)
  · refine (update_of_ne ?_ _ _).trans hxy.2
    rintro rfl
    exact hb hy

/-- Put `i` after the head. -/
def insert (k : Links α) (i : α) : Links α :=
  let k := k.setNext (some i) (k.next none)
  let k := k.setPrev (some i) none
  let k := k.setPrev (k.next none) (some i)
  k.setNext none (some i)

/-- Take `i` out. -/
def unlink (k : Links α) (i : α) : Links α :=
  let k := k.setPrev (k.next (some i)) (k.prev (some i))
  k.setNext (k.prev (some i)) (k.next (some i))

theorem Lists.insert (h : k.Lists l) (hi : i ∉ l) : (k.insert i).Lists (i :: l) := by
  obtain ⟨x, c, hx⟩ : ∃ x c, l.map some ++ [none] = x :: c :=
    List.exists_cons_of_ne_nil (by simp)
  have hnd := hx ▸ h.nodup
  have hi : some i ∉ x :: c := by simpa [← hx] using hi
  have hk := h.2
  rw [hx, List.isChain_cons_cons] at hk
  obtain ⟨⟨hnext, -⟩, hk⟩ := hk
  obtain ⟨hxc, -⟩ := List.nodup_cons.mp hnd
  obtain ⟨hix, hic⟩ := List.ne_and_not_mem_of_not_mem_cons hi
  -- the four assignments make two links, `i` with what followed the head and the head with `i`
  have heq : k.insert i = (k.link (some i) x).link none (some i) := by
    simp [Links.insert, link, setNext, setPrev, hnext, Function.update_comm hix]
  refine ⟨List.nodup_cons.mpr ⟨‹_›, h.1⟩, ?_⟩
  rw [List.map_cons, List.cons_append, hx, heq]
  refine .cons_cons linked_link (.cons_cons ?_ (chain_link (chain_link hk (absurd · hi) hxc) ?_ hic))
  · simp [Linked, link, setNext, setPrev, hix.symm]
  · simpa [link, setNext, setPrev, hnext] using fun _ => hxc

theorem Lists.foldl_insert (h : k.Lists l) (hnd : (m.reverse ++ l).Nodup) :
    (m.foldl Links.insert k).Lists (m.reverse ++ l) := by
  induction m generalizing k l with
  | nil => exact h
  | cons i m ih =>
    rw [List.reverse_cons, List.append_assoc] at hnd ⊢
    exact ih (h.insert (List.nodup_cons.mp hnd.of_append_right).1) hnd

theorem Lists.unlink (h : k.Lists (l ++ i :: m)) : (k.unlink i).Lists (l ++ m) := by
  obtain ⟨x, c, hx⟩ : ∃ x c, m.map some ++ [none] = x :: c :=
    List.exists_cons_of_ne_nil (by simp)
  obtain ⟨d, p, hp⟩ : ∃ d p, none :: l.map some = d ++ [p] :=
    (List.eq_nil_or_concat' (none :: l.map some)).resolve_left (by simp)
  have hnd : (l.map some ++ some i :: x :: c).Nodup := by simpa [hx] using h.nodup
  have hk := h.2
  rw [List.map_append, List.append_assoc, ← List.cons_append, hp, List.append_assoc,
    List.singleton_append, List.map_cons, List.cons_append, hx, List.isChain_append_cons_cons,
    List.isChain_cons_cons] at hk
  obtain ⟨hd, ⟨hnext, hprev⟩, ⟨hi, -⟩, hc⟩ := hk
  have heq : k.unlink i = k.link p x := by
    have : some i ≠ x := by
      rintro rfl
      simp [List.nodup_append] at hnd
    simp [Links.unlink, link, setNext, setPrev, hprev, hi, this]
  have hdp : (d ++ [p]).tail = l.map some := by rw [← hp, List.tail_cons]
  refine ⟨h.1.sublist (by simp), ?_⟩
  rw [List.map_append, List.append_assoc, hx, ← List.cons_append, hp, List.append_assoc,
    List.singleton_append, heq, List.isChain_append_cons_cons]
  refine ⟨chain_link hd (fun _ => ?_) ?_, linked_link, chain_link hc (fun _ => ?_) ?_⟩
  all_goals grind

end Links

end Xv6.Lib
