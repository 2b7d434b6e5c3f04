import Mathlib.Data.List.Basic
import Mathlib.Data.List.Induction
import Mathlib.Data.Option.Basic

/-!
# Tries in a store

The nodes of a trie lie in a store that maps a node and an index to the node below. Where no node is
at two paths, a change of one entry changes what lies below this entry, and nothing else.
-/

namespace Xv6.Lib

variable {N I : Type*} {child child' : N → I → Option N} {d : ℕ} {r n m : N} {i : I}
  {p q : List I}

/-- The node at the end of a path. -/
def reach (child : N → I → Option N) : N → List I → Option N
  | r, [] => some r
  | r, i :: is => (child r i).bind fun n => reach child n is

@[simp] theorem reach_nil (child : N → I → Option N) (r : N) : reach child r [] = some r := rfl

@[simp] theorem reach_cons (child : N → I → Option N) (r : N) (i : I) (is : List I) :
    reach child r (i :: is) = (child r i).bind fun n => reach child n is := rfl

theorem reach_append (child : N → I → Option N) (r : N) (p q : List I) :
    reach child r (p ++ q) = (reach child r p).bind fun n => reach child n q := by
  induction p generalizing r with
  | nil => rfl
  | cons i is ih =>
    rw [List.cons_append, reach_cons, reach_cons, Option.bind_assoc]
    simp only [ih]

theorem reach_concat (child : N → I → Option N) (r : N) (p : List I) (i : I) :
    reach child r (p ++ [i]) = (reach child r p).bind fun n => child n i := by
  rw [reach_append]
  simp only [reach_cons, reach_nil, Option.bind_fun_some]

/-- A node at a path of at most `d` indices. -/
def IsNode (child : N → I → Option N) (d : ℕ) (r n : N) : Prop :=
  ∃ p : List I, p.length ≤ d ∧ reach child r p = some n

/-- No node up to the depth `d` is at two paths. -/
def Proper (child : N → I → Option N) (d : ℕ) (r : N) : Prop :=
  ∀ ⦃p q : List I⦄ ⦃n : N⦄, p.length ≤ d → q.length ≤ d → reach child r p = some n →
    reach child r q = some n → p = q

theorem isNode_root (child : N → I → Option N) (d : ℕ) (r : N) : IsNode child d r r :=
  ⟨[], Nat.zero_le d, rfl⟩

/-- Only the entries of the nodes above the depth `d` matter for the nodes up to it. -/
theorem reach_of_shallow (hp : p.length ≤ d)
    (h : ∀ q j n, q.length < d → reach child r q = some n → child' n j = child n j) :
    reach child' r p = reach child r p := by
  induction p using List.reverseRecOn with
  | nil => rfl
  | append_singleton p j ih =>
    rw [List.length_append, List.length_singleton] at hp
    rw [reach_concat, reach_concat, ih (by omega)]
    cases hreach : reach child r p with
    | none => rfl
    | some n => exact h p j n (by omega) hreach

theorem isNode_congr (h : ∀ p : List I, p.length ≤ d → reach child' r p = reach child r p) :
    IsNode child' d r n ↔ IsNode child d r n :=
  exists_congr fun p => and_congr_right fun hp => by rw [h p hp]

theorem Proper.congr (hproper : Proper child d r)
    (h : ∀ p : List I, p.length ≤ d → reach child' r p = reach child r p) : Proper child' d r := by
  intro p q n hp hq hreach hreach'
  rw [h p hp] at hreach
  rw [h q hq] at hreach'
  exact hproper hp hq hreach hreach'

/-- The entry `i` of the node `n` at the path `q` was empty, and now leads to the node `m`, that was
no node of the trie and has no entries. -/
structure Graft (child child' : N → I → Option N) (d : ℕ) (r n : N) (i : I) (q : List I) (m : N) :
    Prop where
  node : reach child r q = some n
  depth : q.length < d
  empty : child n i = none
  fresh : ¬ IsNode child d r m
  entry : child' n i = some m
  below : ∀ j, child' m j = none
  others : ∀ n' j, IsNode child d r n' → ¬ (n' = n ∧ j = i) → child' n' j = child n' j

section Graft

variable [DecidableEq I] (h : Graft child child' d r n i q m) (hproper : Proper child d r)
include h hproper

/-- **Grafts.** The new node is at the path of its entry, and the other nodes are where they were. -/
theorem Graft.reach_eq (hp : p.length ≤ d) :
    reach child' r p = if p = q ++ [i] then some m else reach child r p := by
  induction p using List.reverseRecOn with
  | nil => rw [if_neg (by simp)]; rfl
  | append_singleton p j ih =>
    rw [List.length_append, List.length_singleton] at hp
    rw [reach_concat, ih (by omega)]
    by_cases hbelow : p = q ++ [i]
    · -- there is nothing below the new node, and there was nothing below its entry
      subst hbelow
      have hnone : reach child r (q ++ [i] ++ [j]) = none := by
        rw [reach_concat, reach_concat, h.node, Option.bind_some, h.empty, Option.bind_none]
      rw [if_pos rfl, if_neg (by simp), hnone, Option.bind_some, h.below]
    rw [if_neg hbelow]
    cases hreach : reach child r p with
    | none =>
      have hne : p ++ [j] ≠ q ++ [i] := by
        intro heq
        rw [(List.append_inj' heq rfl).1, h.node] at hreach
        cases hreach
      rw [if_neg hne, reach_concat, hreach, Option.bind_none, Option.bind_none]
    | some n' =>
      rw [Option.bind_some]
      by_cases hentry : n' = n ∧ j = i
      · obtain ⟨rfl, rfl⟩ := hentry
        obtain rfl := hproper (by omega) (Nat.le_of_lt h.depth) hreach h.node
        rw [if_pos rfl, h.entry]
      · have hne : p ++ [j] ≠ q ++ [i] := by
          intro heq
          obtain ⟨rfl, hij⟩ := List.append_inj' heq rfl
          rw [h.node] at hreach
          exact hentry ⟨(Option.some.inj hreach).symm, List.singleton_inj.mp hij⟩
        rw [if_neg hne, reach_concat, hreach, Option.bind_some,
          h.others n' j ⟨p, by omega, hreach⟩ hentry]

theorem Graft.isNode_iff {n' : N} : IsNode child' d r n' ↔ IsNode child d r n' ∨ n' = m := by
  constructor
  · rintro ⟨p, hp, hreach⟩
    rw [h.reach_eq hproper hp] at hreach
    split at hreach
    · exact .inr (Option.some.inj hreach).symm
    · exact .inl ⟨p, hp, hreach⟩
  · have hlen : (q ++ [i]).length ≤ d := by
      rw [List.length_append]
      exact h.depth
    rintro (⟨p, hp, hreach⟩ | rfl)
    · refine ⟨p, hp, ?_⟩
      rw [h.reach_eq hproper hp, if_neg, hreach]
      rintro rfl
      rw [reach_concat, h.node, Option.bind_some, h.empty] at hreach
      cases hreach
    · exact ⟨q ++ [i], hlen, by rw [h.reach_eq hproper hlen, if_pos rfl]⟩

theorem Graft.proper : Proper child' d r := by
  intro p p' n' hp hp' hreach hreach'
  rw [h.reach_eq hproper hp] at hreach
  rw [h.reach_eq hproper hp'] at hreach'
  split at hreach <;> split at hreach'
  · next heq heq' => rw [heq, heq']
  · exact absurd ⟨p', hp', hreach'.trans hreach.symm⟩ h.fresh
  · exact absurd ⟨p, hp, hreach.trans hreach'.symm⟩ h.fresh
  · exact hproper hp hp' hreach hreach'

end Graft

end Xv6.Lib
