import Mathlib.Algebra.Group.Fin.Basic
import Mathlib.Data.List.Basic

/-!
# Ring buffers

An array of `n + 1` cells with a head and a tail index holds the cells from the head up to,
not including, the tail, wrapping around at the end. The lemmas describe adding at the tail,
dropping from the head, and a pass that carries an element to the tail by swapping neighbours,
all by what they do to the list of elements held.
-/

namespace Xv6.Lib

open Function (update update_of_ne update_self)

variable {n : ℕ} {α : Type*}

/-- A ring of `n + 1` cells. It holds up to `n` elements. -/
structure Ring (n : ℕ) (α : Type*) where
  head : Fin (n + 1)
  tail : Fin (n + 1)
  array : Fin (n + 1) → α

/-- The contents of `m` cells, from cell `i` on. -/
def window (f : Fin (n + 1) → α) (i : Fin (n + 1)) : ℕ → List α
  | 0 => []
  | m + 1 => f i :: window f (i + 1) m

/-- How many steps lead from one cell to another. -/
def gap (i j : Fin (n + 1)) : ℕ := (j - i).val

theorem gap_le (i j : Fin (n + 1)) : gap i j ≤ n := Nat.le_of_lt_succ (j - i).isLt

@[simp] theorem gap_self (i : Fin (n + 1)) : gap i i = 0 := by simp [gap]

variable {i j : Fin (n + 1)}

theorem gap_eq_zero : gap i j = 0 ↔ i = j := by
  rw [gap, Fin.val_eq_zero_iff, sub_eq_zero, eq_comm]

theorem gap_add_one_left (h : i ≠ j) : gap (i + 1) j + 1 = gap i j := by
  have hne : j - i ≠ 0 := sub_ne_zero.mpr h.symm
  have hpos : (j - i).val ≠ 0 := fun hz => hne (Fin.val_eq_zero_iff.mp hz)
  rw [gap, gap, ← sub_sub, Fin.val_sub_one_of_ne_zero hne]
  omega

theorem gap_add_one_right (h : gap i j < n) : gap i (j + 1) = gap i j + 1 := by
  rw [gap, gap, add_sub_right_comm, Fin.val_add_one_of_lt (Fin.lt_def.mpr (by simpa [gap] using h))]

theorem gap_sub_one_right (h : i ≠ j) : gap i (j - 1) + 1 = gap i j := by
  have hne : j - i ≠ 0 := sub_ne_zero.mpr h.symm
  have hpos : (j - i).val ≠ 0 := fun hz => hne (Fin.val_eq_zero_iff.mp hz)
  rw [gap, gap, sub_right_comm, Fin.val_sub_one_of_ne_zero hne]
  omega

@[simp] theorem length_window (f : Fin (n + 1) → α) (i : Fin (n + 1)) (m : ℕ) :
    (window f i m).length = m := by
  induction m generalizing i with
  | zero => rfl
  | succ m ih => simp [window, ih]

/-- A window ends in the cell it reaches. -/
theorem window_gap_succ (f : Fin (n + 1) → α) {m : ℕ} (h : gap i j = m) :
    window f i (m + 1) = window f i m ++ [f j] := by
  induction m generalizing i with
  | zero => rw [gap_eq_zero.mp h]; rfl
  | succ m ih =>
    have hne : i ≠ j := fun heq => by rw [gap_eq_zero.mpr heq] at h; omega
    have hgap := gap_add_one_left hne
    rw [window, ih (by omega), window]
    rfl

theorem take_window (f : Fin (n + 1) → α) (i : Fin (n + 1)) (m k : ℕ) :
    (window f i (m + k)).take m = window f i m := by
  induction m generalizing i with
  | zero => simp [window]
  | succ m ih => rw [Nat.succ_add, window, window, List.take_succ_cons, ih]

/-- Going around from the next cell back takes all the other steps. -/
theorem gap_add_one_self (i : Fin (n + 1)) : gap (i + 1) i = n := by
  rw [gap, sub_add_cancel_left, Fin.coe_neg_one]

/-- Only the cells of a window matter to it. -/
theorem window_congr {f g : Fin (n + 1) → α} {i : Fin (n + 1)} {m : ℕ}
    (h : ∀ k, gap i k < m → f k = g k) : window f i m = window g i m := by
  induction m generalizing i with
  | zero => rfl
  | succ m ih =>
    rw [window, window, h i (by simp), ih]
    intro k hk
    by_cases hne : i = k
    · exact h k (by simp [hne])
    · exact h k (by have := gap_add_one_left hne; omega)

namespace Ring

/-- How many elements a ring holds. -/
def length (r : Ring n α) : ℕ := gap r.head r.tail

/-- The elements a ring holds, from the head on. -/
def toList (r : Ring n α) : List α := window r.array r.head r.length

/-- Store an element in the tail cell and advance the tail. -/
def push (r : Ring n α) (x : α) : Ring n α :=
  { r with array := update r.array r.tail x, tail := r.tail + 1 }

/-- Advance the head. -/
def pop (r : Ring n α) : Ring n α := { r with head := r.head + 1 }

@[simp] theorem length_toList (r : Ring n α) : r.toList.length = r.length := length_window _ _ _

theorem toList_eq_nil {r : Ring n α} : r.toList = [] ↔ r.head = r.tail := by
  rw [← List.length_eq_zero_iff, length_toList, length, gap_eq_zero]

theorem toList_push {r : Ring n α} (h : r.length < n) (x : α) :
    (r.push x).toList = r.toList ++ [x] := by
  have hgap : gap r.head (r.tail + 1) = gap r.head r.tail + 1 := gap_add_one_right h
  rw [toList, length]
  simp only [push, hgap, window_gap_succ _ rfl, update_self]
  rw [window_congr fun k hk => update_of_ne (fun heq => by rw [heq] at hk; omega) x r.array]
  rfl

theorem toList_pop {r : Ring n α} (h : r.head ≠ r.tail) :
    r.toList = r.array r.head :: r.pop.toList := by
  have hgap := gap_add_one_left h
  rw [toList, length, ← hgap]
  rfl

end Ring

/-! ## Carrying an element to the tail -/

/-- Exchange the contents of a cell and the next one. -/
def swapNext (f : Fin (n + 1) → α) (i : Fin (n + 1)) : Fin (n + 1) → α :=
  update (update f i (f (i + 1))) (i + 1) (f i)

/-- Walk from a cell to the cell `stop`, exchanging with its right neighbour every cell met
whose contents is a hit. -/
def siftM {α ε : Type} (hit : α → Except ε Bool) (stop : Fin (n + 1)) :
    ℕ → Fin (n + 1) → (Fin (n + 1) → α) → Except ε (Fin (n + 1) → α)
  | 0, _, f => .ok f
  | fuel + 1, i, f =>
    if i = stop then .ok f
    else do
      if ← hit (f i) then siftM hit stop fuel (i + 1) (swapNext f i)
      else siftM hit stop fuel (i + 1) f

/-- The same walk over a list of cells. -/
def sift (hit : α → Bool) : List α → List α
  | x :: y :: xs => if hit x then y :: sift hit (x :: xs) else x :: sift hit (y :: xs)
  | xs => xs
  termination_by xs => xs.length

/-- A walk over a hit carries it past all that follow, if none of them is a hit. -/
theorem sift_hit {hit : α → Bool} {x y : α} {xs : List α} (hx : hit x = true)
    (h : ∀ z ∈ xs, hit z = false) : sift hit (x :: xs ++ [y]) = xs ++ [y, x] := by
  induction xs with
  | nil => simp [sift, hx]
  | cons z zs ih =>
    obtain ⟨-, hzs⟩ := List.forall_mem_cons.mp h
    have hrest := ih hzs
    simp only [List.cons_append] at hrest ⊢
    rw [sift, hx, hrest]
    simp

/-- A single hit ends up behind everything else. -/
theorem sift_once {hit : α → Bool} {ws xs : List α} {x y : α} (hx : hit x = true)
    (hws : ∀ z ∈ ws, hit z = false) (hxs : ∀ z ∈ xs, hit z = false) :
    sift hit (ws ++ x :: xs ++ [y]) = ws ++ xs ++ [y, x] := by
  induction ws with
  | nil => simpa using sift_hit hx hxs
  | cons w ws ih =>
    obtain ⟨hw, hws⟩ := List.forall_mem_cons.mp hws
    have hrest := ih hws
    cases ws with
    | nil =>
      simp only [List.nil_append, List.cons_append] at hrest ⊢
      rw [sift, hw, hrest]
      simp
    | cons v vs =>
      simp only [List.cons_append, List.append_assoc] at hrest ⊢
      rw [sift, hw, hrest]
      simp

/-- The cell before the walk is not touched by it. -/
theorem siftM_of_eq {α ε : Type} {hit : α → Except ε Bool} {stop : Fin (n + 1)} {fuel : ℕ}
    {i : Fin (n + 1)} {f g : Fin (n + 1) → α} (h : siftM hit stop fuel i f = .ok g)
    {j : Fin (n + 1)} (hj : gap i stop < gap i j) : g j = f j := by
  induction fuel generalizing i f with
  | zero => cases h; rfl
  | succ fuel ih =>
    rw [siftM] at h
    split at h
    · cases h; rfl
    rename_i hne
    have hstop := gap_add_one_left hne
    have hij : i ≠ j := fun heq => by rw [gap_eq_zero.mpr heq] at hj; omega
    have hj' := gap_add_one_left hij
    have hnext : i + 1 ≠ j := fun heq => by rw [gap_eq_zero.mpr heq] at hj'; omega
    cases hb : hit (f i) with
    | error e => rw [hb] at h; cases h
    | ok b =>
      rw [hb] at h
      cases b with
      | false => exact ih h (by omega)
      | true =>
        have := ih h (by omega)
        rw [this, swapNext, update_of_ne hnext.symm, update_of_ne hij.symm]

/-- **The walk over a ring.** With every cell met classified, the walk does to the window from
its start to `stop` what it does to a list. -/
theorem window_siftM {α ε : Type} {hit : α → Except ε Bool} {b : α → Bool} {stop : Fin (n + 1)}
    {fuel : ℕ} {i : Fin (n + 1)} {f : Fin (n + 1) → α}
    (hfuel : gap i stop ≤ fuel) (hb : ∀ x ∈ window f i (gap i stop), hit x = .ok (b x)) :
    ∃ g, siftM hit stop fuel i f = .ok g ∧
      window g i (gap i stop + 1) = sift b (window f i (gap i stop + 1)) := by
  induction fuel generalizing i f with
  | zero =>
    have hzero : gap i stop = 0 := by omega
    exact ⟨f, rfl, by rw [hzero]; simp [window, sift]⟩
  | succ fuel ih =>
    by_cases hstop : i = stop
    · exact ⟨f, by rw [siftM, if_pos hstop], by rw [gap_eq_zero.mpr hstop]; simp [window, sift]⟩
    have hgap := gap_add_one_left hstop
    have hn := gap_le i stop
    have hself := gap_add_one_self i
    have hi : hit (f i) = .ok (b (f i)) := hb _ (by rw [← hgap]; simp [window])
    generalize hm : gap (i + 1) stop = m at *
    -- the two cells the first step looks at, and the rest of the window
    have hwin : ∀ h : Fin (n + 1) → α, window h i (gap i stop + 1) =
        h i :: window h (i + 1) (m + 1) := fun h => by rw [← hgap]; rfl
    cases hbi : b (f i) with
    | false =>
      obtain ⟨g, hg, hw⟩ := ih (i := i + 1) (f := f) (by omega) (by
        intro x hx
        refine hb x ?_
        rw [← hgap, window]
        exact List.mem_cons_of_mem _ (by rwa [hm] at hx))
      have hkeep : g i = f i := siftM_of_eq hg (by omega)
      refine ⟨g, by rw [siftM, if_neg hstop, hi, hbi]; exact hg, ?_⟩
      rw [hm] at hw
      rw [hwin, hwin, hkeep, hw, window, sift, hbi]
      simp
    | true =>
      have hsucc : i + 1 ≠ i := fun heq => by
        rw [gap_eq_zero.mpr heq] at hself
        omega
      have hself' := gap_add_one_left hsucc
      have hself₁ := gap_add_one_self (i + 1)
      have hfst : swapNext f i i = f (i + 1) := by
        rw [swapNext, update_of_ne hsucc.symm, update_self]
      have hsnd : swapNext f i (i + 1) = f i := update_self _ _ _
      have hrest : ∀ j ≤ m, window (swapNext f i) (i + 1 + 1) j = window f (i + 1 + 1) j := by
        intro j hj
        refine window_congr fun k hk => ?_
        rw [swapNext, update_of_ne, update_of_ne]
        · rintro rfl; omega
        · rintro rfl; omega
      obtain ⟨g, hg, hw⟩ := ih (i := i + 1) (f := swapNext f i) (by omega) (by
        intro x hx
        refine hb x ?_
        rw [hm] at hx
        cases m with
        | zero => simp [window] at hx
        | succ m =>
          rw [window, hsnd, hrest m (by omega)] at hx
          rw [← hgap, window, window]
          rcases List.mem_cons.mp hx with rfl | hx
          · exact List.mem_cons_self
          · exact List.mem_cons_of_mem _ (List.mem_cons_of_mem _ hx))
      have hkeep : g i = f (i + 1) := (siftM_of_eq hg (by omega)).trans hfst
      refine ⟨g, by rw [siftM, if_neg hstop, hi, hbi]; exact hg, ?_⟩
      have hwin' : window (swapNext f i) (i + 1) (m + 1) = f i :: window f (i + 1 + 1) m := by
        rw [window, hsnd, hrest m le_rfl]
      rw [hm, hwin'] at hw
      rw [hwin, hwin, hkeep, hw, window, sift, hbi]
      simp

/-- **Removing one element.** If exactly one element held is a hit, the walk from the head to
the tail followed by moving the tail back removes that element and keeps the order of the
others. -/
theorem Ring.toList_siftM {α ε : Type} {r : Ring n α} {hit : α → Except ε Bool} {b : α → Bool}
    {ws xs : List α} {x : α} (hr : r.toList = ws ++ x :: xs)
    (hb : ∀ z ∈ r.toList, hit z = .ok (b z)) (hx : b x = true)
    (hws : ∀ z ∈ ws, b z = false) (hxs : ∀ z ∈ xs, b z = false) :
    ∃ g, siftM hit r.tail (n + 1) r.head r.array = .ok g ∧
      Ring.toList { r with tail := r.tail - 1, array := g } = ws ++ xs := by
  have hlen : gap r.head r.tail = ws.length + xs.length + 1 := by
    have := congrArg List.length hr
    rw [length_toList, length] at this
    simp only [List.length_append, List.length_cons] at this
    omega
  obtain ⟨g, hg, hw⟩ := window_siftM ((gap_le _ _).trans (Nat.le_succ n)) hb
  refine ⟨g, hg, ?_⟩
  have hne : r.head ≠ r.tail := fun heq => by rw [gap_eq_zero.mpr heq] at hlen; omega
  have hgap := gap_sub_one_right hne
  have hold : window r.array r.head (gap r.head r.tail + 1) = ws ++ x :: xs ++ [r.array r.tail] := by
    rw [window_gap_succ _ rfl, ← hr]; rfl
  rw [hold, sift_once hx hws hxs] at hw
  have htake : window g r.head (ws.length + xs.length) = ws ++ xs := by
    have hwin : window g r.head (ws.length + xs.length + 2) = ws ++ xs ++ [r.array r.tail, x] := by
      rw [← hw, hlen]
    rw [← take_window g r.head _ 2, hwin, List.take_append_of_le_length (by simp),
      List.take_of_length_le (by simp)]
  have hm : gap r.head (r.tail - 1) = ws.length + xs.length := by omega
  rw [toList, length, hm, htake]

end Xv6.Lib
