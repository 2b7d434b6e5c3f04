import Mathlib.Data.List.Basic

/-!
# Tables of slots

A table has some number of slots, each of them free or with a key and a value. A search finds the
first slot with the key. If no two slots have the same key, the table is a finite map: a key put
into a free slot is added to it, and a slot that is freed is taken from it.
-/

namespace Xv6.Lib

open Function (update update_of_ne update_self)

variable {K V : Type} [DecidableEq K] {n k : ℕ} {e : ℕ → Option (K × V)} {key : K} {v : V}

/-- The value in the first slot with the key. -/
def find (n : ℕ) (e : ℕ → Option (K × V)) (key : K) : Option V :=
  ((List.range n).find? fun k => decide ((e k).map Prod.fst = some key)).bind fun k =>
    (e k).map Prod.snd

/-- No two slots have the same key. -/
def Distinct (n : ℕ) (e : ℕ → Option (K × V)) : Prop :=
  ∀ j k key v w, j < n → k < n → e j = some (key, v) → e k = some (key, w) → j = k

omit [DecidableEq K] in
theorem map_fst_eq_some_iff {o : Option (K × V)} :
    o.map Prod.fst = some key ↔ ∃ v, o = some (key, v) := by
  simp [Option.map_eq_some_iff]

theorem find_of_first (hk : k < n) (hkey : e k = some (key, v))
    (hfirst : ∀ j, j < k → ∀ w, e j ≠ some (key, w)) : find n e key = some v := by
  have hfound : (List.range n).find? (fun k => decide ((e k).map Prod.fst = some key)) = some k := by
    rw [List.find?_range_eq_some, decide_eq_true_eq, hkey, List.mem_range]
    refine ⟨rfl, hk, fun j hj => ?_⟩
    rw [Bool.not_eq_true', decide_eq_false_iff_not, map_fst_eq_some_iff]
    rintro ⟨w, hw⟩
    exact hfirst j hj w hw
  rw [find, hfound, Option.bind_some, hkey, Option.map_some]

theorem find_eq_none_iff : find n e key = none ↔ ∀ k, k < n → ∀ v, e k ≠ some (key, v) := by
  rw [find, Option.bind_eq_none_iff]
  constructor
  · intro h k hk v hkey
    cases hfound : (List.range n).find? fun k => decide ((e k).map Prod.fst = some key) with
    | none =>
      have hnot := List.find?_range_eq_none.mp hfound k hk
      simp [hkey] at hnot
    | some j =>
      have hj := List.find?_some hfound
      rw [decide_eq_true_eq, map_fst_eq_some_iff] at hj
      obtain ⟨w, hw⟩ := hj
      have hnone := h j hfound
      rw [hw] at hnone
      cases hnone
  · intro h k hfound
    have hmem := List.mem_range.mp (List.mem_of_find?_eq_some hfound)
    have hkey := List.find?_some hfound
    rw [decide_eq_true_eq, map_fst_eq_some_iff] at hkey
    obtain ⟨v, hv⟩ := hkey
    exact absurd hv (h k hmem v)

theorem find?_of_forall_mem {α : Type} {p q : α → Bool} {l : List α} (h : ∀ a ∈ l, p a = q a) :
    l.find? p = l.find? q := by
  induction l with
  | nil => rfl
  | cons a l ih =>
    rw [List.find?_cons, List.find?_cons, h a List.mem_cons_self,
      ih fun b hb => h b (List.mem_cons_of_mem a hb)]

variable {e' : ℕ → Option (K × V)}

omit [DecidableEq K] in
theorem Distinct.congr (h : Distinct n e) (he : ∀ k, k < n → e' k = e k) : Distinct n e' := by
  intro j k key v w hj hk hjk hkk
  rw [he j hj] at hjk
  rw [he k hk] at hkk
  exact h j k key v w hj hk hjk hkk

theorem find_congr (he : ∀ k, k < n → e' k = e k) : find n e' = find n e := by
  funext key
  have hfind : (List.range n).find? (fun k => decide ((e' k).map Prod.fst = some key)) =
      (List.range n).find? fun k => decide ((e k).map Prod.fst = some key) :=
    find?_of_forall_mem fun k hk => by rw [he k (List.mem_range.mp hk)]
  rw [find, find, hfind]
  cases hfound : (List.range n).find? fun k => decide ((e k).map Prod.fst = some key) with
  | none => rfl
  | some k =>
    rw [Option.bind_some, Option.bind_some,
      he k (List.mem_range.mp (List.mem_of_find?_eq_some hfound))]

namespace Distinct

variable (h : Distinct n e)
include h

theorem find_eq_some_iff : find n e key = some v ↔ ∃ k, k < n ∧ e k = some (key, v) := by
  constructor
  · intro hfind
    have hslot : ∃ k, k < n ∧ ∃ w, e k = some (key, w) := by
      by_contra hnone
      have hnot := find_eq_none_iff.mpr fun k hk w hw => hnone ⟨k, hk, w, hw⟩
      rw [hfind] at hnot
      cases hnot
    obtain ⟨k, hk, w, hw⟩ := hslot
    have hself := find_of_first hk hw fun j hj u hu => by
      have := h j k key u w (by omega) hk hu hw
      omega
    rw [hfind] at hself
    cases hself
    exact ⟨k, hk, hw⟩
  · rintro ⟨k, hk, hkey⟩
    refine find_of_first hk hkey fun j hj w hw => ?_
    have := h j k key w v (by omega) hk hw hkey
    omega

/-- A table with the same slots in use but for one. -/
theorem ext_find {m : ℕ} (h' : Distinct m e') {q : K}
    (hslots : ∀ v, (∃ k, k < m ∧ e' k = some (q, v)) ↔ ∃ k, k < n ∧ e k = some (q, v)) :
    find m e' q = find n e q := by
  apply Option.ext
  intro v
  rw [h'.find_eq_some_iff, h.find_eq_some_iff, hslots v]

/-- A key that is not there is put into a free slot, or into one at the end. -/
theorem put (hk : k ≤ n) (hfree : k < n → e k = none) (habsent : find n e key = none) :
    Distinct (max n (k + 1)) (update e k (some (key, v))) ∧
      find (max n (k + 1)) (update e k (some (key, v))) =
        update (find n e) key (some v) := by
  rw [find_eq_none_iff] at habsent
  have hother : ∀ {j q w}, j < max n (k + 1) →
      update e k (some (key, v)) j = some (q, w) →
      j = k ∧ q = key ∧ w = v ∨ j ≠ k ∧ j < n ∧ q ≠ key ∧ e j = some (q, w) := by
    intro j q w hj hq
    by_cases hjk : j = k
    · rw [hjk, update_self, Option.some.injEq, Prod.mk.injEq] at hq
      exact .inl ⟨hjk, hq.1.symm, hq.2.symm⟩
    · rw [update_of_ne hjk] at hq
      refine .inr ⟨hjk, by omega, ?_, hq⟩
      rintro rfl
      exact habsent j (by omega) w hq
  have hdistinct : Distinct (max n (k + 1)) (update e k (some (key, v))) := by
    intro i j q w w' hi hj hiq hjq
    rcases hother hi hiq with ⟨hik, hqi, -⟩ | ⟨-, hin, hqi, hiq⟩
    · rcases hother hj hjq with ⟨hjk, -, -⟩ | ⟨-, -, hqj, -⟩
      · rw [hik, hjk]
      · exact absurd hqi hqj
    · rcases hother hj hjq with ⟨-, hqj, -⟩ | ⟨-, hjn, -, hjq⟩
      · exact absurd hqj hqi
      · exact h i j q w w' hin hjn hiq hjq
  refine ⟨hdistinct, funext fun q => ?_⟩
  by_cases hq : q = key
  · rw [hq, update_self, hdistinct.find_eq_some_iff]
    exact ⟨k, by omega, update_self ..⟩
  · rw [update_of_ne hq]
    refine h.ext_find hdistinct fun w => ⟨?_, ?_⟩
    · rintro ⟨j, hj, hjq⟩
      rcases hother hj hjq with ⟨-, hqk, -⟩ | ⟨-, hjn, -, hjq⟩
      · exact absurd hqk hq
      · exact ⟨j, hjn, hjq⟩
    · rintro ⟨j, hj, hjq⟩
      have hjk : j ≠ k := by
        rintro rfl
        rw [hfree hj] at hjq
        cases hjq
      exact ⟨j, by omega, by rw [update_of_ne hjk]; exact hjq⟩

/-- The slot of a key is freed. -/
theorem clear (hk : k < n) (hkey : e k = some (key, v)) :
    Distinct n (update e k none) ∧
      find n (update e k none) = update (find n e) key none := by
  have hother : ∀ {j q w}, update e k none j = some (q, w) →
      j ≠ k ∧ e j = some (q, w) := by
    intro j q w hq
    by_cases hjk : j = k
    · rw [hjk, update_self] at hq
      cases hq
    · rw [update_of_ne hjk] at hq
      exact ⟨hjk, hq⟩
  have hdistinct : Distinct n (update e k none) := by
    intro i j q w w' hi hj hiq hjq
    exact h i j q w w' hi hj (hother hiq).2 (hother hjq).2
  refine ⟨hdistinct, funext fun q => ?_⟩
  by_cases hq : q = key
  · rw [hq, update_self, find_eq_none_iff]
    intro j hj w hw
    obtain ⟨hjk, hjkey⟩ := hother hw
    exact hjk (h j k key w v hj hk hjkey hkey)
  · rw [update_of_ne hq]
    refine h.ext_find hdistinct fun w => ⟨?_, ?_⟩
    · rintro ⟨j, hj, hjq⟩
      exact ⟨j, hj, (hother hjq).2⟩
    · rintro ⟨j, hj, hjq⟩
      have hjk : j ≠ k := by
        rintro rfl
        rw [hkey, Option.some.injEq, Prod.mk.injEq] at hjq
        exact hq hjq.1.symm
      exact ⟨j, hj, by rw [update_of_ne hjk]; exact hjq⟩

end Distinct

end Xv6.Lib
