import Mathlib.Computability.Language

/-!
# The patterns of `grep`

`match`, `matchhere` and `matchstar` of `user/grep.c`, on strings without their NUL. A pattern is a
list of items, with an anchor at either end; its language is the product of the languages of the
items.
-/

namespace Xv6.Grep

/-- `matchstar(c, re, text)`, with `matchhere(re, ·)` as an argument. -/
def matchstar (matchhere : List Char → Bool) (c : Char) : List Char → Bool
  | [] => matchhere []
  | t :: text => matchhere (t :: text) || (t == c || c == '.') && matchstar matchhere c text

def matchhere : List Char → List Char → Bool
  | [], _ => true
  | c :: '*' :: re, text => matchstar (matchhere re) c text
  | ['$'], text => text.isEmpty
  | _ :: _, [] => false
  | c :: re, t :: text => (c == '.' || c == t) && matchhere re text

/-- The loop of `match`. -/
def matchLoop (re : List Char) : List Char → Bool
  | [] => matchhere re []
  | t :: text => matchhere re (t :: text) || matchLoop re text

def match_ : List Char → List Char → Bool
  | '^' :: re, text => matchhere re text
  | re, text => matchLoop re text

/-! ## The language of a pattern -/

inductive Item where
  /-- The character, or any if it is a dot. -/
  | one (c : Char)
  /-- Zero or more of the character. -/
  | star (c : Char)

/-- The words of one character that a character of a pattern stands for. -/
def class_ (c : Char) : Language Char := {w | ∃ t, w = [t] ∧ (c = '.' ∨ c = t)}

@[simp] theorem mem_class {w : List Char} {c : Char} :
    w ∈ class_ c ↔ ∃ t, w = [t] ∧ (c = '.' ∨ c = t) := Iff.rfl

open Computability in
def Item.language : Item → Language Char
  | .one c => class_ c
  | .star c => (class_ c)∗

/-- The items of a pattern, and whether it ends in an anchor. -/
def items : List Char → List Item × Bool
  | [] => ([], false)
  | c :: '*' :: re => (.star c :: (items re).1, (items re).2)
  | ['$'] => ([], true)
  | c :: re => (.one c :: (items re).1, (items re).2)

/-- The language of a pattern without its leading anchor. -/
def language (re : List Char) : Language Char := ((items re).1.map Item.language).prod

/-- A prefix of the text is in the language, all of it if the pattern ends in an anchor. -/
def Here (re text : List Char) : Prop :=
  ∃ word rest, text = word ++ rest ∧ word ∈ language re ∧ ((items re).2 = true → rest = [])

variable {re text : List Char} {c t : Char}

/-- The first item takes a part of the text, and the others go on from there. -/
theorem here_cons {re' : List Char} {item : Item}
    (h : items re = (item :: (items re').1, (items re').2)) : Here re text ↔
      ∃ word rest, text = word ++ rest ∧ word ∈ item.language ∧ Here re' rest := by
  simp only [Here, language, h, List.map_cons, List.prod_cons, Language.mem_mul]
  constructor
  · rintro ⟨_, rest, rfl, ⟨u, hu, v, hv, rfl⟩, hend⟩
    exact ⟨u, v ++ rest, List.append_assoc u v rest, hu, v, rest, rfl, hv, hend⟩
  · rintro ⟨u, _, rfl, hu, v, rest, rfl, hv, hend⟩
    exact ⟨u ++ v, rest, (List.append_assoc u v rest).symm, ⟨u, hu, v, hv, rfl⟩, hend⟩

theorem mem_star {w : List Char} : w ∈ (Item.star c).language ↔ ∀ t ∈ w, c = '.' ∨ c = t := by
  rw [Item.language, Language.mem_kstar]
  constructor
  · rintro ⟨ws, rfl, hws⟩ t ht
    obtain ⟨y, hy, hty⟩ := List.mem_flatten.mp ht
    obtain ⟨u, rfl, hu⟩ := hws y hy
    rwa [List.mem_singleton.mp hty]
  · intro h
    refine ⟨w.map fun t => [t], by simp [← List.flatMap_def], fun y hy => ?_⟩
    obtain ⟨t, ht, rfl⟩ := List.mem_map.mp hy
    exact ⟨t, rfl, h t ht⟩

/-- `matchstar` tries every number of repetitions. -/
theorem matchstar_iff {here : List Char → Bool} {P : List Char → Prop}
    (h : ∀ text, here text = true ↔ P text) (c : Char) (text : List Char) :
    matchstar here c text = true ↔ ∃ word rest, text = word ++ rest ∧
      word ∈ (Item.star c).language ∧ P rest := by
  induction text with
  | nil =>
    rw [matchstar, h]
    constructor
    · intro hP
      exact ⟨[], [], rfl, by simp [mem_star], hP⟩
    · rintro ⟨word, rest, heq, -, hP⟩
      simpa [(List.append_eq_nil_iff.mp heq.symm).2] using hP
  | cons t text ih =>
    simp only [matchstar, Bool.or_eq_true, Bool.and_eq_true, beq_iff_eq, h, ih]
    constructor
    · rintro (hP | ⟨hc, word, rest, rfl, hword, hP⟩)
      · exact ⟨[], t :: text, rfl, by simp [mem_star], hP⟩
      · refine ⟨t :: word, rest, rfl, ?_, hP⟩
        simp only [mem_star, List.forall_mem_cons] at hword ⊢
        exact ⟨hc.symm.imp id Eq.symm, hword⟩
    · rintro ⟨word, rest, heq, hword, hP⟩
      cases word with
      | nil => exact .inl (by simpa [heq] using hP)
      | cons u word =>
        obtain ⟨rfl, rfl⟩ := List.cons.inj heq
        simp only [mem_star, List.forall_mem_cons] at hword
        exact .inr ⟨hword.1.symm.imp Eq.symm id, word, rest, rfl, mem_star.mpr hword.2, hP⟩

/-- **`matchhere`** decides whether a prefix of the text is in the language. -/
theorem matchhere_iff (re text : List Char) : matchhere re text = true ↔ Here re text := by
  induction hn : re.length using Nat.strong_induction_on generalizing re text with
  | h n ih =>
    subst hn
    fun_cases matchhere re text with
    | case1 => simp [Here, language, items]
    | case2 c re =>
      have hrest : ∀ text, matchhere re text = true ↔ Here re text :=
        fun text => ih re.length (by simp only [List.length_cons]; omega) re text rfl
      rw [matchstar_iff hrest, here_cons rfl]
    | case3 => simp [Here, language, items]
    | case4 c re hstar hend =>
      simp [here_cons (items.eq_4 c re hstar hend), Item.language]
    | case5 c re t text hstar hend =>
      have hrest := ih re.length (by simp) re text rfl
      simp only [here_cons (items.eq_4 c re hstar hend), Item.language, mem_class,
        Bool.and_eq_true, Bool.or_eq_true, beq_iff_eq, hrest]
      constructor
      · rintro ⟨hc, hre⟩
        exact ⟨[t], text, rfl, ⟨t, rfl, hc⟩, hre⟩
      · rintro ⟨word, rest, heq, ⟨u, rfl, hc⟩, hre⟩
        obtain ⟨rfl, rfl⟩ := List.cons.inj heq
        exact ⟨hc, hre⟩

theorem matchLoop_iff (re text : List Char) :
    matchLoop re text = true ↔ ∃ pre rest, text = pre ++ rest ∧ Here re rest := by
  induction text with
  | nil => simp [matchLoop, matchhere_iff]
  | cons t text ih =>
    simp only [matchLoop, Bool.or_eq_true, matchhere_iff, ih]
    constructor
    · rintro (h | ⟨pre, rest, rfl, h⟩)
      · exact ⟨[], _, rfl, h⟩
      · exact ⟨t :: pre, rest, rfl, h⟩
    · rintro ⟨pre, rest, heq, h⟩
      cases pre with
      | nil => exact .inl (by simpa [heq] using h)
      | cons u pre =>
        obtain ⟨rfl, rfl⟩ := List.cons.inj heq
        exact .inr ⟨pre, rest, rfl, h⟩

/-- **`match` decides the pattern language.** A part of the text is a word of the pattern, at the
start if the pattern begins with `^` and up to the end if it ends in `$`. -/
theorem match_iff (re text : List Char) : match_ re text = true ↔
    ∃ pre word post, text = pre ++ word ++ post ∧
      word ∈ language (if re.head? = some '^' then re.tail else re) ∧
      (re.head? = some '^' → pre = []) ∧
      ((items (if re.head? = some '^' then re.tail else re)).2 = true → post = []) := by
  by_cases hcaret : re.head? = some '^'
  · obtain ⟨re, rfl⟩ := List.head?_eq_some_iff.mp hcaret
    simp [match_, matchhere_iff, Here]
  · have hloop : match_ re text = matchLoop re text := by
      rw [match_]
      rintro re rfl
      exact hcaret rfl
    simp [hloop, matchLoop_iff, hcaret, Here]

end Xv6.Grep
