import Xv6.Bio.Last
import Xv6.Lib.Links

/-!
# The ring of buffers

`binit`, `bget` and `brelse` on the pointers `next` and `prev` of the buffers and of
`bcache.head`, beside the cache whose list is kept as a list.
-/

namespace Xv6.Bio

open Xv6.Lib

variable {P T D : Type}

/-- The pointers after `binit`. -/
def links : Links Idx := (List.finRange NBUF).foldl Links.insert ⟨fun _ => none, fun _ => none⟩

theorem lists_links : links.Lists (List.finRange NBUF).reverse := by
  have hempty : (⟨fun _ => none, fun _ => none⟩ : Links Idx).Lists [] := by
    simp [Links.Lists, Links.Linked]
  simpa [links] using hempty.foldl_insert (m := List.finRange NBUF)
    (by simpa using List.nodup_finRange NBUF)

namespace Sys

variable [DecidableEq P] [DecidableEq T] {s u : Sys P T D} {L : Log D} {k : Links Idx}
  {a : Act P T D}

/-- What a step does to the pointers: `brelse` moves a buffer that is no longer used. -/
def relink (s : Sys P T D) (k : Links Idx) : Act P T D → Links Idx
  | .run p =>
    match s.stage p with
    | .drop i _ => if (s.buf i).refcnt - 1 = 0 then (k.unlink i).insert i else k
    | _ => k
  | _ => k

/-- A step of the cache together with its pointers. -/
def nextLinked (L : Log D) (x : Sys P T D × Links Idx) (a : Act P T D) :
    Option (Sys P T D × Links Idx) :=
  (x.1.next L a).map (·, x.1.relink x.2 a)

theorem lru_of_next (hl : ∀ i, i ∈ s.lru) (h : s.next L a = some u)
    (ha : ∀ p i c, a = .run p → s.stage p ≠ .drop i c) : u.lru = s.lru := by
  obtain ⟨p, st, t, hline, rfl⟩ := line_of_next hl h
  cases hline with
  | unref hp => exact absurd hp (ha p _ _ rfl)
  | _ => rfl

theorem lists_of_next (hl : ∀ i, i ∈ s.lru) (hk : k.Lists s.lru) (h : s.next L a = some u) :
    (s.relink k a).Lists u.lru := by
  unfold relink
  split
  · next p =>
    split
    · next i c hp =>
      simp only [next, step, run, hp, Option.bind_some, Except.toOption, Option.some.injEq] at h
      subst h
      simp only [goto, unref]
      split
      · obtain ⟨l, m, -, hlru, herase⟩ := List.exists_erase_eq (hl i)
        rw [hlru] at hk
        rw [herase]
        exact hk.unlink.insert (List.nodup_middle.mp hk.1).notMem
      · exact hk
    · next hp =>
      rw [lru_of_next hl h (by rintro _ i c ⟨⟩; exact hp i c)]
      exact hk
  · next ha =>
    rw [lru_of_next hl h fun p _ _ hp => absurd hp (ha p)]
    exact hk

/-- In every state of every run the pointers list all the buffers, and the two loops of `bget` over
them find what the loops over the list find. The second one finds a buffer that nobody uses. -/
theorem ring_of_visits {disk : ℕ → D} {data : Idx → D} {as : List (Act P T D)}
    (h : Visits (nextLinked L) (binit disk data, links) as (s, k)) :
    k.Lists s.lru ∧ (∀ i, i ∈ s.lru) ∧
      (∀ b, Links.walk k.next (fun i => s.Caches i b) (NBUF + 1) (k.next none) = s.cached b) ∧
      Links.walk k.prev (fun i => (s.buf i).refcnt = 0) (NBUF + 1) (k.prev none) = s.unused ∧
      ∀ i, s.unused = some i → ∀ x, ¬ s.Points i x := by
  obtain ⟨hinv, hk⟩ : s.Inv L ∧ k.Lists s.lru :=
    Visits.induction (P := fun x => x.1.Inv L ∧ x.2.Lists x.1.lru)
      ⟨inv_binit L disk data, lists_links⟩ (fun _ _ _ _ hnext hx => by
        obtain ⟨u, hu, rfl⟩ := Option.map_eq_some_iff.mp hnext
        exact ⟨inv_of_next hx.1 hu, lists_of_next hx.1.counted.listed hx.2 hu⟩) h
  have hlen : s.lru.length < NBUF + 1 := by
    simpa [Nat.lt_succ_iff] using hk.1.length_le_card
  refine ⟨hk, hinv.counted.listed, fun b => Links.walk_of_chain _ hlen hk.2,
    Links.walk_of_chain _ (by simpa using hlen) hk.flip.2, fun i hi => ?_⟩
  have hzero : (s.buf i).refcnt = 0 := by simpa using List.find?_some hi
  exact (hzero ▸ hinv.counted.refs i).none

/-- A block is read and released. -/
def releaseRun (i : Idx) : List (Act (Fin 2) Empty ℕ) :=
  [.bread 0 45, .run 0, .run 0, .brelse 0 i, .run 0]

theorem ring_releaseRun : ∃ s k, exec (nextLinked smallLog)
    (binit (fun _ => 0) fun _ => 0, links) (releaseRun 0) = some (s, k) ∧
      k.next none = some 0 ∧ k.Lists s.lru := by
  have hrun : (exec (nextLinked smallLog) (binit (fun _ => 0) fun _ => 0, links)
      (releaseRun 0)).any (fun x => x.2.next none = some 0) = true := by decide +kernel
  obtain ⟨⟨s, k⟩, hs, hk⟩ := (Option.any_eq_true _ _).mp hrun
  exact ⟨s, k, hs, of_decide_eq_true hk, (ring_of_visits (.last hs)).1⟩

end Sys

end Xv6.Bio
