import Xv6.Content.Alloc
import Xv6.Content.Names
import Xv6.Lib.Post

/-!
# What a function logs

How the header of the log grows while a function of the block layer runs: by blocks of a set that
is known beforehand, such as the free map, and by a number of others. This holds for runs that
panic as well, and for any contents of the disk.
-/

namespace Xv6.Content

open Lib Mkfs
open Function (update_of_ne)

variable {s t : Disk} {ip : Dinode}

/-- The header `l` has grown to `l'` by blocks of `R` and at most `k` others. -/
structure Grew (R : Finset ℕ) (k : ℕ) (l l' : List ℕ) : Prop where
  nodup : l.Nodup → l'.Nodup
  others : ∃ D : Finset ℕ, D.card ≤ k ∧ ∀ c ∈ l', c ∈ l ∨ c ∈ R ∨ c ∈ D

namespace Grew

variable {R R' : Finset ℕ} {k k' : ℕ} {l l' l'' : List ℕ}

theorem refl (R : Finset ℕ) (k : ℕ) (l : List ℕ) : Grew R k l l :=
  ⟨id, ∅, Nat.zero_le k, fun _ hc => .inl hc⟩

theorem trans (h : Grew R k l l') (h' : Grew R k' l' l'') : Grew R (k + k') l l'' := by
  obtain ⟨D, hD, hsub⟩ := h.others
  obtain ⟨D', hD', hsub'⟩ := h'.others
  refine ⟨fun hl => h'.nodup (h.nodup hl), D ∪ D', ?_, fun c hc => ?_⟩
  · exact (Finset.card_union_le D D').trans (Nat.add_le_add hD hD')
  · rw [Finset.mem_union]
    rcases hsub' c hc with hc | hc | hc
    · rcases hsub c hc with hc | hc | hc
      · exact .inl hc
      · exact .inr (.inl hc)
      · exact .inr (.inr (.inl hc))
    · exact .inr (.inl hc)
    · exact .inr (.inr (.inr hc))

/-- What was known beforehand may be counted instead. -/
theorem mono (h : Grew R k l l') {X : Finset ℕ} (hR : R ⊆ R' ∪ X) (hk : k + X.card ≤ k') :
    Grew R' k' l l' := by
  obtain ⟨D, hD, hsub⟩ := h.others
  refine ⟨h.nodup, X ∪ D, ?_, fun c hc => ?_⟩
  · have hcard := Finset.card_union_le X D
    omega
  · rw [Finset.mem_union]
    rcases hsub c hc with hc | hc | hc
    · exact .inl hc
    · rcases Finset.mem_union.mp (hR hc) with hc | hc
      · exact .inr (.inl hc)
      · exact .inr (.inr (.inl hc))
    · exact .inr (.inr (.inr hc))

theorem weaken (h : Grew R k l l') (hR : R ⊆ R') (hk : k ≤ k') : Grew R' k' l l' :=
  h.mono (hR.trans Finset.subset_union_left) (X := ∅) (by simpa using hk)

theorem logged {b : ℕ} (hb : b ∈ R ∨ b ∈ l) (k : ℕ) : Grew R k l (logged l b) := by
  refine ⟨fun hl => nodup_logged hl b, ∅, Nat.zero_le k, fun c hc => ?_⟩
  rcases mem_logged.mp hc with hc | rfl
  · exact .inl hc
  · exact hb.symm.imp_right .inl

/-- Any block may be counted. -/
theorem succ (b : ℕ) (l : List ℕ) : Grew R 1 l (Content.logged l b) :=
  (logged (R := {b}) (.inl (Finset.mem_singleton_self b)) 0).mono Finset.subset_union_right (by simp)

theorem length_le (h : Grew R k l l') (hl : l.Nodup) : l'.length ≤ (l.toFinset ∪ R).card + k := by
  obtain ⟨D, hD, hsub⟩ := h.others
  have hset : l'.toFinset ⊆ (l.toFinset ∪ R) ∪ D := by
    intro c hc
    simpa [or_assoc] using hsub c (List.mem_toFinset.mp hc)
  have hcard := Finset.card_union_le (l.toFinset ∪ R) D
  rw [← List.toFinset_card_of_nodup (h.nodup hl)]
  exact (Finset.card_le_card hset).trans (by omega)

end Grew

theorem pair_subset {a b : ℕ} {R : Finset ℕ} (ha : a ∈ R) (hb : b ∈ R) : {a, b} ⊆ R := by
  intro c hc
  rcases Finset.mem_insert.mp hc with rfl | hc
  · exact ha
  · rwa [Finset.mem_singleton.mp hc]

/-! ## Panics -/

/-- The log or the disk is full. -/
def Exhausted (p : Panic) : Prop :=
  p.msg = "too big a transaction" ∨ p.msg = "balloc: out of blocks"

/-- A panic when the header `l` has grown by blocks of `R` and at most `k` others: the log is full,
or the disk, which is if `short` holds. -/
structure Stopped (short : Prop) (R : Finset ℕ) (k : ℕ) (l : List ℕ) (p : Panic) : Prop where
  grew : Grew R k l p.lh
  full : p.msg = "too big a transaction" ∧ 29 ≤ p.lh.length ∨
    p.msg = "balloc: out of blocks" ∧ short

section Blocks

variable {short : Prop} {R : Finset ℕ} {k k' : ℕ} {l : List ℕ} {p : Panic}

theorem Stopped.exhausted (h : Stopped short R k l p) : Exhausted p :=
  h.full.imp And.left And.left

theorem Stopped.mono (h : Stopped short R k l p) (hk : k ≤ k') : Stopped short R k' l p :=
  ⟨h.grew.weaken subset_rfl hk, h.full⟩

theorem logWrite_post (s : Disk) (b : ℕ) :
    Post (fun p => p.lh = s.lh ∧ p.msg = "too big a transaction" ∧ 29 ≤ p.lh.length)
      (fun t => t.lh = logged s.lh b ∧ t.sect = s.sect) (s.logWrite b) := by
  unfold Disk.logWrite
  split
  · next hfull =>
      simp only [LOGSIZE, nlog, MAXOPBLOCKS] at hfull
      exact .error ⟨rfl, rfl, show 29 ≤ s.lh.length by omega⟩
  · exact .ok ⟨rfl, rfl⟩

/-- `log_write`, when the header has grown from `l`. -/
theorem logWrite_logs (short : Prop) (h : Grew R k l s.lh) (b : ℕ) :
    Post (Stopped short R k l) (fun t => t.lh = logged s.lh b ∧ t.sect = s.sect)
      (s.logWrite b) :=
  (logWrite_post s b).mono (fun _ hp => ⟨hp.1 ▸ h, .inl hp.2⟩) fun _ => id

theorem balloc_logs (h : Grew R k l s.lh) (hmap : bmapstart ∈ R ∨ bmapstart ∈ s.lh)
    (hfree : s.free = 0 → short) :
    Post (Stopped short R k l) (fun r => Grew R (k + 1) l r.2.lh ∧ s.lh ⊆ r.2.lh) s.balloc := by
  unfold Disk.balloc
  split
  · next hnone =>
      have hzero : s.free = 0 := by
        refine Finset.card_eq_zero.mpr (Finset.filter_eq_empty_iff.mpr fun c hc => ?_)
        unfold Disk.firstFree at hnone
        simpa using List.find?_eq_none.mp hnone c (List.mem_range.mpr (Finset.mem_range.mp hc))
      exact .error ⟨h, .inr ⟨rfl, hfree hzero⟩⟩
  · next b hfind =>
      have hlt : b < FSSIZE := by
        unfold Disk.firstFree at hfind
        exact List.mem_range.mp (List.mem_of_find?_eq_some hfind)
      refine (logWrite_logs short (by exact h) _).bind fun s₁ hs₁ => ?_
      have hfirst : Grew R k l s₁.lh := by
        rw [hs₁.1, Disk.bblock hlt]
        exact h.trans (.logged hmap 0)
      refine (logWrite_logs short (by exact hfirst) _).bind fun s₂ hs₂ => .ok ⟨?_, fun c hc => ?_⟩
      · rw [hs₂.1]
        exact hfirst.trans (.succ b _)
      · rw [hs₂.1, mem_logged, Disk.lh_put, hs₁.1, mem_logged]
        exact .inl (.inl hc)

end Blocks

/-! ## Freeing -/

/-- Only the free map has changed, and the header of the log has it. -/
structure Freed (s t : Disk) : Prop where
  lh : Grew {bmapstart} 0 s.lh t.lh
  sect : ∀ c, c ≠ bmapstart → t.sect c = s.sect c

theorem Freed.refl (s : Disk) : Freed s s := ⟨.refl _ _ _, fun _ _ => rfl⟩

theorem Freed.trans {r : Disk} (h : Freed s t) (h' : Freed t r) : Freed s r :=
  ⟨h.lh.trans h'.lh, fun c hc => (h'.sect c hc).trans (h.sect c hc)⟩

theorem bfree_freed (s : Disk) {b : ℕ} (hb : b < FSSIZE) :
    Post (fun p => p.lh = s.lh) (Freed s) (s.bfree b) := by
  unfold Disk.bfree
  split
  · refine (logWrite_post _ _).mono (fun p hp => hp.1) fun t ht => ⟨?_, fun c hc => ?_⟩
    · rw [ht.1, Disk.lh_put, Disk.bblock hb]
      exact .logged (.inl (Finset.mem_singleton_self _)) 0
    · rw [ht.2, Disk.sect_put, Disk.bblock hb, update_of_ne hc]
  · exact .error rfl

theorem bfreeSlot_freed (h : Freed s t) {b : ℕ} (hb : b < FSSIZE) :
    Post (fun p => Grew {bmapstart} 0 s.lh p.lh) (Freed s) (t.bfreeSlot b) := by
  unfold Disk.bfreeSlot
  split
  · exact .ok h
  · refine (bfree_freed t hb).mono (fun p hp => ?_) fun r hr => h.trans hr
    rw [hp]
    exact h.lh

/-- **`itrunc` logs** the free map and the block of the inode. -/
theorem itrunc_logs (i : ℕ) (hrange : ∀ y, number s.sect ip y < FSSIZE)
    (hind : ip.indirect ≠ bmapstart) :
    Post (fun p => Grew {bmapstart, IBLOCK i} 0 s.lh p.lh)
      (fun r => Grew {bmapstart, IBLOCK i} 0 s.lh r.2.lh ∧
        ∀ c, c ≠ bmapstart → c ≠ IBLOCK i → r.2.sect c = s.sect c) (s.itrunc i ip) := by
  have hweak : ∀ {l : List ℕ}, Grew {bmapstart} 0 s.lh l → Grew {bmapstart, IBLOCK i} 0 s.lh l :=
    fun h => h.weaken (by simp) le_rfl
  refine Post.seq (Q := Freed s) (Post.foldlM (fun k _ t ht =>
    bfreeSlot_freed ht (hrange (.addr k.castSucc))) (.refl s)) (fun p hp => hweak hp)
    fun s₁ _ hs₁ => ?_
  have hentries : Post (fun p => Grew {bmapstart} 0 s.lh p.lh) (Freed s)
      (s₁.freeIndirect ip.indirect) := by
    unfold Disk.freeIndirect
    split
    · exact .ok hs₁
    · next hne =>
        have hfold : Post (fun p => Grew {bmapstart} 0 s.lh p.lh) (Freed s)
            (s₁.freeEntries ip.indirect) := by
          refine Post.foldlM (fun k hk t ht => bfreeSlot_freed ht ?_) hs₁
          have hentry := hrange (.entry ⟨k, List.mem_range.mp hk⟩)
          rw [number, if_neg hne] at hentry
          rwa [ht.sect _ hind]
        refine hfold.bind fun t ht => ?_
        refine (bfree_freed t (hrange (.addr (Fin.last NDIRECT)))).mono (fun p hp => ?_)
          fun r hr => ht.trans hr
        rw [hp]
        exact ht.lh
  refine hentries.seq (fun p hp => hweak hp) fun s₂ _ hs₂ => ?_
  refine (logWrite_post _ _).seq (fun p hp => ?_) fun t _ ht => .ok ⟨?_, fun c hmap hc => ?_⟩
  · rw [hp.1, Disk.lh_put]
    exact hweak hs₂.lh
  · rw [ht.1, Disk.lh_put]
    exact (hweak hs₂.lh).trans (.logged (by simp) 0)
  · rw [ht.2, Disk.sect_put, update_of_ne hc]
    exact hs₂.sect c hmap

end Xv6.Content
