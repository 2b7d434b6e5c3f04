import Mathlib.Algebra.BigOperators.Intervals
import Mathlib.Algebra.Order.BigOperators.Group.Finset
import Xv6.Content.Header
import Xv6.Content.Write

/-!
# Room for a write

`writei` panics when the disk has no block left for it, or the header of the log no entry. Both
are a matter of counting: a turn of its loop takes the blocks that are missing at its index, and
logs them, the block that is there already, or the free map and the indirect block.
-/

namespace Xv6.Content

open Lib Mkfs
open Function (update update_of_ne)

variable {inode : Fin NINODES → Dinode} {i : Fin NINODES} {s t : Disk} {ip jp : Dinode}

/-- The index of the first block after the first `size` bytes. -/
def endBlock (size : ℕ) : ℕ := (size + BSIZE - 1) / BSIZE

/-- The blocks that are missing at the indices from `lo` to `hi`. -/
def missing (s : Disk) (ip : Dinode) (lo hi : ℕ) : ℕ :=
  (∑ bn ∈ Finset.Ico lo hi, if number s.sect ip (slotOf bn) = 0 then 1 else 0) +
    if NDIRECT < hi ∧ lo < hi ∧ ip.indirect = 0 then 1 else 0

/-- The indirect block of an inode, if it has one. -/
def indirects (ip : Dinode) : Finset ℕ := if ip.indirect = 0 then ∅ else {ip.indirect}

/-- What a write at the index `bn` logs, as far as it exists: the block that is there, or else the
free map and the indirect block. -/
def knownAt (s : Disk) (ip : Dinode) (bn : ℕ) : Finset ℕ :=
  if number s.sect ip (slotOf bn) = 0 then
    insert bmapstart (if NDIRECT ≤ bn then indirects ip else ∅)
  else {number s.sect ip (slotOf bn)}

/-- What a write at the indices from `lo` to `hi` logs, as far as it exists. -/
def known (s : Disk) (ip : Dinode) (lo hi : ℕ) : Finset ℕ :=
  (Finset.Ico lo hi).biUnion (knownAt s ip)

/-- The disk and the header of the log have room for `n` bytes at `off`: before `writei` logs the
block of the inode, there is an entry left. -/
structure Room (s : Disk) (ip : Dinode) (off n : ℕ) : Prop where
  free : missing s ip (off / BSIZE) (endBlock (off + n)) ≤ s.free
  log : (s.lh.toFinset ∪ known s ip (off / BSIZE) (endBlock (off + n))).card +
    missing s ip (off / BSIZE) (endBlock (off + n)) < 29

theorem need_le_missing {lo hi : ℕ} (hlt : lo < hi) : need s ip lo ≤ missing s ip lo hi := by
  rw [missing, need, Finset.sum_eq_sum_Ico_succ_bot hlt]
  split_ifs <;> omega

/-- What is missing at the first index is not missing later. -/
theorem missing_add_need_le {lo hi : ℕ} (hlt : lo < hi)
    (hstored : ∀ y, number s.sect ip y ≠ 0 → number t.sect jp y ≠ 0)
    (hlo : number t.sect jp (slotOf lo) ≠ 0) :
    missing t jp (lo + 1) hi + need s ip lo ≤ missing s ip lo hi := by
  have hsum : (∑ bn ∈ Finset.Ico (lo + 1) hi, if number t.sect jp (slotOf bn) = 0 then 1 else 0) ≤
      ∑ bn ∈ Finset.Ico (lo + 1) hi, if number s.sect ip (slotOf bn) = 0 then 1 else 0 := by
    refine Finset.sum_le_sum fun bn _ => ?_
    split
    · next h0 => rw [if_pos (by by_contra hne; exact hstored _ hne h0)]
    · exact Nat.zero_le _
  have hind : (if NDIRECT < hi ∧ lo + 1 < hi ∧ jp.indirect = 0 then 1 else 0) +
      (if NDIRECT ≤ lo ∧ ip.indirect = 0 then 1 else 0) ≤
      if NDIRECT < hi ∧ lo < hi ∧ ip.indirect = 0 then 1 else 0 := by
    have hkept : jp.indirect = 0 → ip.indirect = 0 := by
      intro h0
      by_contra hne
      exact hstored (.addr (Fin.last NDIRECT)) hne h0
    have hnew : NDIRECT ≤ lo → jp.indirect ≠ 0 := fun hle => indirect_ne_zero hle hlo
    split_ifs <;> omega
  rw [missing, missing, need, Finset.sum_eq_sum_Ico_succ_bot hlt]
  omega

/-! ## What is logged -/

/-- The blocks that a write at the index `bn` logs are of `R` or logged, as far as they exist. -/
def Covered (R : Finset ℕ) (s : Disk) (ip : Dinode) (bn : ℕ) : Prop :=
  ∀ c ∈ knownAt s ip bn, c ∈ R ∨ c ∈ s.lh

section Logs

variable {short : Prop} {R : Finset ℕ} {k m : ℕ} {l : List ℕ} {bn : ℕ}

theorem Covered.block (h : Covered R s ip bn) (hne : number s.sect ip (slotOf bn) ≠ 0) :
    number s.sect ip (slotOf bn) ∈ R ∨ number s.sect ip (slotOf bn) ∈ s.lh :=
  h _ (by simp [knownAt, hne])

theorem Covered.map (h : Covered R s ip bn) (h0 : number s.sect ip (slotOf bn) = 0) :
    bmapstart ∈ R ∨ bmapstart ∈ s.lh :=
  h _ (by simp [knownAt, h0])

theorem Covered.indirect (h : Covered R s ip bn) (h0 : number s.sect ip (slotOf bn) = 0)
    (hbn : NDIRECT ≤ bn) (hne : ip.indirect ≠ 0) : ip.indirect ∈ R ∨ ip.indirect ∈ s.lh :=
  h _ (by simp [knownAt, indirects, h0, hbn, hne])

/-- What is new is logged. -/
theorem Covered.of_grown (h : Covered R s ip bn)
    (hstored : ∀ y, number s.sect ip y ≠ 0 → number t.sect jp y = number s.sect ip y)
    (hfresh : ∀ y, number s.sect ip y = 0 → number t.sect jp y ≠ 0 → number t.sect jp y ∈ t.lh)
    (hsub : s.lh ⊆ t.lh) : Covered R t jp bn := by
  have hold : ∀ y, number t.sect jp y ≠ 0 → number s.sect ip y ≠ 0 ∧
      number t.sect jp y = number s.sect ip y ∨ number t.sect jp y ∈ t.lh := by
    intro y hy
    by_cases h0 : number s.sect ip y = 0
    · exact .inr (hfresh y h0 hy)
    · exact .inl ⟨h0, hstored y h0⟩
  intro c hc
  rw [knownAt] at hc
  split at hc
  · next h0 =>
      have hs0 : number s.sect ip (slotOf bn) = 0 := by
        by_contra hne
        exact hne (hstored _ hne ▸ h0)
      rcases Finset.mem_insert.mp hc with rfl | hc
      · exact (h.map hs0).imp_right (hsub ·)
      split at hc
      · next hbn =>
          rw [indirects] at hc
          split at hc
          · cases hc
          · next hne =>
              rw [Finset.mem_singleton.mp hc]
              rcases hold (.addr (Fin.last NDIRECT)) hne with ⟨hs, heq⟩ | hmem
              · rw [← number_last t.sect, heq]
                exact (h.indirect hs0 hbn hs).imp_right (hsub ·)
              · exact .inr hmem
      · cases hc
  · next hne =>
      rw [Finset.mem_singleton.mp hc]
      rcases hold (slotOf bn) hne with ⟨hs, heq⟩ | hmem
      · rw [heq]
        exact (h.block hs).imp_right (hsub ·)
      · exact .inr hmem

theorem fillAddr_logs (h : Grew R k l s.lh) {a : Fin (NDIRECT + 1)} (hk : k ≤ m)
    (h0 : ip.addrs a = 0 → (bmapstart ∈ R ∨ bmapstart ∈ s.lh) ∧ k + 1 ≤ m ∧ (s.free = 0 → short)) :
    Post (Stopped short R m l) (fun r => Grew R m l r.2.2.lh) (s.fillAddr ip a) := by
  unfold Disk.fillAddr
  split
  · next haddr =>
      obtain ⟨hmap, hm, hfree⟩ := h0 haddr
      exact (balloc_logs h hmap hfree).seq (fun p hp => hp.mono hk) fun r _ hr =>
        .ok (hr.1.weaken subset_rfl hm)
  · exact .ok (h.weaken subset_rfl hk)

theorem fillEntry_logs (h : Grew R k l s.lh) {ind j : ℕ} (hk : k ≤ m)
    (h0 : getLe (s.sect ind) (4 * j) 4 = 0 → (bmapstart ∈ R ∨ bmapstart ∈ s.lh) ∧ k + 1 ≤ m ∧
      (s.free = 0 → short) ∧ (ind ∈ R ∨ ind ∈ s.lh)) :
    Post (Stopped short R m l) (fun r => Grew R m l r.2.lh) (s.fillEntry ind j) := by
  unfold Disk.fillEntry
  split
  · next hentry =>
      obtain ⟨hmap, hm, hfree, hind⟩ := h0 hentry
      refine (balloc_logs h hmap hfree).seq (fun p hp => hp.mono hk) fun r _ hr => ?_
      refine (logWrite_logs short (by exact hr.1.weaken subset_rfl hm) _).bind fun t ht => .ok ?_
      rw [ht.1]
      exact (hr.1.weaken subset_rfl hm).trans (.logged (hind.imp_right (hr.2 ·)) 0)
  · exact .ok (h.weaken subset_rfl hk)

/-- `bmap` logs what is known at its index, and the blocks that are missing there. -/
theorem bmap_logs (hs : Sound (update inode i ip) s) (h : Grew R k l s.lh)
    (hbn : bn < MAXFILE) (hcov : Covered R s ip bn) (hm : k + need s ip bn ≤ m)
    (hfree : s.free < need s ip bn → short) :
    Post (Stopped short R m l) (fun r => Grew R m l r.2.2.lh) (s.bmap ip bn) := by
  have hk : k ≤ m := by omega
  unfold Disk.bmap
  split
  · next hlt =>
      refine fillAddr_logs h hk fun h0 => ?_
      have hempty : number s.sect ip (slotOf bn) = 0 := by
        rw [slotOf, if_pos hlt, number, h0]
        rfl
      rw [need, if_pos hempty] at hm hfree
      exact ⟨hcov.map hempty, by omega, fun h0 => hfree (by omega)⟩
  split
  · next hge hlt =>
      rw [not_lt] at hge
      have hzero : ip.indirect = 0 → number s.sect ip (slotOf bn) = 0 := by
        intro hind
        by_contra hne
        exact indirect_ne_zero hge hne hind
      have hfirst : ip.addrs (Fin.last NDIRECT) = 0 → ip.indirect = 0 := by
        intro h0
        rw [Dinode.indirect, h0]
        rfl
      -- the entries and blocks of both steps
      set new := if ip.indirect = 0 then 1 else 0 with hnew
      have hneed : need s ip bn = (if number s.sect ip (slotOf bn) = 0 then 1 else 0) + new := by
        simp [need, hge, hnew]
      refine (fillAddr_logs (m := k + new) h (by omega) fun h0 => ?_).seq
        (fun p hp => hp.mono (by omega)) ?_
      · have hind := hfirst h0
        have hone : new = 1 := if_pos hind
        rw [hneed, if_pos (hzero hind)] at hm hfree
        exact ⟨hcov.map (hzero hind), by omega, fun h0 => hfree (by omega)⟩
      · rintro ⟨ind, jp, s₁⟩ hok hgrew
        refine (fillEntry_logs hgrew (by omega) fun h0 => ?_).bind fun r hr => .ok hr
        rcases fillAddr_cases hs hok with ⟨rfl, hne, rfl, rfl⟩ | hf
        · have hempty : number s₁.sect jp (slotOf bn) = 0 := by
            rw [slotOf, if_neg (by omega), number, if_neg (show jp.indirect ≠ 0 from hne)]
            simpa [Nat.mod_eq_of_lt hlt, number_last] using h0
          rw [hneed, if_pos hempty] at hm hfree
          have hfull : s₁.free = 0 → short := fun hf => hfree (by omega)
          exact ⟨hcov.map hempty, by omega, hfull, hcov.indirect hempty hge hne⟩
        · have hone : new = 1 := if_pos hf.empty
          have hfree₁ := hf.free
          rw [hneed, if_pos (hzero hf.empty)] at hm hfree
          have hfull : s₁.free = 0 → short := fun hf => hfree (by omega)
          exact ⟨(hcov.map (hzero hf.empty)).imp_right (hf.subset_lh ·), by omega, hfull,
            .inr hf.mem_lh⟩
  · simp only [MAXFILE] at *
    omega

/-- The loop of `writei` logs what is known at its indices, and the blocks that are missing. -/
theorem writeLoop_logs (src : Source) (turns tot : ℕ) {off n : ℕ}
    (hs : Sound (update inode i ip) s) (h : Grew R k l s.lh) (hmax : off + n ≤ MAXFILE * BSIZE)
    (hk : k ≤ m) (hroom : tot < n →
      (∀ bn ∈ Finset.Ico ((off + tot) / BSIZE) (endBlock (off + n)), Covered R s ip bn) ∧
      k + missing s ip ((off + tot) / BSIZE) (endBlock (off + n)) ≤ m ∧
      (s.free < missing s ip ((off + tot) / BSIZE) (endBlock (off + n)) → short)) :
    Post (Stopped short R m l) (fun r => Grew R m l r.1.lh)
      (writeLoop src turns s ip tot (off + tot) n) := by
  induction turns generalizing s ip tot k with
  | zero => exact .ok (h.weaken subset_rfl hk)
  | succ turns ih =>
    by_cases hlt : tot < n
    · obtain ⟨hcov, hm, hfree⟩ := hroom hlt
      have hmod := Nat.mod_lt (off + tot) (show 0 < BSIZE by decide)
      have hblock : (off + tot) / BSIZE < endBlock (off + n) := by
        rw [endBlock, BSIZE]
        omega
      have hbn : (off + tot) / BSIZE < MAXFILE := by
        simp only [MAXFILE, BSIZE, NDIRECT, NINDIRECT] at *
        omega
      have hneed : need s ip ((off + tot) / BSIZE) ≤ _ := need_le_missing hblock
      have hhere := hcov _ (Finset.left_mem_Ico.mpr hblock)
      rw [writeLoop, if_pos hlt]
      refine (bmap_logs (m := k + need s ip ((off + tot) / BSIZE)) hs h hbn hhere le_rfl
        fun hlow => hfree (by omega)).seq (fun p hp => hp.mono (by omega)) ?_
      rintro ⟨b, jp, s₁⟩ hok hgrew
      obtain ⟨-, hm₁⟩ := mapped_of_bmap hs hok
      obtain ⟨w, hspan, hcopy⟩ := eitherCopyin_eq (s₁.sect b) ((off + tot) % BSIZE) src tot
        (min (n - tot) (BSIZE - (off + tot) % BSIZE))
      simp only [hcopy, decide_eq_true_eq]
      split
      · next hw =>
          refine (logWrite_logs short (by exact hgrew) b).seq (fun p hp => hp.mono (by omega))
            fun s₂ _ hs₂ => ?_
          -- the block is logged already if it is new
          have hb : b ∈ R ∨ b ∈ s₁.lh := by
            rw [← hm₁.number_eq]
            by_cases h0 : number s.sect ip (slotOf ((off + tot) / BSIZE)) = 0
            · exact .inr (hm₁.fresh _ h0 (hm₁.number_eq ▸ hm₁.ne_zero))
            · rw [hm₁.stored_self h0]
              exact (hhere.block h0).imp_right (hm₁.subset_lh ·)
          have hgrew₂ : Grew R (k + need s ip ((off + tot) / BSIZE)) l s₂.lh := by
            rw [hs₂.1]
            exact hgrew.trans (.logged hb 0)
          have hwrote : Wrote inode i (fun a => src.byte (a - off)) (off + tot) (off + tot + w)
            s ip s₂ jp := hm₁.wrote_byte hbn (by omega) hs₂.2 (.inr hs₂.1)
          have hless : missing s₂ jp _ _ + _ ≤ _ := missing_add_need_le hblock
            (fun y hy => by rwa [hwrote.stored_self hy])
            (by rw [hm₁.number_eq_update hs₂.2]; exact hm₁.ne_zero)
          have hfree₂ : s₂.free = s₁.free := Disk.free_congr fun c hc => Disk.bit_congr
            (by rw [hs₂.2]; exact update_of_ne hm₁.ne_bmapstart.symm _ _) hc
          have hfree₁ := hm₁.free
          rw [← hw, Nat.add_assoc]
          refine ih (tot + w) hwrote.sound hgrew₂ (by omega) fun hmore => ?_
          have hnext : (off + (tot + w)) / BSIZE = (off + tot) / BSIZE + 1 := by
            simp only [BSIZE] at *
            omega
          rw [hnext]
          refine ⟨fun bn hin => ?_, by omega, fun hlow => hfree (by omega)⟩
          rw [Finset.mem_Ico] at hin
          exact (hcov bn (Finset.mem_Ico.mpr (by omega))).of_grown (fun y hy => hwrote.stored_self hy)
            hwrote.fresh hwrote.subset_lh
      · exact .ok (hgrew.weaken subset_rfl (by omega))
    · rw [writeLoop_of_not_lt hlt]
      exact .ok (h.weaken subset_rfl hk)

end Logs

theorem writeLoop_known (src : Source) {off n : ℕ} (hs : Sound (update inode i ip) s)
    (hmax : off + n ≤ MAXFILE * BSIZE) :
    Post (Stopped (s.free < missing s ip (off / BSIZE) (endBlock (off + n)))
        (known s ip (off / BSIZE) (endBlock (off + n)))
        (missing s ip (off / BSIZE) (endBlock (off + n))) s.lh)
      (fun r => Grew (known s ip (off / BSIZE) (endBlock (off + n)))
        (missing s ip (off / BSIZE) (endBlock (off + n))) s.lh r.1.lh)
      (writeLoop src n s ip 0 off n) :=
  writeLoop_logs src n 0 hs (.refl _ 0 _) hmax (Nat.zero_le _) fun _ =>
    ⟨fun bn hbn _ hc => .inl (Finset.mem_biUnion.mpr ⟨bn, hbn, hc⟩), (Nat.zero_add _).le, id⟩

/-- **`writei` returns** if there is room for the bytes. -/
theorem writei_total (src : Source) {off n : UInt32} (h : Sound (update inode i ip) s)
    (hnodup : s.lh.Nodup) (hnot : ¬ Refused ip off n) (hroom : Room s ip off.toNat n.toNat) :
    ∃ t jp r, writei s i ip src off n = .ok (t, jp, r) := by
  have hmax : off.toNat + n.toNat ≤ MAXFILE * BSIZE := by
    rw [Refused] at hnot
    omega
  have hlen : ∀ {l' : List ℕ}, Grew (known s ip _ _) _ s.lh l' → l'.length < 29 := fun hgrew =>
    (hgrew.length_le hnodup).trans_lt hroom.log
  obtain ⟨⟨s₁, ip₁, m⟩, hok, hgrew⟩ := (writeLoop_known src h hmax).total fun p hp => by
    rcases hp.full with ⟨-, hfull⟩ | ⟨-, hshort⟩
    · exact hfull.not_gt (hlen hp.grew)
    · exact hroom.free.not_gt hshort
  rw [refused_iff, not_or] at hnot
  rw [writei, if_neg hnot.1, if_neg hnot.2]
  exact ⟨_, _, _, bind_eq_ok.mpr ⟨_, hok, bind_eq_ok.mpr
    ⟨_, Disk.logWrite_eq_ok.mpr ⟨hlen hgrew, rfl⟩, rfl⟩⟩⟩

/-! ## The cost of a write -/

/-- The blocks that `n` bytes at `off` are in. -/
def touched (off n : ℕ) : ℕ := endBlock (off + n) - off / BSIZE

theorem card_indirects_le (ip : Dinode) (p : Prop) [Decidable p] :
    (indirects ip).card + (if p ∧ ip.indirect = 0 then 1 else 0) ≤ 1 := by
  rw [indirects]
  split
  · next h => split <;> simp
  · next h => simp [h]

/-- What is known is the free map, the indirect block, and a block for each index where none is
missing. -/
theorem known_le (s : Disk) (ip : Dinode) (lo hi : ℕ) : ∃ X : Finset ℕ,
    known s ip lo hi ⊆ insert bmapstart X ∧ X.card + missing s ip lo hi ≤ hi - lo + 1 := by
  set here := (Finset.Ico lo hi).filter fun bn => ¬ number s.sect ip (slotOf bn) = 0
  refine ⟨indirects ip ∪ here.image fun bn => number s.sect ip (slotOf bn), fun c hc => ?_, ?_⟩
  · obtain ⟨bn, hbn, hc⟩ := Finset.mem_biUnion.mp hc
    rw [knownAt] at hc
    split at hc
    · rcases Finset.mem_insert.mp hc with rfl | hc
      · exact Finset.mem_insert_self _ _
      · split at hc
        · exact Finset.mem_insert_of_mem (Finset.mem_union_left _ hc)
        · cases hc
    · next hne =>
        rw [Finset.mem_singleton.mp hc]
        exact Finset.mem_insert_of_mem (Finset.mem_union_right _
          (Finset.mem_image_of_mem _ (Finset.mem_filter.mpr ⟨hbn, hne⟩)))
  · have hunion := Finset.card_union_le (indirects ip)
      (here.image fun bn => number s.sect ip (slotOf bn))
    have himage := Finset.card_image_le (s := here) (f := fun bn => number s.sect ip (slotOf bn))
    have hind := card_indirects_le ip (NDIRECT < hi ∧ lo < hi)
    have hsplit : ((Finset.Ico lo hi).filter fun bn => number s.sect ip (slotOf bn) = 0).card +
        here.card = hi - lo := by
      rw [← Nat.card_Ico, Finset.card_filter_add_card_filter_not]
    rw [missing, ← Finset.card_filter]
    simp only [and_assoc] at hind
    omega

/-- **`writei` logs** the free map, the block of the inode, the indirect block, and the blocks it
writes. -/
theorem writei_logs (src : Source) (off n : UInt32) (h : Sound (update inode i ip) s) :
    Post (Stopped True {bmapstart, IBLOCK i} (touched off.toNat n.toNat + 1) s.lh)
      (fun r => Grew {bmapstart, IBLOCK i} (touched off.toNat n.toNat + 1) s.lh r.1.lh)
      (writei s i ip src off n) := by
  unfold writei
  split
  · exact .ok (.refl _ _ _)
  split
  · exact .ok (.refl _ _ _)
  next hsize hmax =>
  have hnot : ¬ Refused ip off n := by
    rw [refused_iff]
    tauto
  have hle : off.toNat + n.toNat ≤ MAXFILE * BSIZE := by
    rw [Refused] at hnot
    omega
  obtain ⟨X, hX, hcard⟩ := known_le s ip (off.toNat / BSIZE) (endBlock (off.toNat + n.toNat))
  have hcount : ∀ {l' : List ℕ},
      Grew (known s ip (off.toNat / BSIZE) (endBlock (off.toNat + n.toNat)))
        (missing s ip (off.toNat / BSIZE) (endBlock (off.toNat + n.toNat))) s.lh l' →
      Grew {bmapstart, IBLOCK i} (touched off.toNat n.toNat + 1) s.lh l' := by
    intro l' hgrew
    refine hgrew.mono (X := X) (fun c hc => ?_) (by rw [touched]; omega)
    have := hX hc
    simp only [Finset.mem_insert, Finset.mem_union, Finset.mem_singleton] at this ⊢
    tauto
  refine (writeLoop_known src h hle).seq
    (fun p hp => ⟨hcount hp.grew, hp.full.imp_right fun hp => ⟨hp.1, trivial⟩⟩) fun r _ hr => ?_
  refine (logWrite_logs True (by exact hcount hr) _).bind fun t ht => .ok ?_
  rw [ht.1]
  exact (hcount hr).trans (.logged (by simp) 0)

end Xv6.Content
