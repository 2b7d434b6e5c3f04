import Xv6.Content.Read
import Xv6.Content.Room

/-!
# Files are byte arrays

A file is the array of its first `size` bytes. `writei` overwrites a part of the array, and makes
it longer if it must; `readi` returns a part of it; and neither changes another file.
-/

namespace Xv6.Content

open Lib Mkfs
open Function (update update_apply update_of_ne update_self)

variable {inode : Fin NINODES → Dinode} {i : Fin NINODES} {s t : Disk} {ip jp : Dinode}

/-- The invariant of the file system: blocks are at one place, and files have all their blocks. -/
structure Intact (inode : Fin NINODES → Dinode) (s : Disk) : Prop where
  sound : Sound inode s
  whole : ∀ j, Whole s.sect (inode j)

section Spliced

variable {src : Source} {off n r e : ℕ} (h : Spliced i src off n r e s ip t jp)
include h

/-- The files keep their blocks, and the one that is written has those it has grown by. -/
theorem Spliced.intact (hs : Intact (update s.inodes i ip) s)
    (hoff : off ≤ ip.size.toNat) (hmax : off + r ≤ MAXFILE * BSIZE) : Intact t.inodes t := by
  refine ⟨h.sound, fun j => ?_⟩
  have hwhole := hs.whole j
  rw [h.inodes]
  by_cases hj : j = i
  · subst hj
    rw [update_self] at hwhole ⊢
    refine ⟨?_, fun bn hbn => ?_⟩
    · rw [h.size]
      exact max_le hwhole.size_le hmax
    · rw [h.size] at hbn
      by_cases hold : bn * BSIZE < ip.size.toNat
      · have hne := hwhole.stored bn hold
        rwa [h.stored _ hne]
      · have hk := (h.mem_lh (bn * BSIZE - off) (by omega)).2.1
        rwa [show off + (bn * BSIZE - off) = bn * BSIZE by omega,
          Nat.mul_div_cancel _ (by decide)] at hk
  · rw [update_of_ne hj] at hwhole ⊢
    refine ⟨hwhole.size_le, fun bn hbn => ?_⟩
    have hne := hwhole.stored bn hbn
    rwa [h.stored_other j hj _ hne]

/-- Each block that is written takes an entry of the header. -/
theorem Spliced.log_le (hr : 0 < r) : endBlock (off + r) - off / BSIZE ≤ 29 := by
  have hself : t.inodes i = jp := by rw [h.inodes, update_self]
  have hblock : ∀ bn ∈ Finset.Ico (off / BSIZE) (endBlock (off + r)), bn < MAXFILE ∧
      number t.sect jp (slotOf bn) ≠ 0 ∧ number t.sect jp (slotOf bn) ∈ t.lh := by
    intro bn hbn
    rw [Finset.mem_Ico, endBlock] at hbn
    have hk := h.mem_lh (max off (bn * BSIZE) - off) (by simp only [BSIZE] at *; omega)
    rwa [show (off + (max off (bn * BSIZE) - off)) / BSIZE = bn by
      simp only [BSIZE] at *; omega] at hk
  have hcard := Finset.card_le_card_of_injOn (t := t.lh.toFinset)
    (fun bn => number t.sect jp (slotOf bn))
    (fun bn hbn => List.mem_toFinset.mpr (hblock bn hbn).2.2) fun bn hbn bn' hbn' heq => by
      obtain ⟨hmax, hne, -⟩ := hblock bn hbn
      have hslot :=
        (h.sound.inj i _ i (slotOf bn') (by rwa [hself]) (by rw [hself]; exact heq.symm)).2
      exact slotOf_inj hmax (hblock bn' hbn').1 hslot.symm
  rw [Nat.card_Ico] at hcard
  exact hcard.trans ((List.toFinset_card_le _).trans h.length_le)

end Spliced

theorem Spliced.eq_of_kernel {d : Buf} {off n r e : ℕ}
    (h : Spliced i (.kernel d) off n r e s ip t jp) (hr : r ≤ n) : r = n ∧ e = n := by
  have he : e = n := h.span
  refine ⟨?_, he⟩
  by_contra hne
  have := (h.stop (by omega)).1
  omega

/-- **Files are byte arrays.** `writei` returns -1, with nothing changed, exactly for the arguments
it refuses. Otherwise, if there is room, it returns `n`; the size grows to the end of the bytes; and
`readi` then returns the old contents overwritten by `d` at `off`. The other inodes and their
contents stay as they are. -/
theorem writei_array (d : Buf) (off n : UInt32) (h : Intact (update s.inodes i ip) s)
    (hnodup : s.lh.Nodup) :
    (writei s i ip (.kernel d) off n = .ok (s, ip, -1) ↔ Refused ip off n) ∧
    (¬ Refused ip off n → Room s ip off.toNat n.toNat → ∃ t jp,
      writei s i ip (.kernel d) off n = .ok (t, jp, n.toNat) ∧
      Intact t.inodes t ∧ t.inodes i = jp ∧
      jp.size.toNat = max ip.size.toNat (off.toNat + n.toNat) ∧
      Yields t jp (blit (byteAt s.sect ip) off.toNat n.toNat d) ∧
      ∀ j, j ≠ i → t.inodes j = s.inodes j ∧ ∀ a, a < MAXFILE * BSIZE →
        byteAt t.sect (t.inodes j) a = byteAt s.sect (s.inodes j) a) := by
  refine ⟨⟨fun hok => ?_, fun href => ?_⟩, fun hnot hroom => ?_⟩
  · rcases writei_cases h.sound hok with ⟨href, -⟩ | ⟨-, m, e, hr, -⟩
    · exact href
    · omega
  · rw [refused_iff] at href
    rw [writei]
    split_ifs
    · rfl
    · rfl
    · tauto
  · obtain ⟨t, jp, r, hok⟩ := writei_total (.kernel d) h.sound hnodup hnot hroom
    obtain ⟨href, -⟩ | ⟨-, m, e, rfl, hm, hsp⟩ := writei_cases h.sound hok
    · exact absurd href hnot
    obtain ⟨rfl, rfl⟩ := hsp.eq_of_kernel hm
    rw [Refused] at hnot
    have hintact := hsp.intact h (by omega) (by omega)
    have hself : t.inodes i = jp := by rw [hsp.inodes, update_self]
    have hwhole := hintact.whole i
    rw [hself] at hwhole
    refine ⟨t, jp, hok, hintact, hself, hsp.size, (yields_iff hwhole).mpr fun a ha => ?_,
      fun j hj => ?_⟩
    · have hsize := hwhole.size_le
      rw [hsp.byteAt_eq _ (Nat.div_lt_of_lt_mul (by rw [Nat.mul_comm]; omega))]
      rfl
    · have hsame : t.inodes j = s.inodes j := by rw [hsp.inodes, update_of_ne hj]
      refine ⟨hsame, fun a ha => ?_⟩
      rw [hsame]
      exact hsp.byteAt_other j hj a (Nat.div_lt_of_lt_mul (by rwa [Nat.mul_comm]))

/-! ## A disk without files -/

/-- The free map marks the meta blocks, and the rest of the disk is zero. -/
def blank : Disk where
  sect b := if b = bmapstart then fun k => if k < 5 then 0xff else if k = 5 then 0x3f else 0
    else fun _ => 0
  lh := []

/-- An inode without blocks. -/
def noBlocks : Dinode := ⟨0, 0, 0, 0, 0, fun _ => 0⟩

theorem number_noBlocks (sect : ℕ → Buf) (y : Mkfs.Slot) : number sect noBlocks y = 0 := by
  cases y <;> rfl

theorem inodes_blank : blank.inodes = fun _ => noBlocks := by
  funext j
  have hzero : blank.sect (IBLOCK j) = fun _ => 0 := if_neg (iblock_lt_nmeta j).1.ne
  rw [Disk.inodes, Disk.inode, hzero, getDinode]
  simp [getLe_zero, noBlocks]

theorem metaMarked_blank : blank.MetaMarked := by
  have h : ∀ b : Fin nmeta, blank.bit b = true := by decide
  exact fun b hb => h ⟨b, hb⟩

theorem intact_blank : Intact (update blank.inodes 1 noBlocks) blank := by
  have hinode : ∀ j, update blank.inodes 1 noBlocks j = noBlocks := by
    intro j
    rw [inodes_blank, update_apply]
    split <;> rfl
  refine ⟨⟨metaMarked_blank, fun j y hne => ?_, fun j y hne => ?_, fun j y k z hne => ?_⟩,
    fun j => ?_⟩
  · rw [hinode, number_noBlocks] at hne
    exact absurd rfl hne
  · rw [hinode, number_noBlocks] at hne
    exact absurd rfl hne
  · rw [hinode, number_noBlocks] at hne
    exact absurd rfl hne
  · rw [hinode]
    exact ⟨by decide, fun bn hbn => absurd hbn (Nat.not_lt_zero _)⟩

theorem free_blank : 34 ≤ blank.free := by
  have hclear : ∀ b ∈ Finset.Ico 46 80, blank.bit b = false := by decide
  have hsub : Finset.Ico 46 80 ⊆ (Finset.range FSSIZE).filter fun b => blank.bit b = false := by
    intro b hb
    refine Finset.mem_filter.mpr ⟨Finset.mem_range.mpr ?_, hclear b hb⟩
    rw [Finset.mem_Ico] at hb
    exact hb.2.trans (by decide)
  exact Finset.card_le_card hsub

theorem missing_noBlocks_le (s : Disk) (lo hi : ℕ) : missing s noBlocks lo hi ≤ hi - lo + 1 := by
  have hsum : (∑ bn ∈ Finset.Ico lo hi, if number s.sect noBlocks (slotOf bn) = 0 then 1 else 0) =
      hi - lo := by
    simp [number_noBlocks]
  rw [missing, hsum]
  split <;> omega

theorem not_refused_blank : ¬ Refused noBlocks 0 5 := by
  rw [Refused]
  decide

theorem room_blank : Room blank noBlocks 0 5 :=
  ⟨(missing_noBlocks_le ..).trans (le_trans (by decide) free_blank), by decide +kernel⟩

theorem writei_array_blank : ∃ t jp,
    writei blank (1 : Fin NINODES) noBlocks (.kernel fun _ => 7) 0 5 = .ok (t, jp, 5) ∧
    readi t jp (.kernel fun _ => 0) 1 9 =
      .ok (t, jp, .kernel (blit (fun _ => 0) 0 4 fun _ => 7), 4) := by
  obtain ⟨t, jp, hok, -, -, hsize, hread, -⟩ :=
    (writei_array (fun _ => 7) 0 5 intact_blank List.nodup_nil).2 not_refused_blank room_blank
  have hfive : jp.size.toNat = 5 := hsize
  have hbytes := hread 1 9 (.kernel fun _ => 0) (by decide) trivial
  have hcount : min ((1 : UInt32).toNat + (9 : UInt32).toNat) 5 - (1 : UInt32).toNat = 4 := rfl
  rw [hfive, hcount] at hbytes
  have hseven : ∀ k, k < 4 → blit (byteAt blank.sect noBlocks) (0 : UInt32).toNat
      (5 : UInt32).toNat (fun _ => 7) ((1 : UInt32).toNat + k) = 7 := fun k hk =>
    blit_of_in (Nat.zero_le _) (show 1 + k < 0 + 5 by omega)
  refine ⟨t, jp, hok, hbytes.trans ?_⟩
  rw [Dest.put_congr hseven]
  rfl

/-- **Free blocks are not enough.** A write of 30 blocks to an empty file panics, since the log has
no room for it, with all the blocks it needs free. -/
theorem bigWrite_panics : Intact (update blank.inodes 1 noBlocks) blank ∧
    ¬ Refused noBlocks 0 30720 ∧
    missing blank noBlocks 0 (endBlock 30720) ≤ blank.free ∧
    ∀ r, writei blank (1 : Fin NINODES) noBlocks (.kernel fun _ => 7) 0 30720 ≠ .ok r := by
  have hnot : ¬ Refused noBlocks 0 30720 := by
    rw [Refused]
    decide
  refine ⟨intact_blank, hnot, (missing_noBlocks_le ..).trans (le_trans (by decide) free_blank), ?_⟩
  rintro ⟨t, jp, r⟩ hok
  obtain ⟨href, -⟩ | ⟨-, m, e, -, hm, hsp⟩ := writei_cases intact_blank.sound hok
  · exact hnot href
  · obtain ⟨rfl, -⟩ := hsp.eq_of_kernel hm
    exact absurd (hsp.log_le (by decide)) (by decide)

end Xv6.Content
