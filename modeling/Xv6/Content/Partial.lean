import Xv6.Content.File

/-!
# A write that stops early

A copy from user memory goes straight into the buffer of the block. When it fails, `writei` leaves
the bytes it has copied in the buffer and does not log it, so what a later read finds depends on
whether the buffer is still cached.
-/

namespace Xv6.Content

open Lib Mkfs
open Function (update update_eq_self update_self)

variable {i : Fin NINODES} {s t v : Disk} {ip jp : Dinode} {home : ℕ → Buf}

/-- The blocks that are not in the header of the log are on the disk as they are in the cache. -/
def Clean (home : ℕ → Buf) (s : Disk) : Prop := ∀ c, c ∉ s.lh → s.sect c = home c

/-- The blocks as they are found later: a block in the header of the log is pinned in the cache
until it is installed, in a recovery if need be; any other may have been read from the disk
again. -/
def View (home : ℕ → Buf) (t v : Disk) : Prop :=
  ∀ c, v.sect c = t.sect c ∨ c ∉ t.lh ∧ v.sect c = home c

theorem View.self (home : ℕ → Buf) (t : Disk) : View home t t := fun _ => .inl rfl

section Later

variable {src : Source} {off n r e : ℕ} (h : Spliced i src off n r e s ip t jp)
  (hclean : Clean home s) (hv : View home t v)
include h hclean hv

/-- Only the block of the failed copy is found changed. -/
theorem Spliced.sect_view {c : ℕ} (hc : v.sect c ≠ t.sect c) :
    c ∉ t.lh ∧ v.sect c = s.sect c ∧ c = number t.sect jp (slotOf ((off + r) / BSIZE)) := by
  rcases hv c with hsame | ⟨hmem, hhome⟩
  · exact absurd hsame hc
  · have hold : v.sect c = s.sect c := by
      rw [hhome, hclean c fun hs => hmem (h.subset_lh hs)]
    rcases h.clean c hmem with heq | ⟨-, hlast⟩
    · exact absurd (hold.trans heq.symm) hc
    · exact ⟨hmem, hold, hlast⟩

theorem Spliced.inodes_view : v.inodes i = jp := by
  have hblock : v.sect (IBLOCK i) = t.sect (IBLOCK i) := by
    by_contra hne
    exact (h.sect_view hclean hv hne).1 h.iblock_mem
  have hself : t.inodes i = jp := by rw [h.inodes, update_self]
  rw [← hself, Disk.inodes, Disk.inodes, Disk.inode, Disk.inode, hblock]

theorem Spliced.number_view (y : Mkfs.Slot) : number v.sect jp y = number t.sect jp y := by
  have hself : t.inodes i = jp := by rw [h.inodes, update_self]
  refine number_congr (fun hind => ?_) y
  by_contra hne
  obtain ⟨-, -, heq⟩ := h.sect_view hclean hv hne
  have hinj := h.sound.inj i (.addr (Fin.last NDIRECT)) i (slotOf ((off + r) / BSIZE))
  rw [hself, number_last] at hinj
  exact slotOf_ne_last (hinj hind heq.symm).2

/-- A later read finds the byte in the cache, or the old one, which it then finds only where
nothing was logged. -/
theorem Spliced.byteAt_view (a : ℕ) : byteAt v.sect jp a = byteAt t.sect jp a ∨
    byteAt v.sect jp a = byteAt s.sect ip a ∧ ¬ (off ≤ a ∧ a < off + r) := by
  rw [byteAt, byteAt, h.number_view hclean hv]
  by_cases hzero : number t.sect jp (slotOf (a / BSIZE)) = 0
  · rw [if_pos hzero, if_pos hzero]
    exact .inl rfl
  rw [if_neg hzero, if_neg hzero]
  by_cases hsame : v.sect (number t.sect jp (slotOf (a / BSIZE))) =
      t.sect (number t.sect jp (slotOf (a / BSIZE)))
  · rw [hsame]
    exact .inl rfl
  · obtain ⟨hmem, hold, -⟩ := h.sect_view hclean hv hsame
    have hstored : number s.sect ip (slotOf (a / BSIZE)) ≠ 0 := fun h0 =>
      hmem (h.fresh _ h0 hzero)
    refine .inr ⟨?_, fun hin => ?_⟩
    · rw [hold, byteAt, if_neg hstored, h.stored _ hstored]
    · have hlog := (h.mem_lh (a - off) (by omega)).2.2
      rw [show off + (a - off) = a by omega] at hlog
      exact hmem hlog

end Later

/-- What later reads find is the old contents with the `r` bytes that `writei` has reported. -/
def Reported (home : ℕ → Buf) (i : Fin NINODES) (u : UserMem) (va off r : ℕ) (s : Disk)
    (ip : Dinode) (t : Disk) : Prop :=
  ∀ v, View home t v → Yields v (v.inodes i) (blit (byteAt s.sect ip) off r fun k => u.byte (va + k))

section Stopped

variable {u : UserMem} {va off n r e : ℕ} (h : Spliced i (.user u va) off n r e s ip t jp)
  (hclean : Clean home s) (hwhole : Whole t.sect jp)
include h hclean hwhole

theorem Spliced.byte_of_reported (hrep : Reported home i u va off r s ip t) {k : ℕ} (hrk : r ≤ k)
    (hke : k < e) (hin : off + k < ip.size.toNat) :
    u.byte (va + k) = byteAt s.sect ip (off + k) := by
  have hsize := h.size
  have hmax := hwhole.size_le
  have hyields := hrep t (View.self home t)
  rw [h.inodes_view hclean (View.self home t)] at hyields
  have hbyte := (yields_iff hwhole).mp hyields (off + k) (by omega)
  rwa [h.byteAt_eq _ (Nat.div_lt_of_lt_mul (by rw [Nat.mul_comm]; omega)), if_pos (by omega),
    blit_of_out (by omega), Nat.add_sub_cancel_left] at hbyte

theorem Spliced.reported (hsame : ∀ k, r ≤ k → k < e → off + k < ip.size.toNat →
    u.byte (va + k) = byteAt s.sect ip (off + k)) : Reported home i u va off r s ip t := by
  intro v hv
  have hle := h.le_end
  have hsize := h.size
  have hmax := hwhole.size_le
  have hwhole_v : Whole v.sect jp := by
    refine ⟨hmax, fun bn hbn => ?_⟩
    rw [h.number_view hclean hv]
    exact hwhole.stored bn hbn
  rw [h.inodes_view hclean hv]
  refine (yields_iff hwhole_v).mpr fun a ha => ?_
  rcases h.byteAt_view hclean hv a with hcached | ⟨hold, hout⟩
  · rw [hcached, h.byteAt_eq a (Nat.div_lt_of_lt_mul (by rw [Nat.mul_comm]; omega))]
    by_cases hin : off ≤ a ∧ a < off + r
    · rw [if_pos (by omega), blit_of_in hin.1 hin.2]
      rfl
    · rw [blit_of_out hin]
      split
      · next hcopied =>
          have hbyte := hsame (a - off) (by omega) (by omega) (by omega)
          rwa [show off + (a - off) = a by omega] at hbyte
      · rfl
  · rw [hold, blit_of_out hout]

end Stopped

/-- The bytes that `writei` reports, if the first `w` of `n` can be copied: those before the block in
which a copy fails. -/
def reportedLen (off n w : ℕ) : ℕ := if w = n then n else (off + w) / BSIZE * BSIZE - off

theorem Spliced.eq_reportedLen {src : Source} {off n r e : ℕ} (h : Spliced i src off n r e s ip t jp)
    (hr : r ≤ n) (he : e ≤ n) : r = reportedLen off n e := by
  have hle := h.le_end
  have hstop := h.stop
  have haligned := h.aligned
  rw [reportedLen]
  simp only [BSIZE] at *
  split <;> omega

/-- **A write that stops early** is found as reported exactly if the bytes that it has copied to
the block where it stopped, and that lie inside the file, were there before. -/
theorem reported_iff {u : UserMem} {va r w : ℕ} {off n : UInt32}
    (h : Intact (update s.inodes i ip) s) (hclean : Clean home s)
    (hok : writei s i ip (.user u va) off n = .ok (t, jp, r)) (hw : u.Span va n.toNat w) :
    r = reportedLen off.toNat n.toNat w ∧
      (Reported home i u va off.toNat (reportedLen off.toNat n.toNat w) s ip t ↔
        ∀ k, reportedLen off.toNat n.toNat w ≤ k → k < w → off.toNat + k < ip.size.toNat →
          u.byte (va + k) = byteAt s.sect ip (off.toNat + k)) := by
  obtain ⟨-, -, -, hneg⟩ | ⟨hnot, m, e, hm, hmn, hsp⟩ := writei_cases h.sound hok
  · omega
  obtain rfl : r = m := by omega
  obtain rfl : w = e := by
    have hspan : u.Span (va + 0) n.toNat e := hsp.span
    exact hw.unique hspan
  rw [← hsp.eq_reportedLen hmn hw.le]
  rw [Refused] at hnot
  have hle := hsp.le_end
  have hwle := hw.le
  have hwhole := (hsp.intact h (by omega) (by omega)).whole i
  rw [hsp.inodes, update_self] at hwhole
  exact ⟨rfl, fun hrep k => hsp.byte_of_reported hclean hwhole hrep, hsp.reported hclean hwhole⟩

/-! ## A page boundary -/

/-- A file of five bytes on the blank disk, and its inode. -/
def sevens : Disk × Dinode :=
  match writei blank (1 : Fin NINODES) noBlocks (.kernel fun _ => 7) 0 5 with
  | .ok (t, jp, _) => (⟨t.sect, []⟩, jp)
  | .error _ => (blank, noBlocks)

/-- The memory of a process with one page. -/
def onePage (x : UInt8) : UserMem := ⟨fun p => p = 0, fun _ => x⟩

theorem sevens_spec : Intact (update sevens.1.inodes 1 sevens.2) sevens.1 ∧
    sevens.1.lh = [] ∧ sevens.2.size.toNat = 5 ∧ byteAt sevens.1.sect sevens.2 0 = 7 ∧
    sevens.1.inodes 1 = sevens.2 := by
  obtain ⟨t, jp, r, hok⟩ := writei_total (.kernel fun _ => 7) intact_blank.sound
    List.nodup_nil not_refused_blank room_blank
  obtain ⟨href, -⟩ | ⟨-, m, e, -, hm, hsp⟩ := writei_cases intact_blank.sound hok
  · exact absurd href not_refused_blank
  obtain ⟨rfl, rfl⟩ := hsp.eq_of_kernel hm
  have hintact := hsp.intact intact_blank (Nat.zero_le _) (show 0 + 5 ≤ 274432 by omega)
  have hself : t.inodes 1 = jp := by rw [hsp.inodes, update_self]
  have hsevens : sevens = (⟨t.sect, []⟩, jp) := by
    unfold sevens
    simp only [hok]
  have hupdate : update (Disk.inodes ⟨t.sect, []⟩) 1 jp = t.inodes := by
    rw [← hself]
    exact update_eq_self 1 t.inodes
  rw [hsevens]
  refine ⟨?_, rfl, hsp.size, ?_, hself⟩
  · rw [hupdate]
    exact ⟨hintact.sound.congr rfl fun _ _ => rfl, hintact.whole⟩
  · exact (hsp.byteAt_eq 0 (by decide)).trans (if_pos (by decide))

theorem span_onePage (x : UInt8) : (onePage x).Span 4095 2 1 := by
  have hhas : ∀ a, (onePage x).Has a ↔ a < 4096 := by
    intro a
    simp only [UserMem.Has, UserMem.walkaddr, onePage, Bool.and_eq_true, decide_eq_true_eq, PGSIZE,
      MAXVA]
    omega
  exact ⟨by decide, fun k hk => (hhas _).mpr (by omega),
    fun _ hk => absurd ((hhas _).mp hk) (by omega)⟩

/-- The write of two bytes, the second of which is not mapped: one is copied, and none reported. -/
theorem writei_onePage (x : UInt8) : ∃ t jp,
    writei sevens.1 (1 : Fin NINODES) sevens.2 (.user (onePage x) 4095) 0 2 = .ok (t, jp, (0 : ℕ)) ∧
    Spliced 1 (.user (onePage x) 4095) 0 2 0 1 sevens.1 sevens.2 t jp ∧ Whole t.sect jp := by
  obtain ⟨hintact, hlh, hsize, -, -⟩ := sevens_spec
  have hwhole := hintact.whole 1
  rw [update_self] at hwhole
  have hnot : ¬ Refused sevens.2 0 2 := by
    rw [Refused, hsize]
    decide
  have hroom : Room sevens.1 sevens.2 0 2 := by
    have hstored := hwhole.stored 0 (by omega)
    have hone : endBlock (0 + 2) = 1 := rfl
    have hnone : missing sevens.1 sevens.2 (0 / BSIZE) (endBlock (0 + 2)) = 0 := by
      rw [missing, hone, Nat.zero_div, Finset.sum_eq_sum_Ico_succ_bot (by decide), if_neg hstored]
      simp
    refine ⟨by rw [hnone]; exact Nat.zero_le _, ?_⟩
    rw [hnone, hlh, hone]
    simp [known, knownAt, hstored]
  obtain ⟨t, jp, r, hok⟩ := writei_total (.user (onePage x) 4095) hintact.sound
    (by rw [hlh]; exact List.nodup_nil) hnot hroom
  obtain ⟨href, -⟩ | ⟨-, m, e, rfl, -, hsp⟩ := writei_cases hintact.sound hok
  · exact absurd href hnot
  obtain rfl : e = 1 := UserMem.Span.unique hsp.span (span_onePage x)
  have hle := hsp.le_end
  have htwo : (2 : UInt32).toNat = 2 := rfl
  have hzero : (0 : UInt32).toNat = 0 := rfl
  obtain rfl : m = 0 := by
    have haligned := hsp.aligned (by omega)
    rw [hzero] at haligned
    simp only [BSIZE] at haligned
    omega
  have hkept := (hsp.intact hintact (Nat.zero_le _) (Nat.zero_le _)).whole 1
  rw [hsp.inodes, update_self] at hkept
  exact ⟨t, jp, hok, hsp, hkept⟩

theorem reported_iff_onePage : ∃ t jp,
    writei sevens.1 (1 : Fin NINODES) sevens.2 (.user (onePage 7) 4095) 0 2 = .ok (t, jp, (0 : ℕ)) ∧
    Reported sevens.1.sect 1 (onePage 7) 4095 0 0 sevens.1 sevens.2 t := by
  obtain ⟨hintact, -, hsize, hbyte, -⟩ := sevens_spec
  obtain ⟨t, jp, hok, -, -⟩ := writei_onePage 7
  refine ⟨t, jp, hok, (reported_iff hintact (fun _ _ => rfl) hok (span_onePage 7)).2.mpr ?_⟩
  intro k _ hk _
  obtain rfl : k = 0 := by omega
  exact hbyte.symm

/-- A byte that `writei` has not reported is read afterwards. -/
theorem onePage_not_reported : Intact (update sevens.1.inodes 1 sevens.2) sevens.1 ∧
    Clean sevens.1.sect sevens.1 ∧ ∃ t jp,
    writei sevens.1 (1 : Fin NINODES) sevens.2 (.user (onePage 9) 4095) 0 2 = .ok (t, jp, (0 : ℕ)) ∧
    ¬ Reported sevens.1.sect 1 (onePage 9) 4095 0 0 sevens.1 sevens.2 t := by
  obtain ⟨hintact, -, hsize, hbyte, -⟩ := sevens_spec
  obtain ⟨t, jp, hok, hsp, hwhole⟩ := writei_onePage 9
  refine ⟨hintact, fun _ _ => rfl, t, jp, hok, fun hrep => ?_⟩
  have hsame := hsp.byte_of_reported (fun _ _ => rfl) hwhole hrep le_rfl (by decide)
    (show 0 + 0 < sevens.2.size.toNat by omega)
  rw [hbyte] at hsame
  cases hsame

end Xv6.Content
