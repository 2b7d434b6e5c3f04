import Xv6.Lib.Loop
import Xv6.Mkfs.Map

/-!
# Appending to an inode

What `iappend` does to the block map and the contents of the image. The lemmas give the result as
well as its properties, so they also say that no assertion fails and no read is past the end of the
image, as long as the blocks that are needed are within it.
-/

namespace Xv6.Mkfs

open Lib
open Function (update update_eq_self update_idem update_self)

/-- The number of blocks in a file of `n` bytes. -/
def blocks (n : ℕ) : ℕ := (n + BSIZE - 1) / BSIZE

/-- The number of blocks that a file of `n` blocks takes, with its indirect block. -/
def taken (n : ℕ) : ℕ := if NDIRECT < n then n + 1 else n

variable {inode : Fin NINODES → Dinode} {nb : Fin NINODES → ℕ} {s : Img} {i : Fin NINODES}
  {fbn n : ℕ}

/-! ## One block -/

/-- The block `fbn` of the inode `i` is in its slot, now or already. -/
structure Fetched (inode : Fin NINODES → Dinode) (nb : Fin NINODES → ℕ) (s : Img)
    (i : Fin NINODES) (fbn : ℕ) (din : Dinode) (t : Img) : Prop where
  maps : Maps (update inode i din) t.sect t.freeblock (update nb i (fbn + 1))
  freeblock : t.freeblock + taken (nb i) = s.freeblock + taken (fbn + 1)
  nsect : t.nsect = FSSIZE
  freeinode : t.freeinode = s.freeinode
  addrs : ∃ f, din = { inode i with addrs := f }
  sect : ∀ b, b ≠ din.indirect → t.sect b = s.sect b
  stored : ∀ j x, number s.sect (inode j) x ≠ 0 →
    number t.sect (update inode i din j) x = number s.sect (inode j) x

theorem used_succ_direct (hfbn : fbn < NDIRECT) (hle : fbn ≤ n) (hge : n ≤ fbn + 1) (x : Slot) :
    x = slotOf fbn ∨ x.Used n ↔ x.Used (fbn + 1) := by
  rw [slotOf, if_pos hfbn]
  simp only [NDIRECT] at hfbn
  cases x with
  | addr k =>
    simp only [Slot.addr.injEq, Slot.Used, Fin.ext_iff, Fin.val_ofNat, NDIRECT]
    omega
  | entry k =>
    simp only [reduceCtorEq, false_or, Slot.Used, NDIRECT]
    omega

theorem used_succ_indirect (hfbn : NDIRECT ≤ fbn) (hmax : fbn < MAXFILE) (hle : fbn ≤ n)
    (hge : n ≤ fbn + 1) (x : Slot) :
    x = slotOf fbn ∨ x = .addr (Fin.last NDIRECT) ∨ x.Used n ↔ x.Used (fbn + 1) := by
  rw [slotOf, if_neg (by omega)]
  simp only [NDIRECT, MAXFILE, NINDIRECT, BSIZE] at hfbn hmax
  cases x with
  | addr k =>
    have hk : (k : ℕ) < 13 := k.isLt
    simp only [reduceCtorEq, Slot.addr.injEq, Slot.Used, Fin.ext_iff, Fin.val_last, NDIRECT]
    omega
  | entry k =>
    have hk : (k : ℕ) < 256 := k.isLt
    simp only [Slot.entry.injEq, reduceCtorEq, false_or, Slot.Used, Fin.ext_iff, Fin.val_ofNat,
      NDIRECT, NINDIRECT, BSIZE]
    omega

theorem used_slotOf_iff {bn n : ℕ} (hbn : bn < MAXFILE) : (slotOf bn).Used n ↔ bn < n := by
  unfold slotOf
  simp only [MAXFILE, NDIRECT, NINDIRECT, BSIZE] at hbn
  split
  · next h =>
      simp only [Slot.Used, Fin.val_ofNat, NDIRECT] at *
      omega
  · next h =>
      simp only [Slot.Used, Fin.val_ofNat, NDIRECT, NINDIRECT, BSIZE] at *
      omega

theorem number_slotOf_direct (hfbn : fbn < NDIRECT) (sect : ℕ → Buf) (d : Dinode) :
    number sect d (slotOf fbn) = (d.addrs (Fin.ofNat (NDIRECT + 1) fbn)).toNat := by
  rw [slotOf, if_pos hfbn, number]

theorem fillAddr_frame (s : Img) (d : Dinode) (k : Fin (NDIRECT + 1)) :
    (s.fillAddr d k).2.sect = s.sect ∧ (s.fillAddr d k).2.nsect = s.nsect ∧
      (s.fillAddr d k).2.freeinode = s.freeinode ∧
      ∃ f, (s.fillAddr d k).1 = { d with addrs := f } := by
  unfold Img.fillAddr
  split
  · exact ⟨rfl, rfl, rfl, _, rfl⟩
  · exact ⟨rfl, rfl, rfl, d.addrs, rfl⟩

section
variable (h : Maps inode s.sect s.freeblock nb)
include h

/-- A block among the direct ones. -/
theorem fetched_direct (hsect : s.nsect = FSSIZE)
    (hfbn : fbn < NDIRECT) (hle : fbn ≤ nb i) (hge : nb i ≤ fbn + 1)
    (hroom : s.freeblock ≤ FSSIZE) :
    ∃ din t, s.fblock (inode i) fbn = .ok (number t.sect din (slotOf fbn), din, t) ∧
      Fetched inode nb s i fbn din t := by
  have hfills := fills_fillAddr (i := i) h.toOwns hroom (Fin.ofNat (NDIRECT + 1) fbn)
  obtain ⟨hsame, hnsect, hino, haddrs⟩ := fillAddr_frame s (inode i) (Fin.ofNat (NDIRECT + 1) fbn)
  have hslot : Slot.addr (Fin.ofNat (NDIRECT + 1) fbn) = slotOf fbn := by rw [slotOf, if_pos hfbn]
  have hused : (slotOf fbn).Used (nb i) ↔ nb i = fbn + 1 := by
    rw [← hslot, Slot.Used, Fin.val_ofNat]
    simp only [NDIRECT] at *
    omega
  rw [hslot] at hfills
  refine ⟨(s.fillAddr (inode i) (Fin.ofNat (NDIRECT + 1) fbn)).1,
    (s.fillAddr (inode i) (Fin.ofNat (NDIRECT + 1) fbn)).2, ?_, ?_⟩
  · rw [Img.fblock, if_pos hfbn, number_slotOf_direct hfbn]
  · refine ⟨⟨hfills.owns, fun j x => ?_⟩, ?_, hnsect.trans hsect, hino, haddrs,
      fun b _ => by rw [hsame], fun j x hx => ?_⟩
    · rw [hfills.ne_zero h.toOwns, h.used]
      by_cases hj : j = i
      · subst hj
        simp only [true_and, update_self]
        exact used_succ_direct hfbn hle hge x
      · simp [hj]
    · have hnumber := (h.used i (slotOf fbn)).not
      rw [not_not, hused] at hnumber
      rw [hfills.free]
      simp only [taken, NDIRECT] at *
      split_ifs <;> omega
    · rw [hfills.stored, if_neg]
      rintro ⟨⟨rfl, rfl⟩, h0⟩
      exact hx h0

/-- A block behind the indirect block, which is allocated first if there is none. -/
theorem fetched_indirect (hsect : s.nsect = FSSIZE)
    (hfbn : NDIRECT ≤ fbn) (hmax : fbn < MAXFILE) (hle : fbn ≤ nb i) (hge : nb i ≤ fbn + 1)
    (hroom : s.freeblock + taken (fbn + 1) ≤ FSSIZE + taken (nb i)) :
    ∃ din t, s.fblock (inode i) fbn = .ok (number t.sect din (slotOf fbn), din, t) ∧
      Fetched inode nb s i fbn din t := by
  have hle' : s.freeblock ≤ FSSIZE := by
    simp only [taken] at hroom
    split_ifs at hroom <;> omega
  have hfirst := fills_fillAddr (i := i) h.toOwns hle' (Fin.last NDIRECT)
  obtain ⟨hsame, hnsect, hino, haddrs⟩ := fillAddr_frame s (inode i) (Fin.last NDIRECT)
  have hfblock : s.fblock (inode i) fbn = ((s.fillAddr (inode i) (Fin.last NDIRECT)).2.fillEntry
      (s.fillAddr (inode i) (Fin.last NDIRECT)).1.indirect (fbn - NDIRECT)).bind fun r =>
        .ok (r.1, (s.fillAddr (inode i) (Fin.last NDIRECT)).1, r.2) := by
    rw [Img.fblock, if_neg (by omega)]
    rfl
  rw [hfblock]
  generalize (s.fillAddr (inode i) (Fin.last NDIRECT)).1 = din at *
  generalize (s.fillAddr (inode i) (Fin.last NDIRECT)).2 = s₁ at *
  have hind : (update inode i din i).indirect ≠ 0 :=
    (hfirst.ne_zero h.toOwns i (.addr (Fin.last NDIRECT))).mpr (.inl ⟨rfl, rfl⟩)
  have hslot : Slot.entry (Fin.ofNat NINDIRECT (fbn - NDIRECT)) = slotOf fbn := by
    rw [slotOf, if_neg (by omega)]
  have hval : ((Fin.ofNat NINDIRECT (fbn - NDIRECT) : Fin NINDIRECT) : ℕ) = fbn - NDIRECT := by
    rw [Fin.val_ofNat]
    exact Nat.mod_eq_of_lt (by simp only [MAXFILE] at hmax; omega)
  -- which of the two slots were empty
  have hlast : number s.sect (inode i) (.addr (Fin.last NDIRECT)) = 0 ↔ nb i ≤ NDIRECT := by
    have hused := (h.used i (.addr (Fin.last NDIRECT))).not
    rwa [not_not, Slot.Used, Fin.val_last, not_lt] at hused
  have hentry : number s.sect (inode i) (slotOf fbn) = 0 ↔ nb i = fbn := by
    have hused := (h.used i (slotOf fbn)).not
    rw [not_not, ← hslot, Slot.Used, hval] at hused
    rw [← hslot, hused]
    omega
  have hfree₁ := hfirst.free
  have hroom₁ : s₁.freeblock ≤ FSSIZE := by
    simp only [taken] at hroom
    split_ifs at hroom hfree₁ <;> omega
  obtain ⟨t, ht, hsecond, htsect, htino, hframe⟩ := fills_fillEntry (i := i) hfirst.owns hroom₁
    (hnsect.trans hsect) hind (Fin.ofNat NINDIRECT (fbn - NDIRECT))
  rw [hval, update_self] at ht
  rw [update_self] at hframe
  rw [hslot] at ht hsecond
  have hentry₁ : number s₁.sect (update inode i din i) (slotOf fbn) =
      number s.sect (inode i) (slotOf fbn) := by
    rw [hfirst.stored, if_neg]
    rw [← hslot]
    simp
  refine ⟨din, t, by rw [ht]; rfl, ⟨hsecond.owns, fun j x => ?_⟩, ?_, htsect, htino.trans hino,
    haddrs, fun b hb => by rw [hframe b hb, hsame], fun j x hx => ?_⟩
  · rw [hsecond.ne_zero hfirst.owns, hfirst.ne_zero h.toOwns, h.used]
    by_cases hj : j = i
    · subst hj
      simp only [true_and, update_self]
      exact used_succ_indirect hfbn hmax hle hge x
    · simp [hj]
  · rw [hsecond.free, hentry₁, hfree₁]
    simp only [taken]
    split_ifs <;> omega
  · have hkept : number s₁.sect (update inode i din j) x = number s.sect (inode j) x := by
      rw [hfirst.stored, if_neg]
      rintro ⟨⟨rfl, rfl⟩, h0⟩
      exact hx h0
    rw [hsecond.stored, if_neg, hkept]
    rintro ⟨⟨rfl, rfl⟩, h0⟩
    exact hx (hkept ▸ h0)

theorem fetched_fblock (hsect : s.nsect = FSSIZE)
    (hmax : fbn < MAXFILE) (hle : fbn ≤ nb i) (hge : nb i ≤ fbn + 1)
    (hroom : s.freeblock + taken (fbn + 1) ≤ FSSIZE + taken (nb i)) :
    ∃ din t, s.fblock (inode i) fbn = .ok (number t.sect din (slotOf fbn), din, t) ∧
      Fetched inode nb s i fbn din t := by
  by_cases hfbn : fbn < NDIRECT
  · refine fetched_direct h hsect hfbn hle hge ?_
    simp only [taken] at hroom
    split_ifs at hroom <;> omega
  · exact fetched_indirect h hsect (by omega) hmax hle hge hroom

end

/-! ## Contents -/

/-- The byte at `a` of a file; a block that is not mapped reads as zeros. -/
def byteAt (sect : ℕ → Buf) (d : Dinode) (a : ℕ) : UInt8 :=
  if number sect d (slotOf (a / BSIZE)) = 0 then 0
  else sect (number sect d (slotOf (a / BSIZE))) (a % BSIZE)

theorem slotOf_ne_last {bn : ℕ} : slotOf bn ≠ .addr (Fin.last NDIRECT) := by
  unfold slotOf
  split
  · next h =>
      intro heq
      simp only [Slot.addr.injEq, Fin.ext_iff, Fin.val_ofNat, Fin.val_last, NDIRECT] at heq h
      omega
  · simp

theorem slotOf_inj {bn bn' : ℕ} (h : bn < MAXFILE) (h' : bn' < MAXFILE)
    (heq : slotOf bn = slotOf bn') : bn = bn' := by
  unfold slotOf at heq
  simp only [MAXFILE, NDIRECT, NINDIRECT, BSIZE] at h h'
  split_ifs at heq with hlt hlt' hlt'
  all_goals
    simp only [Slot.addr.injEq, Slot.entry.injEq, Fin.ext_iff, Fin.val_ofNat, NDIRECT, NINDIRECT,
      BSIZE] at heq hlt hlt'
    omega

variable {din : Dinode}

/-- The block has been given a number. -/
theorem Fetched.number_ne_zero {t : Img} (hf : Fetched inode nb s i fbn din t)
    (hmax : fbn < MAXFILE) : number t.sect (update inode i din i) (slotOf fbn) ≠ 0 := by
  rw [hf.maps.used, update_self]
  exact (used_slotOf_iff hmax).mpr (Nat.lt_succ_self fbn)

theorem Fetched.number_lt {t : Img} (hf : Fetched inode nb s i fbn din t)
    (hmax : fbn < MAXFILE) (hroom : t.freeblock ≤ FSSIZE) :
    number t.sect din (slotOf fbn) < FSSIZE := by
  have hbounds := hf.maps.toOwns.bounds (hf.number_ne_zero hmax)
  rw [update_self] at hbounds
  omega

/-- A block that is new was not taken. -/
theorem Fetched.le_number {t : Img} (h : Maps inode s.sect s.freeblock nb)
    (hf : Fetched inode nb s i fbn din t) {j : Fin NINODES} {x : Slot}
    (h0 : number s.sect (inode j) x = 0) (hnew : number t.sect (update inode i din j) x ≠ 0) :
    s.freeblock ≤ number t.sect (update inode i din j) x := by
  by_contra hlt
  have hbounds := hf.maps.toOwns.bounds hnew
  obtain ⟨⟨j', x'⟩, hne, hheld⟩ := (h.owned.used_iff _).mp ⟨hbounds.1, not_le.mp hlt⟩
  dsimp only at hheld
  have hkept := hf.stored j' x' (hheld ▸ hne)
  obtain ⟨rfl, rfl⟩ := hf.maps.toOwns.eq_of_number hnew (hkept.trans hheld)
  exact hne (hheld ▸ h0)

/-- Fetching a block changes no contents. -/
theorem Fetched.byteAt {t : Img} (h : Maps inode s.sect s.freeblock nb)
    (hf : Fetched inode nb s i fbn din t) (j : Fin NINODES) (a : ℕ) :
    byteAt t.sect (update inode i din j) a = Mkfs.byteAt s.sect (inode j) a := by
  unfold Mkfs.byteAt
  set x := slotOf (a / BSIZE) with hx
  have hsect : number t.sect (update inode i din j) x ≠ 0 →
      t.sect (number t.sect (update inode i din j) x) =
        s.sect (number t.sect (update inode i din j) x) := by
    refine fun hne => hf.sect _ fun heq => ?_
    have hlast : number t.sect (update inode i din i) (.addr (Fin.last NDIRECT)) =
        number t.sect (update inode i din j) x := by
      rw [update_self, heq]
      rfl
    exact slotOf_ne_last (hf.maps.toOwns.eq_of_number hne hlast).2.symm
  by_cases h0 : number s.sect (inode j) x = 0
  · rw [if_pos h0]
    split
    · rfl
    · next hnew => rw [hsect hnew, h.fresh _ (hf.le_number h h0 hnew)]
  · have hkept := hf.stored j x h0
    rw [if_neg h0, if_neg (hkept ▸ h0), hsect (hkept ▸ h0), hkept]

/-! ## The loop -/

/-- The bytes `p` have been appended to the inode `i` at `off`. -/
structure Appended (inode : Fin NINODES → Dinode) (nb : Fin NINODES → ℕ) (s : Img)
    (i : Fin NINODES) (off : ℕ) (p : List UInt8) (din : Dinode) (t : Img) : Prop where
  maps : Maps (update inode i din) t.sect t.freeblock
    (update nb i (blocks (off + p.length)))
  freeblock : t.freeblock + taken (blocks off) = s.freeblock + taken (blocks (off + p.length))
  nsect : t.nsect = FSSIZE
  freeinode : t.freeinode = s.freeinode
  addrs : ∃ f, din = { inode i with addrs := f }
  sect : ∀ b, 0 < b → b < nmeta → t.sect b = s.sect b
  byteAt : ∀ j a, a / BSIZE < MAXFILE → byteAt t.sect (update inode i din j) a =
    if j = i ∧ off ≤ a ∧ a < off + p.length then p.getD (a - off) 0
    else Mkfs.byteAt s.sect (inode j) a

namespace Appended

variable {off : ℕ} {p q : List UInt8} {din din' : Dinode} {t u : Img}

theorem nothing (h : Maps inode s.sect s.freeblock nb) (hsect : s.nsect = FSSIZE)
    (hnb : nb i = blocks off) : Appended inode nb s i off [] (inode i) s where
  maps := by
    rw [update_eq_self, List.length_nil, Nat.add_zero, ← hnb, update_eq_self]
    exact h
  freeblock := rfl
  nsect := hsect
  freeinode := rfl
  addrs := ⟨(inode i).addrs, rfl⟩
  sect _ _ _ := rfl
  byteAt j a _ := by
    rw [update_eq_self, if_neg]
    simp

theorem trans (h : Appended inode nb s i off p din t)
    (h' : Appended (update inode i din)
      (update nb i (blocks (off + p.length))) t i (off + p.length) q din' u) :
    Appended inode nb s i off (p ++ q) din' u where
  maps := by
    have hmaps := h'.maps
    rwa [update_idem, update_idem, Nat.add_assoc, ← List.length_append] at hmaps
  freeblock := by
    have hfirst := h.freeblock
    have hsecond := h'.freeblock
    rw [Nat.add_assoc off] at hsecond
    rw [List.length_append]
    omega
  nsect := h'.nsect
  freeinode := h'.freeinode.trans h.freeinode
  addrs := by
    obtain ⟨f, rfl⟩ := h.addrs
    obtain ⟨g, hg⟩ := h'.addrs
    exact ⟨g, by rw [hg, update_self]⟩
  sect b hpos hb := (h'.sect b hpos hb).trans (h.sect b hpos hb)
  byteAt j a ha := by
    have hsecond := h'.byteAt j a ha
    rw [update_idem] at hsecond
    rw [hsecond, h.byteAt j a ha, List.length_append]
    by_cases hin : off + p.length ≤ a
    · by_cases hq : j = i ∧ a < off + p.length + q.length
      · rw [if_pos ⟨hq.1, hin, hq.2⟩, if_pos ⟨hq.1, by omega, by omega⟩,
          List.getD_append_right _ _ _ _ (by omega)]
        congr 1
        omega
      · rw [if_neg (by tauto), if_neg (by omega), if_neg (by omega)]
    · rw [if_neg (by omega)]
      by_cases hp : j = i ∧ off ≤ a
      · rw [if_pos ⟨hp.1, hp.2, by omega⟩, if_pos ⟨hp.1, hp.2, by omega⟩,
          List.getD_append _ _ _ _ (by omega)]
      · rw [if_neg (by tauto), if_neg (by tauto)]

end Appended

/-- The bytes that one turn writes to a block; the source holds more of them. -/
theorem Fetched.appended {off : ℕ} {p : List UInt8} {t : Img}
    (h : Maps inode s.sect s.freeblock nb) (hf : Fetched inode nb s i (off / BSIZE) din t)
    (hnb : nb i = blocks off) (hpos : 0 < p.length) (hmax : off / BSIZE < MAXFILE)
    (hlen : off % BSIZE + p.length ≤ BSIZE) (hroom : t.freeblock ≤ FSSIZE) (q : List UInt8) :
    Appended inode nb s i off p din (t.wsect (number t.sect din (slotOf (off / BSIZE)))
      (blit (t.sect (number t.sect din (slotOf (off / BSIZE)))) (off % BSIZE) p.length
        ((p ++ q).getD · 0))) := by
  set x := number t.sect din (slotOf (off / BSIZE)) with hx
  have hxi : number t.sect (update inode i din i) (slotOf (off / BSIZE)) = x := by
    rw [update_self]
  have hblocks : blocks (off + p.length) = off / BSIZE + 1 := by
    simp only [blocks, BSIZE] at *
    omega
  have hslot := hf.number_ne_zero hmax
  have hbounds := hf.maps.toOwns.bounds hslot
  have hused : x ≠ 0 := hxi ▸ hslot
  rw [hxi] at hbounds
  set buf := blit (t.sect x) (off % BSIZE) p.length ((p ++ q).getD · 0) with hbuf
  have hnumber : ∀ j y, number (t.wsect x buf).sect (update inode i din j) y =
      number t.sect (update inode i din j) y := fun j y => by
    rw [← hxi]
    exact hf.maps.toOwns.number_write buf slotOf_ne_last hslot j y
  refine ⟨?_, ?_, ?_, hf.freeinode, hf.addrs, fun b hpos hb => ?_, fun j a ha => ?_⟩
  · rw [hblocks]
    refine ⟨hf.maps.toOwns.congr (fun b hb => Img.sect_wsect_of_ne ?_ _) hnumber,
      fun j y => by rw [hnumber, hf.maps.used]⟩
    omega
  · rw [hblocks, ← hnb]
    exact hf.freeblock
  · rw [Img.nsect_wsect (by rw [hf.nsect]; omega), hf.nsect]
  · have hind : din.indirect = 0 ∨ nmeta ≤ din.indirect := by
      by_cases h0 : din.indirect = 0
      · exact .inl h0
      · have hlast := hf.maps.toOwns.bounds (i := i) (a := .addr (Fin.last NDIRECT))
          (by rwa [update_self])
        rw [update_self] at hlast
        exact .inr hlast.1
    rw [← hf.sect b (by omega)]
    exact Img.sect_wsect_of_ne (by omega) _
  · rw [← hf.byteAt h j a]
    unfold Mkfs.byteAt
    rw [hnumber]
    by_cases heq : number t.sect (update inode i din j) (slotOf (a / BSIZE)) = x
    · obtain ⟨hj, hsame⟩ := hf.maps.toOwns.eq_of_number hslot (heq.trans hxi.symm)
      have hdiv := slotOf_inj ha hmax hsame
      have hin : off % BSIZE ≤ a % BSIZE ∧ a % BSIZE < off % BSIZE + p.length ↔
          j = i ∧ off ≤ a ∧ a < off + p.length := by
        simp only [BSIZE] at *
        omega
      rw [heq, if_neg hused, if_neg hused, Img.sect_wsect_self, hbuf, blit]
      simp only [hin]
      split
      · rw [List.getD_append _ _ _ _ (by omega)]
        congr 1
        simp only [BSIZE] at *
        omega
      · rfl
    · have hout : ¬ (j = i ∧ off ≤ a ∧ a < off + p.length) := by
        rintro ⟨rfl, hle, hlt⟩
        refine heq ?_
        have hdiv : a / BSIZE = off / BSIZE := by
          simp only [BSIZE] at *
          omega
        rw [hdiv, hxi]
      rw [if_neg hout, Img.sect_wsect_of_ne heq]

theorem taken_mono {m n : ℕ} (h : m ≤ n) : taken m ≤ taken n := by
  simp only [taken]
  split_ifs <;> omega

theorem blocks_mono {m n : ℕ} (h : m ≤ n) : blocks m ≤ blocks n :=
  Nat.div_le_div_right (by omega)

/-- The loop appends all of the bytes, if there is room for them. -/
theorem appended_iappendLoop {t off : ℕ} {p : List UInt8} (h : Maps inode s.sect s.freeblock nb)
    (hsect : s.nsect = FSSIZE) (hnb : nb i = blocks off) (ht : p.length ≤ t)
    (hmax : off + p.length ≤ MAXFILE * BSIZE)
    (hroom : s.freeblock + taken (blocks (off + p.length)) ≤ FSSIZE + taken (blocks off)) :
    ∃ din u, Img.iappendLoop t s (inode i) p off = .ok (din, off + p.length, u) ∧
      Appended inode nb s i off p din u := by
  induction t generalizing inode nb s p off with
  | zero =>
    obtain rfl : p = [] := List.eq_nil_of_length_eq_zero (by omega)
    exact ⟨_, _, rfl, .nothing h hsect hnb⟩
  | succ t ih =>
    by_cases hp : p = []
    · subst hp
      exact ⟨_, _, by rw [Img.iappendLoop, if_pos rfl]; rfl, .nothing h hsect hnb⟩
    have hpos := List.length_pos_of_ne_nil hp
    set m := min p.length ((off / BSIZE + 1) * BSIZE - off) with hm
    -- the block is the last one of the file, or the next
    have hturn : off / BSIZE < MAXFILE ∧ off / BSIZE ≤ nb i ∧ nb i ≤ off / BSIZE + 1 ∧
        0 < m ∧ m ≤ p.length ∧ off % BSIZE + m ≤ BSIZE ∧ off - off / BSIZE * BSIZE = off % BSIZE ∧
        off / BSIZE + 1 = blocks (off + m) := by
      rw [hnb]
      simp only [blocks, BSIZE, MAXFILE, NINDIRECT, NDIRECT] at *
      omega
    obtain ⟨hfbn, hle, hge, hm0, hmp, hfits, hoff, hblocks⟩ := hturn
    have hlen : (p.take m).length = m := List.length_take_of_le hmp
    have htaken : taken (blocks (off + m)) ≤ taken (blocks (off + p.length)) :=
      taken_mono (blocks_mono (by omega))
    obtain ⟨din, s₁, hfblock, hf⟩ := fetched_fblock (i := i) h hsect hfbn hle hge
      (by rw [hblocks, hnb]; omega)
    have hfree := hf.freeblock
    rw [hnb, hblocks] at hfree
    have hdone := hf.appended (p := p.take m) h hnb (by omega) hfbn (by omega)
      (by omega) (p.drop m)
    rw [hlen, List.take_append_drop] at hdone
    have hsum : off + (p.take m).length + (p.drop m).length = off + p.length := by
      rw [hlen, List.length_drop]
      omega
    obtain ⟨din', u, hrest, happ⟩ := ih (p := p.drop m) hdone.maps hdone.nsect
      (by rw [update_self]) (by rw [List.length_drop]; omega) (by omega)
      (by rw [hsum]; have := hdone.freeblock; omega)
    rw [hsum, update_self, hlen] at hrest
    have hread : s₁.rsect (number s₁.sect din (slotOf (off / BSIZE))) =
        .ok (s₁.sect (number s₁.sect din (slotOf (off / BSIZE)))) :=
      if_pos (by rw [hf.nsect]; exact hf.number_lt hfbn (by omega))
    refine ⟨din', u, ?_, ?_⟩
    · rw [Img.iappendLoop, if_neg hp, if_pos hfbn, hfblock]
      simp only [bind, Except.bind, hread, hoff]
      exact hrest
    · have htrans := hdone.trans happ
      rwa [List.take_append_drop] at htrans

end Xv6.Mkfs
