import Xv6.Content.Bmap

/-!
# Writing

`writei` splices the bytes of its source into the contents of the file, block by block, as far as
the source can be read. What it has put into a block before a copy fails stays in the buffer of
the block, which is then not logged.
-/

namespace Xv6.Content

open Lib Mkfs
open Function (update update_of_ne update_self)

variable {inode : Fin NINODES → Dinode} {i : Fin NINODES} {s t : Disk} {ip jp : Dinode}

/-! ## The source -/

namespace Source

/-- The byte `k` of the source. -/
def byte : Source → ℕ → UInt8
  | .kernel data, k => data k
  | .user u va, k => u.byte (va + k)

/-- Of the `m` bytes from `tot` on, the first `w` can be read, and no more. -/
def Span : Source → ℕ → ℕ → ℕ → Prop
  | .kernel _, _, m, w => w = m
  | .user u va, tot, m, w => u.Span (va + tot) m w

variable {src : Source} {tot m n w : ℕ}

theorem Span.le (h : src.Span tot m w) : w ≤ m := by
  cases src with
  | kernel data => exact (show w = m from h).le
  | user u va => exact UserMem.Span.le h

/-- The first `n` bytes can be read, and `w` of those after them. -/
theorem Span.append (hn : src.Span tot n n) (hle : n ≤ m) (h : src.Span (tot + n) (m - n) w) :
    src.Span tot m (n + w) := by
  cases src with
  | kernel data =>
    have hw : w = m - n := h
    exact show n + w = m by omega
  | user u va =>
    rw [Source.Span, ← Nat.add_assoc] at h
    exact UserMem.Span.append hle (UserMem.Span.has hn) h

/-- A copy that stops early stops at the same place in a longer one. -/
theorem Span.extend (h : src.Span tot n w) (hw : w < n) (hle : n ≤ m) : src.Span tot m w := by
  cases src with
  | kernel data => exact absurd (show w = n from h) hw.ne
  | user u va => exact ⟨by omega, UserMem.Span.has h, fun _ => UserMem.Span.stop h hw⟩

end Source

theorem eitherCopyin_eq (dst : Buf) (at_ : ℕ) (src : Source) (tot m : ℕ) :
    ∃ w, src.Span tot m w ∧ eitherCopyin dst at_ src tot m =
      (blit dst at_ w fun k => src.byte (tot + k), decide (w = m)) := by
  cases src with
  | kernel data => exact ⟨m, rfl, by simp [eitherCopyin, Source.byte]⟩
  | user u va =>
    obtain ⟨w, hspan, heq⟩ := u.copyin_eq dst at_ (va + tot) m
    refine ⟨w, hspan, ?_⟩
    simp only [eitherCopyin, heq, Source.byte, Nat.add_assoc]

/-! ## One block -/

/-- The bytes from `lo` to `hi` of the inode `i` have been written, with those of `f`. -/
structure Wrote (inode : Fin NINODES → Dinode) (i : Fin NINODES) (f : ℕ → UInt8) (lo hi : ℕ)
    (s : Disk) (ip : Dinode) (t : Disk) (jp : Dinode) : Prop where
  sound : Sound (update inode i jp) t
  stored : ∀ j y, number s.sect (update inode i ip j) y ≠ 0 →
    number t.sect (update inode i jp j) y = number s.sect (update inode i ip j) y
  byteAt_eq : ∀ j a, a / BSIZE < MAXFILE → byteAt t.sect (update inode i jp j) a =
    if j = i ∧ lo ≤ a ∧ a < hi then f a else byteAt s.sect (update inode i ip j) a
  addrs : ∃ g, jp = { ip with addrs := g }
  sect : ∀ c, c < nmeta → c ≠ bmapstart → t.sect c = s.sect c
  fresh : ∀ y, number s.sect ip y = 0 → number t.sect jp y ≠ 0 → number t.sect jp y ∈ t.lh
  subset_lh : s.lh ⊆ t.lh

namespace Wrote

variable {f : ℕ → UInt8} {lo mid hi : ℕ}

theorem refl (h : Sound (update inode i ip) s) : Wrote inode i f lo lo s ip s ip where
  sound := h
  stored _ _ _ := rfl
  byteAt_eq j a _ := by rw [if_neg (by omega)]
  addrs := ⟨ip.addrs, rfl⟩
  sect _ _ _ := rfl
  fresh _ h0 hne := absurd h0 hne
  subset_lh := List.Subset.refl _

theorem stored_self (h : Wrote inode i f lo hi s ip t jp) {y : Mkfs.Slot}
    (hy : number s.sect ip y ≠ 0) : number t.sect jp y = number s.sect ip y := by
  have hstored := h.stored i y
  rw [update_self, update_self] at hstored
  exact hstored hy

theorem trans {r : Disk} {kp : Dinode} (hlo : lo ≤ mid) (hhi : mid ≤ hi)
    (h₁ : Wrote inode i f lo mid s ip t jp) (h₂ : Wrote inode i f mid hi t jp r kp) :
    Wrote inode i f lo hi s ip r kp where
  sound := h₂.sound
  stored j y hy := by
    have hsame := h₁.stored j y hy
    rw [h₂.stored j y (by rwa [hsame]), hsame]
  byteAt_eq j a ha := by
    rw [h₂.byteAt_eq j a ha, h₁.byteAt_eq j a ha]
    by_cases hj : j = i
    · simp only [hj, true_and]
      split_ifs <;> first | rfl | omega
    · simp [hj]
  addrs := by
    obtain ⟨g, rfl⟩ := h₁.addrs
    obtain ⟨g', rfl⟩ := h₂.addrs
    exact ⟨g', rfl⟩
  sect c hc hmap := (h₂.sect c hc hmap).trans (h₁.sect c hc hmap)
  fresh y h0 hne := by
    by_cases hy : number t.sect jp y = 0
    · exact h₂.fresh y hy hne
    · rw [h₂.stored_self hy]
      exact h₂.subset_lh (h₁.fresh y h0 hy)
  subset_lh := List.Subset.trans h₁.subset_lh h₂.subset_lh

end Wrote

/-- The invariant reads the free map and the numbers in the slots. -/
theorem Sound.congr {inode' : Fin NINODES → Dinode} (h : Sound inode s)
    (hmap : t.sect bmapstart = s.sect bmapstart)
    (hnumber : ∀ j y, number t.sect (inode' j) y = number s.sect (inode j) y) :
    Sound inode' t where
  metaMarked c hc := by
    rw [Disk.bit_congr hmap (hc.trans (by decide))]
    exact h.metaMarked c hc
  range j y hne := by
    rw [hnumber] at hne ⊢
    exact h.range j y hne
  marked j y hne := by
    rw [hnumber] at hne ⊢
    rw [Disk.bit_congr hmap (h.range j y hne).2]
    exact h.marked j y hne
  inj j y k z hne heq := by
    rw [hnumber] at hne
    rw [hnumber, hnumber] at heq
    exact h.inj j y k z hne heq

/-- The data of a file are not in an indirect block. -/
theorem Sound.number_update (h : Sound inode s) {bn : ℕ}
    (hne : number s.sect (inode i) (slotOf bn) ≠ 0) (data : Buf) (j : Fin NINODES) (y : Mkfs.Slot) :
    number (update s.sect (number s.sect (inode i) (slotOf bn)) data) (inode j) y =
      number s.sect (inode j) y := by
  refine number_congr (fun _ => update_of_ne (fun heq => ?_) _ _) y
  exact slotOf_ne_last (h.inj i _ j (.addr (Fin.last NDIRECT)) hne heq).2.symm

section Block

variable {off b w : ℕ} {s₁ : Disk} {f : ℕ → UInt8}

/-- A part of a block is overwritten. -/
theorem byteAt_blit (h : Sound inode s) (hmax : off / BSIZE < MAXFILE)
    (hb : number s.sect (inode i) (slotOf (off / BSIZE)) = b) (hne : b ≠ 0)
    (hw : off % BSIZE + w ≤ BSIZE) (j : Fin NINODES) {a : ℕ} (ha : a / BSIZE < MAXFILE) :
    byteAt (update s.sect b (blit (s.sect b) (off % BSIZE) w fun k => f (off + k)))
        (inode j) a =
      if j = i ∧ off ≤ a ∧ a < off + w then f a else byteAt s.sect (inode j) a := by
  subst hb
  have hdiv := Nat.div_add_mod off BSIZE
  have hdiva := Nat.div_add_mod a BSIZE
  have hlt := Nat.mod_lt a (show 0 < BSIZE by decide)
  rw [byteAt, byteAt, h.number_update hne]
  by_cases heq : number s.sect (inode j) (slotOf (a / BSIZE)) =
      number s.sect (inode i) (slotOf (off / BSIZE))
  · obtain ⟨rfl, hslot⟩ := h.inj i _ j _ hne heq
    have hblock := slotOf_inj ha hmax hslot
    rw [hblock] at hdiva ⊢
    rw [if_neg hne, if_neg hne, update_self]
    simp only [true_and]
    split
    · next hin =>
        rw [blit_of_in (by omega) (by omega)]
        congr 1
        omega
    · next hout => rw [blit_of_out (by omega)]
  · have hout : ¬ (j = i ∧ off ≤ a ∧ a < off + w) := by
      rintro ⟨rfl, hle, hlt'⟩
      have hblock : a / BSIZE = off / BSIZE := by
        apply Nat.div_eq_of_lt_le
        · rw [Nat.mul_comm]
          omega
        · rw [Nat.succ_mul, Nat.mul_comm]
          omega
      rw [hblock] at heq
      exact heq rfl
    rw [update_of_ne heq, if_neg hout]

section Data

variable {bn : ℕ} (hm : Mapped inode i bn b s ip s₁ jp)
include hm

theorem Mapped.number_self : number s₁.sect (update inode i jp i) (slotOf bn) = b := by
  rw [update_self, hm.number_eq]

theorem Mapped.stored_ne_zero : number s₁.sect (update inode i jp i) (slotOf bn) ≠ 0 := by
  rw [hm.number_self]
  exact hm.ne_zero

theorem Mapped.nmeta_le : nmeta ≤ b := by
  have hrange := (hm.sound.range i _ hm.stored_ne_zero).1
  rwa [hm.number_self] at hrange

theorem Mapped.ne_bmapstart : b ≠ bmapstart :=
  (Disk.bmapstart_lt.trans_le hm.nmeta_le).ne'

theorem Mapped.number_update {data : Buf} (hsect : t.sect = update s₁.sect b data)
    (j : Fin NINODES) (y : Mkfs.Slot) : number t.sect (update inode i jp j) y =
      number s₁.sect (update inode i jp j) y := by
  have hupdate := hm.sound.number_update hm.stored_ne_zero data j y
  rwa [hm.number_self, ← hsect] at hupdate

theorem Mapped.number_eq_update {data : Buf} (hsect : t.sect = update s₁.sect b data) :
    number t.sect jp (slotOf bn) = b := by
  have hupdate := hm.number_update hsect i (slotOf bn)
  rwa [update_self, hm.number_eq] at hupdate

end Data

/-- The block that `bmap` has found is written. -/
theorem Mapped.wrote (hm : Mapped inode i (off / BSIZE) b s ip s₁ jp)
    (hmax : off / BSIZE < MAXFILE) (hw : off % BSIZE + w ≤ BSIZE)
    (hsect : t.sect = update s₁.sect b
      (blit (s₁.sect b) (off % BSIZE) w fun k => f (off + k)))
    (hsub : s₁.lh ⊆ t.lh) : Wrote inode i f off (off + w) s ip t jp := by
  have hge := hm.nmeta_le
  have hmeta : ∀ c, c < nmeta → t.sect c = s₁.sect c := by
    intro c hc
    rw [hsect, update_of_ne (by omega)]
  refine ⟨hm.sound.congr (hmeta _ Disk.bmapstart_lt) (hm.number_update hsect), fun j y hy => ?_,
    fun j a ha => ?_, hm.addrs, fun c hc hmap => (hmeta c hc).trans (hm.sect c hc hmap),
    fun y h0 hne => ?_, List.Subset.trans hm.subset_lh hsub⟩
  · rw [hm.number_update hsect, hm.stored j y hy]
  · rw [hsect, byteAt_blit hm.sound hmax hm.number_self hm.ne_zero hw j ha, hm.byteAt_eq]
  · have hnumber := hm.number_update hsect i y
    rw [update_self] at hnumber
    rw [hnumber] at hne ⊢
    exact hsub (hm.fresh y h0 hne)

end Block

/-! ## The loop -/

theorem writeLoop_of_not_lt {src : Source} {off n tot turns : ℕ} (h : ¬ tot < n) :
    writeLoop src turns s ip tot off n = .ok (s, ip, tot) := by
  cases turns with
  | zero => rfl
  | succ turns => rw [writeLoop, if_neg h]

theorem Source.span_zero (src : Source) (tot : ℕ) : src.Span tot 0 0 := by
  cases src with
  | kernel data => rfl
  | user u va => exact ⟨le_rfl, fun k hk => absurd hk (Nat.not_lt_zero k), fun h => by omega⟩

/-- The loop of `writei`, started when `tot` bytes of `n` were written, has ended with `r` bytes
written and logged, and with `e` bytes copied to the buffers. -/
structure Ended (inode : Fin NINODES → Dinode) (i : Fin NINODES) (src : Source)
    (off n tot r e : ℕ) (s : Disk) (ip : Dinode) (t : Disk) (jp : Dinode) : Prop where
  wrote : Wrote inode i (fun a => src.byte (a - off)) (off + tot) (off + e) s ip t jp
  span : src.Span tot (n - tot) (e - tot)
  tot_le : tot ≤ r
  le_end : r ≤ e
  stop : r < n → e < n ∧ (off + r) % BSIZE + (e - r) < BSIZE
  aligned : r < n → r = tot ∨ (off + r) % BSIZE = 0
  clean : ∀ c, c ∉ t.lh →
    t.sect c = s.sect c ∨ r < n ∧ c = number t.sect jp (slotOf ((off + r) / BSIZE))
  mem_lh : ∀ k, tot ≤ k → k < r → (off + k) / BSIZE < MAXFILE ∧
    number t.sect jp (slotOf ((off + k) / BSIZE)) ≠ 0 ∧
    number t.sect jp (slotOf ((off + k) / BSIZE)) ∈ t.lh

theorem div_add_of_part {x k m : ℕ} (hm : x % BSIZE + m ≤ BSIZE) (hk : k < m) :
    (x + k) / BSIZE = x / BSIZE := by
  have hdiv := Nat.div_add_mod x BSIZE
  apply Nat.div_eq_of_lt_le
  · rw [Nat.mul_comm]
    omega
  · rw [Nat.succ_mul, Nat.mul_comm]
    omega

section Loop

variable {src : Source} {off n tot r e m b : ℕ} {s₁ : Disk} {ip₁ : Dinode}

theorem Ended.done (h : Sound (update inode i ip) s) : Ended inode i src off n n n n s ip s ip where
  wrote := .refl h
  span := by simpa using src.span_zero n
  tot_le := le_rfl
  le_end := le_rfl
  stop hlt := absurd hlt (lt_irrefl n)
  aligned _ := .inl rfl
  clean _ _ := .inl rfl
  mem_lh k hk hkr := absurd hkr (by omega)

/-- What a turn copies. -/
theorem Mapped.wrote_byte (hm : Mapped inode i ((off + tot) / BSIZE) b s ip s₁ jp)
    (hmax : (off + tot) / BSIZE < MAXFILE) {w : ℕ} (hw : (off + tot) % BSIZE + w ≤ BSIZE)
    (hsect : t.sect = update s₁.sect b
      (blit (s₁.sect b) ((off + tot) % BSIZE) w fun k => src.byte (tot + k)))
    (hlh : t.lh = s₁.lh ∨ t.lh = logged s₁.lh b) :
    Wrote inode i (fun a => src.byte (a - off)) (off + tot) (off + tot + w) s ip t jp := by
  refine hm.wrote hmax hw (hsect.trans ?_) fun c hc => ?_
  · congr 2
    funext k
    congr 1
    omega
  · rcases hlh with hlh | hlh <;> rw [hlh]
    · exact hc
    · exact mem_logged.mpr (.inl hc)

/-- A turn that copies its whole part, and the rest of the loop. -/
theorem Ended.turn (hm : Mapped inode i ((off + tot) / BSIZE) b s ip s₁ ip₁)
    (hmax : (off + tot) / BSIZE < MAXFILE) (hpart : (off + tot) % BSIZE + m ≤ BSIZE)
    (hle : m ≤ n - tot) (hnext : tot + m < n → (off + (tot + m)) % BSIZE = 0)
    (hspan : src.Span tot m m) {s₂ : Disk} (hsect : s₂.sect = update s₁.sect b
      (blit (s₁.sect b) ((off + tot) % BSIZE) m fun k => src.byte (tot + k)))
    (hlh : s₂.lh = logged s₁.lh b)
    (h : Ended inode i src off n (tot + m) r e s₂ ip₁ t jp) :
    Ended inode i src off n tot r e s ip t jp := by
  have hr := h.tot_le
  have he := h.le_end
  have hfirst := hm.wrote_byte hmax hpart hsect (.inr hlh)
  have hnumber := hm.number_eq_update hsect
  refine ⟨hfirst.trans (by omega) (by omega) ?_, ?_, by omega, he, h.stop, fun hrn => .inr ?_,
    fun c hc => ?_, fun k hk hkr => ?_⟩
  · rw [Nat.add_assoc]
    exact h.wrote
  · have hall := hspan.append hle (by rw [← Nat.sub_add_eq] ; exact h.span)
    rwa [show m + (e - (tot + m)) = e - tot by omega] at hall
  · rcases h.aligned hrn with rfl | hzero
    · exact hnext hrn
    · exact hzero
  · rcases h.clean c hc with hsame | hlast
    · left
      have hc₂ : c ∉ s₂.lh := fun hmem => hc (h.wrote.subset_lh hmem)
      rw [hlh, mem_logged, not_or] at hc₂
      rw [hsame, hsect, update_of_ne hc₂.2]
      exact hm.clean c hc₂.1
    · exact .inr hlast
  · rcases Nat.lt_or_ge k (tot + m) with hlt | hge
    · have hdiv : (off + k) / BSIZE = (off + tot) / BSIZE := by
        rw [show off + k = off + tot + (k - tot) by omega]
        exact div_add_of_part hpart (by omega)
      rw [hdiv, h.wrote.stored_self (by rw [hnumber]; exact hm.ne_zero), hnumber]
      refine ⟨hmax, hm.ne_zero, h.wrote.subset_lh ?_⟩
      rw [hlh]
      exact mem_logged.mpr (.inr rfl)
    · exact h.mem_lh k hge hkr

/-- The turn in which the copy fails. -/
theorem Ended.fail (hm : Mapped inode i ((off + tot) / BSIZE) b s ip s₁ jp)
    (hmax : (off + tot) / BSIZE < MAXFILE) (hpart : (off + tot) % BSIZE + m ≤ BSIZE)
    (hle : m ≤ n - tot) {w : ℕ} (hspan : src.Span tot m w) (hw : w < m)
    (hsect : t.sect = update s₁.sect b
      (blit (s₁.sect b) ((off + tot) % BSIZE) w fun k => src.byte (tot + k)))
    (hlh : t.lh = s₁.lh) : Ended inode i src off n tot tot (tot + w) s ip t jp := by
  have hwrote := hm.wrote_byte hmax (by omega) hsect (.inl hlh)
  refine ⟨by rwa [← Nat.add_assoc], ?_, le_rfl, by omega, fun _ => ⟨by omega, by omega⟩,
    fun _ => .inl rfl, fun c hc => ?_, fun k hk hkr => by omega⟩
  · rw [Nat.add_sub_cancel_left]
    exact hspan.extend hw hle
  · rw [hlh] at hc
    by_cases hcb : c = b
    · exact .inr ⟨by omega, by rw [hm.number_eq_update hsect, hcb]⟩
    · left
      rw [hsect, update_of_ne hcb]
      exact hm.clean c hc

/-- **The loop of `writei`.** -/
theorem ended_of_writeLoop (h : Sound (update inode i ip) s) {turns : ℕ} (htot : tot ≤ n)
    (hturns : n - tot ≤ turns)
    (hok : writeLoop src turns s ip tot (off + tot) n = .ok (t, jp, r)) :
    ∃ e, Ended inode i src off n tot r e s ip t jp := by
  induction turns generalizing s ip tot with
  | zero =>
    cases hok
    obtain rfl : r = n := by omega
    exact ⟨r, .done h⟩
  | succ turns ih =>
    unfold writeLoop at hok
    split at hok
    · next hlt =>
        obtain ⟨⟨b, ip₁, s₁⟩, hb, hok⟩ := bind_eq_ok.mp hok
        obtain ⟨hmax, hm⟩ := mapped_of_bmap h hb
        have hpos := Nat.mod_lt (off + tot) (show 0 < BSIZE by decide)
        obtain ⟨w, hspan, hcopy⟩ := eitherCopyin_eq (s₁.sect b) ((off + tot) % BSIZE) src tot
          (min (n - tot) (BSIZE - (off + tot) % BSIZE))
        have hwle := hspan.le
        simp only [hcopy, decide_eq_true_eq] at hok
        split at hok
        · next hw =>
            obtain ⟨s₂, hlog, hok⟩ := bind_eq_ok.mp hok
            obtain ⟨-, hs₂⟩ := Disk.logWrite_eq_ok.mp hlog
            have hsect : s₂.sect = update s₁.sect b
                (blit (s₁.sect b) ((off + tot) % BSIZE) w fun k => src.byte (tot + k)) := by
              rw [hs₂]
              rfl
            have hlh : s₂.lh = logged s₁.lh b := by
              rw [hs₂]
              rfl
            rw [← hw] at hspan
            rw [← hw, Nat.add_assoc] at hok
            have hpart : (off + tot) % BSIZE + w ≤ BSIZE := by omega
            have hwrote := hm.wrote_byte hmax hpart hsect (.inr hlh)
            obtain ⟨e, he⟩ := ih hwrote.sound (by omega) (by omega) hok
            have hnext : tot + w < n → (off + (tot + w)) % BSIZE = 0 := by
              simp only [BSIZE] at *
              omega
            exact ⟨e, .turn hm hmax hpart (by omega) hnext hspan hsect hlh he⟩
        · next hw =>
            cases hok
            exact ⟨r + w, .fail hm hmax (by omega) (by omega) hspan (by omega) rfl rfl⟩
    · cases hok
      obtain rfl : r = n := by omega
      exact ⟨r, .done h⟩

end Loop

/-! ## `iupdate` -/

/-- The inodes on the disk. -/
def Disk.inodes (s : Disk) : Fin NINODES → Dinode := fun j => s.inode j

/-- The block of the inode `i` holds `d` for it. -/
def Disk.Holds (t : Disk) (i : Fin NINODES) (d : Dinode) (s : Disk) : Prop :=
  t.sect = update s.sect (IBLOCK i)
    (blit (s.sect (IBLOCK i)) (i % IPB * DINODE) DINODE d.bytes)

section Iupdate

theorem iblock_lt_nmeta (i : Fin NINODES) : IBLOCK i < bmapstart ∧ IBLOCK i < nmeta :=
  ⟨Img.iblock_lt i.isLt, (Img.iblock_lt i.isLt).trans Disk.bmapstart_lt⟩

theorem iupdate_eq_ok {i : Fin NINODES} : s.iupdate i ip = .ok t ↔
    s.lh.length < 29 ∧ t.Holds i ip s ∧ t.lh = logged s.lh (IBLOCK i) := by
  rw [Disk.iupdate, Disk.logWrite_eq_ok, Disk.lh_put, Disk.sect_put, Disk.Holds]
  constructor
  · rintro ⟨hlen, rfl⟩
    exact ⟨hlen, rfl, rfl⟩
  · rintro ⟨hlen, hsect, hlh⟩
    refine ⟨hlen, ?_⟩
    cases t
    simp_all

variable {d : Dinode} (ht : t.Holds i d s)
include ht

theorem sect_of_holds {c : ℕ} (hc : c ≠ IBLOCK i) : t.sect c = s.sect c := by
  rw [ht, update_of_ne hc]

theorem inodes_of_holds : t.inodes = update s.inodes i d := by
  have himg : ∀ j, t.inode j = (Img.setInode ⟨0, s.sect, 0, 0⟩ i d).inode j := by
    intro j
    rw [Disk.inode, ht]
    rfl
  funext j
  by_cases hj : j = i
  · subst hj
    rw [update_self]
    exact (himg j).trans (Img.inode_setInode_self _ _ _)
  · rw [update_of_ne hj]
    exact (himg j).trans (Img.inode_setInode_of_ne (fun heq => hj (Fin.ext heq)) d)

/-- The blocks of the files are not blocks of inodes. -/
theorem number_of_holds {inode : Fin NINODES → Dinode} (h : Sound inode s) (j : Fin NINODES)
    (y : Mkfs.Slot) : number t.sect (inode j) y = number s.sect (inode j) y := by
  refine number_congr (fun hne => sect_of_holds ht fun heq => ?_) y
  have hge := (h.range j (.addr (Fin.last NDIRECT)) hne).1
  have hlt := (iblock_lt_nmeta i).2
  rw [number_last] at hge
  omega

theorem byteAt_of_holds {inode : Fin NINODES → Dinode} (h : Sound inode s) (j : Fin NINODES)
    (a : ℕ) : byteAt t.sect (inode j) a = byteAt s.sect (inode j) a := by
  rw [byteAt, byteAt, number_of_holds ht h]
  split
  · rfl
  · next hne =>
      have hge := (h.range j _ hne).1
      have hlt := (iblock_lt_nmeta i).2
      rw [sect_of_holds ht (by omega)]

end Iupdate

/-! ## `writei` -/

/-- The arguments that `writei` refuses. -/
def Refused (ip : Dinode) (off n : UInt32) : Prop :=
  ip.size.toNat < off.toNat ∨ 2 ^ 32 ≤ off.toNat + n.toNat ∨ MAXFILE * BSIZE < off.toNat + n.toNat

theorem refused_iff {off n : UInt32} : Refused ip off n ↔
    (off > ip.size ∨ off + n < off) ∨ (off + n).toNat > MAXFILE * BSIZE := by
  have hoff := off.toNat_lt
  have hn := n.toNat_lt
  have hmax : MAXFILE * BSIZE = 274432 := rfl
  rw [Refused, gt_iff_lt, UInt32.lt_iff_toNat_lt, UInt32.lt_iff_toNat_lt, UInt32.toNat_add]
  omega

/-- The inode when bytes up to `size` have been written. -/
def extended (ip : Dinode) (size : ℕ) : Dinode :=
  if size > ip.size.toNat then { ip with size := .ofNat size } else ip

theorem size_extended {size : ℕ} (h : size < 2 ^ 32) :
    (extended ip size).size.toNat = max ip.size.toNat size := by
  rw [extended]
  split
  · next hlt => rw [UInt32.toNat_ofNat_of_lt' h, max_eq_right hlt.le]
  · next hge => rw [max_eq_left (by omega)]

theorem number_extended (sect : ℕ → Buf) (size : ℕ) (y : Mkfs.Slot) :
    number sect (extended ip size) y = number sect ip y := by
  rw [extended]
  split
  · cases y <;> rfl
  · rfl

/-- `writei` has returned `r`: `e` bytes of the source are in the buffers of the file. -/
structure Spliced (i : Fin NINODES) (src : Source) (off n r e : ℕ) (s : Disk) (ip : Dinode)
    (t : Disk) (jp : Dinode) : Prop where
  sound : Sound t.inodes t
  inodes : t.inodes = update s.inodes i jp
  kind : ∃ g z, jp = { ip with addrs := g, size := z }
  size : jp.size.toNat = max ip.size.toNat (off + r)
  stored : ∀ y, number s.sect ip y ≠ 0 → number t.sect jp y = number s.sect ip y
  stored_other : ∀ j, j ≠ i → ∀ y, number s.sect (s.inodes j) y ≠ 0 →
    number t.sect (s.inodes j) y = number s.sect (s.inodes j) y
  byteAt_eq : ∀ a, a / BSIZE < MAXFILE → byteAt t.sect jp a =
    if off ≤ a ∧ a < off + e then src.byte (a - off) else byteAt s.sect ip a
  byteAt_other : ∀ j, j ≠ i → ∀ a, a / BSIZE < MAXFILE →
    byteAt t.sect (s.inodes j) a = byteAt s.sect (s.inodes j) a
  span : src.Span 0 n e
  le_end : r ≤ e
  stop : r < n → e < n ∧ (off + r) % BSIZE + (e - r) < BSIZE
  aligned : r < n → r = 0 ∨ (off + r) % BSIZE = 0
  fresh : ∀ y, number s.sect ip y = 0 → number t.sect jp y ≠ 0 → number t.sect jp y ∈ t.lh
  clean : ∀ c, c ∉ t.lh →
    t.sect c = s.sect c ∨ r < n ∧ c = number t.sect jp (slotOf ((off + r) / BSIZE))
  mem_lh : ∀ k, k < r → (off + k) / BSIZE < MAXFILE ∧
    number t.sect jp (slotOf ((off + k) / BSIZE)) ≠ 0 ∧
    number t.sect jp (slotOf ((off + k) / BSIZE)) ∈ t.lh
  iblock_mem : IBLOCK i ∈ t.lh
  length_le : t.lh.length ≤ 29
  subset_lh : s.lh ⊆ t.lh

theorem number_update_extended (sect : ℕ → Buf) (size : ℕ) (j : Fin NINODES) (y : Mkfs.Slot) :
    number sect (update inode i (extended ip size) j) y =
      number sect (update inode i ip j) y := by
  by_cases hj : j = i
  · subst hj
    rw [update_self, update_self, number_extended]
  · rw [update_of_ne hj, update_of_ne hj]

theorem byteAt_update_extended (sect : ℕ → Buf) (size : ℕ) (j : Fin NINODES) (a : ℕ) :
    byteAt sect (update inode i (extended ip size) j) a =
      byteAt sect (update inode i ip j) a := by
  rw [byteAt, byteAt, number_update_extended]

theorem Wrote.inodes_eq {f : ℕ → UInt8} {lo hi : ℕ} (h : Wrote inode i f lo hi s ip t jp) :
    t.inodes = s.inodes := by
  funext j
  have hblock := iblock_lt_nmeta j
  rw [Disk.inodes, Disk.inodes, Disk.inode, Disk.inode, h.sect _ hblock.2 hblock.1.ne]

theorem Ended.spliced {src : Source} {off n r e : ℕ} {s₁ : Disk} {ip₁ : Dinode}
    (h : Ended s.inodes i src off n 0 r e s ip s₁ ip₁) (hoff : off + r < 2 ^ 32)
    (hlen : s₁.lh.length < 29) (ht : t.Holds i (extended ip₁ (off + r)) s₁)
    (hlh : t.lh = logged s₁.lh (IBLOCK i)) :
    Spliced i src off n r e s ip t (extended ip₁ (off + r)) := by
  have hinodes : t.inodes = update s.inodes i (extended ip₁ (off + r)) := by
    rw [inodes_of_holds ht, h.wrote.inodes_eq]
  have hnumber : ∀ j y, number t.sect (t.inodes j) y =
      number s₁.sect (update s.inodes i ip₁ j) y := by
    intro j y
    rw [hinodes, number_update_extended, number_of_holds ht h.wrote.sound]
  have hbyte : ∀ j a, byteAt t.sect (update s.inodes i (extended ip₁ (off + r)) j) a =
      byteAt s₁.sect (update s.inodes i ip₁ j) a := by
    intro j a
    rw [byteAt_update_extended, byteAt_of_holds ht h.wrote.sound]
  have hself : ∀ y, number t.sect (extended ip₁ (off + r)) y = number s₁.sect ip₁ y := by
    intro y
    have hi := hnumber i y
    rwa [hinodes, update_self, update_self] at hi
  have hother : ∀ j, j ≠ i → ∀ y, number t.sect (s.inodes j) y =
      number s₁.sect (s.inodes j) y := by
    intro j hj y
    have hjy := hnumber j y
    rwa [hinodes, update_of_ne hj, update_of_ne hj] at hjy
  have hsub : s₁.lh ⊆ t.lh := by
    intro c hc
    rw [hlh]
    exact mem_logged.mpr (.inl hc)
  obtain ⟨g, hg⟩ := h.wrote.addrs
  refine ⟨?_, hinodes, ?_, ?_, fun y hy => ?_, fun j hj y hy => ?_, fun a ha => ?_,
    fun j hj a ha => ?_, by simpa using h.span, h.le_end, h.stop, h.aligned, fun y h0 hne => ?_, fun c hc => ?_,
    fun k hk => ?_, ?_, ?_, List.Subset.trans h.wrote.subset_lh hsub⟩
  · exact h.wrote.sound.congr (sect_of_holds ht (iblock_lt_nmeta i).1.ne') hnumber
  · rw [extended]
    split
    · exact ⟨g, _, by rw [hg]⟩
    · exact ⟨g, ip.size, hg⟩
  · rw [size_extended hoff, hg]
  · rw [hself]
    exact h.wrote.stored_self hy
  · have hstored := h.wrote.stored j y
    rw [update_of_ne hj, update_of_ne hj] at hstored
    rw [hother j hj, hstored hy]
  · have hi := hbyte i a
    rw [h.wrote.byteAt_eq i a ha, update_self, update_self] at hi
    simpa using hi
  · have hja := hbyte j a
    rw [h.wrote.byteAt_eq j a ha, update_of_ne hj, update_of_ne hj] at hja
    simpa [hj] using hja
  · rw [hself] at hne ⊢
    exact hsub (h.wrote.fresh y h0 hne)
  · rw [hlh, mem_logged, not_or] at hc
    rw [hself, sect_of_holds ht hc.2]
    exact h.clean c hc.1
  · rw [hself]
    obtain ⟨hmax, hne, hmem⟩ := h.mem_lh k (Nat.zero_le k) hk
    exact ⟨hmax, hne, hsub hmem⟩
  · rw [hlh]
    exact mem_logged.mpr (.inr rfl)
  · rw [hlh, logged]
    split
    · exact hlen.le
    · rw [List.length_append, List.length_singleton]
      omega

/-- **`writei`.** It refuses its arguments, or it has spliced bytes of the source into the file. -/
theorem writei_cases {src : Source} {off n : UInt32} {r : ℤ}
    (h : Sound (update s.inodes i ip) s)
    (hok : writei s i ip src off n = .ok (t, jp, r)) :
    (Refused ip off n ∧ t = s ∧ jp = ip ∧ r = -1) ∨
      ¬ Refused ip off n ∧ ∃ m e : ℕ, r = m ∧ m ≤ n.toNat ∧
        Spliced i src off.toNat n.toNat m e s ip t jp := by
  rw [refused_iff]
  unfold writei at hok
  split at hok
  · next hsize =>
      cases hok
      exact .inl ⟨.inl hsize, rfl, rfl, rfl⟩
  split at hok
  · next hmax =>
      cases hok
      exact .inl ⟨.inr hmax, rfl, rfl, rfl⟩
  next hsize hmax =>
  obtain ⟨⟨s₁, ip₁, m⟩, hloop, hok⟩ := bind_eq_ok.mp hok
  obtain ⟨t', hup, hok⟩ := bind_eq_ok.mp hok
  have hnot : ¬ Refused ip off n := by
    rw [refused_iff]
    tauto
  obtain ⟨e, hend⟩ : ∃ e, Ended s.inodes i src off.toNat n.toNat 0 m e s ip s₁ ip₁ :=
    ended_of_writeLoop h (Nat.zero_le _) le_rfl hloop
  obtain ⟨hlen, hholds, hlh⟩ := iupdate_eq_ok.mp hup
  have hspan := hend.span.le
  have hle := hend.le_end
  have hlt : off.toNat + m < 2 ^ 32 := by
    rw [Refused] at hnot
    omega
  cases hok
  exact .inr ⟨by tauto, m, e, rfl, by omega, hend.spliced hlt hlen hholds hlh⟩

end Xv6.Content
