import Xv6.Content.Alloc

/-!
# The block map

`bmap` finds the block of an inode at an index and fills the slots on the way that are empty. A
new block is zeroed, and a slot that is empty reads as zeros, so the contents of the files stay
as they are.
-/

namespace Xv6.Content

open Lib Mkfs
open Function (update update_of_ne update_self)

variable {inode : Fin NINODES → Dinode} {i : Fin NINODES} {s t : Disk} {ip jp : Dinode}

/-- Every block that an inode stores is a data block that the free map marks, and is stored at
one place. The meta blocks are marked. -/
structure Sound (inode : Fin NINODES → Dinode) (s : Disk) : Prop where
  metaMarked : s.MetaMarked
  range : ∀ i x, number s.sect (inode i) x ≠ 0 →
    nmeta ≤ number s.sect (inode i) x ∧ number s.sect (inode i) x < FSSIZE
  marked : ∀ i x, number s.sect (inode i) x ≠ 0 → s.bit (number s.sect (inode i) x) = true
  inj : ∀ i x j y, number s.sect (inode i) x ≠ 0 →
    number s.sect (inode j) y = number s.sect (inode i) x → j = i ∧ y = x

theorem number_last (sect : ℕ → Buf) (d : Dinode) :
    number sect d (.addr (Fin.last NDIRECT)) = d.indirect := rfl

theorem indirect_ne_zero {sect : ℕ → Buf} {bn : ℕ} (hbn : NDIRECT ≤ bn)
    (h : number sect ip (slotOf bn) ≠ 0) : ip.indirect ≠ 0 := by
  intro hind
  rw [slotOf, if_neg (by omega), number, if_pos hind] at h
  exact h rfl

variable {b : ℕ}

/-- A new block is at no place yet. -/
theorem Sound.number_alloced (h : Sound inode s) (ha : Disk.Alloced s b t)
    (j : Fin NINODES) (y : Mkfs.Slot) :
    number t.sect (inode j) y = number s.sect (inode j) y ∧ number s.sect (inode j) y ≠ b := by
  have hne : ∀ y, number s.sect (inode j) y ≠ b := by
    intro y heq
    have hzero : b ≠ 0 := by
      have := ha.nmeta_le
      have hpos : 0 < nmeta := by decide
      omega
    have hbit := h.marked j y (by rwa [heq])
    rw [heq, ha.clear] at hbit
    cases hbit
  refine ⟨number_congr (fun hind => ha.sect _ ?_ ?_) y, hne y⟩
  · have := (h.range j (.addr (Fin.last NDIRECT)) hind).1
    have := Disk.bmapstart_lt
    rw [number_last] at *
    omega
  · exact hne (.addr (Fin.last NDIRECT))

/-- The empty slot `x` of the inode `i` has been filled with the new block `b`. -/
structure Filled (inode : Fin NINODES → Dinode) (i : Fin NINODES) (x : Mkfs.Slot) (b : ℕ) (s : Disk)
    (ip : Dinode) (t : Disk) (jp : Dinode) : Prop where
  empty : number s.sect ip x = 0
  number_eq : ∀ j y, number t.sect (update inode i jp j) y =
    if j = i ∧ y = x then b else number s.sect (update inode i ip j) y
  range : nmeta ≤ b ∧ b < FSSIZE
  clear : s.bit b = false
  bit : ∀ c, c < FSSIZE → t.bit c = (s.bit c || decide (c = b))
  zero : t.sect b = fun _ => 0
  sect : ∀ c, c ≠ bmapstart → c ≠ b → (ip.indirect ≠ 0 → c ≠ ip.indirect) →
    t.sect c = s.sect c
  clean : ∀ c, c ∉ t.lh → t.sect c = s.sect c
  addrs : ∃ f, jp = { ip with addrs := f }
  free : t.free + 1 = s.free
  mem_lh : b ∈ t.lh
  subset_lh : s.lh ⊆ t.lh

/-! ## One slot -/

theorem Disk.Alloced.subset_lh (ha : Disk.Alloced s b t) : s.lh ⊆ t.lh := by
  intro c hc
  rw [ha.lh]
  exact mem_logged.mpr (.inl (mem_logged.mpr (.inl hc)))

theorem Disk.Alloced.clean (ha : Disk.Alloced s b t) {c : ℕ} (hc : c ∉ t.lh) :
    t.sect c = s.sect c := by
  rw [ha.lh, mem_logged, mem_logged] at hc
  exact ha.sect c (fun h => hc (.inl (.inr h))) fun h => hc (.inr h)

theorem filled_setAddr (h : Sound (update inode i ip) s)
    (ha : Disk.Alloced s b t) {k : Fin (NDIRECT + 1)} (hk : ip.addrs k = 0) :
    Filled inode i (.addr k) b s ip t (ip.setAddr k b) := by
  have hb : b < 2 ^ 32 := ha.lt.trans (by decide)
  refine ⟨by simp [number, hk], fun j y => ?_, ⟨ha.nmeta_le, ha.lt⟩, ha.clear, ha.bit, ha.zero,
    fun c hmap hcb _ => ha.sect c hmap hcb, fun _ hc => ha.clean hc, ⟨_, rfl⟩, ha.free_eq,
    ha.mem_lh, ha.subset_lh⟩
  by_cases hj : j = i
  · subst hj
    rw [update_self, number_setAddr hb hk ha.zero]
    have hsame := (h.number_alloced ha j y).1
    rw [update_self] at hsame
    simp only [true_and, hsame, update_self]
  · rw [update_of_ne hj, if_neg fun hc => hj hc.1]
    have hsame := (h.number_alloced ha j y).1
    rwa [update_of_ne hj] at hsame ⊢

/-- The disk when the entry `k` of the indirect block holds `b`. -/
def entered (t : Disk) (ind : ℕ) (k : Fin NINDIRECT) (b : ℕ) : Disk :=
  { sect := setEntry t.sect ind k b, lh := logged t.lh ind }

theorem filled_setEntry (h : Sound (update inode i ip) s)
    (ha : Disk.Alloced s b t) {k : Fin NINDIRECT} (hind : ip.indirect ≠ 0)
    (hk : number s.sect ip (.entry k) = 0) :
    Filled inode i (.entry k) b s ip (entered t ip.indirect k b) ip := by
  have hb : b < 2 ^ 32 := ha.lt.trans (by decide)
  have hself : ∀ y, number s.sect (update inode i ip i) y = number s.sect ip y := by
    intro y
    rw [update_self]
  have hlast : number s.sect (update inode i ip i) (.addr (Fin.last NDIRECT)) ≠ 0 := by
    rw [hself]
    exact hind
  have hbind : ip.indirect ≠ b := by
    have hne := (h.number_alloced ha i (.addr (Fin.last NDIRECT))).2
    rwa [hself] at hne
  have hbmap : bmapstart ≠ ip.indirect := by
    have hge := (h.range i _ hlast).1
    have hlt := Disk.bmapstart_lt
    rw [hself, number_last] at hge
    omega
  have hbit : ∀ c, c < FSSIZE → (entered t ip.indirect k b).bit c = t.bit c := by
    intro c hc
    exact Disk.bit_congr (update_of_ne hbmap _ _) hc
  refine ⟨hk, fun j y => ?_, ⟨ha.nmeta_le, ha.lt⟩, ha.clear, fun c hc => ?_, ?_,
    fun c hmap hcb hci => ?_, fun c hc => ?_, ⟨ip.addrs, rfl⟩, ?_, ?_, ?_⟩
  · by_cases hj : j = i
    · subst hj
      have hsame := (h.number_alloced ha j y).1
      rw [update_self] at hsame ⊢
      simp only [true_and]
      rw [← hsame]
      exact number_setEntry hb hind y
    · have hsame := (h.number_alloced ha j y).1
      rw [if_neg fun hc => hj hc.1, ← hsame]
      refine number_congr (fun hne => update_of_ne (fun heq => hj ?_) _ _) y
      exact (h.inj i _ j (.addr (Fin.last NDIRECT)) hlast (by rw [hself]; exact heq)).1
  · rw [hbit c hc]
    exact ha.bit c hc
  · exact (update_of_ne hbind.symm _ _).trans ha.zero
  · exact (update_of_ne (hci hind) _ _).trans (ha.sect c hmap hcb)
  · rw [entered, mem_logged] at hc
    exact (update_of_ne (fun h => hc (.inr h)) _ _).trans (ha.clean fun h => hc (.inl h))
  · rw [← ha.free_eq, Disk.free_congr hbit]
  · exact mem_logged.mpr (.inl ha.mem_lh)
  · exact fun c hc => mem_logged.mpr (.inl (ha.subset_lh hc))

namespace Filled

variable {x : Mkfs.Slot} {b : ℕ} (hf : Filled inode i x b s ip t jp)
include hf

theorem ne_zero : b ≠ 0 := by
  have hle := hf.range.1
  have hpos : 0 < nmeta := by decide
  omega

theorem number_self : number t.sect jp x = b := by
  have hnumber := hf.number_eq i x
  rwa [update_self, if_pos ⟨rfl, rfl⟩] at hnumber

theorem sound (h : Sound (update inode i ip) s) : Sound (update inode i jp) t := by
  -- a block that was stored before is marked, so it is not the new one
  have hold : ∀ j y, number s.sect (update inode i ip j) y ≠ b := by
    intro j y heq
    have hbit := h.marked j y (by rw [heq]; exact hf.ne_zero)
    rw [heq, hf.clear] at hbit
    cases hbit
  refine ⟨fun c hc => ?_, fun j y hne => ?_, fun j y hne => ?_, fun j y k z hne heq => ?_⟩
  · rw [hf.bit c (hc.trans (by decide)), h.metaMarked c hc]
    rfl
  · rw [hf.number_eq] at hne ⊢
    split
    · exact hf.range
    · next hx =>
        rw [if_neg hx] at hne
        exact h.range j y hne
  · rw [hf.number_eq] at hne ⊢
    split
    · rw [hf.bit b hf.range.2]
      simp
    · next hx =>
        rw [if_neg hx] at hne
        rw [hf.bit _ (h.range j y hne).2, h.marked j y hne]
        rfl
  · rw [hf.number_eq] at hne
    rw [hf.number_eq, hf.number_eq] at heq
    by_cases hx : j = i ∧ y = x
    · rw [if_pos hx] at heq
      by_cases hz : k = i ∧ z = x
      · exact ⟨hz.1.trans hx.1.symm, hz.2.trans hx.2.symm⟩
      · rw [if_neg hz] at heq
        exact absurd heq (hold k z)
    · rw [if_neg hx] at heq hne
      by_cases hz : k = i ∧ z = x
      · rw [if_pos hz] at heq
        exact absurd heq.symm (hold j y)
      · rw [if_neg hz] at heq
        exact h.inj j y k z hne heq

/-- The contents of the files stay as they are. -/
theorem byteAt_eq (h : Sound (update inode i ip) s) (j : Fin NINODES) (a : ℕ) :
    byteAt t.sect (update inode i jp j) a =
      byteAt s.sect (update inode i ip j) a := by
  have hnumber := hf.number_eq j (slotOf (a / BSIZE))
  rw [byteAt, byteAt, hnumber]
  by_cases hx : j = i ∧ slotOf (a / BSIZE) = x
  · obtain ⟨rfl, hx⟩ := hx
    simp [hx, hf.ne_zero, hf.zero, hf.empty]
  · rw [if_neg hx]
    split
    · rfl
    · next hne =>
        have hbit := h.marked j _ hne
        have hge := (h.range j _ hne).1
        have hlt := Disk.bmapstart_lt
        rw [hf.sect _ (by omega) (fun heq => ?_) fun _ heq => ?_]
        · rw [heq, hf.clear] at hbit
          cases hbit
        · -- a data block is not the indirect block
          have hself : number s.sect (update inode i ip i) (.addr (Fin.last NDIRECT)) =
              ip.indirect := by
            rw [update_self, number_last]
          exact slotOf_ne_last (h.inj j _ i (.addr (Fin.last NDIRECT)) hne
            (hself.trans heq.symm)).2.symm

end Filled

/-! ## Any number of slots -/

/-- Some empty slots of the inode `i` have been filled. -/
structure Grown (inode : Fin NINODES → Dinode) (i : Fin NINODES) (s : Disk) (ip : Dinode)
    (t : Disk) (jp : Dinode) : Prop where
  sound : Sound (update inode i jp) t
  stored : ∀ j y, number s.sect (update inode i ip j) y ≠ 0 →
    number t.sect (update inode i jp j) y = number s.sect (update inode i ip j) y
  byteAt_eq : ∀ j a, byteAt t.sect (update inode i jp j) a =
    byteAt s.sect (update inode i ip j) a
  addrs : ∃ f, jp = { ip with addrs := f }
  sect : ∀ c, c < nmeta → c ≠ bmapstart → t.sect c = s.sect c
  clean : ∀ c, c ∉ t.lh → t.sect c = s.sect c
  fresh : ∀ y, number s.sect ip y = 0 → number t.sect jp y ≠ 0 → number t.sect jp y ∈ t.lh
  subset_lh : s.lh ⊆ t.lh

theorem Grown.refl (h : Sound (update inode i ip) s) : Grown inode i s ip s ip where
  sound := h
  stored _ _ _ := rfl
  byteAt_eq _ _ := rfl
  addrs := ⟨ip.addrs, rfl⟩
  sect _ _ _ := rfl
  clean _ _ := rfl
  fresh _ h0 hne := absurd h0 hne
  subset_lh := List.Subset.refl _

theorem Grown.stored_self (h : Grown inode i s ip t jp) {y : Mkfs.Slot}
    (hy : number s.sect ip y ≠ 0) : number t.sect jp y = number s.sect ip y := by
  have hstored := h.stored i y
  rw [update_self, update_self] at hstored
  exact hstored hy

theorem Grown.trans {r : Disk} {kp : Dinode} (h₁ : Grown inode i s ip t jp)
    (h₂ : Grown inode i t jp r kp) : Grown inode i s ip r kp where
  sound := h₂.sound
  stored j y hy := by
    have hsame := h₁.stored j y hy
    rw [h₂.stored j y (by rw [hsame]; exact hy), hsame]
  byteAt_eq j a := (h₂.byteAt_eq j a).trans (h₁.byteAt_eq j a)
  addrs := by
    obtain ⟨f, rfl⟩ := h₁.addrs
    obtain ⟨g, rfl⟩ := h₂.addrs
    exact ⟨g, rfl⟩
  sect c hc hne := (h₂.sect c hc hne).trans (h₁.sect c hc hne)
  clean c hc := (h₂.clean c hc).trans (h₁.clean c fun h => hc (h₂.subset_lh h))
  fresh y h0 hne := by
    by_cases hy : number t.sect jp y = 0
    · exact h₂.fresh y hy hne
    · rw [h₂.stored_self hy]
      exact h₂.subset_lh (h₁.fresh y h0 hy)
  subset_lh := List.Subset.trans h₁.subset_lh h₂.subset_lh

/-- A slot that was stored is not the one that has been filled. -/
theorem Filled.number_of_ne {x y : Mkfs.Slot} (hf : Filled inode i x b s ip t jp)
    {j : Fin NINODES} (hy : number s.sect (update inode i ip j) y ≠ 0) :
    number t.sect (update inode i jp j) y =
      number s.sect (update inode i ip j) y := by
  rw [hf.number_eq, if_neg]
  rintro ⟨rfl, rfl⟩
  rw [update_self] at hy
  exact hy hf.empty

theorem Filled.grown {x : Mkfs.Slot} (hf : Filled inode i x b s ip t jp)
    (h : Sound (update inode i ip) s) : Grown inode i s ip t jp where
  sound := hf.sound h
  stored _ _ hy := hf.number_of_ne hy
  byteAt_eq := hf.byteAt_eq h
  addrs := hf.addrs
  sect c hc hmap := by
    have hge := hf.range.1
    refine hf.sect c hmap (by omega) fun hind => ?_
    have hrange := h.range i (.addr (Fin.last NDIRECT))
    rw [update_self, number_last] at hrange
    have := (hrange hind).1
    omega
  clean := hf.clean
  fresh y h0 hne := by
    have hnumber := hf.number_eq i y
    rw [update_self, update_self] at hnumber
    by_cases hy : y = x
    · rw [hnumber, if_pos ⟨rfl, hy⟩]
      exact hf.mem_lh
    · rw [hnumber, if_neg fun hc => hy hc.2] at hne
      exact absurd h0 hne
  subset_lh := hf.subset_lh

/-! ## `bmap` -/

/-- The blocks that `bmap` allocates. -/
def need (s : Disk) (ip : Dinode) (bn : ℕ) : ℕ :=
  (if number s.sect ip (slotOf bn) = 0 then 1 else 0) +
    if NDIRECT ≤ bn ∧ ip.indirect = 0 then 1 else 0

/-- What `bmap` does: it finds the block `b` at the index `bn` of the inode `i`, and allocates what
is missing. -/
structure Mapped (inode : Fin NINODES → Dinode) (i : Fin NINODES) (bn b : ℕ) (s : Disk)
    (ip : Dinode) (t : Disk) (jp : Dinode) : Prop extends Grown inode i s ip t jp where
  number_eq : number t.sect jp (slotOf bn) = b
  ne_zero : b ≠ 0
  free : t.free + need s ip bn = s.free

section Spec

variable (h : Sound (update inode i ip) s)
include h

/-- What `bmap` does at one slot. -/
theorem fillAddr_cases {k : Fin (NDIRECT + 1)} (hok : s.fillAddr ip k = .ok (b, jp, t)) :
    (number s.sect ip (.addr k) = b ∧ b ≠ 0 ∧ jp = ip ∧ t = s) ∨
      Filled inode i (.addr k) b s ip t jp := by
  unfold Disk.fillAddr at hok
  split at hok
  · next hk =>
      obtain ⟨⟨b', s₁⟩, hb, hok⟩ := bind_eq_ok.mp hok
      cases hok
      exact .inr (filled_setAddr h (Disk.alloced_of_balloc h.metaMarked hb) hk)
  · next hk =>
      cases hok
      exact .inl ⟨rfl, fun h0 => hk (UInt32.toNat_inj.mp h0), rfl, rfl⟩

theorem fillEntry_cases {k : Fin NINDIRECT} (hind : ip.indirect ≠ 0)
    (hok : s.fillEntry ip.indirect k = .ok (b, t)) :
    (number s.sect ip (.entry k) = b ∧ b ≠ 0 ∧ t = s) ∨
      Filled inode i (.entry k) b s ip t ip := by
  have hnumber : number s.sect ip (.entry k) = getLe (s.sect ip.indirect) (4 * k) 4 := if_neg hind
  unfold Disk.fillEntry at hok
  rw [← hnumber] at hok
  split at hok
  · next hk =>
      obtain ⟨⟨b', s₁⟩, hb, hok⟩ := bind_eq_ok.mp hok
      obtain ⟨s₂, hlog, hok⟩ := bind_eq_ok.mp hok
      cases hok
      obtain ⟨-, rfl⟩ := Disk.logWrite_eq_ok.mp hlog
      exact .inr (filled_setEntry h (Disk.alloced_of_balloc h.metaMarked hb) hind hk)
  · next hk =>
      cases hok
      exact .inl ⟨rfl, hk, rfl⟩

theorem mapped_of_fillAddr {bn b : ℕ} (hbn : bn < NDIRECT)
    (hok : s.fillAddr ip (Fin.ofNat _ bn) = .ok (b, jp, t)) : Mapped inode i bn b s ip t jp := by
  have hslot : slotOf bn = .addr (Fin.ofNat _ bn) := if_pos hbn
  have hneed : need s ip bn = if number s.sect ip (slotOf bn) = 0 then 1 else 0 := by
    simp [need, not_le.mpr hbn]
  rcases fillAddr_cases h hok with ⟨hb, hne, rfl, rfl⟩ | hf
  · have hstored : number t.sect jp (slotOf bn) ≠ 0 := by rwa [hslot, hb]
    refine ⟨.refl h, by rw [hslot, hb], hne, ?_⟩
    rw [hneed, if_neg hstored, Nat.add_zero]
  · have hempty : number s.sect ip (slotOf bn) = 0 := by rw [hslot, hf.empty]
    refine ⟨hf.grown h, ?_, hf.ne_zero, ?_⟩
    · rw [hslot, hf.number_self]
    · rw [hneed, if_pos hempty, hf.free]

theorem mapped_of_fillEntry {bn b : ℕ} (hbn : NDIRECT ≤ bn) (hmax : bn - NDIRECT < NINDIRECT)
    (hind : ip.indirect ≠ 0) (hok : s.fillEntry ip.indirect (bn - NDIRECT) = .ok (b, t)) :
    Mapped inode i bn b s ip t ip := by
  have hslot : slotOf bn = .entry (Fin.ofNat NINDIRECT (bn - NDIRECT)) := if_neg (by omega)
  have hk : ((Fin.ofNat NINDIRECT (bn - NDIRECT) : Fin NINDIRECT) : ℕ) = bn - NDIRECT :=
    Nat.mod_eq_of_lt hmax
  have hneed : need s ip bn = if number s.sect ip (slotOf bn) = 0 then 1 else 0 := by
    simp [need, hind]
  rw [← hk] at hok
  rcases fillEntry_cases h hind hok with ⟨hb, hne, rfl⟩ | hf
  · have hstored : number t.sect ip (slotOf bn) ≠ 0 := by rwa [hslot, hb]
    refine ⟨.refl h, by rw [hslot, hb], hne, ?_⟩
    rw [hneed, if_neg hstored, Nat.add_zero]
  · have hempty : number s.sect ip (slotOf bn) = 0 := by rw [hslot, hf.empty]
    refine ⟨hf.grown h, ?_, hf.ne_zero, ?_⟩
    · rw [hslot, hf.number_self]
    · rw [hneed, if_pos hempty, hf.free]

/-- **`bmap`.** Where it returns, it has found the block. -/
theorem mapped_of_bmap {bn b : ℕ} (hok : s.bmap ip bn = .ok (b, jp, t)) :
    bn < MAXFILE ∧ Mapped inode i bn b s ip t jp := by
  unfold Disk.bmap at hok
  split at hok
  · next hbn => exact ⟨by simp only [MAXFILE, NDIRECT] at *; omega, mapped_of_fillAddr h hbn hok⟩
  split at hok
  · next hbn hmax =>
      rw [not_lt] at hbn
      have hslot : slotOf bn ≠ .addr (Fin.last NDIRECT) := slotOf_ne_last
      obtain ⟨⟨ind, ip₁, s₁⟩, hfirst, hok⟩ := bind_eq_ok.mp hok
      obtain ⟨⟨b', s₂⟩, hentry, hok⟩ := bind_eq_ok.mp hok
      cases hok
      refine ⟨by simp only [MAXFILE, NDIRECT, NINDIRECT] at *; omega, ?_⟩
      rcases fillAddr_cases h hfirst with ⟨rfl, hne, rfl, rfl⟩ | hf
      · exact mapped_of_fillEntry h hbn hmax hne hentry
      · -- the indirect block is new, and empty
        obtain rfl : jp.indirect = ind := hf.number_self
        have hm := mapped_of_fillEntry (hf.sound h) hbn hmax hf.ne_zero hentry
        have hind : ip.indirect = 0 := hf.empty
        have hsame : number s₁.sect jp (slotOf bn) = number s.sect ip (slotOf bn) := by
          have hnumber := hf.number_eq i (slotOf bn)
          rwa [update_self, update_self, if_neg fun hc => hslot hc.2] at hnumber
        refine ⟨(hf.grown h).trans hm.toGrown, hm.number_eq, hm.ne_zero, ?_⟩
        have hfree := hm.free
        have hone := hf.free
        have hold : ¬ (NDIRECT ≤ bn ∧ jp.indirect = 0) := fun hc => hf.ne_zero hc.2
        rw [need, hsame, if_neg hold] at hfree
        rw [need, if_pos (And.intro hbn hind)]
        omega
  · cases hok

end Spec

end Xv6.Content
