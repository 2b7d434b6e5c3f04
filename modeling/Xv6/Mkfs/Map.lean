import Xv6.Lib.Owner
import Xv6.Mkfs.Image

/-!
# The block map of an image

An inode stores block numbers in its address slots and, through the last of them, in the slots of
its indirect block. `Maps` says of the inodes of an image and the counter of `mkfs` that the slots
of the first `nb i` blocks of inode `i` are filled and no others, that every block below the
counter is in one slot, and that the blocks above are still zero.

`iappend` works on a copy of an inode that it writes back at the end, so the inodes are a parameter
here and not read from the image.
-/

namespace Xv6.Mkfs

open Lib
open Function (update update_eq_self update_of_ne update_self)

/-! ## Inodes in the inode blocks -/

theorem ofNat_getLe_two {b : Buf} {o : ℕ} {x : UInt16}
    (h : ∀ i, o ≤ i → i < o + 2 → b i = byteLe x.toNat (i - o)) :
    UInt16.ofNat (getLe b o 2) = x := by
  rw [getLe_byteLe h, Nat.mod_eq_of_lt (show x.toNat < 256 ^ 2 from x.toNat_lt), UInt16.ofNat_toNat]

theorem ofNat_getLe_four {b : Buf} {o : ℕ} {x : UInt32}
    (h : ∀ i, o ≤ i → i < o + 4 → b i = byteLe x.toNat (i - o)) :
    UInt32.ofNat (getLe b o 4) = x := by
  rw [getLe_byteLe h, Nat.mod_eq_of_lt (show x.toNat < 256 ^ 4 from x.toNat_lt), UInt32.ofNat_toNat]

/-- An inode is read as it was written. -/
theorem getDinode_blit (b : Buf) (o : ℕ) (d : Dinode) :
    getDinode (blit b o DINODE d.bytes) o = d := by
  have hbyte : ∀ i, o ≤ i → i < o + 64 → blit b o DINODE d.bytes i = d.bytes (i - o) :=
    fun i hle hlt => blit_of_in hle hlt
  cases d with
  | mk type major minor nlink size addrs =>
    simp only [getDinode, Dinode.mk.injEq]
    refine ⟨ofNat_getLe_two fun i _ _ => ?_, ofNat_getLe_two fun i _ _ => ?_,
      ofNat_getLe_two fun i _ _ => ?_, ofNat_getLe_two fun i _ _ => ?_,
      ofNat_getLe_four fun i _ _ => ?_, funext fun k => ofNat_getLe_four fun i _ _ => ?_⟩
    on_goal 6 => have hk : (k : ℕ) < 13 := k.isLt
    all_goals rw [hbyte i (by omega) (by omega), Dinode.bytes]
    · rw [if_pos (by omega)]
    · rw [if_neg (by omega), if_pos (by omega), Nat.sub_sub]
    · rw [if_neg (by omega), if_neg (by omega), if_pos (by omega), Nat.sub_sub]
    · rw [if_neg (by omega), if_neg (by omega), if_neg (by omega), if_pos (by omega), Nat.sub_sub]
    · rw [if_neg (by omega), if_neg (by omega), if_neg (by omega), if_neg (by omega),
        if_pos (by omega), Nat.sub_sub]
    · have hdiv : (i - o - 12) / 4 = k := by omega
      have hoff : (i - o - 12) % 4 = i - (o + 12 + 4 * k) := by omega
      rw [if_neg (by omega), if_neg (by omega), if_neg (by omega), if_neg (by omega),
        if_neg (by omega), hdiv, hoff, Fin.ofNat_val_eq_self]

theorem getDinode_blit_of_disjoint {b src : Buf} {o p : ℕ}
    (h : p + DINODE ≤ o ∨ o + DINODE ≤ p) :
    getDinode (blit b o DINODE src) p = getDinode b p := by
  have hget : ∀ q n, p ≤ q → q + n ≤ p + 64 →
      getLe (blit b o DINODE src) q n = getLe b q n :=
    fun q n hle hlt => getLe_blit_of_disjoint (by rw [DINODE] at *; omega)
  simp only [getDinode]
  congr 1
  all_goals first | (rw [hget _ _ (by omega) (by omega)]) | skip
  funext k
  have hk : (k : ℕ) < 13 := k.isLt
  rw [hget _ _ (by omega) (by omega)]

namespace Img

variable {s : Img} {i j : ℕ}

@[simp] theorem sect_wsect_self (s : Img) (sec : ℕ) (buf : Buf) :
    (s.wsect sec buf).sect sec = buf :=
  update_self ..

theorem sect_wsect_of_ne {b sec : ℕ} (h : b ≠ sec) (buf : Buf) :
    (s.wsect sec buf).sect b = s.sect b :=
  update_of_ne h _ _

theorem nsect_wsect {sec : ℕ} (h : sec < s.nsect) (buf : Buf) : (s.wsect sec buf).nsect = s.nsect :=
  max_eq_left h

/-- The inode `i` in the image. -/
def inode (s : Img) (i : ℕ) : Dinode := getDinode (s.sect (IBLOCK i)) (i % IPB * DINODE)

/-- The image with another inode `i`. -/
def setInode (s : Img) (i : ℕ) (d : Dinode) : Img :=
  s.wsect (IBLOCK i) (blit (s.sect (IBLOCK i)) (i % IPB * DINODE) DINODE d.bytes)

theorem inode_setInode_self (s : Img) (i : ℕ) (d : Dinode) : (s.setInode i d).inode i = d := by
  rw [inode, setInode, sect_wsect_self, getDinode_blit]

theorem inode_setInode_of_ne (h : j ≠ i) (d : Dinode) : (s.setInode i d).inode j = s.inode j := by
  rw [inode, setInode, inode]
  by_cases hblock : IBLOCK j = IBLOCK i
  · rw [hblock, sect_wsect_self, getDinode_blit_of_disjoint]
    simp only [IBLOCK, IPB, DINODE, BSIZE] at *
    omega
  · rw [sect_wsect_of_ne hblock]

theorem sect_setInode_of_ne {b : ℕ} (h : b ≠ IBLOCK i) (d : Dinode) :
    (s.setInode i d).sect b = s.sect b :=
  sect_wsect_of_ne h _

theorem iblock_lt (hi : i < NINODES) : IBLOCK i < bmapstart := by
  have hblock : IBLOCK i = i / 16 + 32 := rfl
  have hmap : bmapstart = 45 := rfl
  rw [NINODES] at hi
  omega

end Img

/-! ## Slots -/

/-- A place for a block number: an address of the inode, or an entry of its indirect block. -/
inductive Slot
  | addr (k : Fin (NDIRECT + 1))
  | entry (k : Fin NINDIRECT)
  deriving DecidableEq

instance : NeZero NINDIRECT := ⟨by decide⟩

/-- Is the slot filled in a file of `n` blocks? -/
def Slot.Used (n : ℕ) : Slot → Prop
  | .addr k => k < n
  | .entry k => NDIRECT + k < n

/-- The slot of the block with index `bn`. -/
def slotOf (bn : ℕ) : Slot :=
  if bn < NDIRECT then .addr (Fin.ofNat _ bn) else .entry (Fin.ofNat _ (bn - NDIRECT))

/-- The number of the indirect block. -/
def Dinode.indirect (d : Dinode) : ℕ := (d.addrs (Fin.last NDIRECT)).toNat

/-- The block number in a slot; 0 is none. -/
def number (sect : ℕ → Buf) (d : Dinode) : Slot → ℕ
  | .addr k => (d.addrs k).toNat
  | .entry k => if d.indirect = 0 then 0 else getLe (sect d.indirect) (4 * k) 4

section Number
variable {sect sect' : ℕ → Buf} {d : Dinode}

theorem number_congr (h : d.indirect ≠ 0 → sect' d.indirect = sect d.indirect) (a : Slot) :
    number sect' d a = number sect d a := by
  cases a with
  | addr k => rfl
  | entry k =>
    simp only [number]
    split
    · rfl
    · next hind => rw [h hind]

/-- The inode with another address. -/
def Dinode.setAddr (d : Dinode) (k : Fin (NDIRECT + 1)) (b : ℕ) : Dinode :=
  { d with addrs := update d.addrs k (.ofNat b) }

/-- A new address is seen in its slot. A new indirect block is empty. -/
theorem number_setAddr {k : Fin (NDIRECT + 1)} {b : ℕ} (hb : b < 2 ^ 32) (h0 : d.addrs k = 0)
    (hzero : sect b = fun _ => 0) (a : Slot) :
    number sect (d.setAddr k b) a = if a = .addr k then b else number sect d a := by
  cases a with
  | addr j =>
    by_cases hj : j = k
    · subst hj
      simpa [number, Dinode.setAddr] using hb
    · simp [number, Dinode.setAddr, hj]
  | entry j =>
    rw [if_neg (by simp)]
    by_cases hk : k = Fin.last NDIRECT
    · subst hk
      have hnew : (d.setAddr (Fin.last NDIRECT) b).indirect = b := by
        simpa [Dinode.indirect, Dinode.setAddr] using hb
      have hold : d.indirect = 0 := by simp [Dinode.indirect, h0]
      simp [number, hnew, hold, hzero, getLe_zero]
    · have hind : (d.setAddr k b).indirect = d.indirect := by
        simp [Dinode.indirect, Dinode.setAddr, update_of_ne (Ne.symm hk)]
      simp only [number, hind]

/-- A new entry in the indirect block. -/
def setEntry (sect : ℕ → Buf) (ind : ℕ) (k : ℕ) (b : ℕ) : ℕ → Buf :=
  update sect ind (blit (sect ind) (4 * k) 4 (byteLe b))

theorem number_setEntry {k : Fin NINDIRECT} {b : ℕ} (hb : b < 2 ^ 32) (hind : d.indirect ≠ 0)
    (a : Slot) :
    number (setEntry sect d.indirect k b) d a = if a = .entry k then b else number sect d a := by
  cases a with
  | addr j => simp [number]
  | entry j =>
    simp only [number, setEntry, update_self, if_neg hind, Slot.entry.injEq]
    by_cases hj : j = k
    · rw [if_pos hj, hj, getLe_blit_byteLe]
      exact Nat.mod_eq_of_lt hb
    · rw [if_neg hj]
      have hne : (j : ℕ) ≠ k := fun h => hj (Fin.ext h)
      exact getLe_blit_of_disjoint (by omega)

end Number

/-! ## The invariant -/

section Maps
variable {inode inode' : Fin NINODES → Dinode} {sect sect' : ℕ → Buf} {free : ℕ}
  {nb : Fin NINODES → ℕ}

/-- The slot `a.2` of the inode `a.1` holds the block `b`. -/
def Holds (inode : Fin NINODES → Dinode) (sect : ℕ → Buf) (a : Fin NINODES × Slot) (b : ℕ) : Prop :=
  b ≠ 0 ∧ number sect (inode a.1) a.2 = b

/-- The blocks below the counter are in one slot each, and those above are zero. -/
structure Owns (inode : Fin NINODES → Dinode) (sect : ℕ → Buf) (free : ℕ) : Prop where
  owned : Owned (Holds inode sect) fun b => nmeta ≤ b ∧ b < free
  fresh : ∀ b, free ≤ b → sect b = fun _ => 0
  nmeta_le : nmeta ≤ free

/-- And the slots that are filled are those of the first blocks of each inode. -/
structure Maps (inode : Fin NINODES → Dinode) (sect : ℕ → Buf) (free : ℕ)
    (nb : Fin NINODES → ℕ) : Prop extends Owns inode sect free where
  used : ∀ i a, number sect (inode i) a ≠ 0 ↔ a.Used (nb i)

variable {i : Fin NINODES} {a : Slot}

theorem Owns.bounds (h : Owns inode sect free) (ha : number sect (inode i) a ≠ 0) :
    nmeta ≤ number sect (inode i) a ∧ number sect (inode i) a < free :=
  h.owned.used_of_holds (i := (i, a)) ⟨ha, rfl⟩

theorem Owns.eq_of_number (h : Owns inode sect free) {i j : Fin NINODES} {a c : Slot}
    (ha : number sect (inode i) a ≠ 0) (heq : number sect (inode j) c = number sect (inode i) a) :
    j = i ∧ c = a := by
  have := h.owned.eq_of_holds (i := (j, c)) (j := (i, a)) ⟨ha, heq⟩ ⟨ha, rfl⟩
  simpa using this

/-- The next block is put in an empty slot. -/
theorem Owns.put (h : Owns inode sect free)
    (h0 : number sect (inode i) a = 0) (hfresh : ∀ b, free < b → sect' b = sect b)
    (hnumber : ∀ j x, number sect' (inode' j) x =
      if j = i ∧ x = a then free else number sect (inode j) x) :
    Owns inode' sect' (free + 1) where
  owned := by
    have hpos : nmeta ≤ free := h.nmeta_le
    have hmeta : 0 < nmeta := by decide
    refine h.owned.put (i := (i, a)) (r := free) (by omega) ?_ ?_
    · rintro ⟨j, x⟩ b
      simp only [Holds, hnumber, Prod.mk.injEq]
      by_cases hx : j = i ∧ x = a
      · obtain ⟨rfl, rfl⟩ := hx
        simp only [h0, and_self, if_true, true_and]
        constructor
        · rintro ⟨-, rfl⟩
          exact .inr rfl
        · rintro (⟨hb, rfl⟩ | rfl)
          · exact absurd rfl hb
          · exact ⟨by omega, rfl⟩
      · rw [if_neg hx]
        simp [hx]
    · intro b
      omega
  fresh b hb := by rw [hfresh b (by omega), h.fresh b (by omega)]
  nmeta_le := Nat.le_succ_of_le h.nmeta_le

/-- The slot `a` of the inode `i` is filled with the next block, if it was empty. -/
structure Fills (inode : Fin NINODES → Dinode) (sect : ℕ → Buf) (free : ℕ) (i : Fin NINODES)
    (a : Slot) (inode' : Fin NINODES → Dinode) (sect' : ℕ → Buf) (free' : ℕ) : Prop where
  owns : Owns inode' sect' free'
  stored : ∀ j x, number sect' (inode' j) x =
    if (j = i ∧ x = a) ∧ number sect (inode i) a = 0 then free else number sect (inode j) x
  free : free' = if number sect (inode i) a = 0 then free + 1 else free

section
variable (h : Owns inode sect free)
include h

theorem Fills.refl (h0 : number sect (inode i) a ≠ 0) : Fills inode sect free i a inode sect free :=
  ⟨h, fun _ _ => by rw [if_neg fun h => h0 h.2], by rw [if_neg h0]⟩

theorem Fills.put (h0 : number sect (inode i) a = 0) (hfresh : ∀ b, free < b → sect' b = sect b)
    (hnumber : ∀ j x, number sect' (inode' j) x =
      if j = i ∧ x = a then free else number sect (inode j) x) :
    Fills inode sect free i a inode' sect' (free + 1) :=
  ⟨h.put h0 hfresh hnumber, fun j x => by rw [hnumber]; simp only [h0, and_true], by rw [if_pos h0]⟩

theorem Fills.ne_zero {free' : ℕ}
    (hfills : Fills inode sect free i a inode' sect' free') (j : Fin NINODES) (x : Slot) :
    number sect' (inode' j) x ≠ 0 ↔
      (j = i ∧ x = a) ∨ number sect (inode j) x ≠ 0 := by
  have hle := h.nmeta_le
  have hmeta : 0 < nmeta := by decide
  rw [hfills.stored]
  split
  · next hput => simp [hput.1]; omega
  · next hnot =>
      constructor
      · exact .inr
      · rintro (⟨rfl, rfl⟩ | h)
        · exact fun h0 => hnot ⟨⟨rfl, rfl⟩, h0⟩
        · exact h

/-- Nothing has been stored. -/
theorem Owns.congr (hfresh : ∀ b, free ≤ b → sect' b = sect b)
    (hnumber : ∀ j x, number sect' (inode' j) x = number sect (inode j) x) :
    Owns inode' sect' free where
  owned := h.owned.congr (fun a b => by simp only [Holds, hnumber]) fun _ => Iff.rfl
  fresh b hb := by rw [hfresh b hb, h.fresh b hb]
  nmeta_le := h.nmeta_le

/-- A block that is not an indirect block is written. -/
theorem Owns.number_write (buf : Buf)
    (ha : a ≠ .addr (Fin.last NDIRECT)) (h0 : number sect (inode i) a ≠ 0) (j : Fin NINODES)
    (x : Slot) :
    number (update sect (number sect (inode i) a) buf) (inode j) x =
      number sect (inode j) x := by
  refine number_congr (fun _ => update_of_ne (fun heq => ha ?_) _ _) x
  exact (h.eq_of_number h0 (c := .addr (Fin.last NDIRECT)) heq).2.symm

end

variable {s : Img} {i : Fin NINODES}

theorem fills_fillAddr (h : Owns inode s.sect s.freeblock) (hroom : s.freeblock ≤ FSSIZE)
    (k : Fin (NDIRECT + 1)) :
    Fills inode s.sect s.freeblock i (.addr k)
      (update inode i (s.fillAddr (inode i) k).1) (s.fillAddr (inode i) k).2.sect
      (s.fillAddr (inode i) k).2.freeblock := by
  unfold Img.fillAddr
  split
  · next h0 =>
      refine .put h (by simp [number, h0]) (fun _ _ => rfl) fun j x => ?_
      have hlt : s.freeblock < 2 ^ 32 := lt_of_le_of_lt hroom (by decide)
      by_cases hj : j = i
      · subst hj
        simp only [update_self, true_and]
        exact number_setAddr hlt h0 (h.fresh _ le_rfl) x
      · rw [update_of_ne hj, if_neg fun h => hj h.1]
        rfl
  · next h0 =>
      rw [update_eq_self]
      refine .refl h fun hzero => h0 ?_
      exact UInt32.toNat_inj.mp (by simpa [number] using hzero)

theorem fills_fillEntry (h : Owns inode s.sect s.freeblock) (hroom : s.freeblock ≤ FSSIZE)
    (hsect : s.nsect = FSSIZE) (hind : (inode i).indirect ≠ 0) (k : Fin NINDIRECT) :
    ∃ s', s.fillEntry (inode i).indirect k = .ok (number s'.sect (inode i) (.entry k), s') ∧
      Fills inode s.sect s.freeblock i (.entry k) inode s'.sect s'.freeblock ∧
      s'.nsect = FSSIZE ∧ s'.freeinode = s.freeinode ∧
      ∀ b, b ≠ (inode i).indirect → s'.sect b = s.sect b := by
  have hbound := h.bounds (i := i) (a := .addr (Fin.last NDIRECT)) hind
  change nmeta ≤ (inode i).indirect ∧ (inode i).indirect < s.freeblock at hbound
  have hlt : s.freeblock < 2 ^ 32 := lt_of_le_of_lt hroom (by decide)
  have hread : s.rsect (inode i).indirect = .ok (s.sect (inode i).indirect) :=
    if_pos (by rw [hsect]; omega)
  unfold Img.fillEntry
  rw [hread]
  simp only [bind, Except.bind]
  split
  · next h0 =>
      refine ⟨s.next.wsect (inode i).indirect
        (blit (s.sect (inode i).indirect) (4 * k) 4 (byteLe s.freeblock)), ?_, .put h ?_ ?_ ?_, ?_,
        rfl, ?_⟩
      · simp [number, hind, Img.wsect]
      · simp [number, hind, h0]
      · intro b hb
        exact update_of_ne (by omega) _ _
      · intro j x
        by_cases hj : j = i
        · subst hj
          simp only [true_and]
          exact number_setEntry hlt hind x
        · rw [if_neg fun h => hj h.1]
          refine number_congr (fun hne => update_of_ne (fun heq => hj ?_) _ _) x
          exact (h.eq_of_number (a := .addr (Fin.last NDIRECT)) hind
            (c := .addr (Fin.last NDIRECT)) heq).1
      · simp only [Img.wsect, Img.next, hsect]
        omega
      · exact fun b hb => update_of_ne hb _ _
  · next h0 =>
      refine ⟨s, ?_, .refl h ?_, hsect, rfl, fun _ _ => rfl⟩
      · simp [number, hind]
      · simpa [number, hind] using h0

end Maps

end Xv6.Mkfs
