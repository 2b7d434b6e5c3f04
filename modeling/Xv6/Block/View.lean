import Xv6.Block.Model
import Xv6.Lib.Owner

/-!
# Who holds which block

What the functions of `Xv6.Block.Model` keep true of the blocks, said of a `View`: every inode
with the copy of it that counts, in memory or on disk, and the entries of its indirect block as
part of it. A block number is in an inode, among the entries, or in the hands of a process that
has just allocated it.
-/

namespace Xv6.Block

open Function (update update_of_ne update_self)

open Fs (FileType)

namespace Stage

variable {T : Type}

/-- The process works on the inode, and has its lock. -/
def On : Stage T → ℕ → Prop
  | .io i .., x | .trunc i .., x | .iputFree i _, x => x = i
  | _, _ => False

/-- The process is taking the inode apart. -/
def Truncs : Stage T → ℕ → Prop
  | .trunc i .., x | .iputFree i _, x => x = i
  | _, _ => False

/-- The block the process has allocated and not stored yet. -/
def flight : Stage T → Option ℕ
  | .io _ _ _ _ _ (.bzero b _) => some b
  | _ => none

/-- The process has freed the block in this entry of the indirect block. -/
def Freed : Stage T → ℕ → Fin NINDIRECT → Prop
  | .trunc i _ (.entry m), x, j => x = i ∧ j < m
  | .trunc i _ .indirect, x, _ => x = i
  | _, _, _ => False

theorem on_of_truncs {st : Stage T} {i : ℕ} (h : st.Truncs i) : st.On i := by
  cases st <;> first | exact h | exact h.elim

theorem truncs_of_freed {st : Stage T} {i : ℕ} {j : Fin NINDIRECT} (h : st.Freed i j) :
    st.Truncs i := by
  cases st with
  | trunc i' t pc =>
    cases pc with
    | entry m => exact h.1
    | indirect => exact h
    | _ => exact h.elim
  | _ => exact h.elim

theorem on_of_flight {st : Stage T} {b : ℕ} (h : st.flight = some b) : ∃ i, st.On i := by
  cases st with
  | io i write off n tot pc => exact ⟨i, rfl⟩
  | _ => cases h

end Stage

namespace Dinode

variable (x : Dinode)

@[simp] theorem setAddr_type (k : Fin (NDIRECT + 1)) (b : ℕ) : (x.setAddr k b).type = x.type := rfl

@[simp] theorem setAddr_addrs (k : Fin (NDIRECT + 1)) (b : ℕ) :
    (x.setAddr k b).addrs = update x.addrs k b := rfl

@[simp] theorem setSize_type (n : ℕ) : (x.setSize n).type = x.type := rfl

@[simp] theorem setSize_addrs (n : ℕ) : (x.setSize n).addrs = x.addrs := rfl

end Dinode

/-- The inodes, the free map and the processes. -/
structure View (P T : Type) where
  cur : ℕ → Dinode
  /-- The entries of the indirect blocks. -/
  ent : ℕ → Entries
  bitmap : ℕ → Bool
  stage : P → Stage T

/-- A place that can hold a block number. -/
inductive Place (P : Type)
  | addr (i : ℕ) (k : Fin (NDIRECT + 1))
  | entry (i : ℕ) (j : Fin NINDIRECT)
  | flight (p : P)

/-- The places that `p` can change when it works on `i`. -/
inductive Place.Near {P : Type} (i : ℕ) (p : P) : Place P → Prop
  | addr (k : Fin (NDIRECT + 1)) : Near i p (.addr i k)
  | entry (j : Fin NINDIRECT) : Near i p (.entry i j)
  | flight : Near i p (.flight p)

namespace View

variable {P T : Type}

/-- What a place holds. The inodes that are not in use do not count. -/
def Holds (v : View P T) : Place P → ℕ → Prop
  | .addr i k, b => (v.cur i).type ≠ .free ∧ (v.cur i).addrs k = b ∧ b ≠ 0
  | .entry i j, b => (v.cur i).type ≠ .free ∧ v.ent i j = b ∧ b ≠ 0 ∧ ∀ p, ¬ (v.stage p).Freed i j
  | .flight p, b => (v.stage p).flight = some b

/-- A data block that is marked in the free map. -/
def Used (sb : Superblock) (v : View P T) (b : ℕ) : Prop := sb.IsData b ∧ v.bitmap b = true

/-- Every data block that is marked is at one place, and no other block is at any. -/
def Owned (sb : Superblock) (v : View P T) : Prop := Lib.Owned v.Holds (v.Used sb)

/-- The block `bn` of the inode is there. -/
def HasBlock (v : View P T) (i bn : ℕ) : Prop :=
  (∃ k : Fin (NDIRECT + 1), k.val = bn ∧ bn < NDIRECT ∧ (v.cur i).addrs k ≠ 0) ∨
    ∃ j : Fin NINDIRECT, NDIRECT + j.val = bn ∧ v.ent i j ≠ 0

/-- The first `n` bytes of the inode have blocks. -/
def Covers (v : View P T) (i n : ℕ) : Prop := ∀ bn, bn * BSIZE < n → v.HasBlock i bn

/-- The place is empty that would hold the block `bn`. -/
def Hole (v : View P T) (i bn : ℕ) : Slot → Prop
  | .addr k => (v.cur i).addrs k = 0 ∧
      (k.val = bn ∧ bn < NDIRECT ∨ k = Fin.last NDIRECT ∧ NDIRECT ≤ bn)
  | .entry j => v.ent i j = 0 ∧ (v.cur i).addrs (Fin.last NDIRECT) ≠ 0 ∧ NDIRECT + j.val = bn

/-- What `readi` and `writei` count on. -/
structure IoFits (v : View P T) (i : ℕ) (write : Bool) (off n tot : ℕ) (pc : IoAt) : Prop where
  type : (v.cur i).type ≠ .free
  tot_le : tot ≤ n
  writes : write = true → off + (n - tot) ≤ MAXFILE * BSIZE ∧ v.Covers i off
  reads : write = false → off + (n - tot) ≤ (v.cur i).size ∧ pc = .loop
  hole : ∀ b slot, pc = .balloc b slot ∨ pc = .bzero b slot → v.Hole i (off / BSIZE) slot

/-- What `itrunc` has cleared. -/
def Cleared (v : View P T) (i : ℕ) : TruncAt → Prop
  | .direct m => ∀ k : Fin (NDIRECT + 1), k.val < m → k ≠ Fin.last NDIRECT → (v.cur i).addrs k = 0
  | .entry _ | .indirect => (∀ k : Fin (NDIRECT + 1), k ≠ Fin.last NDIRECT → (v.cur i).addrs k = 0) ∧
      (v.cur i).addrs (Fin.last NDIRECT) ≠ 0
  | .update => ∀ k, (v.cur i).addrs k = 0

/-- What a process counts on. -/
def Fits (v : View P T) : Stage T → Prop
  | .io i write off n tot pc => v.IoFits i write off n tot pc
  | .trunc i _ pc => (v.cur i).type ≠ .free ∧ v.Cleared i pc
  | .iputFree i _ => (v.cur i).type ≠ .free ∧ ∀ k, (v.cur i).addrs k = 0
  | _ => True

/-- The invariant. -/
structure Ok (sb : Superblock) (v : View P T) : Prop where
  boot : 0 < sb.size - sb.nblocks
  marked : ∀ b, b < sb.size - sb.nblocks → v.bitmap b = true
  own : v.Owned sb
  /-- Where there is no indirect block, there are no entries. -/
  ent : ∀ i, (v.cur i).type = .free ∨ (v.cur i).addrs (Fin.last NDIRECT) = 0 → v.ent i = fun _ => 0
  full : ∀ i, (v.cur i).type ≠ .free → (∃ p, (v.stage p).Truncs i) ∨
    v.Covers i (v.cur i).size ∧ (v.cur i).size ≤ MAXFILE * BSIZE
  fits : ∀ p, v.Fits (v.stage p)
  sole : ∀ p q i, (v.stage p).On i → (v.stage q).On i → p = q

variable {sb : Superblock} {v : View P T} {i : ℕ} {p : P} {st : Stage T}

/-- `Fits` looks at the inode the process works on only. -/
theorem Fits.congr {w : View P T} (h : v.Fits st)
    (hsame : ∀ x, st.On x → w.cur x = v.cur x ∧ w.ent x = v.ent x) : w.Fits st := by
  cases st with
  | io x write off n tot pc =>
    obtain ⟨hcur, hent⟩ := hsame x rfl
    obtain ⟨htype, htot, hwrite, hread, hhole⟩ := h
    refine ⟨by rwa [hcur], htot, fun hw => ?_, fun hr => by rw [hcur]; exact hread hr, ?_⟩
    · simpa only [Covers, HasBlock, hcur, hent] using hwrite hw
    · intro b slot hpc
      have hold := hhole b slot hpc
      cases slot <;> simpa only [Hole, hcur, hent] using hold
  | trunc x t pc =>
    obtain ⟨hcur, hent⟩ := hsame x rfl
    obtain ⟨htype, hcleared⟩ := h
    refine ⟨by rwa [hcur], ?_⟩
    cases pc <;> simpa only [Cleared, hcur] using hcleared
  | iputFree x t =>
    obtain ⟨hcur, -⟩ := hsame x rfl
    simpa only [Fits, hcur] using h
  | _ => trivial

/-- The work of `p` is on `i`, before and after. -/
structure Local (v : View P T) (i : ℕ) (p : P) (st : Stage T) : Prop where
  before : ∀ y, (v.stage p).On y → y = i
  after : ∀ y, st.On y → y = i
  /-- No other process works on it. -/
  alone : ∀ q, (v.stage q).On i → q = p

/-- A process that works on `i` works on nothing else, and alone. -/
theorem Ok.local (hv : v.Ok sb) (hp : (v.stage p).On i) (hst : ∀ y, st.On y → y = i) :
    v.Local i p st where
  before y hy := by
    cases h : v.stage p <;> rw [h] at hp hy <;>
      first | exact hy.trans hp.symm | exact hp.elim
  after := hst
  alone q hq := hv.sole q p i hq hp

/-- Who works on `i` is `p`, so `p` decides which entries are freed. -/
theorem Local.entry_iff (hl : v.Local i p st) (j : Fin NINDIRECT) {b : ℕ} :
    v.Holds (.entry i j) b ↔
      (v.cur i).type ≠ .free ∧ v.ent i j = b ∧ b ≠ 0 ∧ ¬ (v.stage p).Freed i j := by
  refine and_congr_right fun _ => and_congr_right fun _ => and_congr_right fun _ => ?_
  refine ⟨fun h => h p, fun h q hq => h ?_⟩
  rwa [hl.alone q (Stage.on_of_truncs (Stage.truncs_of_freed hq))] at hq

variable {pl : Place P}

/-- The block a place holds is a data block and marked. -/
theorem Ok.used_of_holds (hv : v.Ok sb) {b : ℕ} (h : v.Holds pl b) :
    sb.IsData b ∧ v.bitmap b = true :=
  hv.own.used_of_holds h

/-- To clear the bit of a data block leaves the others. -/
theorem Ok.marked_of_drop (hv : v.Ok sb) {b : ℕ} (h : v.Holds pl b)
    (y : ℕ) (hy : y < sb.size - sb.nblocks) : update v.bitmap b false y = true := by
  have hne : y ≠ b := by
    rintro rfl
    exact absurd (hv.used_of_holds h).1.1 (Nat.not_le.mpr hy)
  rw [update_of_ne hne]
  exact hv.marked y hy

/-- The bit is cleared, if there is a block. -/
def release (bitmap : ℕ → Bool) (b : ℕ) : ℕ → Bool :=
  if b = 0 then bitmap else update bitmap b false

theorem Ok.marked_of_release (hv : v.Ok sb) {b : ℕ} (hpl : b ≠ 0 → v.Holds pl b)
    (y : ℕ) (hy : y < sb.size - sb.nblocks) : release v.bitmap b y = true := by
  by_cases hb : b = 0
  · rw [release, if_pos hb]; exact hv.marked y hy
  · rw [release, if_neg hb]; exact hv.marked_of_drop (hpl hb) y hy

theorem Ok.ne_zero (hv : v.Ok sb) {b : ℕ} (h : v.Holds pl b) : b ≠ 0 := by
  have hdata := (hv.used_of_holds h).1.1
  have hboot := hv.boot
  omega

/-- A process works on inodes in use. -/
theorem Ok.type_of_on (hv : v.Ok sb) (hp : (v.stage p).On i) : (v.cur i).type ≠ .free := by
  have hfits := hv.fits p
  cases h : v.stage p with
  | io => rw [h] at hfits hp; obtain rfl := hp; exact hfits.type
  | trunc => rw [h] at hfits hp; obtain rfl := hp; exact hfits.1
  | iputFree => rw [h] at hfits hp; obtain rfl := hp; exact hfits.1
  | _ => rw [h] at hp; exact hp.elim

/-- An inode that nobody takes apart has its blocks. -/
theorem Ok.covers (hv : v.Ok sb) (hp : (v.stage p).On i) (hst : ¬ (v.stage p).Truncs i) :
    v.Covers i (v.cur i).size ∧ (v.cur i).size ≤ MAXFILE * BSIZE := by
  obtain ⟨q, hq⟩ | h := hv.full i (hv.type_of_on hp)
  · exact absurd (hv.sole q p i (Stage.on_of_truncs hq) hp ▸ hq) hst
  · exact h

/-- A process that works on no inode counts on nothing. -/
theorem fits_of_not_on (h : ∀ y, ¬ st.On y) : v.Fits st := by
  cases st with
  | io y => exact absurd rfl (h y)
  | trunc y => exact absurd rfl (h y)
  | iputFree y => exact absurd rfl (h y)
  | _ => trivial

theorem Covers.mono {w : View P T} {n : ℕ} (h : v.Covers i n)
    (haddr : ∀ k, (v.cur i).addrs k ≠ 0 → (w.cur i).addrs k ≠ 0)
    (hent : ∀ j, v.ent i j ≠ 0 → w.ent i j ≠ 0) : w.Covers i n := by
  intro bn hbn
  obtain ⟨k, hk, hlt, hne⟩ | ⟨j, hj, hne⟩ := h bn hbn
  · exact .inl ⟨k, hk, hlt, haddr k hne⟩
  · exact .inr ⟨j, hj, hent j hne⟩

variable [DecidableEq P]

/-- A process `p` works on the inode `i`. -/
def edit (v : View P T) (i : ℕ) (x : Dinode) (e : Entries) (bitmap : ℕ → Bool) (p : P)
    (st : Stage T) : View P T where
  cur := update v.cur i x
  ent := update v.ent i e
  bitmap := bitmap
  stage := update v.stage p st

section Edit

variable {x : Dinode} {e : Entries} {bitmap : ℕ → Bool}

@[simp] theorem edit_cur_self : (v.edit i x e bitmap p st).cur i = x := update_self ..

@[simp] theorem edit_ent_self : (v.edit i x e bitmap p st).ent i = e := update_self ..

@[simp] theorem edit_stage_self : (v.edit i x e bitmap p st).stage p = st :=
  update_self ..

@[simp] theorem edit_bitmap : (v.edit i x e bitmap p st).bitmap = bitmap := rfl

theorem edit_cur_of_ne {y : ℕ} (h : y ≠ i) : (v.edit i x e bitmap p st).cur y = v.cur y :=
  update_of_ne h ..

theorem edit_ent_of_ne {y : ℕ} (h : y ≠ i) : (v.edit i x e bitmap p st).ent y = v.ent y :=
  update_of_ne h ..

theorem edit_stage_of_ne {q : P} (h : q ≠ p) : (v.edit i x e bitmap p st).stage q = v.stage q :=
  update_of_ne h ..

theorem Local.freed_iff (hl : v.Local i p st) {y : ℕ} {j : Fin NINDIRECT} (hy : y ≠ i) (q : P) :
    ((v.edit i x e bitmap p st).stage q).Freed y j ↔ (v.stage q).Freed y j := by
  by_cases hq : q = p
  · subst hq
    rw [edit_stage_self]
    constructor
    · exact fun h => absurd (hl.after _ (Stage.on_of_truncs (Stage.truncs_of_freed h))) hy
    · exact fun h => absurd (hl.before _ (Stage.on_of_truncs (Stage.truncs_of_freed h))) hy
  · rw [edit_stage_of_ne hq]

/-- Everything else stays. -/
theorem Local.holds_iff (hl : v.Local i p st) (hpl : ¬ pl.Near i p) (b : ℕ) :
    (v.edit i x e bitmap p st).Holds pl b ↔ v.Holds pl b := by
  cases pl with
  | addr y k =>
    have hy : y ≠ i := by rintro rfl; exact hpl (.addr k)
    simp only [Holds, edit_cur_of_ne hy]
  | entry y j =>
    have hy : y ≠ i := by rintro rfl; exact hpl (.entry j)
    simp only [Holds, edit_cur_of_ne hy, edit_ent_of_ne hy, hl.freed_iff hy]
  | flight q =>
    have hq : q ≠ p := by rintro rfl; exact hpl .flight
    simp only [Holds, edit_stage_of_ne hq]

/-- The places near `p` and `i` are described, and the others are as before. -/
theorem Local.holds_edit (hl : v.Local i p st) {Q : Place P → ℕ → Prop}
    (hnear : ∀ pl, pl.Near i p → ∀ b, (v.edit i x e bitmap p st).Holds pl b ↔ Q pl b)
    (hfar : ∀ pl, ¬ pl.Near i p → ∀ b, v.Holds pl b ↔ Q pl b) (pl : Place P) (b : ℕ) :
    (v.edit i x e bitmap p st).Holds pl b ↔ Q pl b := by
  by_cases hn : pl.Near i p
  · exact hnear pl hn b
  · rw [hl.holds_iff hn, hfar pl hn]

/-- An edit of the inode `i` by `p` keeps the invariant if it does so for `i` and `p`. -/
theorem Ok.edit (hv : v.Ok sb) (hl : v.Local i p st)
    (hmarked : ∀ b, b < sb.size - sb.nblocks → bitmap b = true)
    (hown : (v.edit i x e bitmap p st).Owned sb)
    (hent : x.type = .free ∨ x.addrs (Fin.last NDIRECT) = 0 → e = fun _ => 0)
    (hfull : x.type ≠ .free → st.Truncs i ∨
      (v.edit i x e bitmap p st).Covers i x.size ∧ x.size ≤ MAXFILE * BSIZE)
    (hfits : (v.edit i x e bitmap p st).Fits st) : (v.edit i x e bitmap p st).Ok sb where
  boot := hv.boot
  marked := hmarked
  own := hown
  ent y := by
    by_cases hy : y = i
    · subst hy; rwa [edit_cur_self, edit_ent_self]
    · rw [edit_cur_of_ne hy, edit_ent_of_ne hy]; exact hv.ent y
  full y hy := by
    by_cases hyi : y = i
    · subst hyi
      rw [edit_cur_self] at hy ⊢
      obtain h | h := hfull hy
      · exact .inl ⟨p, by rwa [edit_stage_self]⟩
      · exact .inr h
    · rw [edit_cur_of_ne hyi] at hy ⊢
      obtain ⟨q, hq⟩ | h := hv.full y hy
      · refine .inl ⟨q, ?_⟩
        have hqp : q ≠ p := by
          rintro rfl
          exact hyi (hl.before _ (Stage.on_of_truncs hq))
        rwa [edit_stage_of_ne hqp]
      · refine .inr ⟨?_, h.2⟩
        simpa only [Covers, HasBlock, edit_cur_of_ne hyi, edit_ent_of_ne hyi] using h.1
  fits q := by
    by_cases hq : q = p
    · subst hq; rwa [edit_stage_self]
    · rw [edit_stage_of_ne hq]
      refine (hv.fits q).congr fun y hy => ?_
      have hyi : y ≠ i := by rintro rfl; exact hq (hl.alone q hy)
      exact ⟨edit_cur_of_ne hyi, edit_ent_of_ne hyi⟩
  sole q r y hq hr := by
    by_cases hqp : q = p <;> by_cases hrp : r = p
    · rw [hqp, hrp]
    · subst hqp
      rw [edit_stage_self] at hq
      rw [edit_stage_of_ne hrp] at hr
      exact (hl.alone r (hl.after y hq ▸ hr)).symm
    · subst hrp
      rw [edit_stage_self] at hr
      rw [edit_stage_of_ne hqp] at hq
      exact hl.alone q (hl.after y hr ▸ hq)
    · rw [edit_stage_of_ne hqp] at hq
      rw [edit_stage_of_ne hrp] at hr
      exact hv.sole q r y hq hr

end Edit

end View

end Xv6.Block
