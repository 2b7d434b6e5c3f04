import Xv6.Block.Steps
import Mathlib.Data.Set.Card

/-!
# The in-memory inodes

The invariant of `Xv6.Block.Sys`: the reference counts are those of the pointers, a process has
the lock of the inode it works on, and the copy in memory differs from the one on disk only while
`writei` or `itrunc` is at work. The blocks are as the view has them, in which every inode is
seen in the copy that counts.
-/

namespace Xv6.Block

open Function (update update_of_ne)

/-- The pointer that `iput` was called with. -/
def Stage.via {T : Type} : Stage T → Option T
  | .trunc _ t _ => t
  | .iputFree _ t => some t
  | _ => none

/-- The process is on no other inode than `i`, and in no `iput` but of `t`. -/
structure Stage.Within {T : Type} (st : Stage T) (i : ℕ) (t : T) : Prop where
  on : ∀ y, st.On y → y = i
  via : ∀ u, st.via = some u → u = t
  drop : ∀ y, st ≠ .iputDrop y

section Within

variable {T : Type} {i : ℕ} {t : T}

theorem Stage.within_idle : (Stage.idle : Stage T).Within i t :=
  ⟨fun _ h => h.elim, fun _ h => (by cases h), fun _ h => by cases h⟩

theorem Stage.within_io {write : Bool} {off n tot : ℕ} {pc : IoAt} :
    (Stage.io i write off n tot pc : Stage T).Within i t :=
  ⟨fun _ h => h, fun _ h => (by cases h), fun _ h => by cases h⟩

theorem Stage.Within.trunc {u : Option T} {pc pc' : TruncAt}
    (h : (Stage.trunc i u pc).Within i t) : (Stage.trunc i u pc').Within i t :=
  ⟨fun _ h => h, h.via, fun _ h => by cases h⟩

end Within

/-- The process may have changed the copy in memory. -/
def Stage.Writes {T : Type} : Stage T → ℕ → Prop
  | .io i true .., x | .trunc i .., x => x = i
  | _, _ => False

theorem Stage.on_of_writes {T : Type} {st : Stage T} {i : ℕ} (h : st.Writes i) : st.On i := by
  cases st with
  | io x write =>
    cases write with
    | true => exact h
    | false => exact h.elim
  | trunc => exact h
  | _ => exact h.elim

/-- The entries of an inode's indirect block, all zero if it has none. -/
def Dinode.entries (x : Dinode) (data : ℕ → Entries) : Entries :=
  if x.type = .free ∨ x.addrs (Fin.last NDIRECT) = 0 then fun _ => 0
  else data (x.addrs (Fin.last NDIRECT))

namespace Sys

variable {P T : Type}

/-- The copy in memory has been read. -/
def Cached (s : Sys P T) (i : ℕ) : Prop := 0 < s.ref i ∧ s.valid i = true

instance (s : Sys P T) (i : ℕ) : Decidable (s.Cached i) := inferInstanceAs (Decidable (_ ∧ _))

/-- The copy that counts. -/
def cur (s : Sys P T) (i : ℕ) : Dinode := if s.Cached i then s.inode i else s.dinode i

/-- The entries of an inode's indirect block. -/
def ent (s : Sys P T) (i : ℕ) : Entries := (s.cur i).entries s.data

def view (s : Sys P T) : View P T := ⟨s.cur, s.ent, s.bitmap, s.stage⟩

/-- What counts as a reference: a pointer, or an `iput` that has yet to count down. -/
def Points (s : Sys P T) (i : ℕ) : T ⊕ P → Prop
  | .inl t => s.ptr t = some i
  | .inr p => s.stage p = .iputDrop i

/-- The invariant. -/
structure Inv (sb : Superblock) (s : Sys P T) : Prop where
  refs : ∀ i, Set.encard {x | s.Points i x} = s.ref i
  lock : ∀ i p t, s.lock i = some (p, t) → s.ptr t = some i ∧ s.valid i = true
  on : ∀ p i, (s.stage p).On i →
    ∃ t, s.lock i = some (p, t) ∧ ∀ u, (s.stage p).via = some u → u = t
  typed : ∀ i, s.Cached i → (s.inode i).type ≠ .free
  synced : ∀ i, s.Cached i → (s.inode i).type = (s.dinode i).type ∧
    (s.inode i ≠ s.dinode i → ∃ p, (s.stage p).Writes i)
  blocks : s.view.Ok sb

variable {sb : Superblock} {s : Sys P T} {i : ℕ} {p : P} {t : T}

namespace Inv

variable (hs : s.Inv sb)
include hs

theorem ref_pos {x : T ⊕ P} (hx : s.Points i x) : 0 < s.ref i := by
  refine Nat.pos_of_ne_zero fun h => ?_
  have hcard := hs.refs i
  rw [h, Nat.cast_zero, Set.encard_eq_zero] at hcard
  exact Set.notMem_empty x (hcard ▸ hx)

/-- Two references are counted twice. -/
theorem one_lt_ref {x y : T ⊕ P} (hx : s.Points i x) (hy : s.Points i y)
    (hne : x ≠ y) : 1 < s.ref i := by
  have h : 1 < Set.encard {x | s.Points i x} := Set.one_lt_encard_iff.mpr ⟨x, y, hx, hy, hne⟩
  rw [hs.refs i] at h
  exact_mod_cast h

/-- An inode that is locked is in memory. -/
theorem cached (h : s.lock i = some (p, t)) : s.Cached i :=
  ⟨hs.ref_pos (x := .inl t) (hs.lock i p t h).1, (hs.lock i p t h).2⟩

theorem cur_of_lock (h : s.lock i = some (p, t)) : s.cur i = s.inode i :=
  if_pos (hs.cached h)

/-- Only the holder of the lock works on an inode. -/
theorem alone (h : s.lock i = some (p, t)) {q : P} (hq : (s.stage q).On i) : q = p := by
  obtain ⟨u, hu, -⟩ := hs.on q i hq
  rw [h] at hu
  exact (congrArg Prod.fst (Option.some.inj hu)).symm

/-- Without a writer the two copies agree. -/
theorem inode_eq (hc : s.Cached i) (h : ∀ q, ¬ (s.stage q).On i) : s.inode i = s.dinode i := by
  by_contra hne
  obtain ⟨q, hq⟩ := (hs.synced i hc).2 hne
  exact h q (Stage.on_of_writes hq)

theorem not_on_of_unlocked (h : s.lock i = none) (q : P) : ¬ (s.stage q).On i := by
  intro hq
  obtain ⟨u, hu, -⟩ := hs.on q i hq
  rw [h] at hu
  cases hu

end Inv

variable {s' : Sys P T}

/-- The view depends on the copy that counts and on the indirect blocks. -/
theorem ent_congr (hcur : s'.cur i = s.cur i)
    (hdata : (s.cur i).entries s'.data = (s.cur i).entries s.data) : s'.ent i = s.ent i := by
  rw [ent, ent, hcur, hdata]

theorem cur_congr (href : s'.ref i = s.ref i) (hvalid : s'.valid i = s.valid i)
    (hinode : s'.inode i = s.inode i) (hdinode : s'.dinode i = s.dinode i) :
    s'.cur i = s.cur i := by
  have hcached : s'.Cached i ↔ s.Cached i := by rw [Cached, Cached, href, hvalid]
  by_cases h : s.Cached i
  · rw [cur, cur, if_pos h, if_pos (hcached.mpr h), hinode]
  · rw [cur, cur, if_neg h, if_neg (fun h' => h (hcached.mp h')), hdinode]

/-- A change of the block at another place changes no entries. -/
theorem Inv.entries_update (hs : s.Inv sb) {pl : Place P} {b : ℕ} (hpl : s.view.Holds pl b) {y : ℕ}
    (hne : pl ≠ .addr y (Fin.last NDIRECT)) (data : ℕ → Entries) (new : Entries) :
    (s.cur y).entries (update data b new) = (s.cur y).entries data := by
  rw [Dinode.entries, Dinode.entries]
  split
  · rfl
  · next h =>
      obtain ⟨htype, hlast⟩ := not_or.mp h
      refine update_of_ne (fun heq => hne ?_) ..
      exact hs.blocks.own.eq_of_holds hpl ⟨htype, heq, heq ▸ hlast⟩

theorem Inv.refs_congr (hs : s.Inv sb) (hpoints : ∀ x, s'.Points i x ↔ s.Points i x)
    (href : s'.ref i = s.ref i) : Set.encard {x | s'.Points i x} = s'.ref i := by
  rw [show {x | s'.Points i x} = {x | s.Points i x} from Set.ext hpoints, href]
  exact hs.refs i

/-- One more reference. -/
theorem Inv.refs_insert (hs : s.Inv sb) {z : T ⊕ P} (hz : ¬ s.Points i z)
    (hpoints : ∀ x, s'.Points i x ↔ x = z ∨ s.Points i x) (href : s'.ref i = s.ref i + 1) :
    Set.encard {x | s'.Points i x} = s'.ref i := by
  rw [show {x | s'.Points i x} = insert z {x | s.Points i x} from Set.ext hpoints,
    Set.encard_insert_of_notMem (s := {x | s.Points i x}) hz, hs.refs i, href]
  rfl

/-- One reference less. -/
theorem Inv.refs_erase (hs : s.Inv sb) {z : T ⊕ P} (hz : s.Points i z)
    (hpoints : ∀ x, s'.Points i x ↔ s.Points i x ∧ x ≠ z) (href : s'.ref i = s.ref i - 1) :
    Set.encard {x | s'.Points i x} = s'.ref i := by
  rw [show {x | s'.Points i x} = {x | s.Points i x} \ {z} from Set.ext hpoints, href]
  have hcard := Set.encard_sdiff_singleton_add_one (s := {x | s.Points i x}) hz
  rw [hs.refs i] at hcard
  have hpos := hs.ref_pos hz
  generalize Set.encard ({x | s.Points i x} \ {z}) = c at hcard ⊢
  cases c with
  | top => cases hcard
  | coe c => norm_cast at hcard ⊢; omega

section Mapped

/-- What `bmap` finds, in terms of the view. -/
theorem hole_of_bmap (hcur : s.cur i = s.inode i) (htype : (s.cur i).type ≠ .free) {bn : ℕ}
    {slot : Slot} (h : (s.inode i).bmap s.data bn = .hole slot) : s.view.Hole i bn slot := by
  rw [← hcur] at h
  simp only [Dinode.bmap] at h
  split at h
  · next hlt =>
      split at h
      · next hz => cases h; exact ⟨hz, .inl ⟨rfl, hlt⟩⟩
      · cases h
  · next hge =>
      split at h
      · next hlt =>
          split at h
          · next hz => cases h; exact ⟨hz, .inr ⟨rfl, Nat.not_lt.mp hge⟩⟩
          · next hne =>
              split at h
              · next hz =>
                  cases h
                  refine ⟨?_, hne, Nat.add_sub_of_le (Nat.not_lt.mp hge)⟩
                  rw [show s.view.ent i = s.data ((s.cur i).addrs (Fin.last NDIRECT)) from
                    if_neg (not_or.mpr ⟨htype, hne⟩)]
                  exact hz
              · cases h
      · cases h

/-- The block that `bmap` finds is at a place, and not an indirect block. -/
theorem block_of_bmap (hcur : s.cur i = s.inode i) (htype : (s.cur i).type ≠ .free) {bn b : ℕ}
    (hfreed : ∀ q j, ¬ (s.stage q).Freed i j)
    (h : (s.inode i).bmap s.data bn = .block b) :
    s.view.HasBlock i bn ∧
      ∃ pl, s.view.Holds pl b ∧ ∀ y, pl ≠ .addr y (Fin.last NDIRECT) := by
  rw [← hcur] at h
  simp only [Dinode.bmap] at h
  split at h
  · next hlt =>
      split at h
      · cases h
      · next hne =>
          cases h
          refine ⟨.inl ⟨_, rfl, hlt, hne⟩, .addr i ⟨bn, Nat.lt_succ_of_lt hlt⟩,
            ⟨htype, rfl, hne⟩, fun y hy => ?_⟩
          have := congrArg Fin.val (Place.addr.inj hy).2
          exact absurd hlt (by simp only [Fin.val_last] at this; omega)
  · next hge =>
      split at h
      · next hlt =>
          split at h
          · cases h
          · next hne =>
              have hent : s.view.ent i = s.data ((s.cur i).addrs (Fin.last NDIRECT)) :=
                if_neg (not_or.mpr ⟨htype, hne⟩)
              split at h
              · cases h
              · next hb =>
                  cases h
                  refine ⟨.inr ⟨⟨bn - NDIRECT, hlt⟩, Nat.add_sub_of_le (Nat.not_lt.mp hge), ?_⟩,
                    .entry i ⟨bn - NDIRECT, hlt⟩, ⟨htype, ?_, hb, fun q => hfreed q _⟩, by simp⟩
                  · rw [hent]; exact hb
                  · rw [hent]
      · cases h

/-- A block that is there leaves no hole. -/
theorem not_hole_of_hasBlock {v : View P T} (hv : v.Ok sb) {bn : ℕ} (h : v.HasBlock i bn)
    (slot : Slot) : ¬ v.Hole i bn slot := by
  intro hhole
  cases slot with
  | addr k =>
    obtain ⟨hz, ⟨hk, hlt⟩ | ⟨rfl, hge⟩⟩ := hhole
    · obtain ⟨k', hk', -, hne⟩ | ⟨j, hj, -⟩ := h
      · exact hne (Fin.ext (hk'.trans hk.symm) ▸ hz)
      · omega
    · obtain ⟨k', hk', hlt, -⟩ | ⟨j, hj, hne⟩ := h
      · omega
      · rw [hv.ent i (.inr hz)] at hne
        exact hne rfl
  | entry j =>
    obtain ⟨hz, -, hj⟩ := hhole
    obtain ⟨k', hk', hlt, -⟩ | ⟨j', hj', hne⟩ := h
    · omega
    · exact hne (Fin.ext (Nat.add_left_cancel (hj'.trans hj.symm)) ▸ hz)

end Mapped

/-- The blocks that a turn of `writei` has covered. -/
theorem covers_add {v : View P T} {off m : ℕ} (h : v.Covers i off)
    (hblock : v.HasBlock i (off / BSIZE)) (hm : m ≤ BSIZE - off % BSIZE) :
    v.Covers i (off + m) := by
  intro bn hbn
  by_cases hlt : bn * BSIZE < off
  · exact h bn hlt
  · obtain rfl : bn = off / BSIZE := by simp only [BSIZE] at *; omega
    exact hblock

/-- What a process has that works on the inode `i`, or is about to. -/
structure Works (s : Sys P T) (p : P) (i : ℕ) (t : T) : Prop where
  lock : s.lock i = some (p, t)
  cached : s.Cached i
  cur : s.view.cur i = s.inode i
  ent : s.view.ent i = (s.inode i).entries s.data
  type : (s.dinode i).type = (s.inode i).type
  stage : (s.stage p).Within i t

section
variable (hs : s.Inv sb)
include hs

theorem Inv.works_of_lock (hl : s.lock i = some (p, t))
    (hst : (s.stage p).Within i t) : s.Works p i t := by
  have hc := hs.cached hl
  have hcur := hs.cur_of_lock hl
  exact ⟨hl, hc, hcur, by rw [← hcur]; rfl, (hs.synced i hc).1.symm, hst⟩

theorem Inv.works (hon : (s.stage p).On i) : ∃ t, s.Works p i t := by
  obtain ⟨t, ht, hvia⟩ := hs.on p i hon
  refine ⟨t, hs.works_of_lock ht ⟨fun y hy => ?_, hvia, fun y h => ?_⟩⟩
  · cases hp : s.stage p <;> rw [hp] at hon hy <;> first | exact hy.trans hon.symm | exact hon.elim
  · rw [h] at hon
    exact hon

/-- A block is filled. -/
theorem view_copy {pl : Place P} {b : ℕ} (hpl : s.view.Holds pl b)
    (hne : ∀ y, pl ≠ .addr y (Fin.last NDIRECT)) (new : Entries) :
    ({ s with data := update s.data b new } : Sys P T).view = s.view := by
  have hent : ({ s with data := update s.data b new } : Sys P T).ent = s.ent :=
    funext fun y => ent_congr (s := s) rfl (hs.entries_update hpl (hne y) s.data new)
  rw [view, hent]
  rfl

theorem Inv.copy {pl : Place P} {b : ℕ} (hpl : s.view.Holds pl b)
    (hne : ∀ y, pl ≠ .addr y (Fin.last NDIRECT)) (new : Entries) :
    ({ s with data := update s.data b new } : Sys P T).Inv sb :=
  ⟨hs.refs, hs.lock, hs.on, hs.typed, hs.synced, by
    rw [view_copy hs hpl hne new]; exact hs.blocks⟩

/-- The copies differ during `writei` only. -/
theorem Inv.io_sync {write : Bool} {off n tot : ℕ} {pc : IoAt}
    (hst : s.stage p = .io i write off n tot pc) (hne : s.inode i ≠ s.dinode i) : write = true := by
  obtain ⟨t, hw⟩ := hs.works (p := p) (i := i) (hst ▸ rfl)
  obtain ⟨q, hq⟩ := (hs.synced i hw.cached).2 hne
  obtain rfl := hs.alone hw.lock (Stage.on_of_writes hq)
  rw [hst] at hq
  cases write with
  | true => rfl
  | false => exact hq.elim

theorem Inv.io_fits {write : Bool} {off n tot : ℕ} {pc : IoAt}
    (hst : s.stage p = .io i write off n tot pc) : s.view.IoFits i write off n tot pc := by
  have h := hs.blocks.fits p
  rwa [show s.view.stage p = _ from hst] at h

theorem Inv.trunc_cleared {u : Option T} {pc : TruncAt}
    (hst : s.stage p = .trunc i u pc) : s.view.Cleared i pc := by
  have h := hs.blocks.fits p
  rw [show s.view.stage p = _ from hst] at h
  exact h.2

end

theorem stage_of_idle (h : s.isIdle p = true) : s.stage p = .idle := by
  rw [isIdle] at h
  split at h
  · next hst => exact hst
  · cases h

theorem not_on_of_idle (h : s.isIdle p = true) (y : ℕ) : ¬ (s.stage p).On y := by
  rw [stage_of_idle h]
  exact id

theorem Inv.works_of_idle (hs : s.Inv sb) (hp : s.isIdle p = true) (hl : s.lock i = some (p, t)) :
    s.Works p i t :=
  hs.works_of_lock hl (stage_of_idle hp ▸ Stage.within_idle)

/-- The inode that a process has locked is in use, and has its blocks. -/
theorem Inv.covers_of_lock (hs : s.Inv sb) (hp : s.isIdle p = true)
    (hl : s.lock i = some (p, t)) : (s.view.cur i).type ≠ .free ∧
      s.view.Covers i (s.view.cur i).size := by
  have hw := hs.works_of_idle hp hl
  have htype : (s.view.cur i).type ≠ .free := hw.cur ▸ hs.typed i hw.cached
  refine ⟨htype, ?_⟩
  obtain ⟨q, hq⟩ | h := hs.blocks.full i htype
  · obtain rfl := hs.alone hl (Stage.on_of_truncs hq)
    exact absurd (Stage.on_of_truncs hq) (not_on_of_idle hp i)
  · exact h.1

/-- `bfree` of a block that is marked does not panic. -/
theorem bfreeAt_eq {b : ℕ} (h : b ≠ 0 → s.bitmap b = true) :
    s.bfreeAt b = .ok { s with bitmap := View.release s.bitmap b } := by
  by_cases hb : b = 0
  · rw [bfreeAt, if_pos hb, View.release, if_pos hb]
  · rw [bfreeAt, if_neg hb, bfree, if_neg (by simp [h hb]), View.release, if_neg hb]

end Sys

end Xv6.Block
