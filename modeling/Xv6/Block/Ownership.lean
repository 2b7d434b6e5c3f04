import Xv6.Block.Refine

/-!
# Every block is in one place

The steps of `iget`, `ilock`, `iput` and `ialloc` keep the invariant of `Xv6.Block.Cache`; so
every step does, and in every state of every run from a consistent disk the blocks in use are
those of the inodes in use, each at one place.
-/

namespace Xv6.Block.Sys

open Function (update update_eq_self update_of_ne update_self)

variable {P T : Type} [DecidableEq P] {sb : Superblock} {s : Sys P T} {i : ℕ} {p : P} {t : T}
  {st : Stage T}

/-- The process works on no inode, before and after. -/
structure Away (s : Sys P T) (p : P) (st : Stage T) : Prop where
  before : ∀ y, ¬ (s.stage p).On y
  after : ∀ y, ¬ st.On y

omit [DecidableEq P] in
theorem away_of_idle (hp : s.isIdle p = true) : s.Away p (s.stage p) :=
  ⟨not_on_of_idle hp, not_on_of_idle hp⟩

/-- A step of a process that works on no inode, which the view does not show. -/
theorem Inv.of_view {s' : Sys P T} (hs : s.Inv sb) (ha : s.Away p st)
    (hstage : s'.stage = update s.stage p st)
    (hrefs : ∀ y, Set.encard {x | s'.Points y x} = s'.ref y)
    (hlock : ∀ y q u, s'.lock y = some (q, u) → s'.ptr u = some y ∧ s'.valid y = true)
    (hon : ∀ q y u, (s.stage q).On y → s.lock y = some (q, u) → s'.lock y = some (q, u))
    (hcached : ∀ y, s'.Cached y → s.Cached y ∧ s'.inode y = s.inode y ∨
      s'.inode y = s.dinode y ∧ (s.dinode y).type ≠ .free)
    (hdinode : s'.dinode = s.dinode) (hcur : ∀ y, s'.cur y = s.cur y) (hdata : s'.data = s.data)
    (hbitmap : s'.bitmap = s.bitmap) : s'.Inv sb := by
  have hsame (q : P) (y : ℕ) (h : (s.stage q).On y) : s'.stage q = s.stage q := by
    rw [hstage]
    exact update_of_ne (by rintro rfl; exact ha.before y h) ..
  have hon' (q : P) (y : ℕ) (h : (s'.stage q).On y) : (s.stage q).On y := by
    by_cases hq : q = p
    · subst hq
      rw [hstage, update_self] at h
      exact absurd h (ha.after y)
    · rwa [hstage, update_of_ne hq] at h
  refine ⟨hrefs, hlock, fun q y hq => ?_, fun y hy => ?_, fun y hy => ?_, ?_⟩
  · have hold := hon' q y hq
    obtain ⟨u, hu, hvia⟩ := hs.on q y hold
    rw [hsame q y hold]
    exact ⟨u, hon q y u hold hu, hvia⟩
  · obtain ⟨hc, hi⟩ | ⟨hi, htype⟩ := hcached y hy
    · rw [hi]; exact hs.typed y hc
    · rwa [hi]
  · rw [hdinode]
    obtain ⟨hc, hi⟩ | ⟨hi, -⟩ := hcached y hy
    · rw [hi]
      obtain ⟨htypes, hwriter⟩ := hs.synced y hc
      refine ⟨htypes, fun hne => ?_⟩
      obtain ⟨q, hq⟩ := hwriter hne
      exact ⟨q, by rwa [hsame q y (Stage.on_of_writes hq)]⟩
    · rw [hi]; exact ⟨rfl, fun h => absurd rfl h⟩
  · have hent : s'.ent = s.ent := funext fun y => ent_congr (hcur y) (by rw [hdata])
    have hview : s'.view = { s.view with stage := update s.stage p st } := by
      rw [Sys.view, hent, hbitmap, hstage, funext hcur]
      rfl
    rw [hview]
    exact hs.blocks.goto ha.before ha.after

theorem drop_iff {s' : Sys P T} (hstage : s'.stage = update s.stage p st)
    (hdrop : ∀ y, st = .iputDrop y ↔ s.stage p = .iputDrop y) (q : P) (y : ℕ) :
    s'.stage q = .iputDrop y ↔ s.stage q = .iputDrop y := by
  by_cases hq : q = p
  · subst hq
    rw [hstage, update_self, hdrop]
  · rw [hstage, update_of_ne hq]

section
variable (hs : s.Inv sb)
include hs

/-- A process that works on no inode goes on. -/
theorem Inv.move (ha : s.Away p st)
    (hdrop : ∀ y, st = .iputDrop y ↔ s.stage p = .iputDrop y) : (s.goto p st).Inv sb := by
  refine hs.of_view ha rfl (fun y => hs.refs_congr (fun x => ?_) rfl) hs.lock
    (fun _ _ _ _ h => h) (fun y hy => .inl ⟨hy, rfl⟩) rfl (fun _ => rfl) rfl rfl
  cases x with
  | inl u => rfl
  | inr q => exact drop_iff rfl hdrop q y

theorem Inv.ilock (hp : s.isIdle p = true) (ht : s.ptr t = some i)
    (hfree : s.lock i = none) (hvalid : s.valid i = true) :
    ({ s with lock := update s.lock i (some (p, t)) } : Sys P T).Inv sb := by
  refine hs.of_view (away_of_idle hp) (update_eq_self p s.stage).symm hs.refs
    (fun y q u hy => ?_) (fun q y u hq hy => ?_)
    (fun y hy => .inl ⟨hy, rfl⟩) rfl (fun _ => rfl) rfl rfl
  · by_cases hyi : y = i
    · subst hyi
      obtain ⟨rfl, rfl⟩ := Prod.mk.inj (Option.some.inj
        ((update_self y (some (p, t)) s.lock).symm.trans hy))
      exact ⟨ht, hvalid⟩
    · exact hs.lock y q u ((update_of_ne hyi ..).symm.trans hy)
  · have hyi : y ≠ i := by rintro rfl; rw [hfree] at hy; cases hy
    exact (update_of_ne hyi ..).trans hy

/-- `ilock` reads the inode. -/
theorem Inv.ilock_read (hp : s.isIdle p = true) (ht : s.ptr t = some i)
    (hfree : s.lock i = none) (hvalid : s.valid i = false) (htype : (s.dinode i).type ≠ .free) :
    ({ s with
        inode := update s.inode i (s.dinode i)
        valid := update s.valid i true
        lock := update s.lock i (some (p, t)) } : Sys P T).Inv sb := by
  refine hs.of_view (away_of_idle hp) (update_eq_self p s.stage).symm hs.refs
    (fun y q u hy => ?_) (fun q y u hq hy => ?_)
    (fun y hy => ?_) rfl (fun y => ?_) rfl rfl
  · by_cases hyi : y = i
    · subst hyi
      obtain ⟨rfl, rfl⟩ := Prod.mk.inj (Option.some.inj
        ((update_self y (some (p, t)) s.lock).symm.trans hy))
      exact ⟨ht, update_self ..⟩
    · obtain ⟨hu, hv⟩ := hs.lock y q u ((update_of_ne hyi ..).symm.trans hy)
      exact ⟨hu, (update_of_ne hyi ..).trans hv⟩
  · have hyi : y ≠ i := by rintro rfl; rw [hfree] at hy; cases hy
    exact (update_of_ne hyi ..).trans hy
  · by_cases hyi : y = i
    · subst hyi
      exact .inr ⟨update_self .., htype⟩
    · exact .inl ⟨⟨hy.1, (update_of_ne hyi ..).symm.trans hy.2⟩,
        update_of_ne hyi ..⟩
  · by_cases hyi : y = i
    · subst hyi
      have hold : ¬ s.Cached y := fun h => by rw [h.2] at hvalid; cases hvalid
      have hpos := hs.ref_pos (x := .inl t) ht
      rw [cur, cur, if_neg hold, if_pos ⟨hpos, update_self ..⟩]
      exact update_self ..
    · exact cur_congr rfl (update_of_ne hyi ..) (update_of_ne hyi ..) rfl

section
variable (hp : s.isIdle p = true) (hl : s.lock i = some (p, t))
include hp hl

theorem Inv.iunlock : ({ s with lock := update s.lock i none } : Sys P T).Inv sb := by
  refine hs.of_view (away_of_idle hp) (update_eq_self p s.stage).symm hs.refs
    (fun y q u hy => ?_) (fun q y u hq hy => ?_)
    (fun y hy => .inl ⟨hy, rfl⟩) rfl (fun _ => rfl) rfl rfl
  · have hyi : y ≠ i := by
      rintro rfl
      cases (update_self y none s.lock).symm.trans hy
    exact hs.lock y q u ((update_of_ne hyi ..).symm.trans hy)
  · have hyi : y ≠ i := by
      rintro rfl
      obtain rfl := hs.alone hl hq
      exact not_on_of_idle hp y hq
    exact (update_of_ne hyi ..).trans hy

/-- A process that has the lock of `i` starts to work on it. -/
theorem Inv.start (hst : st.Within i t) (hflight : st.flight = none) (hfreed : ∀ j, ¬ st.Freed i j)
    (hfits : s.view.Fits st) : (s.goto p st).Inv sb := by
  have hidle := stage_of_idle hp
  refine hs.goto (hs.works_of_idle hp hl) hst
    (fun h => absurd (Stage.on_of_writes h) (not_on_of_idle hp i)) ?_ (fun j => ?_)
    (fun h => absurd (Stage.on_of_truncs h) (not_on_of_idle hp i)) hfits
  · rw [hidle, hflight]; rfl
  · rw [hidle]; exact iff_of_false (hfreed j) id

theorem Inv.readi {off n : ℕ} (hoff : off ≤ (s.inode i).size) :
    (s.goto p (.io i false off (min n ((s.inode i).size - off)) 0 .loop)).Inv sb := by
  obtain ⟨htype, -⟩ := hs.covers_of_lock hp hl
  refine hs.start hp hl Stage.within_io rfl (fun _ => id)
    ⟨htype, Nat.zero_le _, (fun h => by cases h), fun _ => ⟨?_, rfl⟩, fun b slot h => ?_⟩
  · rw [(hs.works_of_idle hp hl).cur]; omega
  · obtain h | h := h <;> cases h

theorem Inv.writei {off n : ℕ} (hoff : off ≤ (s.inode i).size) (hmax : off + n ≤ MAXFILE * BSIZE) :
    (s.goto p (.io i true off n 0 .loop)).Inv sb := by
  obtain ⟨htype, hcovers⟩ := hs.covers_of_lock hp hl
  rw [(hs.works_of_idle hp hl).cur] at hcovers
  refine hs.start hp hl Stage.within_io rfl (fun _ => id)
    ⟨htype, Nat.zero_le _, fun _ => ⟨by omega, fun bn hbn => hcovers bn (by omega)⟩,
      fun h => (by cases h), fun b slot h => ?_⟩
  obtain h | h := h <;> cases h

/-- `itrunc`, called by `iput` or not. -/
theorem Inv.itrunc
    {u : Option T} (hu : ∀ w, u = some w → w = t) : (s.goto p (.trunc i u (.direct 0))).Inv sb :=
  hs.start hp hl ⟨fun _ hy => hy, hu, fun _ h => by cases h⟩ rfl (fun _ => id)
    ⟨(hs.covers_of_lock hp hl).1, fun k hk => absurd hk (Nat.not_lt_zero _)⟩

theorem Inv.setNlink
    (nlink : Int16) : ((s.setInode i ((s.inode i).setNlink nlink)).iupdate i).Inv sb := by
  have hw := hs.works_of_idle hp hl
  have hblocks := hs.blocks.setNlink (p := p) (i := i) (not_on_of_idle hp)
    (fun q hq => not_on_of_idle hp i (hs.alone hl hq ▸ hq)) nlink
  rw [hw.ent, hw.cur] at hblocks
  exact hs.work (i := i) hw hw.stage rfl rfl rfl rfl (update_eq_self p s.stage).symm
    (fun y hy => ⟨update_of_ne hy .., update_of_ne hy ..⟩)
    (update_self ..) ⟨rfl, by simp [iupdate, setInode, Dinode.setNlink]⟩
    (fun hne => absurd (by simp [iupdate, setInode]) hne) (fun _ _ => rfl) hblocks

end

/-- A reference that is not the last one, or whose inode nobody works on, is dropped. -/
theorem Inv.drop_pointer (ha : s.Away p st) {ptr : T → Option ℕ}
    {stage : P → Stage T} (hstage : stage = update s.stage p st)
    {z : T ⊕ P} (hz : s.Points i z) (hpoints : ∀ y x,
      ({ s.deref i with ptr := ptr, stage := stage } : Sys P T).Points y x ↔
        s.Points y x ∧ ¬ (y = i ∧ x = z))
    (hlock : ∀ y q u, s.lock y = some (q, u) → ptr u = some y ∧ (y = i → z ≠ .inl u)) :
    ({ s.deref i with ptr := ptr, stage := stage } : Sys P T).Inv sb := by
  set s' : Sys P T := { s.deref i with ptr := ptr, stage := stage } with hs'
  have href : s'.ref i = s.ref i - 1 := update_self ..
  have hother (y : ℕ) (hy : y ≠ i) : s'.ref y = s.ref y := update_of_ne hy ..
  have hcached (y : ℕ) (hy : s'.Cached y) : s.Cached y := by
    by_cases hyi : y = i
    · subst hyi
      have hpos := hy.1
      exact ⟨by omega, hy.2⟩
    · exact ⟨hother y hyi ▸ hy.1, hy.2⟩
  refine hs.of_view ha hstage (fun y => ?_)
    (fun y q u hy => ⟨(hlock y q u hy).1, (hs.lock y q u hy).2⟩) (fun _ _ _ _ h => h)
    (fun y hy => .inl ⟨hcached y hy, rfl⟩) rfl (fun y => ?_) rfl rfl
  · by_cases hyi : y = i
    · subst hyi
      refine hs.refs_erase hz (fun x => ?_) href
      rw [hpoints]
      simp
    · refine hs.refs_congr (fun x => ?_) (hother y hyi)
      rw [hpoints]
      simp [hyi]
  · by_cases hyi : y = i
    · subst hyi
      by_cases hc : s.Cached y
      · by_cases hlast : s.ref y = 1
        · -- the last reference: nobody has the lock, so the copies agree
          have hnone : s.lock y = none := by
            by_contra hne
            obtain ⟨⟨q, u⟩, hqu⟩ := Option.ne_none_iff_exists'.mp hne
            have hmore := hs.one_lt_ref hz (show s.Points y (.inl u) from (hs.lock y q u hqu).1)
              ((hlock y q u hqu).2 rfl)
            omega
          have hnew : ¬ s'.Cached y := by
            rintro ⟨hpos, -⟩
            omega
          rw [cur, cur, if_pos hc, if_neg hnew]
          exact (hs.inode_eq hc fun q => hs.not_on_of_unlocked hnone q).symm
        · have hpos := hc.1
          have hnew : s'.Cached y := ⟨by omega, hc.2⟩
          rw [cur, cur, if_pos hc, if_pos hnew]
          rfl
      · rw [cur, cur, if_neg hc, if_neg fun h => hc (hcached y h)]
        rfl
    · exact cur_congr (hother y hyi) rfl rfl rfl

/-- The end of `iput` of an inode that has been freed. -/
theorem Inv.iput_end (hst : s.stage p = .iputDrop i) : ((s.deref i).goto p .idle).Inv sb := by
  refine hs.drop_pointer (z := .inr p) ⟨fun y hy => by rw [hst] at hy; exact hy, fun _ => id⟩ rfl
    hst (fun y x => ?_) (fun y q u hy => ⟨(hs.lock y q u hy).1, by simp⟩)
  cases x with
  | inl u => exact ⟨fun h => ⟨h, fun hc => by cases hc.2⟩, fun h => h.1⟩
  | inr q =>
    by_cases hq : q = p
    · subst hq
      simp only [Points, update_self, hst]
      simp [eq_comm]
    · simp [Points, deref, hq]

/-- `ialloc` has found an inode that is not in use. -/
theorem Inv.ialloc (ha : s.Away p st) (hdrop : ∀ y, st = .iputDrop y ↔ s.stage p = .iputDrop y)
    (hfree : (s.dinode i).type = .free) (type : Fs.FileType) :
    ({ s with dinode := update s.dinode i ⟨type, 0, 0, fun _ => 0⟩ }.goto p st).Inv sb := by
  set s' := { s with dinode := update s.dinode i ⟨type, 0, 0, fun _ => 0⟩ }.goto p st
    with hs'
  have hc : ¬ s.Cached i := fun h => hs.typed i h ((hs.synced i h).1.trans hfree)
  have hother (y : ℕ) (hy : y ≠ i) : s'.dinode y = s.dinode y := update_of_ne hy ..
  have hne (y : ℕ) (hy : s.Cached y) : y ≠ i := by rintro rfl; exact hc hy
  have hon (q : P) (y : ℕ) (h : (s.stage q).On y) : s'.stage q = s.stage q :=
    update_of_ne (by rintro rfl; exact ha.before y h) ..
  refine ⟨fun y => hs.refs_congr (fun x => ?_) rfl, hs.lock, fun q y hq => ?_, hs.typed,
    fun y hy => ?_, ?_⟩
  · cases x with
    | inl u => rfl
    | inr q => exact drop_iff rfl hdrop q y
  · have hqp : q ≠ p := by
      rintro rfl
      exact ha.after y (by rwa [show s'.stage q = st from update_self ..] at hq)
    rw [show s'.stage q = s.stage q from update_of_ne hqp ..] at hq ⊢
    exact hs.on q y hq
  · rw [hother y (hne y hy)]
    obtain ⟨htypes, hwriter⟩ := hs.synced y hy
    refine ⟨htypes, fun hdiff => ?_⟩
    obtain ⟨q, hq⟩ := hwriter hdiff
    exact ⟨q, by rwa [hon q y (Stage.on_of_writes hq)]⟩
  · have hold : s.view.cur i = s.dinode i := if_neg hc
    have hcur : s'.cur i = ⟨type, 0, 0, fun _ => 0⟩ := (if_neg hc).trans (update_self ..)
    have hcur' (y : ℕ) (hy : y ≠ i) : s'.cur y = s.cur y := cur_congr rfl rfl rfl (hother y hy)
    rw [view_eq_edit hcur hcur' (if_pos (.inr (by rw [hcur])))
      (fun y hy => ent_congr (hcur' y hy) rfl) rfl rfl]
    exact hs.blocks.ialloc ha.before ha.after (by rw [hold, hfree]) type 0

end

variable [DecidableEq T]

variable (hs : s.Inv sb)
include hs

section
variable (ha : s.Away p st) (hdrop : ∀ y, st = .iputDrop y ↔ s.stage p = .iputDrop y)
include ha hdrop

/-- A new pointer to `i`, whose copy is not read if it is the first. -/
theorem Inv.add_pointer {ref : ℕ → ℕ} {valid : ℕ → Bool}
    {stage : P → Stage T} (hstage : stage = update s.stage p st) (ht : s.ptr t = none)
    (href : ref = update s.ref i (s.ref i + 1))
    (hvalid : ∀ y, 0 < s.ref y → valid y = s.valid y) (hfirst : s.ref i = 0 → valid i = false) :
    ({ s with ref := ref, valid := valid, ptr := update s.ptr t (some i),
              stage := stage } : Sys P T).Inv sb := by
  set s' : Sys P T := { s with ref := ref, valid := valid, ptr := update s.ptr t (some i),
                               stage := stage } with hs'
  have hself : s'.ref i = s.ref i + 1 := (congrFun href i).trans (update_self ..)
  have hother (y : ℕ) (hy : y ≠ i) : s'.ref y = s.ref y :=
    (congrFun href y).trans (update_of_ne hy ..)
  have hcached (y : ℕ) : s'.Cached y ↔ s.Cached y := by
    rw [Cached, Cached]
    by_cases hy : y = i
    · subst hy
      obtain h0 | hpos := Nat.eq_zero_or_pos (s.ref y)
      · simp [hs', hfirst h0, h0]
      · simp [hs', href, hvalid y hpos, hpos]
    · rw [hother y hy]
      exact and_congr_right fun hpos => by rw [show s'.valid y = s.valid y from hvalid y hpos]
  have hpoints (y : ℕ) (x : T ⊕ P) : s'.Points y x ↔ y = i ∧ x = .inl t ∨ s.Points y x := by
    cases x with
    | inl u =>
      by_cases hu : u = t
      · subst hu; simp [Points, hs', ht, eq_comm]
      · simp [Points, hs', hu]
    | inr q => simpa [Points] using drop_iff hstage hdrop q y
  refine hs.of_view ha hstage (fun y => ?_) (fun y q u hy => ?_) (fun _ _ _ _ h => h)
    (fun y hy => .inl ⟨(hcached y).mp hy, rfl⟩) rfl (fun y => ?_) rfl rfl
  · by_cases hy : y = i
    · subst hy
      exact hs.refs_insert (z := .inl t) (by simp [Points, ht]) (fun x => by simp [hpoints]) hself
    · exact hs.refs_congr (fun x => by simp [hpoints, hy]) (hother y hy)
  · obtain ⟨hu, hv⟩ := hs.lock y q u hy
    have hne : u ≠ t := by rintro rfl; rw [ht] at hu; cases hu
    exact ⟨(update_of_ne hne ..).trans hu,
      (hvalid y (hs.ref_pos (x := .inl u) hu)).trans hv⟩
  · by_cases hc : s.Cached y
    · rw [cur, cur, if_pos hc, if_pos ((hcached y).mpr hc)]
    · rw [cur, cur, if_neg hc, if_neg fun h => hc ((hcached y).mp h)]

theorem Inv.iget (ht : s.ptr t = none) : ((s.iget t i).goto p st).Inv sb := by
  by_cases h : 0 < s.ref i
  · rw [Sys.iget, if_pos h]
    exact hs.add_pointer ha hdrop rfl ht rfl (fun _ _ => rfl) fun h0 => absurd h (by omega)
  · have h0 : s.ref i = 0 := Nat.eq_zero_of_not_pos h
    rw [Sys.iget, if_neg h]
    refine hs.add_pointer ha hdrop rfl ht (by rw [h0]) (fun y hy => ?_)
      fun _ => update_self ..
    have hne : y ≠ i := by rintro rfl; exact h hy
    exact update_of_ne hne ..

end

theorem Inv.idup (hp : s.isIdle p = true) {u : T} (hu : s.ptr u = none) (ht : s.ptr t = some i) :
    ({ s with
        ref := update s.ref i (s.ref i + 1)
        ptr := update s.ptr u (some i) } : Sys P T).Inv sb := by
  have hpos := hs.ref_pos (x := .inl t) ht
  exact hs.add_pointer (away_of_idle hp) (fun _ => Iff.rfl)
    (update_eq_self p s.stage).symm hu rfl (fun _ _ => rfl) fun h0 => absurd hpos (by omega)

/-- `iput` of a pointer through which the inode is not locked. -/
theorem Inv.iput_drop (hp : s.isIdle p = true) (ht : s.ptr t = some i)
    (hl : ∀ q u, s.lock i = some (q, u) → u ≠ t) :
    ({ s.deref i with ptr := update s.ptr t none } : Sys P T).Inv sb := by
  refine hs.drop_pointer (z := .inl t) (away_of_idle hp) (update_eq_self p s.stage).symm
    ht (fun y x => ?_) (fun y q u hy => ?_)
  · cases x with
    | inr q => exact ⟨fun h => ⟨h, fun hc => by cases hc.2⟩, fun h => h.1⟩
    | inl u =>
      by_cases hu : u = t
      · subst hu
        simp only [Points, update_self, ht]
        simp [eq_comm]
      · simp [Points, hu]
  · obtain ⟨hu, -⟩ := hs.lock y q u hy
    have hne : u ≠ t := by
      rintro rfl
      obtain rfl := Option.some.inj (ht.symm.trans hu)
      exact hl q u hy rfl
    exact ⟨(update_of_ne hne ..).trans hu, fun _ h => hne (Sum.inl.inj h).symm⟩

/-- The inode is freed. -/
theorem Inv.iput_free {w : T} (hst : s.stage p = .iputFree i w) :
    ({ (s.setInode i ((s.inode i).setType .free)).iupdate i with
        valid := update s.valid i false
        lock := update s.lock i none
        ptr := update s.ptr w none }.goto p (.iputDrop i)).Inv sb := by
  obtain ⟨t, hw⟩ := hs.works (p := p) (i := i) (hst ▸ rfl)
  obtain rfl : w = t := hw.stage.via w (by rw [hst]; rfl)
  have hptr : s.ptr w = some i := (hs.lock i p w hw.lock).1
  set s' := { (s.setInode i ((s.inode i).setType .free)).iupdate i with
        valid := update s.valid i false
        lock := update s.lock i none
        ptr := update s.ptr w none }.goto p (.iputDrop i) with hs'
  have hfree (y : ℕ) (u : T) (hu : s.ptr u = some y) (hy : y ≠ i) : u ≠ w := by
    rintro rfl
    exact hy (Option.some.inj (hu.symm.trans hptr))
  have hstage (q : P) (hq : q ≠ p) : s'.stage q = s.stage q := update_of_ne hq ..
  have hself : s'.stage p = .iputDrop i := update_self ..
  have hvalid (y : ℕ) (hy : y ≠ i) : s'.valid y = s.valid y := update_of_ne hy ..
  have hinode (y : ℕ) (hy : y ≠ i) : s'.inode y = s.inode y := update_of_ne hy ..
  have hdinode (y : ℕ) (hy : y ≠ i) : s'.dinode y = s.dinode y := update_of_ne hy ..
  have hnew : ¬ s'.Cached i := by
    rintro ⟨-, h⟩
    rw [show s'.valid i = false from update_self ..] at h
    cases h
  have hold (y : ℕ) (hy : s'.Cached y) : y ≠ i ∧ s.Cached y := by
    have hyi : y ≠ i := by rintro rfl; exact hnew hy
    exact ⟨hyi, hy.1, hvalid y hyi ▸ hy.2⟩
  refine ⟨fun y => ?_, fun y q u hy => ?_, fun q y hq => ?_, fun y hy => ?_, fun y hy => ?_, ?_⟩
  · by_cases hyi : y = i
    · -- the pointer is replaced by the `iput` itself
      subst hyi
      have hset := Set.encard_exchange (s := {x | s.Points y x}) (a := .inr p) (b := .inl w)
        (fun h => by cases hst.symm.trans h) hptr
      rw [hs.refs y] at hset
      refine Eq.trans (congrArg Set.encard (Set.ext fun x => ?_)) hset
      cases x with
      | inl u =>
        by_cases hu : u = w
        · subst hu; simp [Points, hs', Sys.goto]
        · simp [Points, hs', Sys.goto, hu]
      | inr q =>
        by_cases hq : q = p
        · subst hq; simp [Points, hself]
        · simp [Points, hstage q hq, hq]
    · refine hs.refs_congr (fun x => ?_) rfl
      cases x with
      | inl u =>
        by_cases hu : u = w
        · subst hu; simp [Points, hs', Sys.goto, hptr, Ne.symm hyi]
        · simp [Points, hs', Sys.goto, hu]
      | inr q =>
        by_cases hq : q = p
        · subst hq; simp [Points, hself, hst, Ne.symm hyi]
        · simp [Points, hstage q hq]
  · have hyi : y ≠ i := by
      rintro rfl
      rw [show s'.lock y = none from update_self ..] at hy
      cases hy
    obtain ⟨hu, hv⟩ := hs.lock y q u ((update_of_ne hyi ..).symm.trans hy)
    exact ⟨(update_of_ne (hfree y u hu hyi) ..).trans hu, (hvalid y hyi).trans hv⟩
  · have hqp : q ≠ p := by
      rintro rfl
      rw [hself] at hq
      exact hq
    rw [hstage q hqp] at hq ⊢
    obtain ⟨u, hu, hvia⟩ := hs.on q y hq
    have hyi : y ≠ i := fun h => hqp (hs.alone hw.lock (h ▸ hq))
    exact ⟨u, (update_of_ne hyi ..).trans hu, hvia⟩
  · obtain ⟨hyi, hc⟩ := hold y hy
    rw [hinode y hyi]
    exact hs.typed y hc
  · obtain ⟨hyi, hc⟩ := hold y hy
    rw [hinode y hyi, hdinode y hyi]
    obtain ⟨htypes, hwriter⟩ := hs.synced y hc
    refine ⟨htypes, fun hne => ?_⟩
    obtain ⟨q, hq⟩ := hwriter hne
    have hqp : q ≠ p := by
      rintro rfl
      rw [hst] at hq
      exact hq
    exact ⟨q, by rwa [hstage q hqp]⟩
  · have hblocks := hs.blocks.free hst
    rw [hw.cur] at hblocks
    have hcur : s'.cur i = (s.inode i).setType .free := by
      rw [cur, if_neg hnew]
      simp [hs', Sys.goto, iupdate, setInode]
    have hother (y : ℕ) (hy : y ≠ i) : s'.cur y = s.cur y :=
      cur_congr rfl (hvalid y hy) (hinode y hy) (hdinode y hy)
    rw [view_eq_edit hcur hother (if_pos (.inl (by rw [hcur]; rfl)))
      (fun y hy => ent_congr (hother y hy) rfl) rfl rfl]
    exact hblocks

end Xv6.Block.Sys
