import Xv6.Fs.Names

/-!
# What a lock section does to the name space

A `View` is the name space together with the reference counts of the in-memory inodes, the
references all processes hold and the links they have counted ahead of an entry. A `Move` is
the part of a lock section that changes it: a reference taken or dropped, an entry written or
struck, a link counted or taken back. `View.Ok` is kept by every move. The link counts of a
`Node` are those of a `short`, modulo `2 ^ 16`.
-/

namespace Xv6.Fs

open Lib
open Function (update update_apply update_of_ne update_self)

namespace Names

/-- `nlink++`. -/
def bump (n : Names) (i : Inum) : Names :=
  update n i { n i with links := ((n i).links + 1) % 65536 }

/-- `nlink--`. -/
def drop (n : Names) (i : Inum) : Names :=
  update n i { n i with links := ((n i).links + 65535) % 65536 }

/-- Write an entry. -/
def enter (n : Names) (d : Inum) (name : Name) (i : Inum) : Names :=
  update n d { n d with dirents := place ⟨name, i⟩ (n d).dirents }

/-- Strike an entry. -/
def strike (n : Names) (d : Inum) (name : Name) : Names :=
  update n d { n d with dirents := erase name (n d).dirents }

/-- A new inode, entered in a directory. -/
def create (n : Names) (d : Inum) (name : Name) (i : Inum) (type : FileType) : Names :=
  let n : Names := update n i ⟨type, 1, Ok.newDirents type i d⟩
  let n := if type = .dir then n.bump d else n
  n.enter d name i

/-- An entry struck, and its links taken back. -/
def unlink (n : Names) (d : Inum) (name : Name) (i : Inum) : Names :=
  let isdir := decide ((n i).type = .dir)
  let n := n.strike d name
  let n := if isdir then n.drop d else n
  n.drop i

/-- The name is not in use in the directory. -/
def Absent (n : Names) (d : Inum) (name : Name) : Prop :=
  (n d).dirents.find? (fun e => e.is name) = none

/-- No link count is out of the range of a `short`. -/
def Short (n : Names) : Prop := ∀ i, (n i).links < 65536

variable {n : Names} {l : Multiset Inum} {d i j : Inum} {name : Name}

@[simp] theorem bump_type : (n.bump i j).type = (n j).type := by
  refine update_proj Node.type ?_ j
  rfl

@[simp] theorem bump_dirents : (n.bump i j).dirents = (n j).dirents := by
  refine update_proj Node.dirents ?_ j
  rfl

@[simp] theorem drop_type : (n.drop i j).type = (n j).type := by
  refine update_proj Node.type ?_ j
  rfl

@[simp] theorem drop_dirents : (n.drop i j).dirents = (n j).dirents := by
  refine update_proj Node.dirents ?_ j
  rfl

@[simp] theorem enter_type : (n.enter d name i j).type = (n j).type := by
  refine update_proj Node.type ?_ j
  rfl

@[simp] theorem strike_type : (n.strike d name j).type = (n j).type := by
  refine update_proj Node.type ?_ j
  rfl

theorem unlink_type : (n.unlink d name i j).type = (n j).type := by
  simp only [unlink, drop_type]
  split <;> simp

variable {type : FileType}

theorem create_type (hj : j ≠ i) : (n.create d name i type j).type = (n j).type := by
  simp only [create, enter_type]
  split
  · rw [bump_type, update_of_ne hj]
  · rw [update_of_ne hj]

theorem create_self_type : (n.create d name i type i).type = type := by
  simp only [create, enter_type]
  split
  · rw [bump_type, update_self]
  · rw [update_self]

/-! What the entries of a directory are after each change. -/

variable {e : Dirent}

theorem mem_enter {f : Inum} (he : e ∈ (n.enter d name i f).dirents) :
    (f = d ∧ e = ⟨name, i⟩) ∨ e ∈ (n f).dirents := by
  rw [enter, update_apply] at he
  split at he
  · rename_i hf
    rw [hf]
    exact (mem_place he).imp_left fun h => ⟨rfl, h⟩
  · exact .inr he

theorem mem_strike {f : Inum} (he : e ∈ (n.strike d name f).dirents) :
    e = .zero ∨ e ∈ (n f).dirents := by
  rw [strike, update_apply] at he
  split at he
  · rename_i hf
    rw [hf]
    exact mem_erase he
  · exact .inr he

theorem mem_unlink {f : Inum} (he : e ∈ (n.unlink d name i f).dirents) :
    e = .zero ∨ e ∈ (n f).dirents := by
  rw [unlink, drop_dirents] at he
  split at he
  · rw [drop_dirents] at he
    exact mem_strike he
  · exact mem_strike he

theorem mem_create {f : Inum} (he : e ∈ (n.create d name i type f).dirents) :
    (f = d ∧ e = ⟨name, i⟩) ∨ (f = i ∧ e ∈ Ok.newDirents type i d) ∨ e ∈ (n f).dirents := by
  rw [create] at he
  refine (mem_enter he).imp_right fun he => ?_
  have hupdate : e ∈ (update n i ⟨type, 1, Ok.newDirents type i d⟩ f).dirents := by
    split at he
    · rwa [bump_dirents] at he
    · exact he
  rw [update_apply] at hupdate
  split at hupdate
  · rename_i hf
    exact .inl ⟨hf, hupdate⟩
  · exact .inr hupdate

namespace Short

theorem update (h : n.Short) (i : Inum) {x : Node} (hx : x.links < 65536) :
    Short (update n i x) := by
  intro j
  by_cases hj : j = i
  · rwa [hj, update_self]
  · rw [update_of_ne hj]
    exact h j

theorem bump (h : n.Short) (i : Inum) : (n.bump i).Short :=
  h.update i (Nat.mod_lt _ (by decide))

theorem drop (h : n.Short) (i : Inum) : (n.drop i).Short :=
  h.update i (Nat.mod_lt _ (by decide))

theorem enter (h : n.Short) (d : Inum) (name : Name) (i : Inum) : (n.enter d name i).Short :=
  h.update d (h d)

theorem strike (h : n.Short) (d : Inum) (name : Name) : (n.strike d name).Short :=
  h.update d (h d)

theorem create (h : n.Short) (d : Inum) (name : Name) (i : Inum) (type : FileType) :
    (n.create d name i type).Short := by
  have hnew := h.update i (x := ⟨type, 1, Ok.newDirents type i d⟩) (by dsimp only; omega)
  simp only [Names.create]
  split
  · exact (hnew.bump d).enter d name i
  · exact hnew.enter d name i

theorem unlink (h : n.Short) (d : Inum) (name : Name) (i : Inum) : (n.unlink d name i).Short := by
  simp only [Names.unlink]
  split
  · exact ((h.strike d name).drop d).drop i
  · exact (h.strike d name).drop i

end Short

theorem ok_bump (h : n.Ok l) (hi : (n i).type ≠ .free) (hfits : (n i).links + 1 < 65536) :
    (n.bump i).Ok (l + {i}) := by
  rw [bump, Nat.mod_eq_of_lt hfits]
  exact h.bump hi

theorem ok_drop (h : n.Ok (l + {i})) (hs : n.Short) : (n.drop i).Ok l := by
  have hpos := h.links_pos
  have hlt := hs i
  rw [drop, show ((n i).links + 65535) % 65536 = (n i).links - 1 by omega]
  exact h.unbump

theorem ok_enter (h : n.Ok (l + {i})) (hi : (n i).type ≠ .dir) (hd : (n d).type = .dir)
    (hname : n.Absent d name) : (n.enter d name i).Ok l :=
  Ok.addEntry (by rwa [if_neg hi, add_zero]) hd hname fun hdir => absurd hdir hi

theorem ok_create (h : n.Ok l) (hd : (n d).type = .dir) (hname : n.Absent d name) (hi0 : i ≠ 0)
    (hi : (n i).type = .free) (htype : type ≠ .free)
    (hfits : type = .dir → (n d).links + 1 < 65536) : (n.create d name i type).Ok l := by
  have hd0 : d ≠ 0 := h.ne_zero (by rw [hd]; decide)
  have hdi : d ≠ i := by
    rintro rfl
    rw [hd] at hi
    cases hi
  have hnew := h.alloc hi0 hi htype hd0
  have hsame := update_of_ne hdi (⟨type, 1, Ok.newDirents type i d⟩ : Node) n
  rw [create]
  by_cases hdir : type = .dir
  · rw [if_pos hdir]
    have hbump := ok_bump (i := d) hnew (by rw [hsame, hd]; decide)
      (by rw [hsame]; exact hfits hdir)
    refine Ok.addEntry (i := i) ?_ (by rw [bump_type, hsame, hd]) ?_ ?_
    · rw [bump_type, update_self, if_pos hdir]
      exact hbump
    · rw [bump_dirents, hsame]
      exact hname
    · rw [bump_dirents, update_self, Ok.newDirents, if_pos hdir]
      simp
  · rw [if_neg hdir]
    refine ok_enter hnew (by rwa [update_self]) (by rw [hsame, hd]) ?_
    rw [Absent, hsame]
    exact hname

theorem ok_unlink (h : n.Ok l) (hs : n.Short) (hplain : Plain name)
    (hname : (n d).dirents.find? (fun e => e.is name) = some e) :
    (n.unlink d name e.inum).Ok l := by
  have hstrike : (n.strike d name).Ok _ := h.removeEntry hplain hname
  have hshort := hs.strike d name
  rw [unlink]
  by_cases hdir : (n e.inum).type = .dir
  · rw [if_pos hdir] at hstrike
    rw [decide_eq_true hdir, if_pos rfl]
    exact ok_drop (ok_drop hstrike hshort) (hshort.drop d)
  · rw [if_neg hdir, add_zero] at hstrike
    rw [decide_eq_false hdir]
    exact ok_drop hstrike hshort

end Names

/-- The name space with its references: who may be holding what. -/
structure View where
  names : Names
  ref : Inum → ℕ
  valid : Inum → Bool
  /-- The references held, one for each holder. -/
  holds : Multiset Inum
  /-- The links counted by a `sys_link` that has not written its entry. -/
  links : Multiset Inum

namespace View

/-- The inode is the root, is held, or has an entry: a reference to it can be taken. -/
def Known (v : View) (i : Inum) : Prop :=
  i = rootino ∨ i ∈ v.holds ∨ ∃ d, ∃ e ∈ (v.names d).dirents, e.inum ≠ 0 ∧ e.inum = i

/-- One change that a lock section makes. `A` says which inodes may be put and `W` which
directories may be written to, in the state where that happens. -/
inductive Move (A W : View → Inum → Prop) : View → View → Prop
  | read {v : View} (valid : Inum → Bool)
      (h : ∀ i, valid i = true → v.valid i = true ∨ (v.names i).type ≠ .free) :
      Move A W v { v with valid := valid }
  | get {v : View} {i : Inum} (valid : Inum → Bool) (hi : v.Known i)
      (h : ∀ j, valid j = true → v.valid j = true) :
      Move A W v { v with
        ref := update v.ref i (v.ref i + 1)
        valid := valid
        holds := v.holds + {i} }
  | put {v : View} {i : Inum} {h : Multiset Inum} (hv : v.holds = h + {i}) (ha : A v i)
      (hk : ¬ (v.ref i = 1 ∧ v.valid i = true ∧ (v.names i).links = 0)) :
      Move A W v { v with ref := update v.ref i (v.ref i - 1), holds := h }
  | free {v : View} {i : Inum} {h : Multiset Inum} (hv : v.holds = h + {i}) (ha : A v i)
      (href : v.ref i = 1) (hvalid : v.valid i = true) (hlinks : (v.names i).links = 0) :
      Move A W v { v with
        names := update v.names i ⟨.free, 0, []⟩
        ref := update v.ref i (v.ref i - 1)
        valid := update v.valid i false
        holds := h }
  | bump {v : View} {i : Inum} (hi : v.valid i = true) (hdir : (v.names i).type ≠ .dir)
      (hfits : (v.names i).links + 1 < 65536) :
      Move A W v { v with names := v.names.bump i, links := v.links + {i} }
  | drop {v : View} {i : Inum} {l : Multiset Inum} (hl : v.links = l + {i}) :
      Move A W v { v with names := v.names.drop i, links := l }
  | enter {v : View} {d i : Inum} {name : Name} {l : Multiset Inum} (hl : v.links = l + {i})
      (hd : (v.names d).type = .dir) (hname : v.names.Absent d name) (hw : W v d) :
      Move A W v { v with names := v.names.enter d name i, links := l }
  | create {v : View} {d i : Inum} {name : Name} {type : FileType} (valid : Inum → Bool)
      (hd : (v.names d).type = .dir) (hname : v.names.Absent d name) (hw : W v d) (hi0 : i ≠ 0)
      (hi : (v.names i).type = .free) (htype : type ≠ .free)
      (hfits : type = .dir → (v.names d).links + 1 < 65536)
      (h : ∀ j, valid j = true → v.valid j = true ∨ j = i) :
      Move A W v { v with
        names := v.names.create d name i type
        ref := update v.ref i (v.ref i + 1)
        valid := valid
        holds := v.holds + {i} }
  | unlink {v : View} {d : Inum} {name : Name} {e : Dirent} (hplain : Plain name)
      (hname : (v.names d).dirents.find? (fun e => e.is name) = some e)
      (hempty : (v.names e.inum).type = .dir →
        ∀ c ∈ (v.names e.inum).dirents.drop 2, c.inum = 0) :
      Move A W v { v with names := v.names.unlink d name e.inum }

/-- A sound name space whose links without an entry are those being made and those `lost`. -/
structure Ok (v : View) (lost : Multiset Inum) : Prop where
  names : v.names.Ok (v.links + lost)
  short : v.names.Short
  read : ∀ i, v.valid i = true → (v.names i).type ≠ .free
  files : ∀ i ∈ v.links, (v.names i).type ≠ .dir

variable {A W : View → Inum → Prop} {v w : View} {lost : Multiset Inum}

/-- **Every move keeps the name space sound.** Links are lost only with a directory that is freed
while it has entries. -/
theorem Ok.move (h : v.Ok lost) (hm : Move A W v w) :
    ∃ more, w.Ok (lost + more) ∧ (more = 0 ∨ ∃ i, (v.names i).type ≠ .free ∧
      (v.names i).links = 0 ∧ more = Names.Ok.lost (v.names i).dirents) := by
  cases hm with
  | read valid hvalid =>
    refine ⟨0, ⟨by rw [add_zero]; exact h.names, h.short, fun i hi => ?_, h.files⟩, .inl rfl⟩
    exact (hvalid i hi).elim (h.read i) id
  | get valid _ hvalid =>
    exact ⟨0, ⟨by rw [add_zero]; exact h.names, h.short, fun i hi => h.read i (hvalid i hi),
      h.files⟩, .inl rfl⟩
  | put _ _ _ =>
    exact ⟨0, ⟨by rw [add_zero]; exact h.names, h.short, h.read, h.files⟩, .inl rfl⟩
  | @free i _ _ _ _ hvalid hlinks =>
    have hi := h.read i hvalid
    refine ⟨_, ⟨by rw [← add_assoc]; exact h.names.free hi hlinks,
      h.short.update i (by decide), ?_, ?_⟩, .inr ⟨i, hi, hlinks, rfl⟩⟩
    · intro j hj
      dsimp only at hj ⊢
      have hji : j ≠ i := by
        rintro rfl
        rw [update_self] at hj
        cases hj
      rw [update_of_ne hji] at hj ⊢
      exact h.read j hj
    · intro j hj
      dsimp only
      by_cases hji : j = i
      · rw [hji, update_self]
        decide
      · rw [update_of_ne hji]
        exact h.files j hj
  | @bump i hi hdir hfits =>
    refine ⟨0, ⟨?_, h.short.bump i, fun j hj => ?_, fun j hj => ?_⟩, .inl rfl⟩
    · rw [add_zero, add_right_comm]
      exact Names.ok_bump h.names (h.read i hi) hfits
    · rw [Names.bump_type]
      exact h.read j hj
    · rw [Names.bump_type]
      rcases Multiset.mem_add.mp hj with hj | hj
      · exact h.files j hj
      · rwa [Multiset.mem_singleton.mp hj]
  | @drop i l hl =>
    refine ⟨0, ⟨?_, h.short.drop i, fun j hj => ?_, fun j hj => ?_⟩, .inl rfl⟩
    · have hnames := h.names
      rw [hl, add_right_comm] at hnames
      rw [add_zero]
      exact Names.ok_drop hnames h.short
    · rw [Names.drop_type]
      exact h.read j hj
    · rw [Names.drop_type]
      exact h.files j (by rw [hl]; exact Multiset.mem_add.mpr (.inl hj))
  | @enter d i name l hl hd hname _ =>
    refine ⟨0, ⟨?_, h.short.enter d name i, fun j hj => ?_, fun j hj => ?_⟩, .inl rfl⟩
    · have hnames := h.names
      rw [hl, add_right_comm] at hnames
      rw [add_zero]
      exact Names.ok_enter hnames (h.files i (by simp [hl])) hd hname
    · rw [Names.enter_type]
      exact h.read j hj
    · rw [Names.enter_type]
      exact h.files j (by rw [hl]; exact Multiset.mem_add.mpr (.inl hj))
  | @create d i name type valid hd hname _ hi0 hi htype hfits hvalid =>
    refine ⟨0, ⟨?_, h.short.create d name i type, fun j hj => ?_, fun j hj => ?_⟩, .inl rfl⟩
    · rw [add_zero]
      exact Names.ok_create h.names hd hname hi0 hi htype hfits
    · by_cases hji : j = i
      · rw [hji]
        exact Names.create_self_type.trans_ne htype
      · exact (Names.create_type hji).trans_ne (h.read j ((hvalid j hj).resolve_right hji))
    · have hji : j ≠ i := by
        rintro rfl
        exact h.names.pending j (Multiset.mem_add.mpr (.inl hj)) hi
      exact (Names.create_type hji).trans_ne (h.files j hj)
  | @unlink d name e hplain hname _ =>
    refine ⟨0, ⟨?_, h.short.unlink d name e.inum, fun j hj => ?_, fun j hj => ?_⟩, .inl rfl⟩
    · rw [add_zero]
      exact Names.ok_unlink h.names h.short hplain hname
    · exact Names.unlink_type.trans_ne (h.read j hj)
    · exact Names.unlink_type.trans_ne (h.files j hj)

end View

end Xv6.Fs
