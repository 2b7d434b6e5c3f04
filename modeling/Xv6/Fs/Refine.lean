import Xv6.Fs.Calls
import Xv6.Fs.View
import Xv6.Lib.Loop
import Mathlib.Tactic.Abel

/-!
# The system calls as moves

The inode layer refines the name space of `View`: what a lock section of a system call does is
a sequence of `Move`s, in which the caller's references and counted links are those its `Task`
says. `Task.moves_begin` and `Task.moves_run` are the two results; every invariant of the name
space goes through them.
-/

namespace Xv6.Fs

open Lib View
open Function (update update_apply update_comm update_eq_self update_eq_self_iff update_idem
  update_of_ne update_self)

/-! ## The view of the inodes -/

/-- The link count as an unsigned number. -/
def Inode.node (x : Inode) : Node := ⟨x.type, x.nlink.toUInt16.toNat, x.dirents⟩

section Nlink
variable (k : Int16)

theorem nlink_eq_of_toNat {k' : Int16} (h : k.toUInt16.toNat = k'.toUInt16.toNat) : k = k' := by
  cases k
  cases k'
  exact congrArg Int16.ofUInt16 (UInt16.toNat_inj.mp h)

theorem toNat_nlink_add_one : (k + 1).toUInt16.toNat = (k.toUInt16.toNat + 1) % 65536 := by
  rw [Int16.toUInt16_add, UInt16.toNat_add]
  rfl

theorem toNat_nlink_sub_one : (k - 1).toUInt16.toNat = (k.toUInt16.toNat + 65535) % 65536 := by
  rw [Int16.toUInt16_sub, UInt16.toNat_sub, show (Int16.toUInt16 1).toNat = 1 from rfl, add_comm]

theorem toNat_nlink_lt (h : k ≠ -1) : k.toUInt16.toNat + 1 < 65536 := by
  have hlt := k.toUInt16.toNat_lt
  by_contra hge
  refine h (nlink_eq_of_toNat k ?_)
  have hmax : (Int16.toUInt16 (-1)).toNat = 65535 := rfl
  omega

theorem nlink_eq_zero : k = 0 ↔ k.toUInt16.toNat = 0 :=
  ⟨fun h => by rw [h]; rfl, fun h => nlink_eq_of_toNat k h⟩

end Nlink

namespace Inodes

/-- The name space of the inodes. -/
def names (s : Inodes) : Names := fun i => (s i).node

/-- The view of the inodes, when `h` is held and `l` counted ahead. -/
def view (s : Inodes) (h l : Multiset Inum) : View :=
  ⟨s.names, fun i => (s i).ref, fun i => (s i).valid, h, l⟩

variable {s t : Inodes} {i d : Inum} {name : Name} {h l : Multiset Inum}

@[simp] theorem mod_self (f : Inode → Inode) : s.mod i f i = f (s i) := update_self i _ s

theorem mod_of_ne {j : Inum} (hj : j ≠ i) (f : Inode → Inode) : s.mod i f j = s j :=
  update_of_ne hj _ s

theorem mod_apply (f : Inode → Inode) (j : Inum) :
    s.mod i f j = if j = i then f (s i) else s j := update_apply s i _ j

theorem mod_mod (f g : Inode → Inode) : (s.mod i f).mod i g = s.mod i fun x => g (f x) := by
  rw [mod, mod_self, mod, mod, update_idem]

theorem mod_congr {f g : Inode → Inode} (hfg : f (s i) = g (s i)) : s.mod i f = s.mod i g := by
  rw [mod, mod, hfg]

/-- What is read off each inode after a change of one. -/
theorem proj_mod {β : Type} (π : Inode → β) (f : Inode → Inode) :
    (fun j => π (s.mod i f j)) = update (fun j => π (s j)) i (π (f (s i))) := by
  funext j
  rw [mod_apply, update_apply]
  split <;> rfl

theorem names_mod (f : Inode → Inode) :
    (s.mod i f).names = update s.names i (f (s i)).node := proj_mod Inode.node f

theorem view_mod (f : Inode → Inode) : (s.mod i f).view h l =
    ⟨update s.names i (f (s i)).node, update (fun j => (s j).ref) i (f (s i)).ref,
      update (fun j => (s j).valid) i (f (s i)).valid, h, l⟩ := by
  rw [view, names_mod, proj_mod Inode.ref, proj_mod Inode.valid]

variable {f : Inode → Inode}

/-- A change that a projection does not see. -/
theorem proj_mod_same {β : Type} (π : Inode → β) (hf : π (f (s i)) = π (s i)) :
    (fun j => π (s.mod i f j)) = fun j => π (s j) := by
  rw [proj_mod, hf, update_eq_self_iff]

theorem names_mod_same (hf : (f (s i)).node = (s i).node) :
    (s.mod i f).names = s.names := proj_mod_same Inode.node hf

/-- A change that the name space does not see. -/
theorem view_mod_ref (hn : (f (s i)).node = (s i).node) :
    (s.mod i f).view h l = ⟨s.names, update (fun j => (s j).ref) i (f (s i)).ref,
      fun j => (s.mod i f j).valid, h, l⟩ := by
  rw [view, names_mod_same hn, proj_mod Inode.ref]

/-- A change of the name space alone. -/
theorem view_mod_names (hr : (f (s i)).ref = (s i).ref) (hv : (f (s i)).valid = (s i).valid) :
    (s.mod i f).view h l = { s.view h l with names := (s.mod i f).names } := by
  rw [view, proj_mod_same Inode.ref hr, proj_mod_same Inode.valid hv]
  rfl

theorem names_bump : (s.mod i fun x => { x with nlink := x.nlink + 1 }).names = s.names.bump i := by
  rw [names_mod, Inode.node, toNat_nlink_add_one]
  rfl

theorem names_drop : (s.mod i fun x => { x with nlink := x.nlink - 1 }).names = s.names.drop i := by
  rw [names_mod, Inode.node, toNat_nlink_sub_one]
  rfl

/-! ## References -/

/-- A reading or a failed lookup: names and references are as before, and no copy is marked as
read that is not of an allocated inode. -/
structure Same (s t : Inodes) : Prop where
  names : t.names = s.names
  ref : ∀ i, (t i).ref = (s i).ref
  valid : ∀ i, (t i).valid = true → (s i).valid = true ∨ (s i).type ≠ .free

variable {A W : View → Inum → Prop}

theorem Same.move (hs : Same s t) : Move A W (s.view h l) (t.view h l) := by
  have hview : t.view h l = { s.view h l with valid := fun i => (t i).valid } := by
    rw [view, hs.names, funext hs.ref]
    rfl
  rw [hview]
  exact .read _ hs.valid

theorem Same.of_mod (hn : (f (s i)).node = (s i).node) (hr : (f (s i)).ref = (s i).ref)
    (hv : (f (s i)).valid = true → (s i).valid = true ∨ (s i).type ≠ .free) :
    Same s (s.mod i f) := by
  refine ⟨names_mod_same hn, congrFun (proj_mod_same Inode.ref hr), fun j hj => ?_⟩
  by_cases hji : j = i
  · rw [hji, mod_self] at hj
    rw [hji]
    exact hv hj
  · rw [mod_of_ne hji] at hj
    exact .inl hj

theorem ilock_same (ht : s.ilock i = .ok t) : Same s t ∧ (t i).valid = true := by
  rw [ilock] at ht
  split_ifs at ht with href hvalid hfree
  · cases ht
    exact ⟨⟨rfl, fun _ => rfl, fun _ h => .inl h⟩, hvalid⟩
  · cases ht
    exact ⟨.of_mod rfl rfl fun _ => .inr hfree, by rw [mod_self]⟩

theorem ilock_of_ne (ht : s.ilock i = .ok t) {j : Inum} (hj : j ≠ i) : t j = s j := by
  rw [ilock] at ht
  split_ifs at ht
  · cases ht
    rfl
  · cases ht
    exact mod_of_ne hj _

/-- `iget`: the copy of an inode that was not in the table is not read. -/
theorem iget_eq (ht : s.iget i = .ok t) :
    t = s.mod i fun x => { x with ref := x.ref + 1, valid := decide (0 < x.ref) && x.valid } := by
  rw [iget] at ht
  split_ifs at ht with href
  · cases ht
    exact mod_congr (by simp [href])
  · cases ht
    exact mod_congr (by simp [Nat.eq_zero_of_not_pos href])

/-- A lookup that fails in `dirlink` drops the reference it took, and frees nothing. -/
theorem iput_iget_same (ht : s.iget i = .ok t) : Same s (t.iput i) := by
  obtain rfl := iget_eq ht
  have hkeep : ¬ Frees (s.mod i fun x =>
      { x with ref := x.ref + 1, valid := decide (0 < x.ref) && x.valid }) i := by
    rintro ⟨hone, hvalid, -⟩
    simp only [mod_self, Bool.and_eq_true, decide_eq_true_eq] at hone hvalid
    omega
  rw [iput, if_neg hkeep, mod_mod]
  exact .of_mod rfl rfl fun hv => .inl (Bool.and_eq_true_iff.mp hv).2

theorem move_iget (ht : s.iget i = .ok t) (hi : (s.view h l).Known i) :
    Move A W (s.view h l) (t.view (h + {i}) l) ∧ t.names = s.names := by
  obtain rfl := iget_eq ht
  refine ⟨?_, names_mod_same rfl⟩
  rw [view_mod_ref rfl]
  refine .get _ hi fun j hj => ?_
  by_cases hji : j = i
  · rw [hji, mod_self] at hj
    rw [hji]
    exact (Bool.and_eq_true_iff.mp hj).2
  · rwa [mod_of_ne hji] at hj

theorem move_idup (hi : (s.view h l).Known i) :
    Move A W (s.view h l) ((s.idup i).view (h + {i}) l) := by
  rw [idup, view_mod_ref rfl, proj_mod_same Inode.valid rfl]
  exact .get (fun j => (s j).valid) hi fun _ hj => hj

theorem move_iput (ha : A (s.view (h + {i}) l) i) :
    Move A W (s.view (h + {i}) l) ((s.iput i).view h l) := by
  rw [iput]
  by_cases hfrees : s.Frees i
  · obtain ⟨href, hvalid, hnlink⟩ := hfrees
    have hlinks : (s.names i).links = 0 := (nlink_eq_zero _).mp hnlink
    have hnode : (⟨.free, (s i).nlink.toUInt16.toNat, []⟩ : Node) = ⟨.free, 0, []⟩ :=
      congrArg (Node.mk _ · _) hlinks
    rw [if_pos ⟨href, hvalid, hnlink⟩, mod_mod, view_mod, Inode.node, hnode]
    exact .free rfl ha href hvalid hlinks
  · rw [if_neg hfrees, view_mod_ref rfl, proj_mod_same Inode.valid rfl]
    exact .put rfl ha fun ⟨href, hvalid, hlinks⟩ =>
      hfrees ⟨href, hvalid, (nlink_eq_zero _).mpr hlinks⟩

/-! ## Directories -/

theorem lookup_eq_some (hi : (s d).lookup name = some i) :
    ∃ e, (s.names d).dirents.find? (fun e => e.is name) = some e ∧ e.inum = i :=
  Option.map_eq_some_iff.mp hi

/-- A name that is absent after the directory has been locked was so before. -/
theorem lookup_eq_none (hnames : t.names = s.names) (habsent : t.names.Absent d name) :
    (s d).lookup name = none := by
  rw [hnames] at habsent
  exact Option.map_eq_none_iff.mpr habsent

theorem dirlookup_none (ht : s.dirlookup d name = .ok (t, none)) :
    t = s ∧ (s d).type = .dir ∧ s.names.Absent d name := by
  rw [dirlookup] at ht
  split_ifs at ht with hd
  split at ht
  · rename_i hnone
    cases ht
    exact ⟨rfl, not_not.mp hd, Option.map_eq_none_iff.mp hnone⟩
  · obtain ⟨u, -, hu⟩ := bind_eq_ok.mp ht
    cases hu

theorem dirlookup_some (ht : s.dirlookup d name = .ok (t, some i)) :
    (s d).type = .dir ∧ s.iget i = .ok t ∧
      ∃ e, (s.names d).dirents.find? (fun e => e.is name) = some e ∧ e.inum = i := by
  rw [dirlookup] at ht
  split_ifs at ht with hd
  split at ht
  · cases ht
  · rename_i j hj
    obtain ⟨u, hu, hret⟩ := bind_eq_ok.mp ht
    cases hret
    exact ⟨not_not.mp hd, hu, lookup_eq_some hj⟩

/-- What a lookup finds can be referred to. -/
theorem known_of_find {e : Dirent}
    (he : (s.names d).dirents.find? (fun e => e.is name) = some e) :
    (s.view h l).Known e.inum := by
  have his := List.find?_some he
  exact .inr (.inr ⟨d, e, List.mem_of_find?_eq_some he, (Dirent.is_iff.mp his).1, rfl⟩)

theorem dirlink_true (ht : s.dirlink d name i = .ok (t, true)) :
    (s d).type = .dir ∧ s.names.Absent d name ∧
      t = s.mod d fun x => { x with dirents := place ⟨name, i⟩ x.dirents } := by
  obtain ⟨⟨u, found⟩, hu, hret⟩ := bind_eq_ok.mp ht
  cases found with
  | some j => cases hret
  | none =>
    obtain ⟨rfl, hd, habsent⟩ := dirlookup_none hu
    cases hret
    exact ⟨hd, habsent, rfl⟩

theorem dirlink_false (ht : s.dirlink d name i = .ok (t, false)) : Same s t := by
  obtain ⟨⟨u, found⟩, hu, hret⟩ := bind_eq_ok.mp ht
  cases found with
  | some j =>
    cases hret
    exact iput_iget_same (dirlookup_some hu).2.1
  | none => cases hret

theorem dots_eq (ht : s.dots d i = .ok t) (hi0 : i ≠ 0) (hnil : (s i).dirents = []) :
    t = (s.mod d fun x => { x with nlink := x.nlink + 1 }).mod i fun x =>
      { x with dirents := [⟨dot, i⟩, ⟨dotdot, d⟩] } := by
  obtain ⟨⟨u, linked⟩, hu, hrest⟩ := bind_eq_ok.mp ht
  cases linked with
  | false => cases hrest
  | true =>
    obtain ⟨⟨v, linked'⟩, hv, hret⟩ := bind_eq_ok.mp hrest
    cases linked' with
    | false => cases hret
    | true =>
      cases hret
      obtain ⟨-, -, rfl⟩ := dirlink_true hu
      obtain ⟨-, -, rfl⟩ := dirlink_true hv
      have hnil' : ((s.mod d fun x => { x with nlink := x.nlink + 1 }) i).dirents = [] :=
        (congrFun (proj_mod_same Inode.dirents rfl) i).trans hnil
      rw [mod_mod]
      refine mod_congr ?_
      rw [hnil']
      simp [place, hi0]

variable {type : FileType}

/-- `ialloc`: a free inode becomes an allocated one without links, with a reference to it. -/
theorem ialloc_eq (ht : s.ialloc type = .ok (t, i)) : i ≠ 0 ∧ (s i).type = .free ∧ (s.mod i fun x =>
      { x with type := type, major := 0, nlink := 0, dirents := [] }).iget i = .ok t := by
  rw [ialloc] at ht
  split at ht
  · cases ht
  · rename_i j hj
    obtain ⟨u, hu, hret⟩ := bind_eq_ok.mp ht
    cases hret
    have hfree := List.find?_some hj
    simp only [decide_eq_true_eq] at hfree
    exact ⟨hfree.1, hfree.2, hu⟩

/-- A new inode as it is before it is entered: allocated and read, with one link. -/
theorem ialloc_ilock (major : Int16) {u : Inodes}
    (ht : s.ialloc type = .ok (t, i)) (hu : t.ilock i = .ok u) :
    names (u.mod i fun x => { x with major := major, nlink := 1 }) =
        update s.names i ⟨type, 1, []⟩ ∧
      (∀ j, (u j).ref = update (fun j => (s j).ref) i ((s i).ref + 1) j) ∧
      ∀ j, (u j).valid = true → (s j).valid = true ∨ j = i := by
  obtain ⟨-, -, hget⟩ := ialloc_eq ht
  obtain ⟨hsame, -⟩ := ilock_same hu
  obtain rfl := iget_eq hget
  refine ⟨?_, fun j => ?_, fun j hj => ?_⟩
  · have hnames : u.names = update s.names i ⟨type, 0, []⟩ := by
      rw [hsame.names, names_mod_same rfl, names_mod]
      rfl
    have hnode : (u i).node = ⟨type, 0, []⟩ := by
      have := congrFun hnames i
      rwa [update_self] at this
    have htype : (u i).type = type := congrArg Node.type hnode
    have hdirents : (u i).dirents = [] := congrArg Node.dirents hnode
    rw [names_mod, hnames, update_idem, Inode.node, htype, hdirents]
    rfl
  · rw [hsame.ref, mod_mod, mod_apply, update_apply]
    split <;> rfl
  · by_cases hji : j = i
    · exact .inr hji
    · rw [ilock_of_ne hu hji, mod_mod, mod_of_ne hji] at hj
      exact .inl hj

theorem names_enter : names (s.mod d fun x => { x with dirents := place ⟨name, i⟩ x.dirents }) =
    s.names.enter d name i := names_mod _

theorem names_strike : names (s.mod d fun x => { x with dirents := erase name x.dirents }) =
    s.names.strike d name := names_mod _

theorem mkdir_eq (ht : s.mkdir type d i = .ok t) (hi0 : i ≠ 0) (hdi : d ≠ i)
    (hnode : (s i).node = ⟨type, 1, []⟩) :
    (t.names = let n : Names := update s.names i ⟨type, 1, Names.Ok.newDirents type i d⟩
      if type = .dir then n.bump d else n) ∧
      (∀ j, (t j).ref = (s j).ref) ∧ ∀ j, (t j).valid = (s j).valid := by
  rw [mkdir] at ht
  by_cases hdir : type = .dir
  · rw [if_pos hdir] at ht
    rw [dots_eq ht hi0 (congrArg Node.dirents hnode)]
    refine ⟨?_, fun j => ?_, fun j => ?_⟩
    · have hi : (s.mod d fun x => { x with nlink := x.nlink + 1 }) i = s i :=
        mod_of_ne (Ne.symm hdi) _
      have hnew : ({ s i with dirents := [⟨dot, i⟩, ⟨dotdot, d⟩] } : Inode).node =
          ⟨type, 1, Names.Ok.newDirents type i d⟩ := by
        rw [Names.Ok.newDirents, if_pos hdir]
        exact congrArg (fun x : Node => Node.mk x.type x.links _) hnode
      rw [names_mod, hi, hnew, names_bump, if_pos hdir, Names.bump, Names.bump,
        update_of_ne hdi, update_comm hdi]
    · rw [congrFun (proj_mod_same Inode.ref rfl) j, congrFun (proj_mod_same Inode.ref rfl) j]
    · rw [congrFun (proj_mod_same Inode.valid rfl) j, congrFun (proj_mod_same Inode.valid rfl) j]
  · rw [if_neg hdir] at ht
    cases ht
    refine ⟨?_, fun _ => rfl, fun _ => rfl⟩
    rw [if_neg hdir, Names.Ok.newDirents, if_neg hdir, ← hnode]
    exact (update_eq_self i s.names).symm

/-- The names and references after a new inode has been entered. -/
theorem enter_new {major : Int16} {s₁ s₂ s₃ : Inodes} (hd : (s d).type = .dir)
    (halloc : s.ialloc type = .ok (s₁, i)) (hlock : s₁.ilock i = .ok s₂)
    (hmkdir : (s₂.mod i fun x => { x with major := major, nlink := 1 }).mkdir type d i = .ok s₃)
    (hlink : s₃.dirlink d name i = .ok (t, true)) :
    t.names = s.names.create d name i type ∧
      (fun j => (t j).ref) = update (fun j => (s j).ref) i ((s i).ref + 1) ∧
      ∀ j, (t j).valid = true → (s j).valid = true ∨ j = i := by
  obtain ⟨hi0, hfree, -⟩ := ialloc_eq halloc
  obtain ⟨hnames, href, hvalid⟩ := ialloc_ilock major halloc hlock
  have hdi : d ≠ i := by
    rintro rfl
    rw [hd] at hfree
    cases hfree
  have hnode := congrFun hnames i
  rw [update_self] at hnode
  obtain ⟨hnames₃, href₃, hvalid₃⟩ := mkdir_eq hmkdir hi0 hdi hnode
  obtain ⟨-, -, rfl⟩ := dirlink_true hlink
  refine ⟨?_, funext fun j => ?_, fun j hj => ?_⟩
  · rw [names_enter, hnames₃, hnames, update_idem]
    rfl
  · rw [congrFun (proj_mod_same Inode.ref rfl) j, href₃ j,
      congrFun (proj_mod_same Inode.ref rfl) j]
    exact href j
  · rw [congrFun (proj_mod_same Inode.valid rfl) j, hvalid₃ j,
      congrFun (proj_mod_same Inode.valid rfl) j] at hj
    exact hvalid j hj

/-- **`create`**: a lookup that succeeds takes a reference; otherwise a new inode is entered. -/
theorem moves_create {major : Int16} {inUse : Bool} (htype : type ≠ .free)
    (ht : s.create d name type major = .ok (t, i, inUse)) (hfits : type = .dir → (s d).nlink ≠ -1)
    (hw : (s d).lookup name = none → ∀ v : View, v.names = s.names → W v d) :
    Relation.ReflTransGen (Move A W) (s.view h l) (t.view (h + {i}) l) := by
  obtain ⟨s₁, hlock, h₁⟩ := bind_eq_ok.mp ht
  obtain ⟨⟨s₂, found⟩, hfound, h₂⟩ := bind_eq_ok.mp h₁
  obtain ⟨hsame, -⟩ := ilock_same hlock
  refine .head hsame.move (.single ?_)
  cases found with
  | some j =>
    cases h₂
    obtain ⟨-, hget, e, he, rfl⟩ := dirlookup_some hfound
    exact (move_iget hget (known_of_find he)).1
  | none =>
    obtain ⟨rfl, hd, habsent⟩ := dirlookup_none hfound
    obtain ⟨⟨s₃, j⟩, halloc, h₃⟩ := bind_eq_ok.mp h₂
    obtain ⟨s₄, hlock', h₄⟩ := bind_eq_ok.mp h₃
    obtain ⟨s₅, hmkdir, h₅⟩ := bind_eq_ok.mp h₄
    obtain ⟨⟨s₆, linked⟩, hlink, hret⟩ := bind_eq_ok.mp h₅
    cases linked with
    | false => cases hret
    | true =>
      cases hret
      have hfits' : type = .dir → (s₂.names d).links + 1 < 65536 := by
        intro hdir
        rw [hsame.names]
        exact toNat_nlink_lt _ (hfits hdir)
      obtain ⟨hj0, hjfree, -⟩ := ialloc_eq halloc
      obtain ⟨hnames, href, hvalid⟩ := enter_new hd halloc hlock' hmkdir hlink
      have hview : t.view (h + {i}) l = { s₂.view h l with
          names := s₂.names.create d name i type
          ref := update (fun j => (s₂ j).ref) i ((s₂ i).ref + 1)
          valid := fun j => (t j).valid
          holds := h + {i} } := by
        rw [view, hnames, href]
        rfl
      rw [hview]
      exact .create _ hd habsent (hw (lookup_eq_none hsame.names habsent) _ hsame.names) hj0 hjfree
        htype hfits' hvalid

/-- The entry struck and the link counts taken back, as one change of the names. -/
theorem view_unlink {isdir : Bool} (hisdir : isdir = decide ((s i).type = .dir)) :
    ((if isdir then (s.mod d fun x => { x with dirents := erase name x.dirents }).mod d fun x =>
          { x with nlink := x.nlink - 1 }
        else s.mod d fun x => { x with dirents := erase name x.dirents }).mod i fun x =>
      { x with nlink := x.nlink - 1 }).view h l =
      { s.view h l with names := s.names.unlink d name i } := by
  rw [Names.unlink, show decide ((s.names i).type = .dir) = isdir from hisdir.symm]
  cases isdir with
  | false =>
    rw [if_neg (by decide), if_neg (by decide), view_mod_names rfl rfl, names_drop,
      view_mod_names rfl rfl, names_strike]
  | true =>
    rw [if_pos rfl, if_pos rfl, view_mod_names rfl rfl, names_drop, view_mod_names rfl rfl,
      names_drop, view_mod_names rfl rfl, names_strike]

/-- **`sys_unlink`** in the directory: it returns the inodes it holds, the directory and possibly
the one its entry named. -/
theorem moves_unlink {puts : List Inum} (ht : s.unlink d name = .ok (t, puts)) :
    ∃ more : Multiset Inum, (puts : Multiset Inum) = {d} + more ∧
      Relation.ReflTransGen (Move A W) (s.view h l) (t.view (h + more) l) := by
  obtain ⟨s₁, hlock, h₁⟩ := bind_eq_ok.mp ht
  have hread := (ilock_same hlock).1.move (A := A) (W := W) (h := h) (l := l)
  split at h₁
  · cases h₁
    exact ⟨0, rfl, by rw [add_zero]; exact .single hread⟩
  rename_i hplain
  obtain ⟨⟨s₂, found⟩, hfound, h₂⟩ := bind_eq_ok.mp h₁
  cases found with
  | none =>
    obtain ⟨rfl, -, -⟩ := dirlookup_none hfound
    cases h₂
    exact ⟨0, rfl, by rw [add_zero]; exact .single hread⟩
  | some j =>
    obtain ⟨-, hget, e, he, rfl⟩ := dirlookup_some hfound
    obtain ⟨s₃, hlock', h₃⟩ := bind_eq_ok.mp h₂
    obtain ⟨hsame, -⟩ := ilock_same hlock'
    obtain ⟨hmove, hnames⟩ := move_iget (A := A) (W := W) hget (known_of_find (h := h) (l := l) he)
    have hheld := (Relation.ReflTransGen.single hread).tail hmove |>.tail
      (hsame.move (A := A) (W := W) (h := h + {e.inum}) (l := l))
    refine ⟨{e.inum}, ?_⟩
    dsimp only at h₃
    split at h₃
    · cases h₃
    split at h₃
    · cases h₃
      exact ⟨Multiset.pair_comm _ _, hheld⟩
    · rename_i hnonempty
      cases h₃
      refine ⟨rfl, hheld.tail ?_⟩
      rw [view_unlink rfl]
      rw [← hnames, ← hsame.names] at he
      refine .unlink ⟨fun h => hplain (.inl h), fun h => hplain (.inr h)⟩ he ?_
      intro hdir c hc
      have hempty : (s₃ e.inum).isdirempty = true := by
        by_contra hne
        exact hnonempty ⟨hdir, by simpa using hne⟩
      simpa using List.all_eq_true.mp hempty c hc

end Inodes

/-! ## Tasks -/

/-- The inodes whose new link a call has counted ahead of its entry; it holds them too. -/
def Call.links : Call → List Inum
  | .linkNew ip => [ip]
  | _ => []

/-- The references a process holds for the call it is in. -/
def Stage.holds : Stage → List Inum
  | .idle => []
  | .namex ip _ call | .found ip _ call => ip :: call.links
  | .existing ip _ _ | .bad ip => [ip]

/-- The links a call has counted ahead of an entry. -/
def Stage.links : Stage → List Inum
  | .namex _ _ call | .found _ _ call => call.links
  | .bad ip => [ip]
  | .idle | .existing .. => []

@[simp] theorem Call.holds_failed (call : Call) : call.failed.holds = call.links := by
  cases call <;> rfl

@[simp] theorem Call.links_failed (call : Call) : call.failed.links = call.links := by
  cases call <;> rfl

namespace Task

/-- The references a process holds. -/
def holds (t : Task) : Multiset Inum := t.cwd.toList + t.ofile + t.puts + t.stage.holds

/-- The links a process has counted ahead of an entry. -/
def links (t : Task) : Multiset Inum := t.stage.links

/-- The directory the next step writes a new entry to. -/
def writes (t : Task) (s : Inodes) : Option Inum :=
  match t.stage with
  | .found ip name (.create ..) | .found ip name (.linkNew _) =>
    if (s ip).lookup name = none then some ip else none
  | _ => none

/-- The next step wraps no link count from `-1` to `0`. -/
def LinkFits (t : Task) (s : Inodes) : Prop :=
  match t.stage with
  | .found ip _ (.create type _ _) => type.1 = .dir → (s ip).nlink ≠ -1
  | .found ip _ (.linkOld _) => (s ip).nlink ≠ -1
  | _ => True

theorem coe_cons_eq (i : Inum) (is : List Inum) :
    ((i :: is : List Inum) : Multiset Inum) = {i} + (is : Multiset Inum) := rfl

variable {A W : View → Inum → Prop} {t t' : Task} {s s' : Inodes} {h l H L : Multiset Inum}

theorem moves_startNamex {path : Path} {call : Call}
    (ht : t.startNamex s path call = .ok (s', t')) (hcwd : ∀ c, t.cwd = some c → c ∈ h) :
    ∃ ip, t' = { t with stage := .namex ip path.elems call } ∧
      Relation.ReflTransGen (Move A W) (s.view h l) (s'.view (h + {ip}) l) := by
  rw [startNamex] at ht
  split at ht
  · obtain ⟨u, hu, hret⟩ := bind_eq_ok.mp ht
    cases hret
    exact ⟨rootino, rfl, .single (Inodes.move_iget hu (.inl rfl)).1⟩
  · split at ht
    · rename_i c hc
      cases ht
      exact ⟨c, rfl, .single (Inodes.move_idup (.inr (.inl (hcwd c hc))))⟩
    · cases ht

theorem mem_holds_of_cwd {c : Inum} (hc : t.cwd = some c) : c ∈ H + t.holds := by
  simp [holds, hc]

/-- **The beginning of a system call**, as moves. -/
theorem moves_begin {c : Syscall} (hready : t.Ready) (ht : t.begin s c = .ok (s', t')) :
    Relation.ReflTransGen (Move A W) (s.view (H + t.holds) (L + t.links))
      (s'.view (H + t'.holds) (L + t'.links)) := by
  obtain ⟨hstage, hputs, -⟩ := hready
  -- a call that looks up a path takes one reference and counts no link
  have hnamex : ∀ {path : Path} {call : Call}, call.links = [] →
      t.startNamex s path call = .ok (s', t') →
      Relation.ReflTransGen (Move A W) (s.view (H + t.holds) (L + t.links))
        (s'.view (H + t'.holds) (L + t'.links)) := by
    intro path call hlinks hstart
    obtain ⟨ip, rfl, hmoves⟩ := moves_startNamex (A := A) (W := W) (l := L + t.links) hstart
      fun c hc => mem_holds_of_cwd (H := H) hc
    convert hmoves using 2
    · simp only [holds, Stage.holds, hstage, hlinks, coe_cons_eq, Multiset.coe_nil]
      abel
    · simp only [links, Stage.links, hstage, hlinks]
  cases c with
  | «open» path create rdonly room =>
    refine hnamex ?_ ht
    split <;> rfl
  | mkdir path => exact hnamex rfl ht
  | mknod path major => exact hnamex rfl ht
  | link old new => exact hnamex rfl ht
  | unlink path => exact hnamex rfl ht
  | chdir path => exact hnamex rfl ht
  | close fd =>
    rw [begin] at ht
    split at ht
    · rename_i ip hip
      cases ht
      have hofile : (t.ofile : Multiset Inum) = {ip} + (t.ofile.eraseIdx fd : List Inum) := by
        obtain ⟨hlt, rfl⟩ := List.getElem?_eq_some_iff.mp hip
        exact (Multiset.coe_eq_coe.mpr (List.getElem_cons_eraseIdx_perm hlt)).symm
      have hholds : t.holds = { t with ofile := t.ofile.eraseIdx fd, puts := [ip] }.holds := by
        simp only [holds, hofile, hputs, coe_cons_eq, Multiset.coe_nil]
        abel
      rw [hholds]
      exact .refl
    · cases ht
      exact .refl
  | exit =>
    cases ht
    have hholds : t.holds =
        { t with cwd := none, ofile := [], puts := t.ofile ++ t.cwd.toList }.holds := by
      simp only [holds, hputs, Option.toList_none, Multiset.coe_nil, ← Multiset.coe_add]
      abel
    rw [hholds]
    exact .refl

/-- The references held outside the call: working directory and open files. -/
def kept (t : Task) : Multiset Inum := t.cwd.toList + t.ofile

theorem holds_of_stage {stage : Stage} (hstage : t.stage = stage) (hputs : t.puts = []) :
    t.holds = t.kept + stage.holds := by
  rw [holds, hstage, hputs, Multiset.coe_nil, add_zero, kept]

@[simp] theorem holds_ret (puts : List Inum) : (t.ret puts).holds = t.kept + puts := by
  rw [holds, ret, kept]
  simp [Stage.holds]

@[simp] theorem links_ret (puts : List Inum) : (t.ret puts).links = 0 := rfl

variable {ip : Inum}

@[simp] theorem holds_openFile {x : Inode} {puts : List Inum} {room : Bool} :
    (t.openFile x ip puts room).holds = t.kept + puts + {ip} := by
  rw [openFile]
  split_ifs
  · rw [holds_ret, ← Multiset.coe_add, Multiset.coe_singleton, add_assoc]
  · rw [holds_ret, ← Multiset.coe_add, Multiset.coe_singleton, add_assoc]
  · simp only [holds, ret, kept, Stage.holds, ← Multiset.coe_add, Multiset.coe_singleton,
      Multiset.coe_nil]
    abel

@[simp] theorem links_openFile {x : Inode} {puts : List Inum} {room : Bool} :
    (t.openFile x ip puts room).links = 0 := by
  rw [openFile]
  split_ifs <;> rfl

@[simp] theorem holds_created {x : Inode} {puts : List Inum} {opens : Option Bool} :
    (t.created x ip puts opens).holds = t.kept + puts + {ip} := by
  cases opens with
  | some room => exact holds_openFile
  | none => rw [created, holds_ret, ← Multiset.coe_add, Multiset.coe_singleton, add_assoc]

@[simp] theorem links_created {x : Inode} {puts : List Inum} {opens : Option Bool} :
    (t.created x ip puts opens).links = 0 := by
  cases opens with
  | some room => exact links_openFile
  | none => rfl

/-- A step that only reads. -/
theorem moves_of_same (hsame : Inodes.Same s s') (hholds : t'.holds = t.holds)
    (hlinks : t'.links = t.links) :
    Relation.ReflTransGen (Move A W) (s.view (H + t.holds) (L + t.links))
      (s'.view (H + t'.holds) (L + t'.links)) := by
  rw [hholds, hlinks]
  exact .single hsame.move

/-- **A turn of `namex`**, as moves. -/
theorem moves_namexTurn {path rest : List Name} {call : Call}
    (hstage : t.stage = .namex ip rest call) (hputs : t.puts = [])
    (ht : t.namexTurn s ip call path = .ok (s', t')) :
    Relation.ReflTransGen (Move A W) (s.view (H + t.holds) (L + t.links))
      (s'.view (H + t'.holds) (L + t'.links)) := by
  have hlinks : t.links = call.links := by rw [links, hstage]; rfl
  have hholds : t.holds = t.kept + (ip :: call.links : List Inum) := holds_of_stage hstage hputs
  -- where `namex` stops, the inode is held as before, under another name
  have hfail : ({ t with puts := [ip], stage := call.failed } : Task).holds = t.holds ∧
      ({ t with puts := [ip], stage := call.failed } : Task).links = t.links := by
    constructor
    · rw [hholds]
      simp only [holds, kept, Call.holds_failed, coe_cons_eq, Multiset.coe_nil]
      abel
    · rw [hlinks, links, Call.links_failed]
  have hfound : ∀ name, ({ t with stage := .found ip name call } : Task).holds = t.holds ∧
      ({ t with stage := .found ip name call } : Task).links = t.links := by
    intro name
    rw [holds, hholds, hputs, Multiset.coe_nil, add_zero, hlinks]
    exact ⟨rfl, rfl⟩
  cases path with
  | nil =>
    rw [namexTurn] at ht
    split at ht
    · cases ht
      rw [hfail.1, hfail.2]
    · cases ht
      rw [(hfound []).1, (hfound []).2]
  | cons name path =>
    obtain ⟨s₁, hlock, h₁⟩ := bind_eq_ok.mp ht
    obtain ⟨hsame, -⟩ := Inodes.ilock_same hlock
    split at h₁
    · cases h₁
      exact moves_of_same hsame hfail.1 hfail.2
    split at h₁
    · cases h₁
      exact moves_of_same hsame (hfound name).1 (hfound name).2
    obtain ⟨⟨s₂, next⟩, hnext, h₂⟩ := bind_eq_ok.mp h₁
    cases next with
    | none =>
      cases h₂
      obtain ⟨rfl, -, -⟩ := Inodes.dirlookup_none hnext
      exact moves_of_same hsame hfail.1 hfail.2
    | some j =>
      cases h₂
      obtain ⟨-, hget, e, he, rfl⟩ := Inodes.dirlookup_some hnext
      convert (Relation.ReflTransGen.single hsame.move).tail
        (Inodes.move_iget hget (Inodes.known_of_find he)).1 using 2
      · rw [hholds]
        simp only [holds, kept, Stage.holds, coe_cons_eq, Multiset.coe_nil]
        abel
      · rw [hlinks]
        rfl

/-- **What follows a successful `namex`**, as moves. -/
theorem moves_foundTurn {name : Name} {call : Call}
    (hstage : t.stage = .found ip name call) (hputs : t.puts = [])
    (hfits : t.LinkFits s) (hw : ∀ d, t.writes s = some d → ∀ v : View, v.names = s.names → W v d)
    (ht : t.foundTurn s ip name call = .ok (s', t')) :
    Relation.ReflTransGen (Move A W) (s.view (H + t.holds) (L + t.links))
      (s'.view (H + t'.holds) (L + t'.links)) := by
  have hlinks : t.links = call.links := by rw [links, hstage]; rfl
  have hholds : t.holds = t.kept + (ip :: call.links : List Inum) := holds_of_stage hstage hputs
  have hback : call.links = [] → (t.ret [ip]).holds = t.holds ∧ (t.ret [ip]).links = t.links := by
    intro hnil
    rw [hholds, hlinks, hnil, holds_ret]
    exact ⟨rfl, rfl⟩
  rw [LinkFits, hstage] at hfits
  rw [writes, hstage] at hw
  cases call with
  | create type major opens =>
    obtain ⟨⟨s₁, i, inUse⟩, hcreate, h₁⟩ := bind_eq_ok.mp ht
    have hmoves := Inodes.moves_create (A := A) (W := W) (h := H + t.holds) (l := L + t.links)
      type.2 hcreate hfits fun hnone => hw ip (if_pos hnone)
    cases inUse with
    | true =>
      cases h₁
      convert hmoves using 2
      · rw [hholds]
        simp only [holds, kept, Stage.holds, Call.links, coe_cons_eq, Multiset.coe_nil]
        abel
      · rw [hlinks]
        rfl
    | false =>
      cases h₁
      convert hmoves using 2
      · rw [hholds, holds_created]
        simp only [Call.links, coe_cons_eq, Multiset.coe_nil]
        abel
      · rw [hlinks, links_created]
        rfl
  | openAt rdonly room =>
    obtain ⟨s₁, hlock, h₁⟩ := bind_eq_ok.mp ht
    obtain ⟨hsame, -⟩ := Inodes.ilock_same hlock
    split at h₁
    · cases h₁
      exact moves_of_same hsame (hback rfl).1 (hback rfl).2
    · cases h₁
      refine moves_of_same hsame ?_ ?_
      · rw [hholds, holds_openFile]
        simp only [Call.links, coe_cons_eq, Multiset.coe_nil]
        abel
      · rw [hlinks, links_openFile]
        rfl
  | linkOld new =>
    obtain ⟨s₁, hlock, h₁⟩ := bind_eq_ok.mp ht
    obtain ⟨hsame, hvalid⟩ := Inodes.ilock_same hlock
    split at h₁
    · cases h₁
      exact moves_of_same hsame (hback rfl).1 (hback rfl).2
    · rename_i hdir
      have hbump : Move A W (s₁.view (H + t.holds) (L + t.links))
          ((s₁.mod ip fun x => { x with nlink := x.nlink + 1 }).view (H + t.holds)
            (L + t.links + {ip})) := by
        rw [Inodes.view_mod_names rfl rfl, Inodes.names_bump]
        refine .bump hvalid hdir ?_
        rw [show (s₁.view (H + t.holds) (L + t.links)).names = s.names from hsame.names]
        exact toNat_nlink_lt _ hfits
      obtain ⟨j, rfl, hmoves⟩ := moves_startNamex (A := A) (W := W) (h := H + t.holds)
        (l := L + t.links + {ip}) h₁ fun c hc => mem_holds_of_cwd hc
      convert ((Relation.ReflTransGen.single hsame.move).tail hbump).trans hmoves using 2
      · rw [hholds]
        simp only [holds, kept, hputs, Stage.holds, Call.links, coe_cons_eq, Multiset.coe_nil]
        abel
      · rw [hlinks]
        simp only [links, Stage.links, Call.links, Multiset.coe_nil, Multiset.coe_singleton,
          add_zero]
  | linkNew i =>
    obtain ⟨s₁, hlock, h₁⟩ := bind_eq_ok.mp ht
    obtain ⟨⟨s₂, linked⟩, hlink, h₂⟩ := bind_eq_ok.mp h₁
    obtain ⟨hsame, -⟩ := Inodes.ilock_same hlock
    cases linked with
    | true =>
      cases h₂
      obtain ⟨hd, habsent, rfl⟩ := Inodes.dirlink_true hlink
      refine .head hsame.move (.single ?_)
      have hret : (t.ret [ip, i]).holds = t.holds := by
        rw [hholds, holds_ret]
        rfl
      rw [hret, links_ret, add_zero, Inodes.view_mod_names rfl rfl, Inodes.names_enter]
      exact .enter (by rw [hlinks]; rfl) hd habsent
        (hw ip (if_pos (Inodes.lookup_eq_none hsame.names habsent)) _ hsame.names)
    | false =>
      cases h₂
      refine .head hsame.move (moves_of_same (Inodes.dirlink_false hlink) ?_ ?_)
      · rw [hholds]
        simp only [holds, kept, Stage.holds, Call.links, coe_cons_eq, Multiset.coe_nil]
        abel
      · rw [hlinks]
        rfl
  | unlink =>
    obtain ⟨⟨s₁, puts⟩, hunlink, h₁⟩ := bind_eq_ok.mp ht
    cases h₁
    obtain ⟨more, hmore, hmoves⟩ := Inodes.moves_unlink (A := A) (W := W) (h := H + t.holds)
      (l := L + t.links) hunlink
    convert hmoves using 2
    · rw [hholds, holds_ret, hmore]
      simp only [Call.links, coe_cons_eq, Multiset.coe_nil]
      abel
    · rw [hlinks, links_ret]
      rfl
  | chdir =>
    obtain ⟨s₁, hlock, h₁⟩ := bind_eq_ok.mp ht
    obtain ⟨hsame, -⟩ := Inodes.ilock_same hlock
    split at h₁
    · cases h₁
      exact moves_of_same hsame (hback rfl).1 (hback rfl).2
    · cases h₁
      refine moves_of_same hsame ?_ ?_
      · rw [hholds]
        simp only [holds, kept, ret, Stage.holds, Call.links, coe_cons_eq, Multiset.coe_nil,
          Option.toList_some]
        abel
      · rw [hlinks]
        rfl

/-- **A step of a process that is in a call**, as moves. -/
theorem moves_run (hfits : t.LinkFits s)
    (ha : ∀ i puts, t.puts = i :: puts → A (s.view (H + t.holds) (L + t.links)) i)
    (hw : ∀ d, t.writes s = some d → ∀ v : View, v.names = s.names → W v d)
    (ht : t.run s = some (.ok (s', t'))) :
    Relation.ReflTransGen (Move A W) (s.view (H + t.holds) (L + t.links))
      (s'.view (H + t'.holds) (L + t'.links)) := by
  rw [run] at ht
  cases hputs : t.puts with
  | cons i puts =>
    rw [hputs] at ht
    cases ht
    have hholds : H + t.holds = H + { t with puts := puts }.holds + {i} := by
      simp only [holds, hputs, coe_cons_eq]
      abel
    have hallowed := ha i puts hputs
    rw [hholds] at hallowed ⊢
    exact .single (Inodes.move_iput hallowed)
  | nil =>
    rw [hputs] at ht
    cases hstage : t.stage with
    | idle =>
      rw [hstage] at ht
      cases ht
    | namex ip path call =>
      rw [hstage] at ht
      exact moves_namexTurn hstage hputs (Option.some.inj ht)
    | found ip name call =>
      rw [hstage] at ht
      exact moves_foundTurn hstage hputs hfits hw (Option.some.inj ht)
    | existing ip type opens =>
      rw [hstage] at ht
      obtain ⟨s₁, hlock, h₁⟩ := bind_eq_ok.mp (Option.some.inj ht)
      have hholds : t.holds = t.kept + {ip} := holds_of_stage hstage hputs
      have hlinks : t.links = 0 := by rw [links, hstage]; rfl
      obtain ⟨hsame, -⟩ := Inodes.ilock_same hlock
      split at h₁
      · cases h₁
        exact moves_of_same hsame (by simp [hholds]) (by simp [hlinks])
      · cases h₁
        exact moves_of_same hsame (by simp [hholds]) (by simp [hlinks])
    | bad ip =>
      rw [hstage] at ht
      obtain ⟨s₁, hlock, h₁⟩ := bind_eq_ok.mp (Option.some.inj ht)
      cases h₁
      have hholds : t.holds = t.kept + {ip} := holds_of_stage hstage hputs
      have hlinks : t.links = {ip} := by rw [links, hstage]; rfl
      refine .head (Inodes.ilock_same hlock).1.move (.single ?_)
      rw [holds_ret, links_ret, Multiset.coe_singleton, ← hholds, add_zero,
        Inodes.view_mod_names rfl rfl, Inodes.names_drop]
      exact .drop (by rw [hlinks]; rfl)

end Task

end Xv6.Fs
