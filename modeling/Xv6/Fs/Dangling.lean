import Xv6.Fs.System

/-!
# Directory entries that dangle

An inode is freed when its last reference is dropped and no link to it is counted. The `".."` of
a directory that has been removed is not counted any more, but it stays: as long as some process
holds the removed directory, it refers to the parent, which may by then be removed and freed
itself. This module proves that this is the only way an entry can come to refer to a free inode,
and that without it no lookup panics with `"ilock: no type"`.
-/

namespace Xv6.Fs

open Lib View
open Function (update update_apply update_of_ne update_self)

namespace View

/-- If `i` is freed, no other directory that has been removed has it as its parent. -/
def KeepsParent (v : View) (i : Inum) : Prop :=
  v.ref i = 1 → v.valid i = true → (v.names i).links = 0 → ∀ d, d ≠ i →
    (v.names d).type = .dir → v.names.Removed d → ⟨dotdot, i⟩ ∉ (v.names d).dirents

/-- Reference counts are exact, what is held is allocated, and so is what an entry names. -/
structure Held (v : View) : Prop where
  ref : ∀ i, v.ref i = v.holds.count i
  alive : ∀ i ∈ v.holds, (v.names i).type ≠ .free
  sound : ∀ d, ∀ e ∈ (v.names d).dirents, e.inum ≠ 0 → (v.names e.inum).type ≠ .free

variable {W : View → Inum → Prop} {v w : View} {lost : Multiset Inum} {i : Inum}

theorem Held.known (h : v.Held) (hok : v.Ok lost) (hi : v.Known i) : (v.names i).type ≠ .free := by
  rcases hi with rfl | hi | ⟨d, e, he, he0, rfl⟩
  · rw [hok.names.root]
    decide
  · exact h.alive i hi
  · exact h.sound d e he he0

/-- What refers to an inode without links: nothing but itself and the `".."` of directories that
have been removed. -/
theorem Ok.eq_dotdot_of_links (hok : v.Ok lost) (hi : (v.names i).type ≠ .free)
    (hlinks : (v.names i).links = 0) {d : Inum} (hd : d ≠ i) {e : Dirent}
    (he : e ∈ (v.names d).dirents) (hei : e.inum = i) :
    e = ⟨dotdot, i⟩ ∧ v.names.Removed d := by
  have hcount := hok.names.count i hi
  rw [hlinks] at hcount
  have hdir := hok.names.dir_of_mem he
  have hi0 := hok.names.ne_zero hi
  obtain ⟨p, ds, hds, hp0, hplain⟩ := hok.names.dots d hdir
  have hnamed : ¬ Plain e.name := by
    intro hp
    have hpos := Names.named_pos he hp
    rw [hei] at hpos
    omega
  have heq : e = ⟨dotdot, i⟩ := by
    rw [hds, List.mem_cons, List.mem_cons] at he
    rcases he with rfl | rfl | he
    · exact absurd hei hd
    · rw [show p = i from hei]
    · exact absurd (hplain e he (by rwa [hei])) hnamed
  rw [heq] at he
  refine ⟨heq, ?_, ?_⟩
  · rintro rfl
    exact hd (hok.names.dotdot_unique (by decide) hi0 hok.names.top he)
  · intro f c hc
    by_contra hnames
    obtain ⟨rfl, hcp⟩ := Names.names_iff.mp (by simpa using hnames)
    have hchild : v.names.child c = true :=
      Names.child_iff.mpr ⟨hok.names.ne_zero (by rw [hdir]; decide), hcp, hdir⟩
    have hf0 : f ≠ 0 := hok.names.ne_zero (by rw [hok.names.dir_of_mem hc]; decide)
    have hfi := hok.names.dotdot_unique hf0 hi0 (hok.names.up f c hc hchild) he
    have hpos := Names.kids_pos hc hchild
    rw [hfi] at hpos
    omega

/-- Dropping a reference, as the count of the holders has it. -/
theorem Held.ref_put (h : v.Held) {held : Multiset Inum} (hv : v.holds = held + {i}) (j : Inum) :
    update v.ref i (v.ref i - 1) j = held.count j := by
  have hcount : ∀ j, v.ref j = held.count j + if j = i then 1 else 0 := by
    intro j
    rw [h.ref, hv, Multiset.count_add, Multiset.count_singleton]
  rw [update_apply]
  split
  · rename_i hji
    rw [hji, hcount i, if_pos rfl, Nat.add_sub_cancel]
  · rename_i hji
    rw [hcount j, if_neg hji, add_zero]

/-- Taking a reference, as the count of the holders has it. -/
theorem Held.ref_get (h : v.Held) (j : Inum) :
    update v.ref i (v.ref i + 1) j = (v.holds + {i}).count j := by
  rw [Multiset.count_add, Multiset.count_singleton, update_apply]
  split
  · rename_i hji
    rw [hji, h.ref]
  · rw [h.ref, add_zero]

/-- **Every move keeps entries sound**, if no parent of a removed directory is freed. -/
theorem Held.move (h : v.Held) (hok : v.Ok lost) (hm : Move KeepsParent W v w) : w.Held := by
  cases hm with
  | read valid _ => exact ⟨h.ref, h.alive, h.sound⟩
  | @get i valid hi _ =>
    refine ⟨h.ref_get, fun j hj => ?_, h.sound⟩
    rcases Multiset.mem_add.mp hj with hj | hj
    · exact h.alive j hj
    · rw [Multiset.mem_singleton.mp hj]
      exact h.known hok hi
  | @put i held hv _ _ =>
    exact ⟨h.ref_put hv, fun j hj => h.alive j (by rw [hv]; exact Multiset.mem_add.mpr (.inl hj)),
      h.sound⟩
  | @free i held hv ha href hvalid hlinks =>
    have hone := h.ref i
    rw [href, hv, Multiset.count_add, Multiset.count_singleton_self] at hone
    refine ⟨h.ref_put hv, fun j hj => ?_, fun d e he he0 => ?_⟩
    · have hji : j ≠ i := by
        rintro rfl
        have hpos : 0 < held.count j := Multiset.count_pos.mpr hj
        omega
      dsimp only
      rw [update_of_ne hji]
      exact h.alive j (by rw [hv]; exact Multiset.mem_add.mpr (.inl hj))
    · dsimp only at he ⊢
      have hdi : d ≠ i := by
        rintro rfl
        rw [update_self] at he
        cases he
      rw [update_of_ne hdi] at he
      have hei : e.inum ≠ i := by
        intro hei
        obtain ⟨rfl, hremoved⟩ :=
          hok.eq_dotdot_of_links (hok.read i hvalid) hlinks hdi he hei
        exact ha href hvalid hlinks d hdi (hok.names.dir_of_mem he) hremoved he
      rw [update_of_ne hei]
      exact h.sound d e he he0
  | @bump i _ _ _ =>
    refine ⟨h.ref, fun j hj => ?_, fun d e he he0 => ?_⟩
    · rw [Names.bump_type]
      exact h.alive j hj
    · rw [Names.bump_dirents] at he
      rw [Names.bump_type]
      exact h.sound d e he he0
  | @drop i l hl =>
    refine ⟨h.ref, fun j hj => ?_, fun d e he he0 => ?_⟩
    · rw [Names.drop_type]
      exact h.alive j hj
    · rw [Names.drop_dirents] at he
      rw [Names.drop_type]
      exact h.sound d e he he0
  | @enter d i name l hl hd hname _ =>
    refine ⟨h.ref, fun j hj => ?_, fun f e he he0 => ?_⟩
    · rw [Names.enter_type]
      exact h.alive j hj
    · rw [Names.enter_type]
      rcases Names.mem_enter he with ⟨-, rfl⟩ | he
      · exact hok.names.pending i (by simp [hl])
      · exact h.sound f e he he0
  | @create d i name type valid hd hname _ hi0 hi htype _ _ =>
    have halive : ∀ j, j = i ∨ (v.names j).type ≠ .free →
        (v.names.create d name i type j).type ≠ .free := by
      intro j hj
      by_cases hji : j = i
      · rw [hji, Names.create_self_type]
        exact htype
      · rw [Names.create_type hji]
        exact hj.resolve_left hji
    refine ⟨h.ref_get, fun j hj => halive j ?_, fun f e he he0 => halive e.inum ?_⟩
    · rcases Multiset.mem_add.mp hj with hj | hj
      · exact .inr (h.alive j hj)
      · exact .inl (Multiset.mem_singleton.mp hj)
    · rcases Names.mem_create he with ⟨-, rfl⟩ | ⟨-, he⟩ | he
      · exact .inl rfl
      · rw [Names.Ok.newDirents] at he
        split at he
        · simp only [List.mem_cons, List.not_mem_nil, or_false] at he
          rcases he with rfl | rfl
          · exact .inl rfl
          · exact .inr (by rw [hd]; decide)
        · cases he
      · exact .inr (h.sound f e he he0)
  | @unlink d name e hplain hname _ =>
    refine ⟨h.ref, fun j hj => ?_, fun f c hc hc0 => ?_⟩
    · rw [Names.unlink_type]
      exact h.alive j hj
    · rw [Names.unlink_type]
      rcases Names.mem_unlink hc with rfl | hc
      · exact absurd rfl hc0
      · exact h.sound f c hc hc0

end View

/-! ## Locks that find a type -/

attribute [local simp] pure Except.pure throw throwThe MonadExceptOf.throw

namespace Inodes

variable {s t : Inodes} {i d : Inum} {name : Name}

/-- The panic of `ilock` on an inode that is free on disk. -/
@[simp] abbrev noType : String := "ilock: no type"

theorem ilock_typed (hi : (s i).type ≠ .free) : s.ilock i ≠ .error noType := by
  rw [ilock]
  split_ifs <;> simp

theorem iget_typed : s.iget i ≠ .error noType := by
  rw [iget]
  split_ifs <;> simp

variable {type : FileType}

theorem ialloc_typed : s.ialloc type ≠ .error noType := by
  rw [ialloc]
  split
  · simp
  · exact bind_ne_error iget_typed fun _ _ => by simp

theorem dirlookup_typed : s.dirlookup d name ≠ .error noType := by
  rw [dirlookup]
  split_ifs
  · simp
  · split
    · simp
    · exact bind_ne_error iget_typed fun _ _ => by simp

theorem dirlink_typed : s.dirlink d name i ≠ .error noType := by
  refine bind_ne_error dirlookup_typed ?_
  rintro ⟨t, found⟩ -
  cases found <;> simp

theorem mkdir_typed : s.mkdir type d i ≠ .error noType := by
  rw [mkdir]
  split_ifs
  · refine bind_ne_error dirlink_typed ?_
    rintro ⟨t, linked⟩ -
    cases linked with
    | false => simp
    | true =>
      refine bind_ne_error dirlink_typed ?_
      rintro ⟨t, linked⟩ -
      cases linked <;> simp
  · simp

/-- The type of an inode just allocated. -/
theorem type_of_ialloc (ht : s.ialloc type = .ok (t, i)) : (t i).type = type := by
  obtain ⟨-, -, hget⟩ := ialloc_eq ht
  obtain rfl := iget_eq hget
  rw [mod_self, mod_self]

theorem create_typed {major : Int16} (htype : type ≠ .free)
    (hd : (s d).type ≠ .free) : s.create d name type major ≠ .error noType := by
  refine bind_ne_error (ilock_typed hd) fun s₁ _ => bind_ne_error dirlookup_typed ?_
  rintro ⟨s₂, found⟩ -
  cases found with
  | some j => simp
  | none =>
    refine bind_ne_error ialloc_typed ?_
    rintro ⟨s₃, j⟩ halloc
    refine bind_ne_error (ilock_typed ((type_of_ialloc halloc).trans_ne htype)) fun s₄ _ => ?_
    refine bind_ne_error mkdir_typed fun s₅ _ => bind_ne_error dirlink_typed ?_
    rintro ⟨s₆, linked⟩ -
    cases linked <;> simp

theorem unlink_typed (hd : (s d).type ≠ .free)
    (hsound : ∀ d, ∀ e ∈ (s d).dirents, e.inum ≠ 0 → (s e.inum).type ≠ .free) :
    s.unlink d name ≠ .error noType := by
  refine bind_ne_error (ilock_typed hd) fun s₁ hlock => ?_
  split
  · simp
  refine bind_ne_error dirlookup_typed ?_
  rintro ⟨s₂, found⟩ hfound
  cases found with
  | none => simp
  | some j =>
    obtain ⟨-, hget, e, he, rfl⟩ := dirlookup_some hfound
    have hnames : s₂.names = s.names :=
      (move_iget (A := fun _ _ => True) (W := fun _ _ => True) hget
        (known_of_find (h := 0) (l := 0) he)).2.trans (ilock_same hlock).1.names
    have his := List.find?_some he
    rw [(ilock_same hlock).1.names] at he
    have hlive : (s₂ e.inum).type ≠ .free :=
      (congrArg (fun n : Names => (n e.inum).type) hnames).trans_ne
        (hsound d e (List.mem_of_find?_eq_some he) (Dirent.is_iff.mp his).1)
    refine bind_ne_error (ilock_typed hlive) fun s₃ _ => ?_
    dsimp only
    split_ifs <;> simp

end Inodes

namespace Task

open Inodes

variable {t : Task} {s : Inodes}

theorem startNamex_typed {path : Path} {call : Call} :
    t.startNamex s path call ≠ .error noType := by
  rw [startNamex]
  split
  · exact bind_ne_error iget_typed fun _ _ => by simp
  · split <;> simp

theorem begin_typed {c : Syscall} : t.begin s c ≠ .error noType := by
  cases c with
  | close fd =>
    rw [begin]
    split <;> simp
  | exit => simp [begin]
  | _ => exact startNamex_typed

/-- A process that holds allocated inodes, and finds only such by their names, finds a type in
every inode it locks. -/
theorem run_typed (halive : ∀ i ∈ t.holds, (s i).type ≠ .free)
    (hsound : ∀ d, ∀ e ∈ (s d).dirents, e.inum ≠ 0 → (s e.inum).type ≠ .free)
    {x : Except String (Inodes × Task)} (hx : t.run s = some x) : x ≠ .error noType := by
  rw [run] at hx
  cases hputs : t.puts with
  | cons i puts =>
    rw [hputs] at hx
    cases hx
    simp
  | nil =>
    rw [hputs] at hx
    have hip : ∀ ip ∈ t.stage.holds, (s ip).type ≠ .free := by
      intro ip hip
      exact halive ip (Multiset.mem_add.mpr (.inr (Multiset.mem_coe.mpr hip)))
    cases hstage : t.stage with
    | idle =>
      rw [hstage] at hx
      cases hx
    | namex ip path call =>
      rw [hstage] at hx hip
      cases hx
      cases path with
      | nil =>
        rw [namexTurn]
        split_ifs <;> simp
      | cons name path =>
        refine bind_ne_error (ilock_typed (hip ip List.mem_cons_self)) fun s₁ _ => ?_
        split
        · simp
        split
        · simp
        refine bind_ne_error dirlookup_typed ?_
        rintro ⟨s₂, next⟩ -
        cases next <;> simp
    | found ip name call =>
      rw [hstage] at hx hip
      cases hx
      have hlock := ilock_typed (hip ip List.mem_cons_self)
      cases call with
      | create type major opens =>
        refine bind_ne_error (create_typed type.2 (hip ip List.mem_cons_self)) ?_
        rintro ⟨s₁, i, inUse⟩ -
        cases inUse <;> simp
      | openAt rdonly room =>
        refine bind_ne_error hlock fun s₁ _ => ?_
        split <;> simp
      | linkOld new =>
        refine bind_ne_error hlock fun s₁ _ => ?_
        split
        · simp
        · exact startNamex_typed
      | linkNew i =>
        refine bind_ne_error hlock fun s₁ _ => bind_ne_error dirlink_typed ?_
        rintro ⟨s₂, linked⟩ -
        cases linked <;> simp
      | unlink =>
        refine bind_ne_error (unlink_typed (hip ip List.mem_cons_self) hsound) ?_
        rintro ⟨s₁, puts⟩ -
        simp
      | chdir =>
        refine bind_ne_error hlock fun s₁ _ => ?_
        split <;> simp
    | existing ip type opens =>
      rw [hstage] at hx hip
      cases hx
      refine bind_ne_error (ilock_typed (hip ip List.mem_cons_self)) fun s₁ _ => ?_
      split <;> simp
    | bad ip =>
      rw [hstage] at hx hip
      cases hx
      refine bind_ne_error (ilock_typed (hip ip List.mem_cons_self)) fun s₁ _ => ?_
      simp

end Task

/-! ## Runs -/

instance (n : Names) (i : Inum) : Decidable (n.Removed i) := inferInstanceAs (Decidable (_ ∧ _))

namespace FsSys

variable {P : Type}

/-- Every entry in use of every directory refers to an allocated inode. -/
def NoDangling (s : FsSys P) : Prop :=
  ∀ d, (s.inodes d).type = .dir → ∀ e ∈ (s.inodes d).dirents, e.inum ≠ 0 →
    (s.inodes e.inum).type ≠ .free

instance (s : FsSys P) : Decidable s.NoDangling := inferInstanceAs (Decidable (∀ _, _))

section
variable [DecidableEq P]

/-- No step from here panics in `ilock` because the inode has no type. -/
def LocksTyped (s : FsSys P) : Prop := ∀ a, s.next a ≠ some (.error "ilock: no type")

/-- If the step frees an inode, it is not the parent of another directory that has been removed
and is still allocated. -/
def KeepsParent (s : FsSys P) : FsAct P → Prop
  | .call _ _ => True
  | .run p => ∀ i ∈ (s.task p).puts.head?, s.inodes.Frees i → ∀ d, d ≠ i →
      (s.inodes d).type = .dir → s.inodes.names.Removed d → ⟨dotdot, i⟩ ∉ (s.inodes d).dirents

instance (s : FsSys P) (a : FsAct P) : Decidable (s.KeepsParent a) := by
  cases a with
  | call p c => exact instDecidableTrue
  | run p =>
    unfold KeepsParent
    infer_instance

instance (s : FsSys P) (a : FsAct P) : Decidable (s.LinkFits a) := by
  cases a with
  | call p c => exact instDecidableTrue
  | run p =>
    unfold LinkFits Task.LinkFits
    dsimp only
    split <;> infer_instance

end

variable [Fintype P] [DecidableEq P] {s u : FsSys P} {a : FsAct P}

/-- Both invariants of the entries, along moves. -/
theorem held_of_moves {W : View → Inum → Prop} {v w : View}
    (hm : Relation.ReflTransGen (Move View.KeepsParent W) v w)
    (hv : v.Held ∧ ∃ lost, v.Ok lost) : w.Held ∧ ∃ lost, w.Ok lost := by
  induction hm with
  | refl => exact hv
  | tail _ hmove ih =>
    obtain ⟨hheld, lost, hok⟩ := ih
    obtain ⟨more, hok', -⟩ := hok.move hmove
    exact ⟨hheld.move hok hmove, _, hok'⟩

theorem held_step (h : s.view.Held ∧ s.Ok) (hs : s.step a = some u) (hfits : s.LinkFits a)
    (hkeep : s.KeepsParent a) : u.view.Held ∧ u.Ok := by
  refine held_of_moves (moves_step (W := fun _ _ => True) hs hfits ?_
    fun _ _ _ _ _ _ => trivial) h
  rintro p i puts rfl hputs href hvalid hlinks
  exact hkeep i (by rw [hputs]; rfl) ⟨href, hvalid, (nlink_eq_zero _).mpr hlinks⟩

omit [DecidableEq P] in
theorem noDangling_of_held (h : s.view.Held) :
    s.NoDangling := fun d _ e he he0 => h.sound d e he he0

theorem locksTyped_of_held (h : s.view.Held) : s.LocksTyped := by
  have halive : ∀ p, ∀ i ∈ (s.task p).holds, (s.inodes i).type ≠ .free := by
    intro p i hi
    refine h.alive i (Multiset.mem_of_le ?_ hi)
    exact Finset.single_le_sum (f := fun p => (s.task p).holds) (fun _ _ => zero_le)
      (Finset.mem_univ p)
  intro a ha
  cases a with
  | call p c =>
    obtain ⟨-, ha⟩ := Option.ite_none_right_eq_some.mp ha
    have hbegin := Task.begin_typed (t := s.task p) (s := s.inodes) (c := c)
    cases hb : (s.task p).begin s.inodes c with
    | error e =>
      rw [hb] at ha hbegin
      cases ha
      exact hbegin rfl
    | ok r =>
      rw [hb] at ha
      cases ha
  | run p =>
    rw [next] at ha
    obtain ⟨x, hx, hmap⟩ := Option.map_eq_some_iff.mp ha
    have hrun := Task.run_typed (halive p) h.sound hx
    cases x with
    | error e =>
      cases hmap
      exact hrun rfl
    | ok r => cases hmap

/-- A step that frees the parent of a removed directory leaves its `".."` dangling. -/
theorem keepsParent_of_noDangling (h : s.view.Held ∧ s.Ok) (hs : s.step a = some u)
    (hu : u.NoDangling) : s.KeepsParent a := by
  cases a with
  | call p c => trivial
  | run p =>
    intro i hi hfrees d hd hdir _ hmem
    obtain ⟨puts, hputs⟩ : ∃ puts, (s.task p).puts = i :: puts := by
      cases hlist : (s.task p).puts with
      | nil =>
        rw [hlist] at hi
        cases hi
      | cons j puts =>
        rw [hlist] at hi
        cases hi
        exact ⟨puts, rfl⟩
    obtain ⟨r, hr, rfl⟩ := step_run hs
    rw [Task.run, hputs] at hr
    cases hr
    obtain ⟨lost, hok⟩ := h.2
    have hi0 : i ≠ 0 := hok.names.ne_zero (hok.read i hfrees.2.1)
    have hother : s.inodes.iput i d = s.inodes d := by
      rw [Inodes.iput, if_pos hfrees, Inodes.mod_mod, Inodes.mod_of_ne hd]
    have hfree : (s.inodes.iput i i).type = .free := by
      rw [Inodes.iput, if_pos hfrees, Inodes.mod_mod, Inodes.mod_self]
    rw [← hother] at hdir hmem
    exact hu d hdir ⟨dotdot, i⟩ hmem hi0 hfree

omit [DecidableEq P] in
/-- At the start every process holds the root, and every entry is sound. -/
theorem held_boot (m : Image) : (m.boot P).view.Held := by
  have hholds : (m.boot P).view.holds = Fintype.card P • ({rootino} : Multiset Inum) := by
    rw [← Finset.card_univ, ← Finset.sum_const]
    rfl
  have halloc : ((m.boot P).view.names rootino).type ≠ .free := by
    have hdir := congrArg Inode.type (m.inodes_root (Fintype.card P))
    exact hdir.trans_ne (by simp)
  refine ⟨fun i => ?_, fun i hi => ?_, fun d e he he0 => ?_⟩
  · rw [hholds, Multiset.count_nsmul, Multiset.count_singleton]
    by_cases hroot : i = rootino
    · rw [if_pos hroot, hroot, mul_one]
      exact congrArg Inode.ref (m.inodes_root _)
    · rw [if_neg hroot, mul_zero]
      exact (Image.inodes_of_ne hroot).2.1
  · rw [hholds] at hi
    rw [Multiset.mem_singleton.mp (Multiset.mem_of_mem_nsmul hi)]
    exact halloc
  · by_cases hd : d = rootino
    · have hnames := Image.names_root (m := m) (n := Fintype.card P)
      rw [hd, show (m.boot P).view.names = (m.inodes (Fintype.card P)).names from rfl, hnames,
        List.mem_cons, List.mem_cons] at he
      rcases he with rfl | rfl | he
      · exact halloc
      · exact halloc
      · obtain ⟨-, h2, hlt⟩ := (Image.mem_fileDirents he).resolve_left he0
        exact (Image.inodes_of_file h2 hlt).trans_ne (by decide)
    · have hnil : ((m.boot P).view.names d).dirents = [] := Image.names_of_ne hd
      rw [hnil] at he
      cases he

/-- **When no directory entry dangles.** In a run from a `mkfs` image in which no link count
wraps, every entry in use refers to an allocated inode at every point, and no `ilock` finds an
inode without a type, exactly if no inode is freed that is the parent of a removed directory
still allocated. -/
theorem noDangling_iff_keepsParent (m : Image) {as : List (FsAct P)} {e : FsSys P}
    (hrun : exec step (m.boot P) as = some e)
    (hfits : ∀ t a, Takes step (m.boot P) as t a → t.LinkFits a) :
    (∀ t, Visits step (m.boot P) as t → t.NoDangling ∧ t.LocksTyped) ↔
      ∀ t a, Takes step (m.boot P) as t a → t.KeepsParent a := by
  refine visits_all_iff_of_invariant (J := fun t => t.view.Held ∧ t.Ok) ?_ ?_ hrun ?_ ?_
  · exact ⟨held_boot m, 0, Image.boot_ok⟩
  · exact fun t ht => ⟨noDangling_of_held ht.1, locksTyped_of_held ht.1⟩
  · exact fun t a u ht hu hJ hkeep => held_step hJ hu (hfits t a ht) hkeep
  · exact fun t a u _ hu hJ hP => keepsParent_of_noDangling hJ hu hP.1

/-- In such a run a reference count is the number of references that the processes hold, and what
they hold is allocated. -/
theorem ref_of_visits (m : Image) {as : List (FsAct P)} {t : FsSys P}
    (hsteps : ∀ t a, Takes step (m.boot P) as t a → t.LinkFits a ∧ t.KeepsParent a)
    (h : Visits step (m.boot P) as t) (i : Inum) :
    (t.inodes i).ref = (∑ p, (t.task p).holds).count i ∧
      ((t.inodes i).ref ≠ 0 → (t.inodes i).type ≠ .free) := by
  obtain ⟨hheld, -⟩ := Visits.induction (P := fun t => t.view.Held ∧ t.Ok)
    ⟨held_boot m, 0, Image.boot_ok⟩
    (fun s a u hs hu hJ => held_step hJ hu (hsteps s a hs).1 (hsteps s a hs).2) h
  exact ⟨hheld.ref i, fun hi => hheld.alive i (Multiset.count_ne_zero.mp (hheld.ref i ▸ hi))⟩

section Nested

/-- An image with an empty root directory. -/
def emptyImage : Image := ⟨[], by simp, by decide⟩

/-- The paths `/a` and `/a/b`. -/
def pathA : Path := ⟨true, [[97]]⟩

@[inherit_doc pathA] def pathB : Path := ⟨true, [[97], [98]]⟩

/-- A system call, and the steps it takes. -/
def whole (c : Syscall) (steps : ℕ) : List (FsAct Unit) :=
  .call () c :: List.replicate steps (.run ())

/-- Make `/a` and `/a/b`, then remove both. -/
def nestedRun : List (FsAct Unit) :=
  whole (.mkdir pathA) 4 ++ whole (.mkdir pathB) 6 ++ whole (.unlink pathB) 6 ++
    whole (.unlink pathA) 4

/-- The same, with `/a/b` as the working directory when it is removed. -/
def heldRun : List (FsAct Unit) :=
  whole (.mkdir pathA) 4 ++ whole (.mkdir pathB) 6 ++ whole (.chdir pathB) 7 ++
    whole (.unlink pathB) 6 ++ whole (.unlink pathA) 4

/-- Removing the directories while none of them is in use leaves nothing dangling. -/
theorem noDangling_nestedRun : ∃ e, exec step (emptyImage.boot Unit) nestedRun = some e ∧
    ∀ t, Visits step (emptyImage.boot Unit) nestedRun t → t.NoDangling ∧ t.LocksTyped := by
  have hrun : (exec (guarded (fun t a => t.LinkFits a ∧ t.KeepsParent a) step)
      (emptyImage.boot Unit) nestedRun).isSome = true := by decide +kernel
  obtain ⟨e, he⟩ := Option.isSome_iff_exists.mp hrun
  obtain ⟨hexec, hok⟩ := exec_guarded he
  exact ⟨e, hexec, (noDangling_iff_keepsParent emptyImage hexec fun t a h => (hok t a h).1).mpr
    fun t a h => (hok t a h).2⟩

/-- **A dangling `".."`.** After `heldRun` no call is in progress, the working directory `/a/b` is
still allocated, and its `".."` refers to the freed inode of `/a`; looking up `"../x"` from there
panics in `ilock`. -/
theorem heldRun_dangles : (exec step (emptyImage.boot Unit) heldRun).any (fun e =>
      (e.task ()).Ready ∧ (e.task ()).cwd = some 3 ∧ (e.inodes 3).type = .dir ∧
        ⟨dotdot, 2⟩ ∈ (e.inodes 3).dirents ∧ (e.inodes 2).type = .free) = true ∧
    ((exec step (emptyImage.boot Unit)
      (heldRun ++ whole (.chdir ⟨false, [dotdot, [120]]⟩) 2)).bind fun e =>
        (e.next (.run ())).map fun r => decide (r.map (fun _ => ()) = .error "ilock: no type")) =
      some true := by decide +kernel

theorem ref_nestedRun : ∃ e, exec step (emptyImage.boot Unit) nestedRun = some e ∧
    (e.inodes rootino).ref = (∑ p, (e.task p).holds).count rootino := by
  have hrun : (exec (guarded (fun t a => t.LinkFits a ∧ t.KeepsParent a) step)
      (emptyImage.boot Unit) nestedRun).isSome = true := by decide +kernel
  obtain ⟨e, he⟩ := Option.isSome_iff_exists.mp hrun
  obtain ⟨hexec, hok⟩ := exec_guarded he
  exact ⟨e, hexec, (ref_of_visits emptyImage hok (.last hexec) rootino).1⟩

end Nested

end FsSys

end Xv6.Fs
