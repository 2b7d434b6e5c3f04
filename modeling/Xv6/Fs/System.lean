import Xv6.Fs.Refine
import Xv6.Lib.Run

/-!
# Runs of the file system

Any number of processes make system calls in any interleaving of their lock sections. The view
of the whole system counts what all of them hold; a step of one is a sequence of moves of it
(`FsSys.moves_step`), so the name space is sound in every state of every run from a `mkfs` image
in which no link count wraps (`FsSys.ok_of_visits`).
-/

namespace Xv6.Fs

open Lib View

namespace FsSys

variable {P : Type}

section Step
variable [DecidableEq P] {s u : FsSys P}

theorem step_call {p : P} {c : Syscall} (hs : s.step (.call p c) = some u) :
    (s.task p).Ready ∧ ∃ r, (s.task p).begin s.inodes c = .ok r ∧ u = s.set p r := by
  rw [step, next] at hs
  split at hs
  · rename_i hready
    cases hr : (s.task p).begin s.inodes c with
    | error e =>
      rw [hr] at hs
      cases hs
    | ok r =>
      rw [hr] at hs
      cases hs
      exact ⟨hready, r, rfl, rfl⟩
  · cases hs

theorem step_run {p : P} (hs : s.step (.run p) = some u) :
    ∃ r, (s.task p).run s.inodes = some (.ok r) ∧ u = s.set p r := by
  rw [step, next] at hs
  cases hr : (s.task p).run s.inodes with
  | none =>
    rw [hr] at hs
    cases hs
  | some x =>
    rw [hr] at hs
    cases x with
    | error e => cases hs
    | ok r =>
      cases hs
      exact ⟨r, rfl, rfl⟩

/-- The step wraps no link count from `-1` to `0`. -/
def LinkFits (s : FsSys P) : FsAct P → Prop
  | .call _ _ => True
  | .run p => (s.task p).LinkFits s.inodes

end Step

variable [Fintype P]

/-- The view of the system: what all processes hold together. -/
def view (s : FsSys P) : View :=
  s.inodes.view (∑ p, (s.task p).holds) (∑ p, (s.task p).links)

/-- The name space is sound. -/
def Ok (s : FsSys P) : Prop := ∃ lost, s.view.Ok lost

variable [DecidableEq P] {A W : View → Inum → Prop} {s u : FsSys P} {a : FsAct P}

/-- What one process does to the system is what it does beside the others' holdings. -/
theorem moves_set {p : P} {r : Inodes × Task}
    (hmoves : ∀ H L, s.view = s.inodes.view (H + (s.task p).holds) (L + (s.task p).links) →
      Relation.ReflTransGen (Move A W)
        (s.inodes.view (H + (s.task p).holds) (L + (s.task p).links))
        (r.1.view (H + r.2.holds) (L + r.2.links))) :
    Relation.ReflTransGen (Move A W) s.view (s.set p r).view := by
  obtain ⟨H, hH⟩ := exists_rest Task.holds s.task p
  obtain ⟨L, hL⟩ := exists_rest Task.links s.task p
  have hH' := hH (s.task p)
  have hL' := hL (s.task p)
  rw [Function.update_eq_self] at hH' hL'
  have hview : (s.set p r).view = r.1.view (H + r.2.holds) (L + r.2.links) := by
    rw [view, set]
    dsimp only
    rw [hH, hL]
  have hview' : s.view = s.inodes.view (H + (s.task p).holds) (L + (s.task p).links) := by
    rw [view, hH', hL']
  rw [hview, hview']
  exact hmoves H L hview'

/-- **A step of the system is a sequence of moves** of its view. -/
theorem moves_step (hs : s.step a = some u) (hfits : s.LinkFits a)
    (ha : ∀ p i puts, a = .run p → (s.task p).puts = i :: puts → A s.view i)
    (hw : ∀ p d, a = .run p → (s.task p).writes s.inodes = some d →
      ∀ v : View, v.names = s.inodes.names → W v d) :
    Relation.ReflTransGen (Move A W) s.view u.view := by
  cases a with
  | call p c =>
    obtain ⟨hready, r, hr, rfl⟩ := step_call hs
    exact moves_set fun H L _ => Task.moves_begin hready hr
  | run p =>
    obtain ⟨r, hr, rfl⟩ := step_run hs
    refine moves_set fun H L hview => Task.moves_run hfits (fun i puts hputs => ?_)
      (fun d hd => hw p d rfl hd) hr
    rw [← hview]
    exact ha p i puts rfl hputs

end FsSys

/-! ## The image -/

namespace Image

variable (m : Image)

theorem inodes_root (n : ℕ) : m.inodes n rootino = ⟨.dir, 0, 1, m.rootDirents, n, false⟩ :=
  if_pos rfl

variable {m} {n : ℕ} {i : Inum}

/-- The image holds the root and the files, and nothing else. -/
theorem inodes_of_ne (hi : i ≠ rootino) : (m.inodes n i).dirents = [] ∧ (m.inodes n i).ref = 0 ∧
    ((m.inodes n i).type = .free ∨
      ((m.inodes n i).type = .file ∧ (m.inodes n i).nlink = 1 ∧ 2 ≤ i.val ∧
        i.val < m.files.length + 2)) := by
  rw [inodes, if_neg hi]
  split
  · rename_i hfile
    exact ⟨rfl, rfl, .inr ⟨rfl, rfl, hfile⟩⟩
  · exact ⟨rfl, rfl, .inl rfl⟩

theorem inodes_of_file (h2 : 2 ≤ i.val) (hlt : i.val < m.files.length + 2) :
    (m.inodes n i).type = .file := by
  have hi : i ≠ rootino := by
    rintro rfl
    exact absurd h2 (by decide)
  rw [inodes, if_neg hi, if_pos ⟨h2, hlt⟩]

/-- An entry of the root directory beyond the first two. -/
def fileDirents (m : Image) : List Dirent :=
  ((List.finRange m.files.length).map fun k =>
    ⟨m.files.get k, ⟨k + 2, m.inum_lt k⟩⟩) ++
  List.replicate (64 - (m.files.length + 2) % 64) .zero

theorem mem_fileDirents {e : Dirent} (he : e ∈ m.fileDirents) :
    e.inum = 0 ∨ (Plain e.name ∧ 2 ≤ e.inum.val ∧ e.inum.val < m.files.length + 2) := by
  rcases List.mem_append.mp he with he | he
  · obtain ⟨k, -, rfl⟩ := List.mem_map.mp he
    exact .inr ⟨m.plain _ (List.get_mem _ _), Nat.le_add_left _ _, by simp⟩
  · rw [List.eq_of_mem_replicate he]
    exact .inl rfl

/-- Each file has one entry. -/
theorem countP_fileDirents (hi : i ≠ 0) : m.fileDirents.countP (Dirent.names i) =
    if 2 ≤ i.val ∧ i.val < m.files.length + 2 then 1 else 0 := by
  have hzero : (List.replicate (64 - (m.files.length + 2) % 64) Dirent.zero).countP
      (Dirent.names i) = 0 := by
    refine List.countP_eq_zero.mpr fun e he => ?_
    rw [List.eq_of_mem_replicate he, Names.names_of_inum_zero hi _ rfl]
    decide
  rw [fileDirents, List.countP_append, hzero, add_zero, List.countP_map]
  split
  · rename_i hfile
    let k₀ : Fin m.files.length := ⟨i.val - 2, by omega⟩
    rw [← List.count_eq_one_of_mem (List.nodup_finRange m.files.length) (List.mem_finRange k₀),
      List.count]
    refine List.countP_congr fun k _ => ?_
    rw [Function.comp_apply, Names.names_iff, beq_iff_eq]
    constructor
    · rintro ⟨rfl, -⟩
      exact Fin.ext (Nat.add_sub_cancel _ _).symm
    · rintro rfl
      exact ⟨Fin.ext (Nat.sub_add_cancel hfile.1), m.plain _ (List.get_mem _ _)⟩
  · rename_i hfile
    refine List.countP_eq_zero.mpr fun k _ hk => hfile ?_
    obtain ⟨rfl, -⟩ := Names.names_iff.mp hk
    exact ⟨Nat.le_add_left _ _, by simp⟩

theorem names_root : ((m.inodes n).names rootino).dirents =
    ⟨dot, rootino⟩ :: ⟨dotdot, rootino⟩ :: m.fileDirents := by
  rw [Inodes.names, inodes_root]
  rfl

theorem names_of_ne (hi : i ≠ rootino) : ((m.inodes n).names i).dirents = [] := (inodes_of_ne hi).1

/-- The entries that name an inode of the image. -/
theorem named_image (hi : i ≠ 0) : (m.inodes n).names.named i =
    if 2 ≤ i.val ∧ i.val < m.files.length + 2 then 1 else 0 := by
  have hspecial : ∀ name, ¬ Plain name → (⟨name, rootino⟩ : Dirent).names i = false := by
    intro name hname
    simp [Dirent.names, hname]
  rw [Names.named, Finset.sum_eq_single rootino]
  · rw [names_root, List.countP_cons_of_neg (by simp [hspecial dot (fun h => h.1 rfl)]),
      List.countP_cons_of_neg (by simp [hspecial dotdot (fun h => h.2 rfl)]),
      countP_fileDirents hi]
  · intro d _ hd
    rw [names_of_ne hd, List.countP_nil]
  · intro h
    exact absurd (Finset.mem_univ _) h

/-- No directory is entered in a directory of the image. -/
theorem child_image {d : Inum} {e : Dirent} (he : e ∈ ((m.inodes n).names d).dirents) :
    (m.inodes n).names.child e = false := by
  by_cases hd : d = rootino
  · rw [hd, names_root, List.mem_cons, List.mem_cons] at he
    rcases he with rfl | rfl | he
    · simp [Names.child, Plain]
    · simp [Names.child, Plain]
    · rcases mem_fileDirents he with h0 | ⟨-, h2, hlt⟩
      · exact Names.child_of_inum_zero _ e h0
      · have htype : ((m.inodes n).names e.inum).type = .file := inodes_of_file h2 hlt
        simp [Names.child, htype]
  · rw [names_of_ne hd] at he
    cases he

/-- **The image of `mkfs` is sound.** -/
theorem names_ok : (m.inodes n).names.Ok 0 := by
  have htop : ∀ d, ((m.inodes n).names d).type = .dir → d = rootino := by
    intro d hd
    by_contra hne
    rcases (inodes_of_ne (m := m) (n := n) hne).2.2 with hfree | ⟨hfile, -⟩
    · exact absurd (hd.symm.trans hfree) (by decide)
    · exact absurd (hd.symm.trans hfile) (by decide)
  refine ⟨?_, ?_, by rw [names_root]; simp, ?_, ?_, ?_, ?_, by simp, ?_⟩
  · rcases (inodes_of_ne (m := m) (n := n) (i := 0) (by decide)).2.2 with hfree | ⟨-, -, h2, -⟩
    · exact hfree
    · exact absurd h2 (by decide)
  · exact congrArg Inode.type (m.inodes_root n)
  · intro d hd
    refine names_of_ne ?_
    rintro rfl
    exact hd (congrArg Inode.type (m.inodes_root n))
  · intro d hd
    rw [htop d hd]
    refine ⟨rootino, m.fileDirents, names_root, by decide, fun e he he0 => ?_⟩
    exact (mem_fileDirents he).elim (fun h0 => absurd h0 he0) fun h => h.1
  · intro d e he hchild
    rw [child_image he] at hchild
    cases hchild
  · intro d e he he0 hplain
    by_cases hd : d = rootino
    · rw [hd, names_root, List.mem_cons, List.mem_cons] at he
      rcases he with rfl | rfl | he
      · exact absurd rfl hplain.1
      · exact absurd rfl hplain.2
      · obtain ⟨-, h2, hlt⟩ := (mem_fileDirents he).resolve_left he0
        exact (inodes_of_file h2 hlt).trans_ne (by decide)
    · rw [names_of_ne hd] at he
      cases he
  · intro i hi
    have hkids : (m.inodes n).names.kids i = 0 :=
      List.countP_eq_zero.mpr fun e he => by rw [child_image he]; decide
    have hi0 : i ≠ 0 := by
      rintro rfl
      rcases (inodes_of_ne (m := m) (n := n) (i := 0) (by decide)).2.2 with hfree | ⟨-, -, h2, -⟩
      · exact hi hfree
      · exact absurd h2 (by decide)
    rw [named_image hi0, hkids, Multiset.count_zero]
    by_cases hroot : i = rootino
    · rw [hroot, if_neg (fun h => absurd h.1 (by decide)), if_pos rfl]
      exact (congrArg (fun x : Inode => x.nlink.toUInt16.toNat) (m.inodes_root n)).symm
    · rcases (inodes_of_ne (m := m) (n := n) hroot).2.2 with hfree | ⟨-, hone, hfile⟩
      · exact absurd hfree hi
      · rw [if_pos hfile, if_neg hroot]
        exact (congrArg (fun k : Int16 => k.toUInt16.toNat) hone).symm

/-- **The system starts sound**, with no link lost. -/
theorem boot_ok {P : Type} [Fintype P] : (m.boot P).view.Ok 0 := by
  have hlinks : (m.boot P).view.links = 0 := Finset.sum_eq_zero fun p _ => rfl
  refine ⟨?_, ?_, ?_, ?_⟩
  · rw [hlinks]
    exact names_ok
  · exact fun i => ((m.inodes (Fintype.card P)) i).nlink.toUInt16.toNat_lt
  · intro i hi
    have hvalid : (m.inodes (Fintype.card P) i).valid = false := by
      rw [inodes]
      split_ifs <;> rfl
    exact absurd (hi.symm.trans hvalid) (by decide)
  · intro i hi
    rw [hlinks] at hi
    cases hi

end Image

end Xv6.Fs
