import Xv6.Fs.Inode
import Xv6.Lib.Tally
import Mathlib.Algebra.Order.BigOperators.Group.Finset

/-!
# The name space

What the entries of all directories say together, apart from reference counts. A `Node` is an
inode with its link count as a number, and `Names.Ok` is what keeps a name space sound: a link
count is the number of entries that name the inode, of directories that are entered in it, and
of links without an entry (`l`): those being made or taken back, and those whose entry went with
the directory it was in. Entries `"."` and `".."` are not counted, except that a directory
entered in its parent counts there for its `".."`.
-/

namespace Xv6.Fs

open Lib
open Function (update update_of_ne update_self)

/-! ## Directories as lists -/

section Dirents
variable {e d : Dirent} {name : Name} {ds : List Dirent}

theorem Dirent.is_iff : e.is name = true ↔ e.inum ≠ 0 ∧ e.name = name := by
  simp [Dirent.is]

theorem mem_place (h : d ∈ place e ds) : d = e ∨ d ∈ ds := by
  induction ds with
  | nil => simpa [place] using h
  | cons c ds ih =>
    rw [place] at h
    split at h
    · rcases List.mem_cons.mp h with rfl | h
      · exact .inl rfl
      · exact .inr (List.mem_cons_of_mem c h)
    · rcases List.mem_cons.mp h with rfl | h
      · exact .inr List.mem_cons_self
      · exact (ih h).imp_right (List.mem_cons_of_mem c)

theorem countP_place {q : Dirent → Bool} (hq : ∀ d, d.inum = 0 → q d = false) :
    (place e ds).countP q = ds.countP q + if q e then 1 else 0 := by
  induction ds with
  | nil => simp [place, List.countP_cons]
  | cons c ds ih =>
    rw [place]
    split
    · rename_i hc
      simp [List.countP_cons, hq c hc]
    · rw [List.countP_cons, ih, List.countP_cons]
      omega

theorem mem_erase (h : d ∈ erase name ds) : d = .zero ∨ d ∈ ds := by
  induction ds with
  | nil => cases h
  | cons c ds ih =>
    rw [erase] at h
    split at h
    · rcases List.mem_cons.mp h with rfl | h
      · exact .inl rfl
      · exact .inr (List.mem_cons_of_mem c h)
    · rcases List.mem_cons.mp h with rfl | h
      · exact .inr List.mem_cons_self
      · exact (ih h).imp_right (List.mem_cons_of_mem c)

/-- Erasing takes away the entry a lookup finds, and no other. -/
theorem countP_erase {q : Dirent → Bool} (hq : ∀ d, d.inum = 0 → q d = false)
    (h : ds.find? (fun d => d.is name) = some e) :
    (erase name ds).countP q + (if q e then 1 else 0) = ds.countP q := by
  induction ds with
  | nil => cases h
  | cons c ds ih =>
    rw [List.find?_cons] at h
    rw [erase]
    split at h
    · rename_i hc
      cases h
      rw [if_pos hc, List.countP_cons, List.countP_cons, hq .zero rfl]
      simp
    · rename_i hc
      rw [if_neg (by simpa using hc), List.countP_cons, List.countP_cons, ← ih h]
      omega

end Dirents

/-! ## Link counts -/

/-- An inode without its references. -/
structure Node where
  type : FileType
  links : ℕ
  dirents : List Dirent

/-- All inodes of the device, without their references. -/
abbrev Names := Inum → Node

/-- The entry is one of those a link count covers, for the inode `i`. -/
def Dirent.names (i : Inum) (e : Dirent) : Bool := decide (e.inum = i ∧ Plain e.name)

namespace Names

/-- The entry enters a directory in its parent. -/
def child (n : Names) (e : Dirent) : Bool :=
  decide (e.inum ≠ 0 ∧ Plain e.name ∧ (n e.inum).type = .dir)

/-- Number of entries that name an inode. -/
def named (n : Names) (i : Inum) : ℕ := ∑ d, (n d).dirents.countP (Dirent.names i)

/-- Number of directories entered in a directory. -/
def kids (n : Names) (d : Inum) : ℕ := (n d).dirents.countP n.child

/-- No entry names the inode, and it is not the root: a directory that has been removed. -/
def Removed (n : Names) (i : Inum) : Prop :=
  i ≠ rootino ∧ ∀ d, ∀ e ∈ (n d).dirents, Dirent.names i e = false

/-- **A sound name space**, in which the links to the inodes in `l` have no entry. -/
structure Ok (n : Names) (l : Multiset Inum) : Prop where
  zero : (n 0).type = .free
  root : (n rootino).type = .dir
  top : ⟨dotdot, rootino⟩ ∈ (n rootino).dirents
  leaf : ∀ d, (n d).type ≠ .dir → (n d).dirents = []
  dots : ∀ d, (n d).type = .dir → ∃ p ds, (n d).dirents = ⟨dot, d⟩ :: ⟨dotdot, p⟩ :: ds ∧
    p ≠ 0 ∧ ∀ e ∈ ds, e.inum ≠ 0 → Plain e.name
  /-- A directory entered in `d` has `d` as its parent. -/
  up : ∀ d, ∀ e ∈ (n d).dirents, n.child e → ⟨dotdot, d⟩ ∈ (n e.inum).dirents
  live : ∀ d, ∀ e ∈ (n d).dirents, e.inum ≠ 0 → Plain e.name → (n e.inum).type ≠ .free
  pending : ∀ i ∈ l, (n i).type ≠ .free
  count : ∀ i, (n i).type ≠ .free →
    n.named i + n.kids i + l.count i + (if i = rootino then 1 else 0) = (n i).links

variable {n n' : Names} {l l' : Multiset Inum} {d i : Inum} {e : Dirent}

theorem names_iff : e.names i = true ↔ e.inum = i ∧ Plain e.name := by simp [Dirent.names]

theorem child_iff : n.child e = true ↔ e.inum ≠ 0 ∧ Plain e.name ∧ (n e.inum).type = .dir := by
  simp [child]

theorem names_of_plain (hp : Plain e.name) : e.names i = true ↔ i = e.inum := by
  rw [names_iff]
  exact ⟨fun h => h.1.symm, fun h => ⟨h.symm, hp⟩⟩

theorem child_of_plain (h0 : e.inum ≠ 0) (hp : Plain e.name) :
    n.child e = true ↔ (n e.inum).type = .dir := by
  rw [child_iff]
  exact ⟨fun h => h.2.2, fun h => ⟨h0, hp, h⟩⟩

theorem names_of_inum_zero (hi : i ≠ 0) (d : Dirent) (hd : d.inum = 0) : d.names i = false := by
  have : ¬ d.inum = i := fun h => hi (h.symm.trans hd)
  simp [Dirent.names, this]

theorem child_of_inum_zero (n : Names) (d : Dirent) (hd : d.inum = 0) : n.child d = false := by
  simp [child, hd]

theorem named_pos (he : e ∈ (n d).dirents) (hp : Plain e.name) : 0 < n.named e.inum := by
  have hone : 0 < (n d).dirents.countP (Dirent.names e.inum) :=
    List.countP_pos_iff.mpr ⟨e, he, names_iff.mpr ⟨rfl, hp⟩⟩
  exact hone.trans_le (Finset.single_le_sum (f := fun d => (n d).dirents.countP _)
    (fun _ _ => Nat.zero_le _) (Finset.mem_univ d))

theorem kids_pos (he : e ∈ (n d).dirents) (hc : n.child e) : 0 < n.kids d :=
  List.countP_pos_iff.mpr ⟨e, he, hc⟩

/-- Changing one node changes the number of entries by what it has more. -/
theorem named_update (n : Names) (d : Inum) (x : Node) (i : Inum) :
    named (update n d x) i + (n d).dirents.countP (Dirent.names i) =
      n.named i + x.dirents.countP (Dirent.names i) :=
  sum_update_add (fun y : Node => y.dirents.countP (Dirent.names i)) n d x

/-- A change of types that no entry of a directory sees leaves its number of children. -/
theorem countP_child (h : ∀ e ∈ (n d).dirents, n'.child e = n.child e) :
    (n d).dirents.countP n'.child = n.kids d :=
  List.countP_congr fun e he => by rw [h e he]

namespace Ok

section
variable (h : n.Ok l)
include h

theorem ne_zero (hi : (n i).type ≠ .free) : i ≠ 0 := fun h0 => hi (h0 ▸ h.zero)

theorem dir_of_mem (he : e ∈ (n d).dirents) : (n d).type = .dir := by
  by_contra hd
  rw [h.leaf d hd] at he
  cases he

/-- Every directory has an entry under each of the two names that are not plain. -/
theorem exists_special (hd : (n d).type = .dir) {name : Name} (hn : ¬ Plain name) :
    ∃ e ∈ (n d).dirents, e.is name := by
  obtain ⟨p, ds, hds, hp, -⟩ := h.dots d hd
  have hd0 : d ≠ 0 := h.ne_zero (by rw [hd]; decide)
  by_cases hdot : name = dot
  · exact ⟨⟨dot, d⟩, by simp [hds], Dirent.is_iff.mpr ⟨hd0, hdot.symm⟩⟩
  · have hdd : name = dotdot := by by_contra hdd; exact hn ⟨hdot, hdd⟩
    exact ⟨⟨dotdot, p⟩, by simp [hds], Dirent.is_iff.mpr ⟨hp, hdd.symm⟩⟩

/-- A name that is not in use is plain. -/
theorem plain_of_absent (hd : (n d).type = .dir) {name : Name}
    (hname : (n d).dirents.find? (fun e => e.is name) = none) : Plain name := by
  by_contra hn
  obtain ⟨e, he, his⟩ := h.exists_special hd hn
  exact List.find?_eq_none.mp hname e he his

/-- A plain entry is not one of the first two. -/
theorem mem_drop_of_plain (he : e ∈ (n d).dirents) (hep : Plain e.name) :
    e ∈ (n d).dirents.drop 2 := by
  obtain ⟨p, ds, hds, -, -⟩ := h.dots d (h.dir_of_mem he)
  rw [hds] at he ⊢
  simp only [List.mem_cons] at he
  rcases he with rfl | rfl | he
  · exact absurd rfl hep.1
  · exact absurd rfl hep.2
  · exact he

/-- A directory has one parent. -/
theorem dotdot_unique {p q : Inum} (hp0 : p ≠ 0) (hq0 : q ≠ 0)
    (hp : ⟨dotdot, p⟩ ∈ (n d).dirents) (hq : ⟨dotdot, q⟩ ∈ (n d).dirents) : p = q := by
  obtain ⟨r, ds, hds, -, hplain⟩ := h.dots d (h.dir_of_mem hp)
  have hall : ∀ c : Inum, c ≠ 0 → ⟨dotdot, c⟩ ∈ (n d).dirents → c = r := by
    intro c hc0 hc
    rw [hds, List.mem_cons, List.mem_cons] at hc
    rcases hc with hc | hc | hc
    · exact absurd (show dotdot = dot from congrArg Dirent.name hc) (by decide)
    · exact congrArg Dirent.inum hc
    · exact absurd rfl (hplain _ hc hc0).2
  rw [hall p hp0 hp, hall q hq0 hq]

/-! ### Link counts changed on their own -/

/-- A name space keeps sound when only link counts change, along with the links that have no
entry. -/
theorem relink (ht : ∀ d, (n' d).type = (n d).type)
    (hd : ∀ d, (n' d).dirents = (n d).dirents) (hp : ∀ i ∈ l', (n i).type ≠ .free)
    (hc : ∀ i, (n i).type ≠ .free → (n i).links + l'.count i = (n' i).links + l.count i) :
    n'.Ok l' := by
  have hchild : n'.child = n.child := by
    funext e
    simp only [child, ht]
  refine ⟨by rw [ht]; exact h.zero, by rw [ht]; exact h.root, by rw [hd]; exact h.top, ?_, ?_, ?_,
    ?_, ?_, ?_⟩
  · intro d htype
    rw [hd]
    exact h.leaf d (by rwa [ht] at htype)
  · intro d htype
    rw [hd]
    exact h.dots d (by rwa [ht] at htype)
  · intro d e he hce
    rw [hd] at he ⊢
    exact h.up d e he (by rwa [hchild] at hce)
  · intro d e he hi hplain
    rw [hd] at he
    rw [ht]
    exact h.live d e he hi hplain
  · intro i hi
    rw [ht]
    exact hp i hi
  · intro i hi
    rw [ht] at hi
    have hnamed : n'.named i = n.named i := by simp only [named, hd]
    have hkids : n'.kids i = n.kids i := by rw [kids, hd, hchild, kids]
    have hcount := h.count i hi
    have hchange := hc i hi
    omega

theorem setLinks (k : ℕ) (hp : ∀ i ∈ l', (n i).type ≠ .free)
    (hi : (n i).links + l'.count i = k + l.count i) (hc : ∀ j, j ≠ i → l'.count j = l.count j) :
    Names.Ok (update n i { n i with links := k }) l' := by
  refine h.relink (update_proj Node.type rfl) (update_proj Node.dirents rfl) hp ?_
  intro j _
  by_cases hj : j = i
  · rw [hj, update_self]
    exact hi
  · rw [update_of_ne hj, hc j hj]

/-- Count a link whose entry is still to be made. -/
theorem bump (hi : (n i).type ≠ .free) :
    Names.Ok (update n i { n i with links := (n i).links + 1 }) (l + {i}) := by
  refine h.setLinks _ ?_ ?_ ?_
  · intro j hj
    rcases Multiset.mem_add.mp hj with hj | hj
    · exact h.pending j hj
    · rw [Multiset.mem_singleton.mp hj]
      exact hi
  · rw [Multiset.count_add, Multiset.count_singleton_self]
    omega
  · intro j hj
    rw [Multiset.count_add, Multiset.count_singleton, if_neg hj, add_zero]

end

/-- Take back a link that has no entry. -/
theorem unbump (h : n.Ok (l + {i})) :
    Names.Ok (update n i { n i with links := (n i).links - 1 }) l := by
  refine h.setLinks _ (fun j hj => h.pending j (Multiset.mem_add.mpr (.inl hj))) ?_ ?_
  · have hcount := h.count i (h.pending i (by simp))
    rw [Multiset.count_add, Multiset.count_singleton_self] at hcount ⊢
    omega
  · intro j hj
    rw [Multiset.count_add, Multiset.count_singleton, if_neg hj, add_zero]

/-- A link without an entry makes the link count positive. -/
theorem links_pos (h : n.Ok (l + {i})) : 0 < (n i).links := by
  have hcount := h.count i (h.pending i (by simp))
  rw [Multiset.count_add, Multiset.count_singleton_self] at hcount
  omega

/-- Rewrite a directory beyond its first two entries. Each new entry must enter an allocated
inode, a directory only in its parent; and what the new entries count more must have been
counted before. -/
theorem setDirents (h : n.Ok l) {p : Inum} {ds ds' : List Dirent}
    (hds : (n d).dirents = ⟨dot, d⟩ :: ⟨dotdot, p⟩ :: ds)
    (hnew : ∀ e ∈ ds', e.inum ≠ 0 → e ∈ ds ∨ (Plain e.name ∧ (n e.inum).type ≠ .free ∧
      ((n e.inum).type = .dir → ⟨dotdot, d⟩ ∈ (n e.inum).dirents)))
    (hp : ∀ i ∈ l', (n i).type ≠ .free)
    (hc : ∀ i, (n i).type ≠ .free →
      ds'.countP (Dirent.names i) + (if i = d then ds'.countP n.child else 0) + l'.count i =
        ds.countP (Dirent.names i) + (if i = d then ds.countP n.child else 0) + l.count i) :
    Names.Ok (update n d { n d with dirents := ⟨dot, d⟩ :: ⟨dotdot, p⟩ :: ds' }) l' := by
  have hdir : (n d).type = .dir := h.dir_of_mem (e := ⟨dot, d⟩) (by simp [hds])
  obtain ⟨hp0, hplain⟩ : p ≠ 0 ∧ ∀ e ∈ ds, e.inum ≠ 0 → Plain e.name := by
    obtain ⟨p', ds₁, hds₁, hp', hplain⟩ := h.dots d hdir
    obtain ⟨rfl, rfl⟩ : p = p' ∧ ds = ds₁ := by simpa [hds] using hds₁
    exact ⟨hp', hplain⟩
  set n' : Names :=
    update n d { n d with dirents := ⟨dot, d⟩ :: ⟨dotdot, p⟩ :: ds' } with hn'
  have hself : (n' d).dirents = ⟨dot, d⟩ :: ⟨dotdot, p⟩ :: ds' := by rw [hn', update_self]
  have hother : ∀ j, j ≠ d → n' j = n j := fun j hj => update_of_ne hj _ n
  have htype : ∀ j, (n' j).type = (n j).type := update_proj Node.type rfl
  have hchild : n'.child = n.child := by
    funext e
    simp only [child, htype]
  -- the first two entries of every directory stay
  have hkeep : ∀ j q, q ≠ 0 → (⟨dotdot, q⟩ : Dirent) ∈ (n j).dirents →
      ⟨dotdot, q⟩ ∈ (n' j).dirents := by
    intro j q hq0 hq
    by_cases hj : j = d
    · subst hj
      rw [hds] at hq
      rw [hself]
      simp only [List.mem_cons] at hq ⊢
      rcases hq with hq | hq | hq
      · exact .inl hq
      · exact .inr (.inl hq)
      · exact absurd rfl (hplain _ hq hq0).2
    · rwa [hother j hj]
  -- an entry of the new name space is an old one, or a new one of this directory
  have hmem : ∀ j, ∀ e ∈ (n' j).dirents, e.inum ≠ 0 → Plain e.name → e ∈ (n j).dirents ∨
      (j = d ∧ (n e.inum).type ≠ .free ∧
        ((n e.inum).type = .dir → ⟨dotdot, d⟩ ∈ (n e.inum).dirents)) := by
    intro j e he he0 hep
    by_cases hj : j = d
    · subst hj
      rw [hself] at he
      rw [hds]
      simp only [List.mem_cons] at he ⊢
      rcases he with rfl | rfl | he
      · exact .inl (.inl rfl)
      · exact .inl (.inr (.inl rfl))
      · rcases hnew e he he0 with hold | ⟨-, hlive, hup⟩
        · exact .inl (.inr (.inr hold))
        · exact .inr ⟨trivial, hlive, hup⟩
    · rw [hother j hj] at he
      exact .inl he
  refine ⟨by rw [htype]; exact h.zero, by rw [htype]; exact h.root,
    hkeep _ _ (h.ne_zero (by rw [h.root]; decide)) h.top, ?_, ?_, ?_, ?_, ?_, ?_⟩
  · intro j hj
    have hjd : j ≠ d := by
      rintro rfl
      exact hj (by rw [htype, hdir])
    rw [htype] at hj
    rw [hother j hjd]
    exact h.leaf j hj
  · intro j hj
    by_cases hjd : j = d
    · subst hjd
      refine ⟨p, ds', hself, hp0, fun e he he0 => ?_⟩
      rcases hnew e he he0 with hold | ⟨hnewp, -, -⟩
      · exact hplain e hold he0
      · exact hnewp
    · rw [htype] at hj
      rw [hother j hjd]
      exact h.dots j hj
  · intro j e he hce
    obtain ⟨he0, hep, hedir⟩ := child_iff.mp (by rwa [hchild] at hce)
    have hj0 : j ≠ 0 := by
      rcases hmem j e he he0 hep with hold | ⟨rfl, -⟩
      · exact h.ne_zero (by rw [h.dir_of_mem hold]; decide)
      · exact h.ne_zero (by rw [hdir]; decide)
    refine hkeep _ _ hj0 ?_
    rcases hmem j e he he0 hep with hold | ⟨rfl, -, hup⟩
    · exact h.up j e hold (child_iff.mpr ⟨he0, hep, hedir⟩)
    · exact hup hedir
  · intro j e he he0 hep
    rw [htype]
    rcases hmem j e he he0 hep with hold | ⟨-, hlive, -⟩
    · exact h.live j e hold he0 hep
    · exact hlive
  · intro i hi
    rw [htype]
    exact hp i hi
  · intro i hi
    rw [htype] at hi
    have hnamed := named_update n d { n d with dirents := ⟨dot, d⟩ :: ⟨dotdot, p⟩ :: ds' } i
    rw [← hn', hds] at hnamed
    simp only [List.countP_cons] at hnamed
    have hkids : n'.kids i + (if i = d then ds.countP n.child else 0) =
        n.kids i + (if i = d then ds'.countP n.child else 0) := by
      by_cases hid : i = d
      · subst hid
        rw [kids, kids, hself, hds, hchild]
        simp only [List.countP_cons, if_pos]
        omega
      · rw [kids, kids, hother i hid, hchild, if_neg hid, if_neg hid]
    have hlinks : (n' i).links = (n i).links := by
      refine update_proj Node.links ?_ i
      rfl
    have hcount := h.count i hi
    have hchange := hc i hi
    rw [hlinks]
    omega

/-- Enter an inode under a new name. The entry takes up a link to it, and if it is a directory
one to the directory it is entered in, for its `".."`. -/
theorem addEntry (h : n.Ok (l + {i} + if (n i).type = .dir then {d} else 0))
    (hd : (n d).type = .dir) {name : Name}
    (hname : (n d).dirents.find? (fun e => e.is name) = none)
    (hup : (n i).type = .dir → ⟨dotdot, d⟩ ∈ (n i).dirents) :
    Names.Ok (update n d { n d with dirents := place ⟨name, i⟩ (n d).dirents }) l := by
  obtain ⟨p, ds, hds, hp0, -⟩ := h.dots d hd
  have hd0 : d ≠ 0 := h.ne_zero (by rw [hd]; decide)
  have hi : (n i).type ≠ .free := h.pending i (by simp)
  have hi0 : i ≠ 0 := h.ne_zero hi
  have hplain := h.plain_of_absent hd hname
  rw [hds, show place ⟨name, i⟩ (⟨dot, d⟩ :: ⟨dotdot, p⟩ :: ds) =
    ⟨dot, d⟩ :: ⟨dotdot, p⟩ :: place ⟨name, i⟩ ds by simp [place, hd0, hp0]]
  refine h.setDirents hds ?_ ?_ ?_
  · intro e he _
    rcases mem_place he with rfl | he
    · exact .inr ⟨hplain, hi, hup⟩
    · exact .inl he
  · intro j hj
    exact h.pending j (by rw [add_assoc]; exact Multiset.mem_add.mpr (.inl hj))
  · intro j hj
    have hj0 : j ≠ 0 := h.ne_zero hj
    rw [countP_place (names_of_inum_zero hj0), countP_place (child_of_inum_zero n),
      Multiset.count_add, Multiset.count_add, Multiset.count_singleton]
    simp only [names_of_plain (e := ⟨name, i⟩) hplain, child_of_plain (e := ⟨name, i⟩) hi0 hplain]
    by_cases hdir : (n i).type = .dir
    · simp only [if_pos hdir, Multiset.count_singleton]
      split <;> split <;> omega
    · simp only [if_neg hdir, Multiset.count_zero]
      split <;> split <;> omega

/-- Erase the entry under a name; the links it took up are left without one. -/
theorem removeEntry (h : n.Ok l) {name : Name} (hplain : Plain name) {e : Dirent}
    (hname : (n d).dirents.find? (fun e => e.is name) = some e) :
    Names.Ok (update n d { n d with dirents := erase name (n d).dirents })
      (l + {e.inum} + if (n e.inum).type = .dir then {d} else 0) := by
  have hmem := List.mem_of_find?_eq_some hname
  have hd : (n d).type = .dir := h.dir_of_mem hmem
  obtain ⟨p, ds, hds, hp0, -⟩ := h.dots d hd
  have his := List.find?_some hname
  obtain ⟨he0, hen⟩ := Dirent.is_iff.mp his
  have hdot : (⟨dot, d⟩ : Dirent).is name = false := by simp [Dirent.is, Ne.symm hplain.1]
  have hdotdot : (⟨dotdot, p⟩ : Dirent).is name = false := by simp [Dirent.is, Ne.symm hplain.2]
  have hfind : ds.find? (fun e => e.is name) = some e := by
    rwa [hds, List.find?_cons_of_neg (by simp [hdot]),
      List.find?_cons_of_neg (by simp [hdotdot])] at hname
  have hlive : (n e.inum).type ≠ .free := h.live d e hmem he0 (hen ▸ hplain)
  rw [hds, show erase name (⟨dot, d⟩ :: ⟨dotdot, p⟩ :: ds) =
    ⟨dot, d⟩ :: ⟨dotdot, p⟩ :: erase name ds by simp [erase, hdot, hdotdot]]
  refine h.setDirents hds ?_ ?_ ?_
  · intro c hc hc0
    rcases mem_erase hc with rfl | hc
    · exact absurd rfl hc0
    · exact .inl hc
  · intro j hj
    rcases Multiset.mem_add.mp hj with hj | hj
    · rcases Multiset.mem_add.mp hj with hj | hj
      · exact h.pending j hj
      · rwa [Multiset.mem_singleton.mp hj]
    · split at hj
      · rw [Multiset.mem_singleton.mp hj, hd]
        decide
      · cases hj
  · intro j hj
    rw [← countP_erase (names_of_inum_zero (h.ne_zero hj)) hfind,
      ← countP_erase (child_of_inum_zero n) hfind,
      Multiset.count_add, Multiset.count_add, Multiset.count_singleton]
    simp only [names_of_plain (hen ▸ hplain), child_of_plain he0 (hen ▸ hplain)]
    by_cases hdir : (n e.inum).type = .dir
    · simp only [if_pos hdir, Multiset.count_singleton]
      split <;> split <;> omega
    · simp only [if_neg hdir, Multiset.count_zero]
      split <;> split <;> omega

/-! ### Inodes allocated and freed -/

/-- The entries of a new inode: none, or those of an empty directory. -/
def newDirents (type : FileType) (d p : Inum) : List Dirent :=
  if type = .dir then [⟨dot, d⟩, ⟨dotdot, p⟩] else []

theorem not_plain_of_mem_newDirents {type : FileType} {p : Inum}
    (he : e ∈ newDirents type d p) : ¬ Plain e.name := by
  rw [newDirents] at he
  split at he
  · simp only [List.mem_cons, List.not_mem_nil, or_false] at he
    rcases he with rfl | rfl
    · exact fun h => h.1 rfl
    · exact fun h => h.2 rfl
  · cases he

/-- The change of an inode that no plain entry names is seen by no other directory. -/
theorem child_update {x : Node} (hnone : ∀ d, ∀ e ∈ (n d).dirents, Plain e.name → e.inum ≠ i)
    (he : e ∈ (n d).dirents) : child (update n i x) e = n.child e := by
  by_cases hp : Plain e.name
  · simp only [child, update_of_ne (hnone d e he hp)]
  · simp [child, hp]

/-- Replace an inode that no plain entry names by one without plain entries. The links its old
entries took up are left without one. -/
theorem replace (h : n.Ok l) (hi0 : i ≠ 0) (hroot : i ≠ rootino)
    (hnone : ∀ d, ∀ e ∈ (n d).dirents, Plain e.name → e.inum ≠ i) {t : FileType} {k : ℕ}
    {p : Inum} (hp0 : p ≠ 0) (hp : ∀ j ∈ l', j ≠ i → (n j).type ≠ .free)
    (hpi : i ∈ l' → t ≠ .free)
    (hc : ∀ j, j ≠ i → (n j).type ≠ .free →
      l'.count j = l.count j + (n i).dirents.countP (Dirent.names j))
    (hci : t ≠ .free → l'.count i = k) :
    Names.Ok (update n i ⟨t, k, newDirents t i p⟩) l' := by
  set n' : Names := update n i ⟨t, k, newDirents t i p⟩ with hn'
  have hself : n' i = ⟨t, k, newDirents t i p⟩ := update_self i _ n
  have hother : ∀ j, j ≠ i → n' j = n j := fun j hj => update_of_ne hj _ n
  have hmem : ∀ d, ∀ e ∈ (n' d).dirents, Plain e.name → e ∈ (n d).dirents := by
    intro d e he hep
    by_cases hd : d = i
    · rw [hd, hself] at he
      exact absurd hep (not_plain_of_mem_newDirents he)
    · rwa [hother d hd] at he
  refine ⟨by rw [hother 0 (Ne.symm hi0)]; exact h.zero,
    by rw [hother _ (Ne.symm hroot)]; exact h.root,
    by rw [hother _ (Ne.symm hroot)]; exact h.top, ?_, ?_, ?_, ?_, ?_, ?_⟩
  · intro d hd
    by_cases hdi : d = i
    · rw [hdi, hself] at hd ⊢
      exact if_neg hd
    · rw [hother d hdi] at hd ⊢
      exact h.leaf d hd
  · intro d hd
    by_cases hdi : d = i
    · subst hdi
      rw [hself] at hd ⊢
      exact ⟨p, [], if_pos hd, hp0, by simp⟩
    · rw [hother d hdi] at hd ⊢
      exact h.dots d hd
  · intro d e he hce
    have hold := hmem d e he (child_iff.mp hce).2.1
    rw [hother e.inum (hnone d e hold (child_iff.mp hce).2.1)]
    exact h.up d e hold (by rwa [← child_update hnone hold])
  · intro d e he he0 hep
    have hold := hmem d e he hep
    rw [hother e.inum (hnone d e hold hep)]
    exact h.live d e hold he0 hep
  · intro j hj
    by_cases hji : j = i
    · rw [hji, hself]
      exact hpi (hji ▸ hj)
    · rw [hother j hji]
      exact hp j hj hji
  · intro j hj
    have hzero : (newDirents t i p).countP (Dirent.names j) = 0 :=
      List.countP_eq_zero.mpr fun e he hn =>
        not_plain_of_mem_newDirents he (names_iff.mp hn).2
    have hnamed := named_update n i ⟨t, k, newDirents t i p⟩ j
    rw [hzero, ← hn'] at hnamed
    by_cases hji : j = i
    · subst hji
      have hnamed0 : n.named j = 0 := by
        refine Finset.sum_eq_zero fun d _ => List.countP_eq_zero.mpr fun e he hn => ?_
        exact hnone d e he (names_iff.mp hn).2 (names_iff.mp hn).1
      have hkids0 : n'.kids j = 0 := by
        rw [kids, hself]
        exact List.countP_eq_zero.mpr fun e he hc =>
          not_plain_of_mem_newDirents he (child_iff.mp hc).2.1
      rw [hself] at hj ⊢
      rw [hkids0, if_neg hroot, hci hj]
      dsimp only
      omega
    · have hkids : n'.kids j = n.kids j := by
        rw [kids, hother j hji]
        exact countP_child fun e he => child_update hnone he
      rw [hother j hji] at hj ⊢
      have hcount := h.count j hj
      have hchange := hc j hji hj
      omega

/-- Allocate a free inode, with one link that has no entry yet. -/
theorem alloc (h : n.Ok l) (hi0 : i ≠ 0) (hi : (n i).type = .free) {type : FileType}
    (htype : type ≠ .free) {p : Inum} (hp : p ≠ 0) :
    Names.Ok (update n i ⟨type, 1, newDirents type i p⟩) (l + {i}) := by
  have hroot : i ≠ rootino := by
    rintro rfl
    rw [h.root] at hi
    cases hi
  have hfresh : l.count i = 0 := Multiset.count_eq_zero.mpr fun hj => h.pending i hj hi
  refine h.replace hi0 hroot ?_ hp ?_ (fun _ => htype) ?_ ?_
  · intro d e he hep hei
    exact h.live d e he (by rwa [hei]) hep (by rw [hei, hi])
  · intro j hj hji
    exact h.pending j (by simpa [hji] using hj)
  · intro j hji _
    rw [h.leaf i (by rw [hi]; decide), Multiset.count_add, Multiset.count_singleton, if_neg hji]
    rfl
  · intro _
    rw [Multiset.count_add, hfresh, Multiset.count_singleton_self]

/-- The links a directory's entries take up. -/
def lost (ds : List Dirent) : Multiset Inum :=
  ((ds.filter fun e => e.inum ≠ 0 ∧ Plain e.name).map Dirent.inum : List Inum)

theorem mem_lost {ds : List Dirent} :
    i ∈ lost ds ↔ ∃ e ∈ ds, e.inum ≠ 0 ∧ Plain e.name ∧ e.inum = i := by
  simp [lost, and_assoc]

theorem count_lost {ds : List Dirent} (hi : i ≠ 0) :
    (lost ds).count i = ds.countP (Dirent.names i) := by
  rw [lost, Multiset.coe_count, List.count, List.countP_map, List.countP_filter]
  refine List.countP_congr fun e _ => ?_
  simp only [Function.comp_apply, Dirent.names, Bool.and_eq_true, beq_iff_eq, decide_eq_true_eq]
  constructor
  · rintro ⟨rfl, -, hp⟩
    exact ⟨rfl, hp⟩
  · rintro ⟨rfl, hp⟩
    exact ⟨rfl, hi, hp⟩

/-- Free an inode without links. -/
theorem free (h : n.Ok l) (hi : (n i).type ≠ .free) (hlinks : (n i).links = 0) :
    Names.Ok (update n i ⟨.free, 0, []⟩) (l + lost (n i).dirents) := by
  have hcount := h.count i hi
  rw [hlinks] at hcount
  have hroot : i ≠ rootino := by
    intro hroot
    rw [if_pos hroot] at hcount
    omega
  have hnone : ∀ d, ∀ e ∈ (n d).dirents, Plain e.name → e.inum ≠ i := by
    rintro d e he hep rfl
    have := named_pos he hep
    omega
  have hpending : i ∉ l + lost (n i).dirents := by
    rw [Multiset.mem_add, not_or]
    refine ⟨Multiset.count_eq_zero.mp (by omega), fun hmem => ?_⟩
    obtain ⟨e, he, -, hep, hei⟩ := mem_lost.mp hmem
    exact hnone i e he hep hei
  refine h.replace (t := .free) (p := rootino) (h.ne_zero hi) hroot hnone (by decide) ?_
    (fun hmem => absurd hmem hpending) ?_ (fun hne => absurd rfl hne)
  · intro j hj _
    rcases Multiset.mem_add.mp hj with hj | hj
    · exact h.pending j hj
    · obtain ⟨e, he, he0, hep, rfl⟩ := mem_lost.mp hj
      exact h.live i e he he0 hep
  · intro j _ hj
    rw [Multiset.count_add, count_lost (h.ne_zero hj)]

end Ok

end Names

end Xv6.Fs
