import Xv6.Fs.Dangling
import Mathlib.Data.Nat.ModEq

/-!
# Exact link counts

When no call is in progress, an inode's link count should be the number of entries that refer to
it, not counting `"."` nor the `".."` of a directory that is not linked itself. It is, in every
run in which no entry is written into a directory that has been removed; `create` and `sys_link`
do not check for that, and the links such entries count are lost when the directory is freed.
-/

namespace Xv6.Fs

open Lib View
open Function (update update_of_ne update_self)

namespace Names

variable {n : Names} {d i j : Inum} {name : Name} {e : Dirent}

/-! ## Entries that name an inode, after each change -/

theorem named_eq_zero : n.named i = 0 ↔ ∀ d, ∀ e ∈ (n d).dirents, e.names i = false := by
  simp only [named, Finset.sum_eq_zero_iff, Finset.mem_univ, true_implies, List.countP_eq_zero,
    Bool.not_eq_true]

theorem removed_iff : n.Removed i ↔ i ≠ rootino ∧ n.named i = 0 := by
  rw [Removed, named_eq_zero]

/-- The number of entries depends on the entries only. -/
theorem named_congr {n' : Names} (h : ∀ d, (n' d).dirents = (n d).dirents) (i : Inum) :
    n'.named i = n.named i := by
  simp only [named, h]

theorem named_enter (hj : j ≠ 0) : (n.enter d name i).named j =
    n.named j + if (⟨name, i⟩ : Dirent).names j then 1 else 0 := by
  have hsum : (n.enter d name i).named j + (n d).dirents.countP (Dirent.names j) =
      n.named j + (place ⟨name, i⟩ (n d).dirents).countP (Dirent.names j) := named_update n d _ j
  rw [countP_place (names_of_inum_zero hj)] at hsum
  omega

theorem named_strike (hj : j ≠ 0) (hname : (n d).dirents.find? (fun e => e.is name) = some e) :
    (n.strike d name).named j + (if e.names j then 1 else 0) = n.named j := by
  have hsum : (n.strike d name).named j + (n d).dirents.countP (Dirent.names j) =
      n.named j + (erase name (n d).dirents).countP (Dirent.names j) := named_update n d _ j
  have herase := countP_erase (names_of_inum_zero hj) hname
  omega

theorem named_unlink (hj : j ≠ 0) (hname : (n d).dirents.find? (fun e => e.is name) = some e) :
    (n.unlink d name e.inum).named j + (if e.names j then 1 else 0) = n.named j := by
  rw [← named_strike hj hname, unlink, named_congr (fun f => drop_dirents)]
  split
  · rw [named_congr fun f => drop_dirents]
  · rfl

theorem named_create {type : FileType} (hj : j ≠ 0) (hnil : (n i).dirents = []) :
    (n.create d name i type).named j =
      n.named j + if (⟨name, i⟩ : Dirent).names j then 1 else 0 := by
  have hnew : named (update n i ⟨type, 1, Ok.newDirents type i d⟩) j = n.named j := by
    have hsum := named_update n i ⟨type, 1, Ok.newDirents type i d⟩ j
    have hzero : (Ok.newDirents type i d).countP (Dirent.names j) = 0 :=
      List.countP_eq_zero.mpr fun e he hn =>
        Ok.not_plain_of_mem_newDirents he (names_iff.mp hn).2
    rw [hnil, hzero] at hsum
    simpa using hsum
  rw [create, named_enter hj]
  split
  · rw [named_congr (fun f => bump_dirents), hnew]
  · rw [hnew]

/-- The directories that are entered in none are empty; no directory is entered twice, and the
root not at all. -/
structure Tidy (n : Names) : Prop where
  empty : ∀ d, (n d).type = .dir → n.Removed d → ∀ e ∈ (n d).dirents, Plain e.name → e.inum = 0
  once : ∀ d, (n d).type = .dir → n.named d ≤ 1
  top : n.named rootino = 0

/-- A change after which the same directories are entered where they were. -/
theorem Tidy.congr (h : n.Tidy) {n' : Names} (htype : ∀ d, (n' d).type = .dir → (n d).type = .dir)
    (hnamed : ∀ d, (n' d).type = .dir → n'.named d = n.named d) (hroot : (n' rootino).type = .dir)
    (hmem : ∀ d, n.Removed d → ∀ e ∈ (n' d).dirents, Plain e.name → e.inum ≠ 0 →
      e ∈ (n d).dirents) : n'.Tidy := by
  refine ⟨fun d hd hremoved e he hep => ?_, fun d hd => ?_, ?_⟩
  · rw [removed_iff, hnamed d hd, ← removed_iff] at hremoved
    by_contra he0
    exact he0 (h.empty d (htype d hd) hremoved e (hmem d hremoved e he hep he0) hep)
  · rw [hnamed d hd]
    exact h.once d (htype d hd)
  · rw [hnamed rootino hroot]
    exact h.top

end Names

namespace View

open Names

variable {A : View → Inum → Prop} {v w : View}

/-- The directory is still entered, or is the root. -/
def Entered (v : View) (d : Inum) : Prop := ¬ v.names.Removed d

/-- An inode without links has no entry that counts. -/
theorem Ok.no_entry_of_links (hok : v.Ok 0) (htidy : v.names.Tidy) {i : Inum}
    (hi : (v.names i).type ≠ .free) (hlinks : (v.names i).links = 0) {e : Dirent}
    (he : e ∈ (v.names i).dirents) (hep : Plain e.name) : e.inum = 0 := by
  have hcount := hok.names.count i hi
  rw [hlinks] at hcount
  have hdir := hok.names.dir_of_mem he
  refine htidy.empty i hdir (removed_iff.mpr ⟨?_, by omega⟩) e he hep
  rintro rfl
  rw [if_pos rfl] at hcount
  omega

/-- **Every move keeps the name space tidy and loses no link**, if entries are written only into
directories that are still entered. -/
theorem Ok.move_tidy (hok : v.Ok 0) (htidy : v.names.Tidy) (hm : Move A Entered v w) :
    w.Ok 0 ∧ w.names.Tidy := by
  have hok' : w.Ok 0 := by
    obtain ⟨more, hw, rfl | ⟨i, hi, hlinks, rfl⟩⟩ := hok.move hm
    · rwa [add_zero] at hw
    · have hnone : Names.Ok.lost (v.names i).dirents = 0 := by
        refine Multiset.eq_zero_of_forall_notMem fun j hj => ?_
        obtain ⟨e, he, he0, hep, -⟩ := Names.Ok.mem_lost.mp hj
        exact he0 (hok.no_entry_of_links htidy hi hlinks he hep)
      rwa [hnone, add_zero] at hw
  refine ⟨hok', ?_⟩
  cases hm with
  | read valid _ => exact htidy
  | get valid _ _ => exact htidy
  | put _ _ _ => exact htidy
  | @free i held hv _ _ hvalid hlinks =>
    have hi := hok.read i hvalid
    have hother : ∀ d, (update v.names i ⟨.free, 0, []⟩ d).type = .dir → d ≠ i := by
      rintro d hd rfl
      rw [update_self] at hd
      cases hd
    refine htidy.congr (fun d hd => ?_) (fun d hd => ?_) hok'.names.root ?_
    · have hdi := hother d hd
      dsimp only at hd
      rwa [update_of_ne hdi] at hd
    · have hd0 : d ≠ 0 := hok'.names.ne_zero (by rw [hd]; decide)
      have hsum := named_update v.names i ⟨.free, 0, []⟩ d
      have hzero : (v.names i).dirents.countP (Dirent.names d) = 0 := by
        refine List.countP_eq_zero.mpr fun e he hn => hd0 ?_
        obtain ⟨rfl, hep⟩ := names_iff.mp hn
        exact hok.no_entry_of_links htidy hi hlinks he hep
      rw [hzero] at hsum
      simpa using hsum
    · intro d _ e he _ _
      by_cases hdi : d = i
      · dsimp only at he
        rw [hdi, update_self] at he
        cases he
      · dsimp only at he
        rwa [update_of_ne hdi] at he
  | @bump i _ _ _ =>
    refine htidy.congr (fun d hd => ?_) (fun d _ => named_congr (fun f => bump_dirents) d)
      hok'.names.root fun d _ e he _ _ => ?_
    · rwa [bump_type] at hd
    · rwa [bump_dirents] at he
  | @drop i l hl =>
    refine htidy.congr (fun d hd => ?_) (fun d _ => named_congr (fun f => drop_dirents) d)
      hok'.names.root fun d _ e he _ _ => ?_
    · rwa [drop_type] at hd
    · rwa [drop_dirents] at he
  | @enter d i name l hl hd hname hw =>
    refine htidy.congr (fun f hf => ?_) (fun f hf => ?_) hok'.names.root fun f hf e he _ _ => ?_
    · rwa [enter_type] at hf
    · have hf0 : f ≠ 0 := hok'.names.ne_zero (by rw [hf]; decide)
      rw [enter_type] at hf
      have hfi : f ≠ i := by
        rintro rfl
        exact hok.files f (by simp [hl]) hf
      have hnames : (⟨name, i⟩ : Dirent).names f = false := by
        simp [Dirent.names, Ne.symm hfi]
      rw [named_enter hf0, hnames, if_neg (by decide), add_zero]
    · rcases mem_enter he with ⟨rfl, -⟩ | he
      · exact absurd hf hw
      · exact he
  | @create d i name type valid hd hname hw hi0 hi htype _ _ =>
    have hnil := hok.names.leaf i (by rw [hi]; decide)
    have hplain := hok.names.plain_of_absent hd hname
    have hnamed : ∀ j, j ≠ 0 → (v.names.create d name i type).named j =
        v.names.named j + if j = i then 1 else 0 := by
      intro j hj
      simp only [named_create hj hnil, names_of_plain (e := ⟨name, i⟩) hplain]
    have hfresh : v.names.named i = 0 := by
      refine named_eq_zero.mpr fun f e he => ?_
      by_contra hn
      obtain ⟨rfl, hep⟩ := names_iff.mp (by simpa using hn)
      exact hok.names.live f e he hi0 hep hi
    have hi' : i ≠ rootino := by
      rintro rfl
      rw [hok.names.root] at hi
      cases hi
    refine ⟨fun f hf hremoved e he hep => ?_, fun f hf => ?_, ?_⟩
    · have hf0 : f ≠ 0 := hok'.names.ne_zero (by rw [hf]; decide)
      rw [removed_iff, hnamed f hf0] at hremoved
      have hfi : f ≠ i := by
        intro hfi
        rw [if_pos hfi] at hremoved
        omega
      rw [if_neg hfi, add_zero, ← removed_iff] at hremoved
      rw [create_type hfi] at hf
      rcases mem_create he with ⟨rfl, -⟩ | ⟨rfl, -⟩ | he
      · exact absurd hremoved hw
      · exact absurd rfl hfi
      · exact htidy.empty f hf hremoved e he hep
    · have hf0 : f ≠ 0 := hok'.names.ne_zero (by rw [hf]; decide)
      rw [hnamed f hf0]
      by_cases hfi : f = i
      · rw [if_pos hfi, hfi, hfresh]
      · rw [if_neg hfi, add_zero]
        rw [create_type hfi] at hf
        exact htidy.once f hf
    · rw [hnamed rootino (by decide), if_neg (Ne.symm hi'), htidy.top]
  | @unlink d name e hplain hname hempty =>
    have hnamed : ∀ j, j ≠ 0 → (v.names.unlink d name e.inum).named j +
        (if e.names j then 1 else 0) = v.names.named j := fun j hj => named_unlink hj hname
    refine ⟨fun f hf hremoved c hc hcp => ?_, fun f hf => ?_, ?_⟩
    · have hf0 : f ≠ 0 := hok'.names.ne_zero (by rw [hf]; decide)
      rw [unlink_type] at hf
      rcases mem_unlink hc with rfl | hc
      · rfl
      · by_cases hfe : f = e.inum
        · subst hfe
          exact hempty hf c (hok.names.mem_drop_of_plain hc hcp)
        · have hnames : e.names f = false := by simp [Dirent.names, Ne.symm hfe]
          rw [removed_iff] at hremoved
          have hsame := hnamed f hf0
          rw [hnames, if_neg (by decide), add_zero] at hsame
          exact htidy.empty f hf (removed_iff.mpr ⟨hremoved.1, hsame ▸ hremoved.2⟩) c hc hcp
    · have hf0 : f ≠ 0 := hok'.names.ne_zero (by rw [hf]; decide)
      rw [unlink_type] at hf
      have hle := htidy.once f hf
      have hsum := hnamed f hf0
      dsimp only
      omega
    · have hsum := hnamed rootino (by decide)
      have htop := htidy.top
      dsimp only
      omega

theorem Ok.moves_tidy (hm : Relation.ReflTransGen (Move A Entered) v w)
    (hv : v.Ok 0 ∧ v.names.Tidy) : w.Ok 0 ∧ w.names.Tidy := by
  induction hm with
  | refl => exact hv
  | tail _ hmove ih => exact ih.1.move_tidy ih.2 hmove

end View

/-! ## Counting -/

namespace Names

variable {n : Names} {d i : Inum}

/-- The entry counts for `i`, in a directory with this link count. -/
def refers (links : ℕ) (i : Inum) (e : Dirent) : Bool :=
  decide (e.inum = i ∧ e.name ≠ dot ∧ (e.name = dotdot → links ≠ 0))

/-- Number of entries that refer to an inode, without `"."` and without the `".."` of a directory
that has no links. -/
def entries (n : Names) (i : Inum) : ℕ :=
  ∑ d, if (n d).type = .dir then (n d).dirents.countP (refers (n d).links i) else 0

/-- The `".."` of the directory `d` refers to `i` and counts. -/
def parentOf (n : Names) (i d : Inum) : ℕ :=
  if (n d).type = .dir ∧ ⟨dotdot, i⟩ ∈ (n d).dirents ∧ (n d).links ≠ 0 then 1 else 0

/-- What counts in one directory: the entries that name the inode, and its `".."`. -/
theorem countP_refers (h : n.Ok 0) (hi : i ≠ 0) :
    (if (n d).type = .dir then (n d).dirents.countP (refers (n d).links i) else 0) =
      (n d).dirents.countP (Dirent.names i) + n.parentOf i d := by
  by_cases hd : (n d).type = .dir
  · obtain ⟨p, ds, hds, hp0, hplain⟩ := h.dots d hd
    have hrest : ds.countP (refers (n d).links i) = ds.countP (Dirent.names i) := by
      refine List.countP_congr fun e he => ?_
      simp only [refers, Dirent.names, decide_eq_true_eq]
      constructor
      · rintro ⟨rfl, -, -⟩
        exact ⟨rfl, hplain e he hi⟩
      · rintro ⟨rfl, hep⟩
        exact ⟨rfl, hep.1, fun hdd => absurd hdd hep.2⟩
    have hmem : ⟨dotdot, i⟩ ∈ (n d).dirents ↔ p = i := by
      constructor
      · intro hmem
        exact h.dotdot_unique hp0 hi (by simp [hds]) hmem
      · rintro rfl
        simp [hds]
    have hdot : refers (n d).links i ⟨dot, d⟩ = false := by simp [refers]
    have hdot' : (⟨dot, d⟩ : Dirent).names i = false := by simp [Dirent.names, Plain]
    have hdd : refers (n d).links i ⟨dotdot, p⟩ = decide (p = i ∧ (n d).links ≠ 0) := by
      simp [refers, show dotdot ≠ dot by decide]
    have hdd' : (⟨dotdot, p⟩ : Dirent).names i = false := by simp [Dirent.names, Plain]
    rw [if_pos hd, parentOf]
    simp only [hd, hmem, true_and]
    rw [hds]
    simp only [List.countP_cons, hrest, hdot, hdot', hdd, hdd', decide_eq_true_eq]
    simp
  · rw [if_neg hd, h.leaf d hd, parentOf, if_neg fun hc => hd hc.1, List.countP_nil]

theorem entries_eq (h : n.Ok 0) (hi : i ≠ 0) : n.entries i = n.named i + ∑ d, n.parentOf i d := by
  rw [entries, named, ← Finset.sum_add_distrib]
  exact Finset.sum_congr rfl fun d _ => countP_refers h hi

/-- The directories entered in a directory, counted by their inode numbers. -/
theorem kids_eq_sum (h : n.Ok 0) :
    n.kids i = ∑ d, if (n d).type = .dir then (n i).dirents.countP (Dirent.names d) else 0 := by
  rw [kids]
  -- the induction is on the entries, whatever directory they are of
  induction (n i).dirents with
  | nil => simp
  | cons e ds ih =>
    have hone : (if n.child e = true then 1 else 0) =
        ∑ d, if (n d).type = .dir then (if e.names d then 1 else 0) else 0 := by
      rw [Finset.sum_eq_single e.inum]
      · by_cases hdir : (n e.inum).type = .dir
        · have he0 : e.inum ≠ 0 := h.ne_zero (by rw [hdir]; decide)
          simp [child, Dirent.names, hdir, he0]
        · simp [child, hdir]
      · intro d _ hd
        simp [Dirent.names, Ne.symm hd]
      · intro hmem
        exact absurd (Finset.mem_univ _) hmem
    rw [List.countP_cons, ih, hone, ← Finset.sum_add_distrib]
    refine Finset.sum_congr rfl fun d _ => ?_
    rw [List.countP_cons]
    split <;> rfl

/-- A directory that has been removed from a tidy name space has no links. -/
theorem links_of_removed (h : n.Ok 0) (htidy : n.Tidy) (hd : (n d).type = .dir)
    (hremoved : n.Removed d) : (n d).links = 0 := by
  have hcount := h.count d (by rw [hd]; decide)
  have hkids : n.kids d = 0 := by
    refine List.countP_eq_zero.mpr fun e he hc => ?_
    obtain ⟨he0, hep, -⟩ := child_iff.mp hc
    exact he0 (htidy.empty d hd hremoved e he hep)
  rw [(removed_iff.mp hremoved).2, hkids, if_neg (removed_iff.mp hremoved).1,
    Multiset.count_zero] at hcount
  omega

/-- The parent a directory counts for is the one it is entered in; the root counts for itself. -/
theorem parentOf_eq (h : n.Ok 0) (htidy : n.Tidy) (hi : i ≠ 0) : n.parentOf i d =
    (if (n d).type = .dir then (n i).dirents.countP (Dirent.names d) else 0) +
      if d = rootino then (if i = rootino then 1 else 0) else 0 := by
  rw [parentOf]
  by_cases hd : (n d).type = .dir
  swap
  · have hdroot : d ≠ rootino := by
      rintro rfl
      exact hd h.root
    rw [if_neg fun hc => hd hc.1, if_neg hd, if_neg hdroot]
  rw [if_pos hd]
  have hcount := h.count d (by rw [hd]; decide)
  by_cases hdroot : d = rootino
  · subst hdroot
    have hnone : (n i).dirents.countP (Dirent.names rootino) = 0 :=
      List.countP_eq_zero.mpr fun e he => by rw [named_eq_zero.mp htidy.top i e he]; decide
    have hmem : ⟨dotdot, i⟩ ∈ (n rootino).dirents ↔ i = rootino := by
      constructor
      · intro hmem
        exact h.dotdot_unique hi (by decide) hmem h.top
      · rintro rfl
        exact h.top
    have hlinks : (n rootino).links ≠ 0 := by
      rw [if_pos rfl] at hcount
      omega
    rw [hnone, if_pos rfl, zero_add]
    simp only [hd, hmem, hlinks, true_and, ne_eq, not_false_eq_true, and_true]
  rw [if_neg hdroot, add_zero]
  by_cases hnamed : n.named d = 0
  · have hremoved := removed_iff.mpr ⟨hdroot, hnamed⟩
    have hnone : (n i).dirents.countP (Dirent.names d) = 0 :=
      List.countP_eq_zero.mpr fun e he => by rw [hremoved.2 i e he]; decide
    rw [hnone, if_neg fun hc => hc.2.2 (links_of_removed h htidy hd hremoved)]
  · have hlinks : (n d).links ≠ 0 := by omega
    have hd0 : d ≠ 0 := h.ne_zero (by rw [hd]; decide)
    -- whoever names `d` is its parent
    have hup : ∀ f, 0 < (n f).dirents.countP (Dirent.names d) → ⟨dotdot, f⟩ ∈ (n d).dirents := by
      intro f hf
      obtain ⟨e, he, hn⟩ := List.countP_pos_iff.mp hf
      obtain ⟨rfl, hep⟩ := names_iff.mp hn
      exact h.up f e he (child_iff.mpr ⟨hd0, hep, hd⟩)
    by_cases hpos : 0 < (n i).dirents.countP (Dirent.names d)
    · have hle : (n i).dirents.countP (Dirent.names d) ≤ n.named d :=
        Finset.single_le_sum (f := fun f => (n f).dirents.countP (Dirent.names d))
          (fun _ _ => Nat.zero_le _) (Finset.mem_univ i)
      have honce := htidy.once d hd
      rw [if_pos ⟨hd, hup i hpos, hlinks⟩]
      omega
    · rw [Nat.eq_zero_of_not_pos hpos, if_neg]
      rintro ⟨-, hmem, -⟩
      obtain ⟨f, -, hf⟩ : ∃ f ∈ Finset.univ, (n f).dirents.countP (Dirent.names d) ≠ 0 :=
        Finset.exists_ne_zero_of_sum_ne_zero hnamed
      have hf0 : f ≠ 0 := by
        rintro rfl
        rw [h.leaf 0 (by rw [h.zero]; decide)] at hf
        exact hf rfl
      have hif := h.dotdot_unique hf0 hi (hup f (Nat.pos_of_ne_zero hf)) hmem
      exact hpos (hif ▸ Nat.pos_of_ne_zero hf)

/-- **A tidy name space counts its links exactly.** -/
theorem links_eq_entries (h : n.Ok 0) (htidy : n.Tidy) (hi : (n i).type ≠ .free) :
    (n i).links = n.entries i := by
  have hi0 := h.ne_zero hi
  have hcount := h.count i hi
  rw [entries_eq h hi0, Finset.sum_congr rfl fun d _ => parentOf_eq h htidy hi0,
    Finset.sum_add_distrib, ← kids_eq_sum h, Finset.sum_ite_eq' Finset.univ rootino,
    if_pos (Finset.mem_univ _)]
  rw [Multiset.count_zero] at hcount
  omega

end Names

/-! ## Runs -/

namespace FsSys

variable {P : Type}

/-- No file-system operation is in progress. -/
def Quiet (s : FsSys P) : Prop := ∀ p, (s.task p).stage = .idle ∧ (s.task p).puts = []

/-- Number of entries that refer to an inode, in allocated directories, counting neither `"."` nor
the `".."` of a directory whose own link count is zero. -/
def entries (s : FsSys P) (i : Inum) : ℕ :=
  ∑ d, if (s.inodes d).type = .dir then
    (s.inodes d).dirents.countP fun e =>
      decide (e.inum = i ∧ e.name ≠ dot ∧ (e.name = dotdot → (s.inodes d).nlink ≠ 0))
  else 0

/-- The link count of every allocated inode is the number of entries that refer to it, modulo
`2 ^ 16`; if it is positive there is such an entry. -/
def ExactLinks (s : FsSys P) : Prop :=
  ∀ i, (s.inodes i).type ≠ .free →
    (s.inodes i).nlink.toUInt16.toNat ≡ s.entries i [MOD 2 ^ 16] ∧
      (0 < (s.inodes i).nlink → 0 < s.entries i)

theorem entries_eq_names (s : FsSys P) (i : Inum) : s.entries i = s.inodes.names.entries i := by
  rw [entries, Names.entries]
  refine Finset.sum_congr rfl fun d _ => ?_
  have hcount : (s.inodes d).dirents.countP (fun e =>
      decide (e.inum = i ∧ e.name ≠ dot ∧ (e.name = dotdot → (s.inodes d).nlink ≠ 0))) =
      (s.inodes d).dirents.countP (Names.refers (s.inodes.names d).links i) := by
    refine List.countP_congr fun e _ => ?_
    simp only [Names.refers, decide_eq_true_eq, ne_eq, nlink_eq_zero]
    rfl
  rw [hcount]
  rfl

variable [DecidableEq P]

/-- The step writes no entry into a directory that has been removed. -/
def WritesEntered (s : FsSys P) : FsAct P → Prop
  | .call _ _ => True
  | .run p => ∀ d ∈ (s.task p).writes s.inodes, ¬ s.inodes.names.Removed d

instance (s : FsSys P) (a : FsAct P) : Decidable (s.WritesEntered a) :=
  match a with
  | .call _ _ => instDecidableTrue
  | .run p => inferInstanceAs (Decidable (∀ d ∈ (s.task p).writes s.inodes, _))

variable [Fintype P] {s u : FsSys P} {a : FsAct P}

theorem tidy_step (h : s.view.Ok 0 ∧ s.view.names.Tidy) (hs : s.step a = some u)
    (hfits : s.LinkFits a) (hwrites : s.WritesEntered a) : u.view.Ok 0 ∧ u.view.names.Tidy := by
  refine View.Ok.moves_tidy (moves_step (A := fun _ _ => True) hs hfits
    (fun _ _ _ _ _ => trivial) ?_) h
  rintro p d rfl hd v hv
  rw [View.Entered, hv]
  exact hwrites d hd

omit [DecidableEq P] in
theorem tidy_boot (m : Image) : (m.boot P).view.Ok 0 ∧ (m.boot P).view.names.Tidy := by
  have hok : (m.boot P).view.Ok 0 := Image.boot_ok
  have hroot : ∀ d, ((m.boot P).view.names d).type = .dir → d = rootino := by
    intro d hd
    by_contra hne
    rcases (Image.inodes_of_ne (m := m) (n := Fintype.card P) hne).2.2 with hfree | ⟨hfile, -⟩
    · exact absurd (hd.symm.trans hfree) (by decide)
    · exact absurd (hd.symm.trans hfile) (by decide)
  have htop : (m.boot P).view.names.named rootino = 0 := by
    have himage := Image.named_image (m := m) (n := Fintype.card P) (i := rootino) (by decide)
    rwa [if_neg fun h => absurd h.1 (by decide)] at himage
  refine ⟨hok, fun d hd hremoved => absurd (hroot d hd) hremoved.1, fun d hd => ?_, htop⟩
  rw [hroot d hd, htop]
  exact Nat.zero_le 1

omit [DecidableEq P] in
/-- Between operations, a tidy system without lost links counts them exactly. -/
theorem exactLinks_of_tidy (h : s.view.Ok 0 ∧ s.view.names.Tidy) (hq : s.Quiet) : s.ExactLinks := by
  have hlinks : s.view.links = 0 := by
    refine Finset.sum_eq_zero fun p _ => ?_
    rw [Task.links, (hq p).1]
    rfl
  have hnames := h.1.names
  rw [hlinks, add_zero] at hnames
  intro i hi
  have hexact : (s.inodes i).nlink.toUInt16.toNat = s.entries i := by
    rw [entries_eq_names]
    exact Names.links_eq_entries hnames h.2 hi
  refine ⟨by rw [hexact], fun hpos => ?_⟩
  rw [← hexact]
  refine Nat.pos_of_ne_zero fun hzero => ?_
  rw [(nlink_eq_zero _).mpr hzero] at hpos
  exact absurd hpos (by decide)

/-- **When link counts are exact.** In a run from a `mkfs` image in which no link count wraps and no
entry is written into a directory that has been removed, at every point where no operation is in
progress the link count of every allocated inode is the number of entries that refer to it. -/
theorem exactLinks_of_writesEntered (m : Image) {as : List (FsAct P)}
    (hok : ∀ t a, Takes step (m.boot P) as t a → t.LinkFits a ∧ t.WritesEntered a) {t : FsSys P}
    (ht : Visits step (m.boot P) as t) (hq : t.Quiet) : t.ExactLinks := by
  refine exactLinks_of_tidy (Visits.induction (P := fun s => s.view.Ok 0 ∧ s.view.names.Tidy)
    (tidy_boot m) ?_ ht) hq
  intro v a u hv hu hJ
  exact tidy_step hJ hu (hok v a hv).1 (hok v a hv).2

section OneProcess

instance (s : FsSys Unit) : Decidable s.Quiet := inferInstanceAs (Decidable (∀ _, _))

/-- Make `/a` and a file `/a/b` in it, link it as `/c`, and remove `/a/b` and `/a`. -/
def linkRun : List (FsAct Unit) :=
  whole (.mkdir pathA) 4 ++ whole (.open pathB true false true) 5 ++ whole (.close 0) 1 ++
    whole (.link pathB ⟨true, [[99]]⟩) 10 ++ whole (.unlink pathB) 6 ++ whole (.unlink pathA) 4

theorem exactLinks_linkRun : ∃ e, exec step (emptyImage.boot Unit) linkRun = some e ∧ e.Quiet ∧
    (e.inodes 3).nlink = 1 ∧ e.ExactLinks := by
  have hrun : (exec (guarded (fun t a => t.LinkFits a ∧ t.WritesEntered a) step)
      (emptyImage.boot Unit) linkRun).any (fun e => e.Quiet ∧ (e.inodes 3).nlink = 1) = true := by
    decide +kernel
  obtain ⟨e, he, hend⟩ := (Option.any_eq_true _ _).mp hrun
  obtain ⟨hexec, hok⟩ := exec_guarded he
  simp only [decide_eq_true_eq] at hend
  exact ⟨e, hexec, hend.1, hend.2,
    exactLinks_of_writesEntered emptyImage hok (Visits.last hexec) hend.1⟩

/-- Make `/a`, enter it and remove it; create a file there, and leave the directory. -/
def lostRun : List (FsAct Unit) :=
  whole (.mkdir pathA) 4 ++ whole (.chdir pathA) 5 ++ whole (.unlink pathA) 4 ++
    whole (.open ⟨false, [[120]]⟩ true false true) 3 ++ whole (.close 0) 1 ++
    whole (.chdir ⟨true, []⟩) 3

/-- **A link without an entry.** At the end of `lostRun` no operation is in progress, and the file
is allocated with one link though no entry refers to it. -/
theorem lostRun_loses : (exec step (emptyImage.boot Unit) lostRun).any (fun e =>
    e.Quiet ∧ (e.inodes 3).type = .file ∧ (e.inodes 3).nlink = 1 ∧ e.entries 3 = 0) = true := by
  decide +kernel

end OneProcess

end FsSys

end Xv6.Fs
