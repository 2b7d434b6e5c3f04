import Mathlib.Data.List.DropRight
import Xv6.Content.Amend
import Xv6.Lib.Slots

/-!
# Paths

`namei` and `nameiparent` follow a path: the maximal runs of characters other than slashes are
looked up one after another, each cut to the length of a name, from the root or from the current
directory. The references and locks taken on the way are given back.
-/

namespace Xv6.Content

open Lib Mkfs
open Function (update update_eq_self update_of_ne update_self)

/-! ## Components -/

/-- The maximal runs of characters other than slashes. -/
def components (path : List UInt8) : List (List UInt8) := (path.splitOn 47).filter (· ≠ [])

theorem components_slash (path : List UInt8) : components (47 :: path) = components path := by
  simp [components, List.splitOn, List.splitOnP_cons_eq_if_modifyHead]

theorem components_dropWhile (path : List UInt8) :
    components (path.dropWhile (· = 47)) = components path := by
  induction path with
  | nil => rfl
  | cons c path ih =>
    by_cases h : c = 47
    · rw [List.dropWhile_cons_of_pos (by simpa using h), ih, h, components_slash]
    · rw [List.dropWhile_cons_of_neg (by simpa using h)]

theorem head_of_dropWhile {q : UInt8 → Bool} {l cs : List UInt8} {c : UInt8}
    (h : l.dropWhile q = c :: cs) : q c = false := by
  simpa [h] using List.head?_dropWhile_not q l

variable {path : List UInt8}

/-- A path that does not begin with a slash. -/
theorem components_of_head {c : UInt8} (h : c ≠ 47) :
    components (c :: path) = (c :: path).takeWhile (· ≠ 47) ::
      components ((c :: path).dropWhile (· ≠ 47)) := by
  have hrun : ∀ x ∈ (c :: path).takeWhile (· ≠ 47), (x == 47) = false := by
    intro x hx
    simpa using List.mem_takeWhile_imp hx
  have hne : (c :: path).takeWhile (· ≠ 47) ≠ [] := by
    rw [List.takeWhile_cons_of_pos (by simpa using h)]
    exact List.cons_ne_nil _ _
  have hsplit := List.takeWhile_append_dropWhile (p := (· ≠ 47)) (l := c :: path)
  cases hrest : (c :: path).dropWhile (· ≠ 47) with
  | nil =>
    rw [hrest, List.append_nil] at hsplit
    rw [hsplit] at hrun ⊢
    rw [components, List.splitOn, List.splitOnP_eq_singleton hrun]
    rfl
  | cons d rest =>
    have hd : d = 47 := by simpa using head_of_dropWhile hrest
    rw [hrest, hd] at hsplit
    rw [hd, components_slash]
    conv_lhs => rw [← hsplit]
    rw [components, List.splitOn, List.splitOnP_append_cons_of_forall_mem hrun 47 (by simp) rest,
      List.filter_cons_of_pos (by simpa using hne)]
    rfl

/-- The names that a path is made of. -/
def names (path : List UInt8) : List (List UInt8) := (components path).map (List.take DIRSIZ)

theorem nameOf_cstr {n : ℕ} {l : List UInt8} {b : Buf} (hl : 0 ∉ l)
    (hb : ∀ k, k < n → k < l.length → b k = cstr l k) (hend : l.length < n → b l.length = 0) :
    nameOf n b = l.take n := by
  induction n generalizing l b with
  | zero => simp [nameOf]
  | succ n ih =>
    rw [nameOf]
    cases l with
    | nil => rw [if_pos (show b 0 = 0 from hend (Nat.succ_pos n)), List.take_nil]
    | cons c l =>
      have hc : b 0 = c := hb 0 (Nat.succ_pos n) (Nat.succ_pos _)
      have hne : c ≠ 0 := fun h0 => hl (h0 ▸ List.mem_cons_self)
      have hrest : nameOf n (fun k => b (k + 1)) = l.take n :=
        ih (fun h0 => hl (List.mem_cons_of_mem c h0))
          (fun k hk hlt => hb (k + 1) (by omega) (by simpa using hlt))
          fun hlt => hend (by simpa using hlt)
      rw [hc, if_neg hne, hrest, List.take_succ_cons]

theorem skipelem_none (name : Buf) : skipelem path name = none ↔ components path = [] := by
  rw [← components_dropWhile, skipelem]
  cases hdrop : path.dropWhile (· = 47) with
  | nil => simp [components]
  | cons c rest =>
    have hc : c ≠ 47 := by simpa using head_of_dropWhile hdrop
    simp [components_of_head hc]

/-- `skipelem` takes a component off the path. -/
theorem skipelem_some {path rest : List UInt8} {name name' : Buf} (hnul : 0 ∉ path)
    (h : skipelem path name = some (name', rest)) :
    names path = cname name' :: names rest ∧ (rest = [] ↔ names rest = []) ∧
      rest.length < path.length ∧ 0 ∉ rest := by
  rw [skipelem] at h
  have hall := List.length_dropWhile_le (p := (· = 47)) path
  have hsub := List.dropWhile_sublist (p := (· = 47)) (l := path)
  rw [names, ← components_dropWhile path]
  cases hdrop : path.dropWhile (· = 47) with
  | nil => simp [hdrop] at h
  | cons c cs =>
    have hc : c ≠ 47 := by simpa using head_of_dropWhile hdrop
    simp only [hdrop, if_neg (List.cons_ne_nil c cs), Option.some.injEq, Prod.mk.injEq] at h
    obtain ⟨hname, hrest⟩ := h
    have htake := List.takeWhile_sublist (p := (· ≠ 47)) (l := c :: cs)
    have hsplit := List.takeWhile_append_dropWhile (p := (· ≠ 47)) (l := c :: cs)
    have hnul' : 0 ∉ (c :: cs).takeWhile (· ≠ 47) := fun h0 =>
      hnul (hsub.subset (hdrop ▸ htake.subset h0))
    have hcname : cname name' = ((c :: cs).takeWhile (· ≠ 47)).take DIRSIZ := by
      rw [cname, ← hname]
      refine nameOf_cstr hnul' (fun k hk hlt => ?_) fun hlt => ?_
      · split
        · exact blit_of_in (Nat.zero_le k) (by omega)
        · rw [update_of_ne (by omega)]
          exact blit_of_in (Nat.zero_le k) (by omega)
      · rw [if_neg (by omega), update_self]
    refine ⟨?_, ?_, ?_, ?_⟩
    · rw [components_of_head hc, List.map_cons, hcname, names, ← hrest, components_dropWhile]
    · rw [names, List.map_eq_nil_iff, ← skipelem_none name, skipelem, ← hrest]
      simp only [List.dropWhile_idempotent, ite_eq_left_iff, reduceCtorEq, imp_false, not_not]
    · have hlen := List.length_dropWhile_le (p := (· = 47)) ((c :: cs).dropWhile (· ≠ 47))
      have hcs := List.length_dropWhile_le (p := (· ≠ 47)) cs
      rw [List.dropWhile_cons_of_pos (by simpa using hc)] at hlen hrest
      rw [hdrop, List.length_cons] at hall
      rw [← hrest]
      omega
    · have hrests := (List.dropWhile_sublist (l := (c :: cs).dropWhile (· ≠ 47))
        (p := (· = 47))).trans (List.dropWhile_sublist (l := c :: cs) (p := (· ≠ 47)))
      exact fun h0 => hnul (hsub.subset (hdrop ▸ hrests.subset (hrest ▸ h0)))

/-! ## Following a path -/

/-- The entry with the number `k` in the contents of a directory, if it is in use. -/
def slotAt (f : Buf) (k : ℕ) : Option (List UInt8 × ℕ) :=
  if (direntAt f (DIRENT * k)).1 = 0 then none else some (direntAt f (DIRENT * k)).swap

/-- The inode under a name in the contents of a directory: that of the first entry in use. -/
def entry (f : Buf) (size : ℕ) (name : List UInt8) : Option ℕ :=
  find ((size + 15) / DIRENT) (slotAt f) name

/-- The inode under a name in the directory `i`. -/
def Disk.child (d : Disk) (i : ℕ) (name : List UInt8) : Option ℕ :=
  entry (byteAt d.sect (d.inode i)) (d.inode i).size.toNat name

/-- Look names up one after another, from the inode `i` on; each lookup is in a directory. -/
def Disk.resolve (d : Disk) (i : ℕ) : List (List UInt8) → Option ℕ
  | [] => some i
  | name :: names =>
    if (d.inode i).type = T_DIR then (d.child i name).bind fun j => d.resolve j names else none

/-- Look up all names but the last, which is to be in a directory. -/
def Disk.resolveParent (d : Disk) (i : ℕ) (names : List (List UInt8)) :
    Option (ℕ × List UInt8) :=
  names.getLast?.bind fun last => (d.resolve i names.dropLast).bind fun j =>
    if (d.inode j).type = T_DIR then some (j, last) else none

theorem slotAt_eq_some {f : Buf} {k i : ℕ} {name : List UInt8} :
    slotAt f k = some (name, i) ↔ direntAt f (DIRENT * k) = (i, name) ∧ i ≠ 0 := by
  rw [slotAt]
  split
  · next h0 =>
      refine ⟨fun h => (by cases h), ?_⟩
      rintro ⟨heq, hi⟩
      rw [heq] at h0
      exact absurd h0 hi
  · next hne =>
      rw [Option.some.injEq, Prod.swap_eq_iff_eq_swap]
      refine ⟨fun heq => ⟨heq, fun h0 => hne ?_⟩, fun h => h.1⟩
      rw [heq]
      exact h0

theorem entry_eq_none {f : Buf} {size : ℕ} {name : List UInt8}
    (h : ∀ off, off % DIRENT = 0 → off < size → (direntAt f off).1 ≠ 0 →
      (direntAt f off).2 ≠ name) : entry f size name = none := by
  rw [entry, find_eq_none_iff]
  intro k hk i hslot
  obtain ⟨hentry, hi⟩ := slotAt_eq_some.mp hslot
  refine h (DIRENT * k) (Nat.mul_mod_right _ _) ?_ (by rwa [hentry]) (by rw [hentry])
  simp only [DIRENT] at *
  omega

theorem entry_eq_some {f : Buf} {size off i : ℕ} {name : List UInt8} (hmod : off % DIRENT = 0)
    (hlt : off < size) (hentry : direntAt f off = (i, name)) (hi : i ≠ 0)
    (hfirst : ∀ o, o < off → o % DIRENT = 0 → (direntAt f o).1 ≠ 0 → (direntAt f o).2 ≠ name) :
    entry f size name = some i := by
  have hoff : DIRENT * (off / DIRENT) = off := Nat.mul_div_cancel' (Nat.dvd_of_mod_eq_zero hmod)
  refine find_of_first (k := off / DIRENT) (by simp only [DIRENT] at *; omega)
    (slotAt_eq_some.mpr ⟨by rw [hoff, hentry], hi⟩) fun k hk j hslot => ?_
  obtain ⟨hj, hj0⟩ := slotAt_eq_some.mp hslot
  refine hfirst (DIRENT * k) ?_ (Nat.mul_mod_right _ _) (by rwa [hj]) (by rw [hj])
  simp only [DIRENT] at *
  omega

namespace Fs

variable {s s₀ t : Fs} {base : ℕ → ℕ} {ip : ℕ}

theorem FirstAt.entry_eq {dp i off : ℕ} {name : Buf} (h : s.FirstAt dp name i off) :
    Content.entry (byteAt s.disk.sect (s.mem dp)) (s.mem dp).size.toNat (cname name) = some i :=
  entry_eq_some h.mod h.lt h.entry h.ne h.first

theorem Found.entry {dp : ℕ} {name : Buf} {r : Option (ℕ × ℕ)} (h : s.Found dp name (r, t)) :
    Content.entry (byteAt s.disk.sect (s.mem dp)) (s.mem dp).size.toNat (cname name) =
      r.map Prod.fst := by
  cases h with
  | none h => exact entry_eq_none h
  | some hat _ => exact hat.entry_eq

/-- Entries fill the directories, and the process has no inode locked. -/
structure Tidy (s : Fs) : Prop where
  unlocked : ∀ i, s.lock i = false
  size : ∀ i, i < NINODES → (s.disk.inode i).type = T_DIR →
    (s.disk.inode i).size.toNat % DIRENT = 0

/-- A lookup of the names, from the inode `i` on, finds every inode in use that it locks, and an
entry of the table for every inode that it goes to. -/
def Passable (s : Fs) (parent : Bool) : ℕ → List (List UInt8) → Prop
  | _, [] => True
  | i, n :: ns => (s.disk.inode i).type ≠ 0 ∧
      ((s.disk.inode i).type = T_DIR → (parent = true → ns ≠ []) → ∀ j, s.disk.child i n = some j →
        { s with ref := inc s.ref i }.Gettable j ∧ s.Passable parent j ns)

/-- What `namex` is to return for the names of a path, from the inode `i` on. -/
def Result (parent : Bool) (d : Disk) (i : ℕ) (names : List (List UInt8))
    (r : Option (ℕ × Buf)) : Prop :=
  if parent then r.map (fun r => (r.1, cname r.2)) = d.resolveParent i names
  else r.map Prod.fst = d.resolve i names

section Result

variable {parent : Bool} {d : Disk} {i j : ℕ} {n : List UInt8} {ns : List (List UInt8)}
  {r : Option (ℕ × Buf)}

theorem result_nil (parent : Bool) (d : Disk) (i : ℕ) (name : Buf) :
    Result parent d i [] (if parent then none else some (i, name)) := by
  cases parent <;> rfl

/-- A lookup fails, and so does the rest. -/
theorem result_fail (h : (d.inode i).type = T_DIR → (parent = true → ns ≠ []) ∧ d.child i n = none) :
    Result parent d i (n :: ns) none := by
  have hresolve : ∀ ms, ((d.inode i).type = T_DIR → d.child i n = none) →
      d.resolve i (n :: ms) = none := by
    intro ms hms
    rw [Disk.resolve]
    split
    · next hdir => rw [hms hdir, Option.bind_none]
    · rfl
  cases parent with
  | false => exact (hresolve ns fun hdir => (h hdir).2).symm
  | true =>
    refine Eq.symm (?_ : d.resolveParent i (n :: ns) = none)
    by_cases hns : ns = []
    · have hfile : (d.inode i).type ≠ T_DIR := fun hdir => (h hdir).1 rfl hns
      simp [hns, Disk.resolveParent, Disk.resolve, hfile]
    · rw [Disk.resolveParent, List.dropLast_cons_of_ne_nil hns,
        hresolve ns.dropLast fun hdir => (h hdir).2]
      simp

theorem result_last (hdir : (d.inode i).type = T_DIR) (name : Buf) :
    Result true d i [cname name] (some (i, name)) := by
  simp [Result, Disk.resolveParent, Disk.resolve, hdir]

/-- A lookup succeeds, and the rest is looked up there. -/
theorem Result.cons (h : Result parent d j ns r) (hdir : (d.inode i).type = T_DIR)
    (hmore : parent = true → ns ≠ []) (hchild : d.child i n = some j) :
    Result parent d i (n :: ns) r := by
  have hresolve : ∀ ms, d.resolve i (n :: ms) = d.resolve j ms := by
    intro ms
    rw [Disk.resolve, if_pos hdir, hchild, Option.bind_some]
  cases parent with
  | false => exact h.trans (hresolve ns).symm
  | true =>
    refine h.trans (Eq.symm (?_ : d.resolveParent i (n :: ns) = d.resolveParent j ns))
    rw [Disk.resolveParent, Disk.resolveParent, List.dropLast_cons_of_ne_nil (hmore rfl), hresolve,
      List.getLast?_cons_of_ne_nil (hmore rfl)]

end Result

/-- **The loop of `namex`** follows the path, and leaves the disk as it is. -/
theorem namexLoop_post (hs : s₀.Coherent) (hintact : Intact s₀.disk.inodes s₀.disk)
    (hrooted : Rooted s₀.ref s₀.disk) (parent : Bool) {turns : ℕ} {name : Buf}
    (hturns : path.length < turns) (hnul : 0 ∉ path) (h : Walking s₀.ref s₀ s ip) :
    Post (fun p => p.lh = s₀.disk.lh ∧ (s₀.Tidy → ¬ s₀.Passable parent ip (names path)))
      (fun r => Walked s₀.ref s₀ r ∧ s₀.Passable parent ip (names path) ∧
        Result parent s₀.disk ip (names path) r.1)
      (namexLoop parent turns s ip path name) := by
  induction turns generalizing s ip path name with
  | zero => exact absurd hturns (Nat.not_lt_zero _)
  | succ turns ih =>
    rw [namexLoop]
    split
    · next hskip =>
        have hnames : names path = [] := by rw [names, (skipelem_none name).mp hskip, List.map_nil]
        have hresult := result_nil parent s₀.disk ip name
        rw [hnames]
        split
        · next hparent =>
            rw [if_pos hparent] at hresult
            rw [(h.put hs).1]
            exact .ok ⟨(h.put hs).2, trivial, hresult⟩
        · next hparent =>
            rw [if_neg hparent] at hresult
            exact .ok ⟨h, trivial, hresult⟩
    next name' rest hskip =>
    obtain ⟨hnames, hlast, hlen, hrest⟩ := skipelem_some hnul hskip
    rw [hnames]
    refine (ilock_post h.kept.1 (h.peek.coherent hs)).seq
      (fun p hp => ⟨h.lh hp.1, fun htidy hpass => ?_⟩) fun t _ hl => ?_
    · rw [h.peek.disk, h.lock, h.ref] at hp
      rcases hp.2 with h0 | hlock | htype
      · simp [inc] at h0
      · rw [htidy.unlocked] at hlock
        cases hlock
      · exact hpass.1 htype
    obtain ⟨v, hput, hwalked⟩ := h.unlockput hs hl (.refl t) rfl rfl
    have hmem := h.mem_eq hl
    have hin : (s₀.disk.inode ip).type ≠ 0 := h.peek.disk ▸ hl.type
    split
    · next htype =>
        simp only [hput, bind, Except.bind]
        rw [hmem] at htype
        exact .ok ⟨hwalked, ⟨hin, fun hdir => absurd hdir htype⟩,
          result_fail fun hdir => absurd hdir htype⟩
    next htype =>
    have hdir : (s₀.disk.inode ip).type = T_DIR := by
      rw [← hmem]
      exact not_not.mp htype
    split
    · next hstop =>
        obtain ⟨w, hunlock, hw⟩ := iunlock_of_lock hl.held.1 hl.held.2
        simp only [hunlock, bind, Except.bind]
        refine .ok ⟨h.back hl (.refl t) rfl rfl hw, ?_⟩
        rw [hlast.mp hstop.2, hstop.1]
        exact ⟨⟨hin, fun _ hmore => absurd rfl (hmore rfl)⟩, result_last hdir name'⟩
    next hgo =>
    have hmore : parent = true → names rest ≠ [] := fun hparent hnil =>
      hgo ⟨hparent, hlast.mpr hnil⟩
    have hgettable : ∀ j, t.Gettable j ↔ { s₀ with ref := inc s₀.ref ip }.Gettable j :=
      fun j => gettable_congr (hl.ref.trans h.ref)
    have hchild : ∀ {j off}, t.FirstAt ip name' j off →
        s₀.disk.child ip (cname name') = some j := by
      intro j off hat
      have hentry := hat.entry_eq
      rwa [hmem, h.disk_eq hl] at hentry
    refine (dirlookup_post (h.whole hl hintact) name').seq
      (fun p hp => ⟨h.lh_locked hl hp.1, fun htidy hpass => ?_⟩) ?_
    · obtain ⟨-, j, off, hat, hfull⟩ := hp.2 (not_not.mp htype)
        (by rw [hmem]; exact htidy.size ip h.kept.1 hdir)
      exact hfull ((hgettable j).mpr (hpass.2 hdir hmore j (hchild hat)).1)
    rintro ⟨r, u⟩ - hfound
    have hnone := hfound.entry
    rw [hmem, h.disk_eq hl] at hnone
    cases hfound with
    | none _ =>
      simp only [hput, bind, Except.bind]
      refine .ok ⟨hwalked, ⟨hin, fun _ _ j hj => ?_⟩, result_fail fun _ => ⟨hmore, hnone⟩⟩
      cases hnone.symm.trans hj
    | @some next off u hat hgot =>
      obtain ⟨w, hnext, hwalking⟩ :=
        h.next hs hl hgot (h.kept_entry hl hrooted (not_not.mp htype) hat)
      simp only [hnext, bind, Except.bind]
      refine (ih (by omega) hrest hwalking).mono
        (fun p hp => ⟨hp.1, fun htidy hpass => hp.2 htidy (hpass.2 hdir hmore next (hchild hat)).2⟩)
        fun a ha => ⟨ha.1, ⟨hin, fun _ _ j hj => ?_⟩, ha.2.2.cons hdir hmore (hchild hat)⟩
      obtain rfl : next = j := Option.some.inj ((hchild hat).symm.trans hj)
      exact ⟨(hgettable next).mp hgot.gettable, ha.2.1⟩

/-- Where the lookup of a path begins. -/
def start (s : Fs) (path : List UInt8) : ℕ := if path.head? = some 47 then ROOTINO else s.cwd

/-- Nothing is in the way of a lookup. -/
def Clear (s : Fs) (parent : Bool) (path : List UInt8) : Prop :=
  (path.head? = some 47 → s.Gettable ROOTINO) ∧ s.Passable parent (s.start path) (names path)

/-- **`namex`** follows the path, leaves the disk as it is, and has a reference to its result. -/
theorem namex_post (hs : s.Coherent) (hintact : Intact s.disk.inodes s.disk)
    (hrooted : Rooted s.ref s.disk) (hcwd : 0 < s.ref s.cwd) (hlt : s.cwd < NINODES)
    (hnul : 0 ∉ path) (parent : Bool) (name : Buf) :
    Post (fun p => p.lh = s.disk.lh ∧ (s.Tidy → ¬ s.Clear parent path))
      (fun r => Walked s.ref s r ∧ s.Clear parent path ∧
        Result parent s.disk (s.start path) (names path) r.1)
      (s.namex path parent name) := by
  unfold namex Clear start
  split
  · next hslash =>
      refine (iget_post s ROOTINO).seq (fun p hp => ⟨hp.1, fun _ hclear => hp.2.2 (hclear.1 hslash)⟩)
        fun t _ hgot => ?_
      exact (namexLoop_post hs hintact hrooted parent (Nat.lt_succ_self _) hnul
        ⟨hgot.peek, hgot.ref, hgot.lock, hrooted.root⟩).mono
        (fun p hp => ⟨hp.1, fun htidy hclear => hp.2 htidy hclear.2⟩)
        fun r hr => ⟨hr.1, ⟨fun _ => hgot.gettable, hr.2.1⟩, hr.2.2⟩
  · next hslash =>
      exact (namexLoop_post hs hintact hrooted parent (Nat.lt_succ_self _) hnul
        ⟨idup_peek hcwd, rfl, rfl, hlt, fun _ => .inr hcwd⟩).mono
        (fun p hp => ⟨hp.1, fun htidy hclear => hp.2 htidy hclear.2⟩)
        fun r hr => ⟨hr.1, ⟨fun h => absurd h hslash, hr.2.1⟩, hr.2.2⟩

/-- The state between two calls: the files are intact, the copies of inodes in memory agree with
the disk, names lead to inodes that are kept, and so is the current directory. -/
structure Consistent (s : Fs) : Prop where
  intact : Intact s.disk.inodes s.disk
  coherent : s.Coherent
  rooted : Rooted s.ref s.disk
  cwd_pos : 0 < s.ref s.cwd
  cwd_lt : s.cwd < NINODES

/-- A lookup has returned `r`: there is a reference to `r`, and all else is as it was. -/
structure Returned (s : Fs) (r : Option ℕ) (t : Fs) : Prop where
  disk : t.disk = s.disk
  file : t.file = s.file
  ofile : t.ofile = s.ofile
  cwd : t.cwd = s.cwd
  lock : t.lock = s.lock
  ref : t.ref = r.elim s.ref (inc s.ref)

theorem Walked.returned {r : Option (ℕ × Buf)} (h : Walked s.ref s (r, t)) :
    s.Returned (r.map Prod.fst) t := by
  cases r with
  | none =>
    obtain ⟨hpeek, href, hlock⟩ := h
    exact ⟨hpeek.disk, hpeek.file, hpeek.ofile, hpeek.cwd, hlock, href⟩
  | some r =>
    have hwalk : Walking s.ref s t r.1 := h
    exact ⟨hwalk.peek.disk, hwalk.peek.file, hwalk.peek.ofile, hwalk.peek.cwd, hwalk.lock,
      hwalk.ref⟩

/-- **Paths.** `namei` and `nameiparent` follow the names of the path from the root or from the
current directory, and give back all they take but a reference to the result, if nothing is in the
way; otherwise the kernel stops. -/
theorem namei_resolves (h : s.Consistent) (htidy : s.Tidy) {path : List UInt8} (hnul : 0 ∉ path)
    (name : Buf) :
    Post (fun _ => ¬ s.Clear false path)
      (fun r => s.Clear false path ∧ r.1 = s.disk.resolve (s.start path) (names path) ∧
        s.Returned r.1 r.2)
      (s.namei path) ∧
    Post (fun _ => ¬ s.Clear true path)
      (fun r => s.Clear true path ∧ r.1.map (fun r => (r.1, cname r.2)) =
        s.disk.resolveParent (s.start path) (names path) ∧ s.Returned (r.1.map Prod.fst) r.2)
      (s.nameiparent path name) := by
  have hnamex := fun parent name =>
    namex_post h.coherent h.intact h.rooted h.cwd_pos h.cwd_lt hnul parent name
  constructor
  · refine (hnamex false _).seq (fun p hp => hp.2 htidy) ?_
    rintro ⟨r, t⟩ - ⟨hwalked, hclear, hresult⟩
    exact .ok ⟨hclear, hresult, hwalked.returned⟩
  · refine (hnamex true name).mono (fun p hp => hp.2 htidy) ?_
    rintro ⟨r, t⟩ ⟨hwalked, hclear, hresult⟩
    exact ⟨hclear, hresult, hwalked.returned⟩

/-! ## A disk with a root -/

end Fs

/-- The disk with the inode `i` written. -/
def Disk.setInode (d : Disk) (i : Fin NINODES) (ip : Dinode) : Disk where
  sect := update d.sect (IBLOCK i) (blit (d.sect (IBLOCK i)) (i % IPB * DINODE) DINODE ip.bytes)
  lh := []

theorem Disk.holds_setInode (d : Disk) (i : Fin NINODES) (ip : Dinode) :
    (d.setInode i ip).Holds i ip d := rfl

theorem Disk.inode_setInode (d : Disk) (i : Fin NINODES) (ip : Dinode) {j : ℕ} (hj : j < NINODES) :
    (d.setInode i ip).inode j = if j = i then ip else d.inode j := by
  split
  · next h => rw [h, inode_of_holds (d.holds_setInode i ip)]
  · next h => exact inode_of_holds_of_ne (d.holds_setInode i ip) hj h

/-- An empty root directory. -/
def rootDir : Dinode := ⟨T_DIR, 0, 0, 1, 0, fun _ => 0⟩

/-- A disk with an empty root directory and nothing else. -/
def rootDisk : Disk := blank.setInode 1 rootDir

theorem inode_rootDisk {i : ℕ} (hi : i < NINODES) :
    rootDisk.inode i = if i = 1 then rootDir else noBlocks :=
  (blank.inode_setInode 1 rootDir hi).trans
    (if_congr Iff.rfl rfl (congrFun inodes_blank ⟨i, hi⟩))

theorem size_rootDisk {i : ℕ} (hi : i < NINODES) : (rootDisk.inode i).size.toNat = 0 := by
  rw [inode_rootDisk hi]
  split <;> rfl

theorem intact_rootDisk : Intact rootDisk.inodes rootDisk := by
  have hblank : Intact blank.inodes blank := by
    have hself : update blank.inodes 1 noBlocks = blank.inodes := by
      rw [inodes_blank]
      exact update_eq_self ..
    rw [← hself]
    exact intact_blank
  refine hblank.rewrite (blank.holds_setInode 1 rootDir) (fun y => .inl ?_)
    ⟨by decide, fun bn hbn => ?_⟩
  · cases y <;> rfl
  · exact absurd hbn (Nat.not_lt_zero _)

namespace Fs

/-- The root is the current directory, and nothing else is in memory. -/
def rootOnly : Fs where
  disk := rootDisk
  ref := inc (fun _ => 0) 1
  valid _ := false
  mem _ := noBlocks
  lock _ := false
  file _ := ⟨0, .none, false, false, 0, 0, 0⟩
  ofile _ := none
  cwd := 1

theorem consistent_rootOnly : rootOnly.Consistent := by
  refine ⟨intact_rootDisk, fun i _ _ hvalid => (by cases hvalid), ⟨⟨by decide, fun _ => ?_⟩,
    fun i hi _ off _ hlt => ?_⟩, by decide, by decide⟩
  · left
    change (rootDisk.inode 1).nlink ≠ 0
    rw [inode_rootDisk (by decide)]
    decide
  · exact absurd hlt (by rw [show rootOnly.disk = rootDisk from rfl, size_rootDisk hi.1]; omega)

end Fs

/-! ## Two files of a block each -/

/-- An inode with the block `b`. -/
def oneBlock (type nlink : UInt16) (size b : UInt32) : Dinode :=
  ⟨type, 0, 0, nlink, size, fun k => if k = 0 then b else 0⟩

/-- A disk with the inodes 1 and 2, and the data blocks 46 and 47. -/
def pairDisk (d₁ d₂ : Dinode) (x y : Buf) : Disk :=
  (Disk.setInode ⟨fun b => if b = 46 then x else if b = 47 then y else if b = bmapstart then
    fun k => if k < 6 then 0xff else 0 else fun _ => 0, []⟩ 1 d₁).setInode 2 d₂

theorem map_pairDisk (d₁ d₂ : Dinode) (x y : Buf) :
    (pairDisk d₁ d₂ x y).sect bmapstart = fun k => if k < 6 then 0xff else 0 := by
  rw [pairDisk, sect_of_holds (Disk.holds_setInode _ 2 d₂) (iblock_lt_nmeta 2).1.ne',
    sect_of_holds (Disk.holds_setInode _ 1 d₁) (iblock_lt_nmeta 1).1.ne']
  rfl

theorem inode_pairDisk (d₁ d₂ : Dinode) (x y : Buf) {i : ℕ} (hi : i < NINODES) :
    (pairDisk d₁ d₂ x y).inode i = if i = 2 then d₂ else if i = 1 then d₁ else noBlocks := by
  obtain ⟨hmap, hdata⟩ : IBLOCK i < bmapstart ∧ IBLOCK i < 46 := iblock_lt_nmeta ⟨i, hi⟩
  rw [pairDisk, Disk.inode_setInode _ 2 d₂ hi, Disk.inode_setInode _ 1 d₁ hi, Disk.inode]
  refine if_congr Iff.rfl rfl (if_congr Iff.rfl rfl ?_)
  simp [hdata.ne, show IBLOCK i ≠ 47 by omega, hmap.ne, getDinode, getLe_zero, noBlocks]

theorem number_oneBlock {sect : ℕ → Buf} {type nlink : UInt16} {size b : UInt32} {y : Mkfs.Slot}
    (h : number sect (oneBlock type nlink size b) y ≠ 0) :
    y = .addr 0 ∧ number sect (oneBlock type nlink size b) y = b.toNat := by
  cases y with
  | entry k => exact absurd rfl h
  | addr k =>
    by_cases hk : k = 0
    · exact ⟨by rw [hk], by rw [hk]; rfl⟩
    · exact absurd (by simp [number, oneBlock, hk]) h

theorem whole_oneBlock {sect : ℕ → Buf} {type nlink : UInt16} {size b : UInt32} (hb : b.toNat ≠ 0)
    (hsize : size.toNat ≤ BSIZE) : Whole sect (oneBlock type nlink size b) := by
  refine ⟨hsize.trans (by decide), fun bn hbn => ?_⟩
  have hlt : bn * BSIZE < size.toNat := hbn
  obtain rfl : bn = 0 := by
    simp only [BSIZE] at *
    omega
  exact hb

theorem intact_pairDisk {type₁ nlink₁ type₂ nlink₂ : UInt16} {size₁ size₂ : UInt32}
    (h₁ : size₁.toNat ≤ BSIZE) (h₂ : size₂.toNat ≤ BSIZE) (x y : Buf) :
    let d := pairDisk (oneBlock type₁ nlink₁ size₁ 46) (oneBlock type₂ nlink₂ size₂ 47) x y
    Intact d.inodes d := by
  intro d
  have hinode : ∀ j : Fin NINODES, d.inodes j = _ := fun j => inode_pairDisk _ _ x y j.2
  have hnumber : ∀ {j : Fin NINODES} {z : Mkfs.Slot}, number d.sect (d.inodes j) z ≠ 0 →
      z = .addr 0 ∧ (j = 1 ∨ j = 2) ∧ number d.sect (d.inodes j) z = 45 + j := by
    intro j z h
    rw [hinode] at h ⊢
    split at h
    · next h2 =>
        rw [if_pos h2, h2]
        exact ⟨(number_oneBlock h).1, .inr (Fin.ext h2), (number_oneBlock h).2⟩
    next h2 =>
    split at h
    · next h1 =>
        rw [if_neg h2, if_pos h1, h1]
        exact ⟨(number_oneBlock h).1, .inl (Fin.ext h1), (number_oneBlock h).2⟩
    · exact absurd (number_noBlocks _ z) h
  have hbit : ∀ b : Fin 48, d.bit b = true := by
    have hall : ∀ b : Fin 48, (pairDisk noBlocks noBlocks (fun _ => 0) fun _ => 0).bit b = true := by
      decide +kernel
    exact fun b => (Disk.bit_congr ((map_pairDisk ..).trans (map_pairDisk ..).symm)
      (by simp only [FSSIZE]; omega)).trans (hall b)
  refine ⟨⟨fun b hb => hbit ⟨b, hb.trans (by decide)⟩, fun j z h => ?_, fun j z h => ?_,
    fun j z k w h heq => ?_⟩, fun j => ?_⟩
  · obtain ⟨-, rfl | rfl, hz⟩ := hnumber h <;> rw [hz] <;> decide
  · obtain ⟨-, rfl | rfl, hz⟩ := hnumber h <;> rw [hz]
    · exact hbit 46
    · exact hbit 47
  · obtain ⟨rfl, -, hj⟩ := hnumber h
    obtain ⟨rfl, -, hk⟩ := hnumber (heq ▸ h : number d.sect (d.inodes k) w ≠ 0)
    exact ⟨Fin.ext (by omega), rfl⟩
  · rw [hinode]
    split
    · exact whole_oneBlock (by decide) h₂
    split
    · exact whole_oneBlock (by decide) h₁
    · exact ⟨by decide, fun bn hbn => absurd hbn (Nat.not_lt_zero _)⟩

/-! ## A current directory that has been removed -/

/-- The entries `.` and `..` of the directory 2, which has been in the directory 3. -/
def dots : Buf := fun k =>
  if k < DIRENT then direntBytes 2 (cstr [46]) k else direntBytes 3 (cstr [46, 46]) (k - DIRENT)

/-- The directory 2, which has no link, has been removed, and then the directory 3. -/
def removedDisk : Disk :=
  pairDisk (oneBlock T_DIR 1 0 46) (oneBlock T_DIR 0 32 47) (fun _ => 0) dots

namespace Fs

/-- A process whose current directory has been removed. -/
def removedCwd : Fs := { rootOnly with disk := removedDisk, ref := inc (fun _ => 0) 2, cwd := 2 }

theorem consistent_removedCwd : removedCwd.Consistent := by
  have hinode : ∀ {i : ℕ}, i < NINODES → removedCwd.disk.inode i = _ :=
    fun hi => inode_pairDisk _ _ (fun _ => 0) dots hi
  refine ⟨intact_pairDisk (by decide) (by decide) _ _, fun i _ _ hvalid => (by cases hvalid),
    ⟨⟨by decide, fun _ => .inl ?_⟩, fun i hi _ off hmod hlt _ => ?_⟩, by decide, by decide⟩
  · rw [hinode (by decide)]
    decide
  rw [hinode hi.1] at hlt ⊢
  split at hlt
  · next h2 =>
      have hsize : off < 32 := hlt
      obtain rfl | rfl : off = 0 ∨ off = 16 := by
        simp only [DIRENT] at hmod
        omega
      · have htwo : (direntAt (byteAt removedCwd.disk.sect (oneBlock T_DIR 0 32 47)) 0).1 = 2 := by
          decide
        rw [if_pos h2, htwo]
        exact ⟨by decide, fun _ => .inr (by decide)⟩
      · have hthree : (direntAt (byteAt removedCwd.disk.sect (oneBlock T_DIR 0 32 47)) 16).1 = 3 := by
          decide
        rw [if_pos h2, hthree]
        exact ⟨by decide, fun h => absurd (by rw [hinode (by decide)]; rfl) h⟩
  split at hlt
  · exact absurd hlt (Nat.not_lt_zero _)
  · exact absurd hlt (Nat.not_lt_zero _)

theorem tidy_removedCwd : removedCwd.Tidy := by
  refine ⟨fun _ => rfl, fun i hi _ => ?_⟩
  change (removedDisk.inode i).size.toNat % DIRENT = 0
  rw [removedDisk, inode_pairDisk _ _ _ _ hi]
  split
  · rfl
  split <;> rfl

/-- `.` is found, and `./x` has a place. -/
theorem namei_resolves_removedCwd : ∃ t u name, removedCwd.namei [46] = .ok (some 2, t) ∧
    t.ref 2 = 2 ∧ removedCwd.nameiparent [46, 47, 120] (fun _ => 0) = .ok (some (2, name), u) ∧
    cname name = [120] := by
  have hchild : removedCwd.disk.child 2 [46] = some 2 := by decide +kernel
  have htype : (removedCwd.disk.inode 2).type ≠ 0 := by decide +kernel
  have hdot : ∀ parent ns, removedCwd.Passable parent 2 ns →
      removedCwd.Passable parent 2 ([46] :: ns) := by
    intro parent ns hns
    refine ⟨htype, fun _ _ j hj => ?_⟩
    obtain rfl : 2 = j := Option.some.inj (hchild.symm.trans hj)
    exact ⟨.inl (by decide), hns⟩
  have hclear : removedCwd.Clear false [46] := ⟨fun h => absurd h (by decide), hdot _ [] trivial⟩
  have hparent : removedCwd.Clear true [46, 47, 120] :=
    ⟨fun h => absurd h (by decide), hdot _ [[120]] ⟨htype, fun _ h => absurd rfl (h rfl)⟩⟩
  obtain ⟨⟨r, t⟩, hok, -, hr, hret⟩ :=
    (namei_resolves consistent_removedCwd tidy_removedCwd (show 0 ∉ [46] by decide)
      fun _ => 0).1.total fun p hp => hp hclear
  obtain ⟨⟨r', u⟩, hok', -, hr', -⟩ :=
    (namei_resolves consistent_removedCwd tidy_removedCwd (show 0 ∉ [46, 47, 120] by decide)
      fun _ => 0).2.total fun p hp => hp hparent
  have htwo : r = some 2 := hr.trans (by decide +kernel)
  have hlast : r'.map (fun r => (r.1, cname r.2)) = some (2, [120]) := hr'.trans (by decide +kernel)
  obtain ⟨⟨i, name⟩, rfl, hname⟩ := Option.map_eq_some_iff.mp hlast
  obtain ⟨rfl, hname⟩ := Prod.mk.inj hname
  subst htwo
  exact ⟨t, u, name, hok, by rw [hret.ref]; rfl, hok', hname⟩

/-- `../x` is to have no result, since the directory that `..` names is free: the kernel stops. -/
theorem namei_parent_freed : removedCwd.Consistent ∧ removedCwd.Tidy ∧
    removedCwd.disk.resolve 2 (names [46, 46, 47, 120]) = none ∧
    ∃ p, removedCwd.namei [46, 46, 47, 120] = .error p := by
  refine ⟨consistent_removedCwd, tidy_removedCwd, by decide +kernel, ?_⟩
  have hchild : removedCwd.disk.child 2 [46, 46] = some 3 := by decide +kernel
  have hfree : (removedCwd.disk.inode 3).type = 0 := by decide +kernel
  have hdir : (removedCwd.disk.inode 2).type = T_DIR := by decide +kernel
  have h := consistent_removedCwd
  have hpost := namex_post h.coherent h.intact h.rooted h.cwd_pos h.cwd_lt
    (show 0 ∉ [46, 46, 47, 120] by decide) false fun _ => 0
  cases hx : removedCwd.namex [46, 46, 47, 120] false fun _ => 0 with
  | error p => exact ⟨p, by rw [namei, hx]; rfl⟩
  | ok r =>
    rw [hx] at hpost
    cases hpost with
    | ok h => exact absurd hfree (h.2.1.2.2 hdir (fun h => (by cases h)) 3 hchild).2.1

end Fs

end Xv6.Content
