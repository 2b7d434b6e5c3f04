import Xv6.Vm.Walk

/-!
# Mapping and unmapping pages

`mappages` and `uvmunmap` of `kernel/vm.c`. Through `walk`, a well-formed table is a partial map from
virtual pages to entries; the two functions change this map at the pages they are told, and nowhere
else.
-/

namespace Xv6.Vm

open Lib

/-- The loop of `mappages`. An address from `MAXVA` on makes `walk` panic, so that there are no more
turns than pages below it. -/
def mapLoop (pagetable perm last : ℕ) : ℕ → Mem → ℕ → ℕ → Except String (ℤ × Mem)
  | 0, s, _, _ => .ok (0, s)
  | turns + 1, s, a, pa => do
      let (pte, s) ← walk s pagetable a true
      match pte with
      | none => .ok (-1, s)
      | some pte =>
        if s.load pte &&& PTE_V ≠ 0 then .error "mappages: remap"
        else
          let s := s.store pte (PA2PTE pa ||| perm ||| PTE_V)
          if a = last then .ok (0, s)
          else mapLoop pagetable perm last turns s ((a + PGSIZE) % 2 ^ 64) ((pa + PGSIZE) % 2 ^ 64)

def mappages (s : Mem) (pagetable va size pa perm : ℕ) : Except String (ℤ × Mem) :=
  if size = 0 then .error "mappages: size"
  else mapLoop pagetable perm (PGROUNDDOWN ((va + size - 1) % 2 ^ 64)) (MAXVA / PGSIZE + 1) s
    (PGROUNDDOWN va) pa

/-- The loop of `uvmunmap`. -/
def unmapLoop (pagetable stop : ℕ) (doFree : Bool) : ℕ → Mem → ℕ → Except String Mem
  | 0, s, _ => .ok s
  | turns + 1, s, a =>
    if a < stop then do
      let (pte, s) ← walk s pagetable a false
      match pte with
      | none => .error "uvmunmap: walk"
      | some pte =>
        if s.load pte &&& PTE_V = 0 then .error "uvmunmap: not mapped"
        else if PTE_FLAGS (s.load pte) = PTE_V then .error "uvmunmap: not a leaf"
        else do
          let s ← if doFree then s.kfree (PTE2PA (s.load pte)) else .ok s
          unmapLoop pagetable stop doFree turns (s.store pte 0) ((a + PGSIZE) % 2 ^ 64)
    else .ok s

def uvmunmap (s : Mem) (pagetable va npages : ℕ) (doFree : Bool) : Except String Mem :=
  if va % PGSIZE ≠ 0 then .error "uvmunmap: not aligned"
  else unmapLoop pagetable ((va + npages * PGSIZE) % 2 ^ 64) doFree npages s va

variable {s t : Mem} {r n m va v : ℕ} {b b' : Buf} {q : List (Fin 512)} {i : Fin 512}

/-- One beyond the addresses that three indices can name. -/
abbrev VALIM : ℕ := 2 ^ 39

theorem index_inj {va va' : ℕ} (hva : va < VALIM) (hva' : va' < VALIM) :
    path va = path va' ∧ px 0 va = px 0 va' ↔ va / PGSIZE = va' / PGSIZE := by
  simp only [path, pathFrom, px, List.cons.injEq, Fin.mk.injEq, PX_eq, and_true, PGSIZE, VALIM] at *
  omega

theorem leaf_page {va va' : ℕ} (h : va / PGSIZE = va' / PGSIZE) (hva : va < VALIM)
    (hva' : va' < VALIM) : leaf b r va = leaf b r va' := by
  obtain ⟨hpath, hpx⟩ := (index_inj hva hva').mpr h
  rw [leaf, leaf, hpath, hpx]

/-! ## Entries of the last level -/

/-- A valid entry, or nothing. -/
def decode (v : ℕ) : Option ℕ := if v % 2 = 1 then some v else none

theorem leafAt_of_reach (h : reach (child b) r q = some n) :
    leafAt b r q i = decode (entry b n i) := by
  rw [leafAt, h, Option.bind_some]
  rfl

/-- The page is neither one of the table nor free. -/
def Usable (s : Mem) (r n : ℕ) : Prop := ¬ Node s.byte r n ∧ n ∉ s.freelist

section Put

variable (hproper : Proper (child s.byte) 2 r) (hq : q.length = 2)
  (hreach : reach (child s.byte) r q = some m) (hv : v < 2 ^ 64)
include hproper hq hreach hv

theorem reach_put {p : List (Fin 512)} (hp : p.length ≤ 2) :
    reach (child (s.store (slot m i) v).byte) r p = reach (child s.byte) r p := by
  refine reach_of_shallow hp fun p' j n hp' hn => ?_
  have hne : n ≠ m := by
    rintro rfl
    rw [hproper hp'.le hq.le hn hreach] at hp'
    omega
  have hentry : entry (s.store (slot m i) v).byte n j = entry s.byte n j := by
    rw [Mem.byte_store, entry_store _ _ _ hv, if_neg fun h => hne h.1]
  rw [child, child, hentry]

/-- An entry of the last level has changed. -/
theorem leafAt_put {q' : List (Fin 512)} (hq' : q'.length = 2) (j : Fin 512) :
    leafAt (s.store (slot m i) v).byte r q' j =
      if q' = q ∧ j = i then decode v else leafAt s.byte r q' j := by
  have hsame := reach_put (i := i) hproper hq hreach hv hq'.le
  cases hn : reach (child s.byte) r q' with
  | none =>
    rw [hn] at hsame
    have hne : ¬ (q' = q ∧ j = i) := by
      rintro ⟨rfl, -⟩
      rw [hreach] at hn
      cases hn
    rw [leafAt, leafAt, hsame, hn, if_neg hne, Option.bind_none, Option.bind_none]
  | some n =>
    rw [hn] at hsame
    rw [leafAt_of_reach hsame, leafAt_of_reach hn, Mem.byte_store, entry_store _ _ _ hv]
    have hiff : n = m ∧ j = i ↔ q' = q ∧ j = i := by
      refine and_congr_left fun _ => ⟨?_, ?_⟩
      · rintro rfl
        exact hproper hq'.le hq.le hn hreach
      · rintro rfl
        exact Option.some.inj (hn.symm.trans hreach)
    rw [apply_ite decode]
    exact if_congr hiff rfl rfl

theorem node_put : Node (s.store (slot m i) v).byte r n ↔ Node s.byte r n :=
  isNode_congr fun _ hp => reach_put hproper hq hreach hv hp

/-- A valid entry after the change is the new one or an old one. -/
theorem leafAt_put_cases {q' : List (Fin 512)} {j : Fin 512} {e : ℕ} (hq' : q'.length = 2)
    (he : leafAt (s.store (slot m i) v).byte r q' j = some e) :
    (v % 2 = 1 ∧ e = v) ∨ leafAt s.byte r q' j = some e := by
  rw [leafAt_put hproper hq hreach hv hq'] at he
  split at he
  · obtain ⟨hodd, he⟩ := Option.ite_none_right_eq_some.mp he
    exact .inl ⟨hodd, (Option.some.inj he).symm⟩
  · exact .inr he

omit hproper in
/-- A valid entry that is put into the table is one of a leaf, and leads to no node. -/
theorem table_put (htable : Table s.byte r)
    (hleaf : v % 2 = 1 → PTE_FLAGS v ≠ PTE_V ∧ ¬ Node s.byte r (ppn v)) :
    Table (s.store (slot m i) v).byte r := by
  refine ⟨htable.proper.congr fun p hp => reach_put htable.proper hq hreach hv hp,
    fun q' j n' hq' hn' hodd => ?_, fun q' j e hq' he => ?_⟩
  · rw [reach_put htable.proper hq hreach hv hq'.le] at hn'
    have hne : n' ≠ m := by
      rintro rfl
      rw [htable.proper hq'.le hq.le hn' hreach] at hq'
      omega
    have hentry : entry (s.store (slot m i) v).byte n' j = entry s.byte n' j := by
      rw [Mem.byte_store, entry_store _ _ _ hv, if_neg fun h => hne h.1]
    rw [hentry] at hodd ⊢
    exact htable.inner q' j n' hq' hn' hodd
  · rw [node_put htable.proper hq hreach hv]
    rcases leafAt_put_cases htable.proper hq hreach hv hq' he with ⟨hodd, rfl⟩ | hold
    · exact hleaf hodd
    · exact htable.leaves q' j e hq' hold

omit hproper in
/-- The page of a new leaf is not free, either. -/
theorem sound_put (hs : Sound s r)
    (hleaf : v % 2 = 1 → PTE_FLAGS v ≠ PTE_V ∧ Usable s r (ppn v)) :
    Sound (s.store (slot m i) v) r := by
  refine ⟨table_put hq hreach hv hs.toTable fun hodd => ⟨(hleaf hodd).1, (hleaf hodd).2.1⟩,
    fun q' j e hq' he => ?_⟩
  rcases leafAt_put_cases hs.proper hq hreach hv hq' he with ⟨hodd, rfl⟩ | hold
  · exact (hleaf hodd).2.2
  · exact hs.unfree q' j e hq' hold

omit hproper in
theorem extends_put (htree : Tree s r) : Extends r [] s (s.store (slot m i) v) := by
  have hnode : ∀ n, Node (s.store (slot m i) v).byte r n ↔ Node s.byte r n :=
    fun n => node_put htree.proper hq hreach hv
  refine ⟨⟨htree.proper.congr fun p hp => reach_put htree.proper hq hreach hv hp, htree.nodup,
    htree.range, fun n' hn' => ?_⟩, rfl, fun n' => ?_⟩
  · rw [hnode]
    exact htree.node n' hn'
  · rw [hnode, List.mem_nil_iff, or_false]

end Put

/-! ## `mappages` -/

/-- The entry that `mappages` stores. -/
def mkEntry (pa perm : ℕ) : ℕ := PA2PTE pa ||| perm ||| PTE_V

/-- The map `f` with the entries `g 0`, `g 1`, … for the `k` pages from `a` on. -/
def onPages (a k : ℕ) (g f : ℕ → Option ℕ) : ℕ → Option ℕ := fun va =>
  if a ≤ va ∧ va < a + PGSIZE * k then g ((va - a) / PGSIZE) else f va

/-- The entries that `mappages` stores for the pages from `pa` on. -/
def entries (pa perm : ℕ) : ℕ → Option ℕ := fun j =>
  some (mkEntry ((pa + PGSIZE * j) % 2 ^ 64) perm)

/-- The flags and the `k` physical pages from `pa` on are such as leaves have. -/
structure Fit (s : Mem) (r pa perm k : ℕ) : Prop where
  flags : perm ||| PTE_V ≠ PTE_V
  usable : ∀ j, j < k → Usable s r ((pa + PGSIZE * j) % 2 ^ 64 / PGSIZE)

variable {a pa perm k : ℕ} {new : List ℕ}

theorem Extends.usable (h : Extends r new s t) (hn : Usable s r n) : Usable t r n := by
  refine ⟨fun hnode => ?_, fun hmem => ?_⟩
  · rcases (h.node n).mp hnode with hold | hnew
    · exact hn.1 hold
    · exact hn.2 (h.free ▸ List.mem_append_left _ hnew)
  · exact hn.2 (h.free ▸ List.mem_append_right _ hmem)

theorem mkEntry_spec (hpa : pa < 2 ^ 64) (hperm : perm < 1024) :
    PTE2PA (mkEntry pa perm) = PGROUNDDOWN pa ∧ PTE_FLAGS (mkEntry pa perm) = perm ||| PTE_V ∧
    mkEntry pa perm % 2 = 1 ∧ mkEntry pa perm < 2 ^ 64 := entry_roundtrip hpa hperm

theorem ppn_mkEntry (hpa : pa < 2 ^ 64) (hperm : perm < 1024) :
    ppn (mkEntry pa perm) = pa / PGSIZE := by
  have hpage := (mkEntry_spec hpa hperm).1
  rw [PTE2PA_eq, PGROUNDDOWN_eq] at hpage
  exact Nat.eq_of_mul_eq_mul_left (by decide) hpage

theorem page_succ (a k : ℕ) : a + PGSIZE * (k + 1) = a + PGSIZE + PGSIZE * k := by
  simp only [PGSIZE]
  omega

theorem entries_succ (pa perm : ℕ) :
    entries ((pa + PGSIZE) % 2 ^ 64) perm = fun j => entries pa perm (j + 1) := by
  funext j
  rw [entries, entries, Nat.mod_add_mod, page_succ]

/-- One page more, before the others. -/
theorem onPages_succ (g : ℕ → Option ℕ) {f f' : ℕ → Option ℕ} (h : f' va = onPages a 1 g f va) :
    onPages (a + PGSIZE) k (fun j => g (j + 1)) f' va = onPages a (k + 1) g f va := by
  simp only [onPages, PGSIZE] at h ⊢
  rw [h]
  by_cases hrest : a + 4096 ≤ va ∧ va < a + 4096 + 4096 * k
  · have hin : a ≤ va ∧ va < a + 4096 * (k + 1) := by omega
    have hsub : (va - (a + 4096)) / 4096 + 1 = (va - a) / 4096 := by omega
    rw [if_pos hrest, if_pos hin, hsub]
  · have hiff : a ≤ va ∧ va < a + 4096 * 1 ↔ a ≤ va ∧ va < a + 4096 * (k + 1) := by omega
    rw [if_neg hrest]
    exact if_congr hiff rfl rfl

/-- The entry of one page has changed. -/
theorem onPages_one (g f : ℕ → Option ℕ) (halign : a % PGSIZE = 0) (va : ℕ) :
    onPages a 1 g f va = if va / PGSIZE = a / PGSIZE then g 0 else f va := by
  simp only [onPages, PGSIZE] at *
  by_cases hin : va / 4096 = a / 4096
  · have hzero : (va - a) / 4096 = 0 := by omega
    rw [if_pos hin, if_pos (by omega), hzero]
  · rw [if_neg hin, if_neg (by omega)]

/-- Of the pages of a range, the first one and the others. -/
theorem first_page (halign : a % PGSIZE = 0) (hbound : a + PGSIZE * (k + 1) ≤ MAXVA) :
    a < MAXVA ∧ (a + PGSIZE) % 2 ^ 64 = a + PGSIZE ∧ (a + PGSIZE) % PGSIZE = 0 ∧
      a + PGSIZE + PGSIZE * k ≤ MAXVA := by
  simp only [PGSIZE, MAXVA] at *
  omega

/-- A change of the first page is none of the others. -/
theorem onPages_rest (hbound : a + PGSIZE * (k + 1) ≤ MAXVA) {g f f' : ℕ → Option ℕ}
    (h : ∀ va, va < VALIM → f' va = onPages a 1 g f va) {j : ℕ} (hj : j < k) :
    f' (a + PGSIZE + PGSIZE * j) = f (a + PGSIZE * (j + 1)) := by
  have hlim : a + PGSIZE + PGSIZE * j < VALIM := by
    simp only [PGSIZE, MAXVA, VALIM] at *
    omega
  rw [h _ hlim, onPages, if_neg (by simp only [PGSIZE]; omega), page_succ]

/-- **One page.** The walk runs out of pages, or the page is mapped. -/
theorem mapPage (htree : Tree s r) (ha : a < MAXVA) (halign : a % PGSIZE = 0)
    (hnone : leaf s.byte r a = none) (hpa : pa < 2 ^ 64) (hperm : perm < 1024) :
    ∃ new u, Grown r new s u ∧ (walk s (PGSIZE * r) a true = .ok (none, u) ∨
      ∃ pte, walk s (PGSIZE * r) a true = .ok (some pte, u) ∧ u.load pte &&& PTE_V = 0 ∧
        Extends r new s (u.store pte (mkEntry pa perm)) ∧
        (Sound s r → Fit s r pa perm 1 → Sound (u.store pte (mkEntry pa perm)) r) ∧
        ∀ va, va < VALIM → leaf (u.store pte (mkEntry pa perm)).byte r va =
          onPages a 1 (entries pa perm) (leaf s.byte r) va) := by
  obtain ⟨new, u, hgrown, hwalk⟩ := walk_true htree ha
  refine ⟨new, u, hgrown, hwalk.imp_right ?_⟩
  rintro ⟨m, hm, hsome⟩
  have hlen := length_path a
  obtain ⟨hpage, hflag, hodd, hlt⟩ := mkEntry_spec hpa hperm
  have hfree : decode (entry u.byte m (px 0 a)) = none := by
    rw [← leafAt_of_reach hm, hgrown.leaf _ _ hlen]
    exact hnone
  refine ⟨_, hsome, ?_, ?_, fun hs hfit => ?_, fun va hva => ?_⟩
  · have heven : ¬ entry u.byte m (px 0 a) % 2 = 1 := by
      intro h
      rw [decode, if_pos h] at hfree
      cases hfree
    rw [Nat.and_one_is_mod]
    change entry u.byte m (px 0 a) % 2 = 0
    omega
  · have hboth := hgrown.toExtends.trans (extends_put (i := px 0 a) hlen hm hlt hgrown.tree)
    rwa [List.append_nil] at hboth
  · have husable := hgrown.toExtends.usable (hfit.usable 0 Nat.one_pos)
    rw [Nat.mul_zero, Nat.add_zero, Nat.mod_eq_of_lt hpa, ← ppn_mkEntry hpa hperm] at husable
    exact sound_put hlen hm hlt (hgrown.sound hs) fun _ => ⟨hflag ▸ hfit.flags, husable⟩
  · have hva' : a < VALIM := ha.trans (by decide)
    rw [leaf, leafAt_put hgrown.tree.proper hlen hm hlt (length_path va), onPages_one _ _ halign,
      hgrown.leaf _ _ (length_path va)]
    simp only [index_inj hva hva', decode, if_pos hodd, entries, Nat.mul_zero, Nat.add_zero,
      Nat.mod_eq_of_lt hpa]
    rfl

/-- The first `j` of `k` pages have been mapped; the result is 0 if these are all. -/
structure Mapped (r a pa perm k j : ℕ) (new : List ℕ) (s t : Mem) (res : ℤ) : Prop
    extends Extends r new s t where
  le : j ≤ k
  res : res = if j = k then 0 else -1
  leaf : ∀ va, va < VALIM → leaf t.byte r va = onPages a j (entries pa perm) (leaf s.byte r) va
  sound : Sound s r → Fit s r pa perm k → Sound t r

/-- What a call of `mappages` for the `k` pages from `a` on takes for granted: no page is mapped
yet. -/
structure Mappable (s : Mem) (r a perm k : ℕ) : Prop where
  tree : Tree s r
  aligned : a % PGSIZE = 0
  bound : a + PGSIZE * k ≤ MAXVA
  none : ∀ j, j < k → leaf s.byte r (a + PGSIZE * j) = none
  flags : perm < 1024

/-- The rest of the pages, when the first has been mapped. -/
theorem Mappable.rest (h : Mappable s r a perm (k + 1)) (hext : Extends r new s t)
    (hleaf : ∀ va, va < VALIM →
      Vm.leaf t.byte r va = onPages a 1 (entries pa perm) (Vm.leaf s.byte r) va) :
    Mappable t r (a + PGSIZE) perm k := by
  obtain ⟨-, -, halign, hbound⟩ := first_page h.aligned h.bound
  refine ⟨hext.tree, halign, hbound, fun j hj => ?_, h.flags⟩
  rw [onPages_rest h.bound hleaf hj]
  exact h.none (j + 1) (by omega)

theorem Fit.rest (h : Fit s r pa perm (k + 1)) (hext : Extends r new s t) :
    Fit t r ((pa + PGSIZE) % 2 ^ 64) perm k := by
  refine ⟨h.flags, fun j hj => ?_⟩
  rw [Nat.mod_add_mod, ← page_succ]
  exact hext.usable (h.usable (j + 1) (by omega))

/-- **The loop of `mappages`.** -/
theorem mapLoop_spec {turns : ℕ} (hturns : k < turns) (hpa : pa < 2 ^ 64)
    (h : Mappable s r a perm (k + 1)) :
    ∃ new t j res, mapLoop (PGSIZE * r) perm (a + PGSIZE * k) turns s a pa = .ok (res, t) ∧
      Mapped r a pa perm (k + 1) j new s t res := by
  induction turns generalizing s a pa k with
  | zero => omega
  | succ turns ih =>
    obtain ⟨ha, hmod, -⟩ := first_page h.aligned h.bound
    have hfirst : Fit s r pa perm (k + 1) → Fit s r pa perm 1 :=
      fun hfit => ⟨hfit.flags, fun j hj => hfit.usable j (by omega)⟩
    obtain ⟨new, u, hgrown, hnone | ⟨pte, hsome, hvalid, hext, hsound, hleaf⟩⟩ :=
      mapPage h.tree ha h.aligned (h.none 0 (Nat.succ_pos k)) hpa h.flags
    · refine ⟨new, u, 0, -1, ?_, hgrown.toExtends, Nat.zero_le _, rfl, fun va _ => ?_,
        fun hs _ => hgrown.sound hs⟩
      · rw [mapLoop, hnone]
        rfl
      · rw [onPages, if_neg (by omega)]
        exact hgrown.leaf _ _ (length_path va)
    set t := u.store pte (mkEntry pa perm) with ht
    cases k with
    | zero =>
      refine ⟨new, t, 1, 0, ?_, hext, le_rfl, rfl, hleaf, hsound⟩
      rw [mapLoop, hsome]
      simp only [bind, Except.bind, hvalid, ne_eq, not_true_eq_false, if_false,
        Nat.mul_zero, Nat.add_zero, if_true]
      rfl
    | succ k =>
      obtain ⟨new', t', j, res, hloop, hmapped⟩ :=
        ih (by omega) (Nat.mod_lt _ (by decide)) (h.rest hext hleaf)
      have hne : a ≠ a + PGSIZE * (k + 1) := by
        simp only [PGSIZE]
        omega
      refine ⟨new ++ new', t', j + 1, res, ?_, hext.trans hmapped.toExtends, by
        have := hmapped.le; omega, ?_, fun va hva => ?_, fun hs hfit => ?_⟩
      · rw [mapLoop, hsome]
        simp only [bind, Except.bind, hvalid, ne_eq, not_true_eq_false, if_false, hmod]
        rw [if_neg hne, page_succ]
        exact hloop
      · rw [hmapped.res]
        refine if_congr ?_ rfl rfl
        omega
      · rw [hmapped.leaf va hva, entries_succ]
        exact onPages_succ _ (hleaf va hva)
      · exact hmapped.sound (hsound hs (hfirst hfit)) (hfit.rest hext)

/-- The number of pages that a range touches. -/
def pages (va size : ℕ) : ℕ := (va + size - 1) / PGSIZE - va / PGSIZE + 1

/-- **`mappages`** maps the pages of a range, or a first part of them. -/
theorem mappages_spec {size : ℕ} (hsize : 0 < size) (hpa : pa < 2 ^ 64)
    (h : Mappable s r (PGROUNDDOWN va) perm (pages va size)) :
    ∃ new t j res, mappages s (PGSIZE * r) va size pa perm = .ok (res, t) ∧
      Mapped r (PGROUNDDOWN va) pa perm (pages va size) j new s t res := by
  have hbound := h.bound
  have hlast : PGROUNDDOWN ((va + size - 1) % 2 ^ 64) =
      PGROUNDDOWN va + PGSIZE * (pages va size - 1) := by
    simp only [PGROUNDDOWN, pages, PGSIZE, MAXVA] at *
    omega
  have hpos : pages va size = pages va size - 1 + 1 := rfl
  have hturns : pages va size - 1 < MAXVA / PGSIZE + 1 := by
    simp only [PGSIZE, MAXVA] at *
    omega
  rw [mappages, if_neg hsize.ne', hlast]
  rw [hpos] at h ⊢
  exact mapLoop_spec hturns hpa h

/-! ## `uvmunmap` -/

/-- The `k` pages from `a` on are mapped no longer. -/
structure Unmapped (r a k : ℕ) (s t : Mem) : Prop where
  table : Table t.byte r
  leaf : ∀ va, va < VALIM → leaf t.byte r va = onPages a k (fun _ => none) (leaf s.byte r) va
  kend : t.kend = s.kend

/-- What a call of `uvmunmap` for the `k` pages from `a` on takes for granted: all are mapped, and
those that are to be freed are pages of the allocator. -/
structure Unmappable (s : Mem) (r a k : ℕ) (doFree : Bool) : Prop where
  table : Table s.byte r
  aligned : a % PGSIZE = 0
  bound : a + PGSIZE * k ≤ MAXVA
  some : ∀ j, j < k → ∃ e, leaf s.byte r (a + PGSIZE * j) = some e ∧
    (doFree = true → s.kend ≤ PGSIZE * ppn e ∧ PGSIZE * ppn e < PHYSTOP)

theorem exists_of_leaf {e : ℕ} (h : leaf b r va = some e) :
    ∃ m, reach (child b) r (path va) = some m ∧ entry b m (px 0 va) = e ∧ e % 2 = 1 := by
  rw [leaf, leafAt, Option.bind_eq_some_iff] at h
  obtain ⟨m, hm, h⟩ := h
  obtain ⟨hodd, h⟩ := Option.ite_none_right_eq_some.mp h
  obtain rfl := Option.some.inj h
  exact ⟨m, hm, rfl, hodd⟩

/-- The state after a page has been freed or kept, and its entry cleared. -/
theorem unmapped_of_bytes {u : Mem} (htable : Table s.byte r) (ha : a < MAXVA)
    (halign : a % PGSIZE = 0) (hm : reach (child s.byte) r (path a) = some m)
    (hsame : ∀ x, Node s.byte r (x / PGSIZE) → u.byte x = s.byte x) (hkend : u.kend = s.kend) :
    Unmapped r a 1 s (u.store (slot m (px 0 a)) 0) := by
  have hlen := length_path a
  have hm' : reach (child u.byte) r (path a) = some m := by
    rw [reach_of_bytes hsame hlen.le, hm]
  have htable' := htable.of_bytes hsame
  have hzero : 0 < 2 ^ 64 := by decide
  refine ⟨table_put hlen hm' hzero htable' fun h => absurd h (by decide), fun va hva => ?_, hkend⟩
  have hva' : a < VALIM := ha.trans (by decide)
  rw [leaf, leafAt_put htable'.proper hlen hm' hzero (length_path va), onPages_one _ _ halign,
    leafAt_of_bytes hsame (length_path va)]
  simp only [index_inj hva hva']
  rfl

variable {doFree : Bool}

/-- **One page.** A mapped page is unmapped, and freed if this is asked for. -/
theorem unmapPage {e : ℕ} (htable : Table s.byte r) (ha : a < MAXVA)
    (halign : a % PGSIZE = 0) (he : leaf s.byte r a = some e)
    (hrange : doFree = true → s.kend ≤ PGSIZE * ppn e ∧ PGSIZE * ppn e < PHYSTOP) :
    ∃ pte u, walk s (PGSIZE * r) a false = .ok (some pte, s) ∧ s.load pte &&& PTE_V ≠ 0 ∧
      PTE_FLAGS (s.load pte) ≠ PTE_V ∧
      (if doFree then s.kfree (PTE2PA (s.load pte)) else .ok s) = .ok u ∧
      Unmapped r a 1 s (u.store pte 0) := by
  obtain ⟨m, hm, hentry, hodd⟩ := exists_of_leaf he
  obtain ⟨hflags, hnot⟩ := htable.leaves _ _ e (length_path a) he
  have hload : s.load (slot m (px 0 a)) = e := hentry
  have hwalk : walk s (PGSIZE * r) a false = .ok (some (slot m (px 0 a)), s) := by
    rw [walk_false s r ha, hm]
    rfl
  cases doFree with
  | false =>
    refine ⟨_, s, hwalk, ?_, ?_, rfl, unmapped_of_bytes htable ha halign hm (fun _ _ => rfl) rfl⟩
    · rw [hload]
      exact and_PTE_V.mpr hodd
    · rw [hload]
      exact hflags
  | true =>
    set u := { s with freelist := ppn e :: s.freelist }.memset (PGSIZE * ppn e) 1 PGSIZE with hu
    have hkfree : s.kfree (PTE2PA e) = .ok u := by
      have hr := hrange rfl
      rw [Mem.kfree, PTE2PA_eq, if_neg (by simp only [PGSIZE] at *; omega),
        Nat.mul_div_cancel_left _ (by decide)]
    refine ⟨_, u, hwalk, ?_, ?_, ?_,
      unmapped_of_bytes htable ha halign hm (fun x hx => ?_) rfl⟩
    · rw [hload]
      exact and_PTE_V.mpr hodd
    · rw [hload]
      exact hflags
    · rw [if_pos rfl, hload]
      exact hkfree
    · rw [hu, Mem.byte_memset]
      exact blit_page_of_ne _ fun h => hnot (h ▸ hx)

theorem Unmapped.refl (htable : Table s.byte r) (a : ℕ) : Unmapped r a 0 s s := by
  refine ⟨htable, fun va _ => ?_, rfl⟩
  rw [onPages, if_neg (by omega)]

/-- One page more, before the others. -/
theorem Unmapped.cons {u : Mem} (h : Unmapped r a 1 s t) (h' : Unmapped r (a + PGSIZE) k t u) :
    Unmapped r a (k + 1) s u := by
  refine ⟨h'.table, fun va hva => ?_, h'.kend.trans h.kend⟩
  rw [h'.leaf va hva]
  exact onPages_succ (fun _ => none) (h.leaf va hva)

theorem Unmappable.rest (h : Unmappable s r a (k + 1) doFree)
    (hone : Unmapped r a 1 s t) : Unmappable t r (a + PGSIZE) k doFree := by
  obtain ⟨-, -, halign, hbound⟩ := first_page h.aligned h.bound
  refine ⟨hone.table, halign, hbound, fun j hj => ?_⟩
  rw [onPages_rest h.bound hone.leaf hj, hone.kend]
  exact h.some (j + 1) (by omega)

/-- **The loop of `uvmunmap`.** -/
theorem unmapLoop_spec {turns : ℕ} (hturns : k ≤ turns) (h : Unmappable s r a k doFree) :
    ∃ t, unmapLoop (PGSIZE * r) (a + PGSIZE * k) doFree turns s a = .ok t ∧
      Unmapped r a k s t := by
  induction turns generalizing s a k with
  | zero =>
    obtain rfl : k = 0 := by omega
    exact ⟨s, rfl, .refl h.table a⟩
  | succ turns ih =>
    cases k with
    | zero =>
      refine ⟨s, ?_, .refl h.table a⟩
      rw [unmapLoop, if_neg (by simp)]
    | succ k =>
      obtain ⟨ha, hnext, -⟩ := first_page h.aligned h.bound
      obtain ⟨e, he, hrange⟩ := h.some 0 (Nat.succ_pos k)
      rw [Nat.mul_zero, Nat.add_zero] at he
      obtain ⟨pte, u, hwalk, hvalid, hflags, hfree, hone⟩ :=
        unmapPage h.table ha h.aligned he hrange
      obtain ⟨t, hloop, hrest⟩ := ih (by omega) (h.rest hone)
      have hin : a < a + PGSIZE * (k + 1) :=
        Nat.lt_add_of_pos_right (Nat.mul_pos (by decide) k.succ_pos)
      refine ⟨t, ?_, hone.cons hrest⟩
      rw [unmapLoop, if_pos hin, hwalk, page_succ a k]
      simp only [bind, Except.bind, hvalid, hflags, if_false, hnext]
      cases doFree with
      | false =>
        obtain rfl := Except.ok.inj hfree
        exact hloop
      | true =>
        rw [if_pos rfl] at hfree
        rw [if_pos rfl, hfree]
        exact hloop

/-- **`uvmunmap`** of mapped pages. -/
theorem uvmunmap_spec {npages : ℕ} (h : Unmappable s r va npages doFree) :
    ∃ t, uvmunmap s (PGSIZE * r) va npages doFree = .ok t ∧ Unmapped r va npages s t := by
  have hstop : (va + npages * PGSIZE) % 2 ^ 64 = va + PGSIZE * npages := by
    rw [Nat.mul_comm]
    exact Nat.mod_eq_of_lt (h.bound.trans_lt (by decide))
  rw [uvmunmap, if_neg (not_not.mpr h.aligned), hstop]
  exact unmapLoop_spec le_rfl h

/-! ## The map of a table -/

/-- The physical address and the flags that `walk` finds for a virtual address. -/
def lookup (s : Mem) (pagetable va : ℕ) : Option (ℕ × ℕ) :=
  match walk s pagetable va false with
  | .ok (some pte, s) =>
    if s.load pte &&& PTE_V ≠ 0 then some (PTE2PA (s.load pte), PTE_FLAGS (s.load pte)) else none
  | _ => none

theorem lookup_eq (s : Mem) (r : ℕ) (hva : va < MAXVA) :
    lookup s (PGSIZE * r) va = (leaf s.byte r va).map fun e => (PTE2PA e, PTE_FLAGS e) := by
  rw [lookup, walk_false s r hva, leaf, leafAt]
  cases hm : reach (child s.byte) r (path va) with
  | none => rfl
  | some m =>
    rw [Option.map_some, Option.bind_some]
    have hload : s.load (slot m (px 0 va)) = entry s.byte m (px 0 va) := rfl
    simp only [hload, and_PTE_V]
    split
    · rw [Option.map_some]
    · rw [Option.map_none]

theorem Mapped.lookup {j : ℕ} {res : ℤ} (h : Mapped r a pa perm k j new s t res)
    (hperm : perm < 1024) {va : ℕ} (hva : va < MAXVA) : Vm.lookup t (PGSIZE * r) va =
      if a ≤ va ∧ va < a + PGSIZE * j then
        some (PGROUNDDOWN ((pa + PGSIZE * ((va - a) / PGSIZE)) % 2 ^ 64), perm ||| PTE_V)
      else Vm.lookup s (PGSIZE * r) va := by
  rw [lookup_eq t r hva, lookup_eq s r hva, h.leaf va (hva.trans (by decide)), onPages]
  split
  · obtain ⟨hpage, hflags, -, -⟩ := mkEntry_spec
      (Nat.mod_lt (pa + PGSIZE * ((va - a) / PGSIZE)) (show 0 < 2 ^ 64 by decide)) hperm
    rw [entries, Option.map_some, hpage, hflags]
  · rfl

theorem Unmapped.lookup (h : Unmapped r a k s t) {va : ℕ} (hva : va < MAXVA) :
    Vm.lookup t (PGSIZE * r) va =
      if a ≤ va ∧ va < a + PGSIZE * k then none else Vm.lookup s (PGSIZE * r) va := by
  rw [lookup_eq t r hva, lookup_eq s r hva, h.leaf va (hva.trans (by decide)), onPages]
  split <;> rfl

/-- **Page tables are partial maps.** Through `walk`, the pages of a table have physical pages and
flags; `mappages` and `uvmunmap` change them for the pages they are told and for no others. A
well-formed table stays so, if the new mappings are such as leaves have. -/
theorem pageTable_is_map (s : Mem) (r : ℕ) :
    (∀ va va', va < MAXVA → va' < MAXVA → va / PGSIZE = va' / PGSIZE →
      lookup s (PGSIZE * r) va = lookup s (PGSIZE * r) va') ∧
    (∀ va size pa perm, 0 < size → pa < 2 ^ 64 →
      Mappable s r (PGROUNDDOWN va) perm (pages va size) →
      ∃ t j res, mappages s (PGSIZE * r) va size pa perm = .ok (res, t) ∧ Tree t r ∧
        j ≤ pages va size ∧ res = (if j = pages va size then 0 else -1) ∧
        (∀ va', va' < MAXVA → lookup t (PGSIZE * r) va' =
          if PGROUNDDOWN va ≤ va' ∧ va' < PGROUNDDOWN va + PGSIZE * j then
            some (PGROUNDDOWN ((pa + PGSIZE * ((va' - PGROUNDDOWN va) / PGSIZE)) % 2 ^ 64),
              perm ||| PTE_V)
          else lookup s (PGSIZE * r) va') ∧
        (Sound s r → Fit s r pa perm (pages va size) → Sound t r)) ∧
    (∀ va npages doFree, Unmappable s r va npages doFree →
      ∃ t, uvmunmap s (PGSIZE * r) va npages doFree = .ok t ∧ Table t.byte r ∧
        ∀ va', va' < MAXVA → lookup t (PGSIZE * r) va' =
          if va ≤ va' ∧ va' < va + PGSIZE * npages then none else lookup s (PGSIZE * r) va') ∧
    (∀ pa flags, pa % PGSIZE = 0 → pa < 2 ^ 56 → flags < 1024 →
      PTE2PA (PA2PTE pa ||| flags) = pa ∧ PTE_FLAGS (PA2PTE pa ||| flags) = flags) := by
  refine ⟨fun va va' hva hva' hpage => ?_, fun va size pa perm hsize hpa h => ?_,
    fun va npages doFree h => ?_, fun pa flags halign hpa hflags => ?_⟩
  · have hlim : MAXVA ≤ VALIM := by decide
    rw [lookup_eq s r hva, lookup_eq s r hva',
      leaf_page hpage (hva.trans_le hlim) (hva'.trans_le hlim)]
  · obtain ⟨new, t, j, res, hok, hmapped⟩ := mappages_spec hsize hpa h
    exact ⟨t, j, res, hok, hmapped.tree, hmapped.le, hmapped.res,
      fun va' hva' => hmapped.lookup h.flags hva', hmapped.sound⟩
  · obtain ⟨t, hok, hunmapped⟩ := uvmunmap_spec h
    exact ⟨t, hok, hunmapped.table, fun va' hva' => hunmapped.lookup hva'⟩
  · obtain ⟨hpage, hflag, -⟩ := roundtrip (hpa.trans (by decide)) hflags
    refine ⟨?_, hflag⟩
    rw [hpage, PGROUNDDOWN, halign, Nat.sub_zero]

/-- Memory without a page in use but for the table in page 524288, and two free pages. -/
def blankMem : Mem := ⟨fun _ => 0, [524289, 524290], KERNBASE, fun _ => false, 0⟩

theorem reach_blank {q : List (Fin 512)} (h : reach (child fun _ => 0) r q = some n) :
    q = [] ∧ n = r := by
  cases q with
  | nil => exact ⟨rfl, (Option.some.inj h).symm⟩
  | cons i q =>
    have hnone : child (fun _ => 0) r i = none := by
      rw [child, entry, getLe_zero, if_neg (by decide)]
    rw [reach_cons, hnone] at h
    cases h

theorem leafAt_blank (q : List (Fin 512)) (i : Fin 512) : leafAt (fun _ => 0) r q i = none := by
  rw [leafAt]
  cases hn : reach (child fun _ => 0) r q with
  | none => rw [Option.bind_none]
  | some n => rw [Option.bind_some, entry, getLe_zero, if_neg (by decide)]

theorem node_blank (h : Node (fun _ => 0) r n) : n = r := by
  obtain ⟨q, -, hq⟩ := h
  exact (reach_blank hq).2

theorem table_blank (r : ℕ) : Table (fun _ => 0) r := by
  refine ⟨fun p q n _ _ hp hq => ?_, fun q i n _ _ hodd => ?_, fun q i e _ he => ?_⟩
  · rw [(reach_blank hp).1, (reach_blank hq).1]
  · rw [entry, getLe_zero] at hodd
    exact absurd hodd (by decide)
  · rw [leafAt_blank] at he
    cases he

theorem tree_blankMem : Tree blankMem 524288 := by
  refine ⟨(table_blank _).proper, by decide, by decide, fun n hn hnode => ?_⟩
  rw [node_blank hnode] at hn
  exact absurd hn (by decide)

theorem sound_blankMem : Sound blankMem 524288 := by
  refine ⟨table_blank _, fun q i e _ he => ?_⟩
  rw [show blankMem.byte = fun _ => 0 from rfl, leafAt_blank] at he
  cases he

/-- Three pages are mapped, and the one in the middle is unmapped and freed. -/
theorem pageTable_is_map_blankMem : ∃ t u,
    mappages blankMem (PGSIZE * 524288) 5 10000 (PGSIZE * 524291) PTE_R = .ok (0, t) ∧
    Table t.byte 524288 ∧ lookup t (PGSIZE * 524288) 4100 = some (PGSIZE * 524292, 3) ∧
    uvmunmap t (PGSIZE * 524288) PGSIZE 1 true = .ok u ∧ Table u.byte 524288 ∧
    lookup u (PGSIZE * 524288) 4100 = none ∧
    lookup u (PGSIZE * 524288) 8200 = some (PGSIZE * 524293, 3) := by
  have hmappable : Mappable blankMem 524288 0 PTE_R 3 :=
    ⟨tree_blankMem, rfl, by decide, fun _ _ => leafAt_blank _ _, by decide⟩
  have hfit : Fit blankMem 524288 (PGSIZE * 524291) PTE_R 3 := by
    refine ⟨by decide, fun j hj => ⟨fun hnode => ?_, ?_⟩⟩
    · have := node_blank hnode
      simp only [PGSIZE] at this
      omega
    · revert j
      decide
  obtain ⟨t, j, res, hok, -, hj, hres, hlookup, hsound⟩ :=
    (pageTable_is_map blankMem 524288).2.1 5 10000 (PGSIZE * 524291) PTE_R (by decide) (by decide)
      hmappable
  have hrun : (mappages blankMem (PGSIZE * 524288) 5 10000 (PGSIZE * 524291) PTE_R).toOption.any
      (fun r => decide (r.1 = 0 ∧ leaf r.2.byte 524288 PGSIZE = some 536875011 ∧
        r.2.kend = KERNBASE)) = true := by
    decide +kernel
  rw [hok] at hrun
  obtain ⟨rfl, hleaf, hkend⟩ := of_decide_eq_true hrun
  rw [show pages 5 10000 = 3 from rfl] at hres
  obtain rfl : j = 3 := by
    by_contra hne
    rw [if_neg hne] at hres
    cases hres
  have htable := (hsound sound_blankMem hfit).toTable
  have hunmappable : Unmappable t 524288 PGSIZE 1 true := by
    refine ⟨htable, rfl, by decide, fun j hj => ⟨536875011, ?_, fun _ => ?_⟩⟩
    · rw [Nat.lt_one_iff.mp hj]
      exact hleaf
    · rw [hkend]
      decide
  obtain ⟨u, hunmap, htable', hlookup'⟩ :=
    (pageTable_is_map t 524288).2.2.1 PGSIZE 1 true hunmappable
  refine ⟨t, u, hok, htable, ?_, hunmap, htable', ?_, ?_⟩
  · rw [hlookup 4100 (by decide), if_pos (by decide)]
    decide
  · rw [hlookup' 4100 (by decide), if_pos (by decide)]
  · rw [hlookup' 8200 (by decide), if_neg (by decide), hlookup 8200 (by decide),
      if_pos (by decide)]
    decide

/-- The page of the table itself is mapped: the table is well formed no longer. -/
theorem mappages_own_page : Sound blankMem 524288 ∧ Tree blankMem 524288 ∧ ∃ t,
    mappages blankMem (PGSIZE * 524288) 0 PGSIZE (PGSIZE * 524288) PTE_R = .ok (0, t) ∧
    ¬ Table t.byte 524288 := by
  refine ⟨sound_blankMem, tree_blankMem, ?_⟩
  have hrun : (mappages blankMem (PGSIZE * 524288) 0 PGSIZE (PGSIZE * 524288) PTE_R).toOption.map
      (fun r => (r.1, (leafAt r.2.byte 524288 [0, 0] 0).map ppn)) = some (0, some 524288) := by
    decide +kernel
  obtain ⟨⟨res, t⟩, hok, hres⟩ := Option.map_eq_some_iff.mp hrun
  obtain ⟨rfl, hleaf⟩ := Prod.mk.inj hres
  obtain ⟨e, he, hppn⟩ := Option.map_eq_some_iff.mp hleaf
  have hmap : mappages blankMem (PGSIZE * 524288) 0 PGSIZE (PGSIZE * 524288) PTE_R = .ok (0, t) := by
    revert hok
    cases mappages blankMem (PGSIZE * 524288) 0 PGSIZE (PGSIZE * 524288) PTE_R with
    | error _ => exact fun h => nomatch h
    | ok r => exact fun h => congrArg _ (Option.some.inj h)
  refine ⟨t, hmap, fun htable => ?_⟩
  exact (htable.leaves [0, 0] 0 e rfl he).2 (hppn ▸ isNode_root _ _ _)

end Xv6.Vm
