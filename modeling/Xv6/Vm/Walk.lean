import Xv6.Vm.Memory

/-!
# Walking a page table

`walk` of `kernel/vm.c` goes down the three levels of a page table, and makes the tables that are
missing if it is told to. A page table is a trie whose nodes are pages: a table is well formed if no
page is a node twice, entries above the last level are no leaves, and those of the last level are,
and lead to no node.
-/

namespace Xv6.Vm

open Lib

/-- The indices of a virtual address. -/
def px (level va : ℕ) : Fin 512 := ⟨PX level va, PX_lt level va⟩

/-- The indices of a virtual address from a level down to level 1. -/
def pathFrom (va : ℕ) : ℕ → List (Fin 512)
  | 0 => []
  | level + 1 => px (level + 1) va :: pathFrom va level

/-- The path to the last table for a virtual address. -/
def path (va : ℕ) : List (Fin 512) := pathFrom va 2

/-- The loop of `walk`, from a level down. The result is the address of an entry. -/
def walkLoop (va : ℕ) (alloc : Bool) : ℕ → Mem → ℕ → Option ℕ × Mem
  | 0, s, pagetable => (some (pagetable + 8 * PX 0 va), s)
  | level + 1, s, pagetable =>
    let pte := pagetable + 8 * PX (level + 1) va
    if s.load pte &&& PTE_V ≠ 0 then walkLoop va alloc level s (PTE2PA (s.load pte))
    else if alloc then
      match s.kalloc with
      | (none, s) => (none, s)
      | (some page, s) =>
        walkLoop va alloc level
          ((s.memset page 0 PGSIZE).store pte (PA2PTE page ||| PTE_V)) page
    else (none, s)

/-- The address of the entry for `va`, or nothing. -/
def walk (s : Mem) (pagetable va : ℕ) (alloc : Bool) : Except String (Option ℕ × Mem) :=
  if MAXVA ≤ va then .error "walk" else .ok (walkLoop va alloc 2 s pagetable)

/-! ## Tables -/

/-- A page of the page table with the root `r`. -/
def Node (b : Buf) (r n : ℕ) : Prop := IsNode (child b) 2 r n

/-- The valid entry `i` of the last table at the path `q`. -/
def leafAt (b : Buf) (r : ℕ) (q : List (Fin 512)) (i : Fin 512) : Option ℕ :=
  (reach (child b) r q).bind fun n => if entry b n i % 2 = 1 then some (entry b n i) else none

/-- The valid entry for a virtual address. -/
def leaf (b : Buf) (r va : ℕ) : Option ℕ := leafAt b r (path va) (px 0 va)

/-- A well-formed page table. -/
structure Table (b : Buf) (r : ℕ) : Prop where
  proper : Proper (child b) 2 r
  /-- A valid entry above the last level is none of a leaf. -/
  inner : ∀ q i n, q.length < 2 → reach (child b) r q = some n → entry b n i % 2 = 1 →
    entry b n i &&& (PTE_R ||| PTE_W ||| PTE_X) = 0
  /-- A valid entry at the last level is one of a leaf, and leads to no page of the table. -/
  leaves : ∀ q i e, q.length = 2 → leafAt b r q i = some e →
    PTE_FLAGS e ≠ PTE_V ∧ ¬ Node b r (ppn e)

/-- The free pages are pages of the allocator, and none is one of the table, of which no page is a
node twice. This much is true of the kernel's own table, too, whose leaves lead everywhere. -/
structure Tree (s : Mem) (r : ℕ) : Prop where
  proper : Proper (child s.byte) 2 r
  nodup : s.freelist.Nodup
  range : ∀ n ∈ s.freelist, s.kend ≤ PGSIZE * n ∧ PGSIZE * n < PHYSTOP
  node : ∀ n ∈ s.freelist, ¬ Node s.byte r n

/-- A well-formed table, of which no leaf leads to a free page. -/
structure Sound (s : Mem) (r : ℕ) : Prop extends Table s.byte r where
  unfree : ∀ q i e, q.length = 2 → leafAt s.byte r q i = some e → ppn e ∉ s.freelist

variable {s t : Mem} {r n va : ℕ} {b b' : Buf} {q : List (Fin 512)} {i : Fin 512}

theorem length_pathFrom (va level : ℕ) : (pathFrom va level).length = level := by
  induction level with
  | zero => rfl
  | succ level ih => rw [pathFrom, List.length_cons, ih]

theorem length_path (va : ℕ) : (path va).length = 2 := length_pathFrom va 2

theorem load_slot (s : Mem) (n level va : ℕ) :
    s.load (PGSIZE * n + 8 * PX level va) = entry s.byte n (px level va) := rfl

theorem child_of_valid (h : entry b n i % 2 = 1) : child b n i = some (ppn (entry b n i)) :=
  if_pos h

theorem child_of_invalid (h : ¬ entry b n i % 2 = 1) : child b n i = none := if_neg h

/-- Without allocation, the loop follows the trie. -/
theorem walkLoop_false (va level : ℕ) (s : Mem) (n : ℕ) :
    walkLoop va false level s (PGSIZE * n) =
      ((reach (child s.byte) n (pathFrom va level)).map fun m => slot m (px 0 va), s) := by
  induction level generalizing n with
  | zero => rfl
  | succ level ih =>
    rw [walkLoop]
    simp only [and_PTE_V, load_slot, Bool.false_eq_true, if_false, pathFrom, reach_cons]
    split
    · next h => rw [child_of_valid h, PTE2PA_eq, ih, Option.bind_some]
    · next h => rw [child_of_invalid h, Option.bind_none, Option.map_none]

/-! ## Changes elsewhere -/

section Bytes

variable (h : ∀ a, Node b r (a / PGSIZE) → b' a = b a)
include h

theorem reach_of_bytes {p : List (Fin 512)} (hp : p.length ≤ 2) :
    reach (child b') r p = reach (child b) r p :=
  reach_of_shallow hp fun q' _ _ hq' hn => child_congr fun a ha => h a (ha ▸ ⟨q', hq'.le, hn⟩)

theorem node_of_bytes : Node b' r n ↔ Node b r n := isNode_congr fun _ hp => reach_of_bytes h hp

theorem entry_of_bytes (hn : Node b r n) : entry b' n i = entry b n i :=
  entry_congr fun a ha => h a (ha ▸ hn)

theorem leafAt_of_bytes (hq : q.length = 2) : leafAt b' r q i = leafAt b r q i := by
  rw [leafAt, leafAt, reach_of_bytes h hq.le]
  cases hn : reach (child b) r q with
  | none => rw [Option.bind_none, Option.bind_none]
  | some n => rw [Option.bind_some, Option.bind_some, entry_of_bytes h ⟨q, hq.le, hn⟩]

theorem Table.of_bytes (htable : Table b r) : Table b' r := by
  refine ⟨htable.proper.congr fun p hp => reach_of_bytes h hp, fun q' i n hq' hn hodd => ?_,
    fun q' i e hq' he => ?_⟩
  · rw [reach_of_bytes h hq'.le] at hn
    rw [entry_of_bytes h ⟨q', hq'.le, hn⟩] at hodd ⊢
    exact htable.inner q' i n hq' hn hodd
  · rw [leafAt_of_bytes h hq'] at he
    rw [node_of_bytes h]
    exact htable.leaves q' i e hq' he

end Bytes

/-! ## New nodes -/

/-- The fresh page `m` is cleared, and linked to the entry `i` of the node `n`. -/
def link (s : Mem) (n : ℕ) (i : Fin 512) (m : ℕ) (rest : List ℕ) : Mem :=
  ((s.take m rest).memset (PGSIZE * m) 0 PGSIZE).store (slot n i) (PA2PTE (PGSIZE * m) ||| PTE_V)

/-- The entry for a table. -/
theorem nodeEntry_spec {m : ℕ} (hm : PGSIZE * m < 2 ^ 64) :
    ppn (PA2PTE (PGSIZE * m) ||| PTE_V) = m ∧ (PA2PTE (PGSIZE * m) ||| PTE_V) % 2 = 1 ∧
    (PA2PTE (PGSIZE * m) ||| PTE_V) &&& (PTE_R ||| PTE_W ||| PTE_X) = 0 ∧
    PA2PTE (PGSIZE * m) ||| PTE_V < 2 ^ 64 := by
  have heq : PA2PTE (PGSIZE * m) ||| PTE_V = 1024 * m + 1 := by
    have h : PA2PTE (PGSIZE * m) ||| 0 ||| PTE_V = _ := mkEntry_eq (by decide)
    rwa [Nat.or_zero, Nat.zero_or, Nat.mul_div_cancel_left m (by decide)] at h
  rw [heq]
  simp only [PGSIZE] at hm
  refine ⟨?_, by omega, ?_, by omega⟩
  · rw [ppn]
    omega
  · have hmod : ((1024 * m + 1) &&& 14) % 2 ^ 4 = 0 := by
      rw [Nat.and_mod_two_pow, show (1024 * m + 1) % 2 ^ 4 = 1 by omega]
      rfl
    have hlt : (1024 * m + 1) &&& 14 < 2 ^ 4 := Nat.and_lt_two_pow _ (by decide)
    rw [Nat.mod_eq_of_lt hlt] at hmod
    exact hmod

theorem byte_clear {m a : ℕ} {rest : List ℕ} (h : a / PGSIZE ≠ m) :
    ((s.take m rest).memset (PGSIZE * m) 0 PGSIZE).byte a = s.byte a := by
  rw [Mem.byte_memset, blit_page_of_ne _ h, Mem.take, Mem.byte_memset, blit_page_of_ne _ h]

theorem entry_link {m : ℕ} {rest : List ℕ} (hm : PGSIZE * m < 2 ^ 64) (n' : ℕ) (j : Fin 512) :
    entry (link s n i m rest).byte n' j =
      if n' = n ∧ j = i then PA2PTE (PGSIZE * m) ||| PTE_V
      else if n' = m then 0 else entry s.byte n' j := by
  rw [link, Mem.byte_store, entry_store _ _ _ (nodeEntry_spec hm).2.2.2]
  refine if_congr Iff.rfl rfl ?_
  split
  · next heq => rw [heq]; exact entry_zeroed ..
  · next hne =>
      refine entry_congr fun a ha => byte_clear fun h => hne (ha.symm.trans h)

/-- The table has new nodes from the free pages. -/
structure Extends (r : ℕ) (new : List ℕ) (s t : Mem) : Prop where
  tree : Tree t r
  free : s.freelist = new ++ t.freelist
  node : ∀ n, Node t.byte r n ↔ Node s.byte r n ∨ n ∈ new

/-- All mappings are as they were, too. -/
structure Grown (r : ℕ) (new : List ℕ) (s t : Mem) : Prop extends Extends r new s t where
  leaf : ∀ q i, q.length = 2 → leafAt t.byte r q i = leafAt s.byte r q i
  sound : Sound s r → Sound t r

theorem Extends.trans {u : Mem} {new new' : List ℕ} (h : Extends r new s t)
    (h' : Extends r new' t u) : Extends r (new ++ new') s u where
  tree := h'.tree
  free := by rw [h.free, h'.free, List.append_assoc]
  node n := by rw [h'.node, h.node, List.mem_append, or_assoc]

theorem Grown.calls (htree : Tree s r) (k : ℕ) : Grown r [] s { s with calls := k } :=
  ⟨⟨⟨htree.proper, htree.nodup, htree.range, htree.node⟩, rfl, by simp⟩, fun _ _ _ => rfl,
    fun hs => ⟨hs.toTable, hs.unfree⟩⟩

theorem Grown.trans {u : Mem} {new new' : List ℕ} (h : Grown r new s t) (h' : Grown r new' t u) :
    Grown r (new ++ new') s u :=
  ⟨h.toExtends.trans h'.toExtends, fun q i hq => (h'.leaf q i hq).trans (h.leaf q i hq),
    fun hs => h'.sound (h.sound hs)⟩

section Link

variable {m : ℕ} {rest : List ℕ} (htree : Tree s r) (hfree : s.freelist = m :: rest)
  (hq : q.length < 2) (hreach : reach (child s.byte) r q = some n)
  (hempty : ¬ entry s.byte n i % 2 = 1)
include htree hfree hq hreach hempty

theorem graft_link : Graft (child s.byte) (child (link s n i m rest).byte) 2 r n i q m := by
  have hmem : m ∈ s.freelist := by rw [hfree]; exact List.mem_cons_self
  have hrange : PGSIZE * m < 2 ^ 64 := (htree.range m hmem).2.trans (by decide)
  have hfresh : ¬ IsNode (child s.byte) 2 r m := htree.node m hmem
  have hne : ∀ n', IsNode (child s.byte) 2 r n' → n' ≠ m := fun n' hn' heq => hfresh (heq ▸ hn')
  have hnode : n ≠ m := hne n ⟨q, by omega, hreach⟩
  obtain ⟨hppn, hodd, -, -⟩ := nodeEntry_spec hrange
  refine ⟨hreach, hq, child_of_invalid hempty, hfresh, ?_, fun j => ?_, fun n' j hn' hother => ?_⟩
  · have hentry : entry (link s n i m rest).byte n i = PA2PTE (PGSIZE * m) ||| PTE_V := by
      rw [entry_link hrange, if_pos ⟨rfl, rfl⟩]
    rw [child, hentry, if_pos hodd, hppn]
  · have hentry : entry (link s n i m rest).byte m j = 0 := by
      rw [entry_link hrange, if_neg fun h => hnode h.1.symm, if_pos rfl]
    rw [child, hentry, if_neg (by decide)]
  · rw [child, child, entry_link hrange, if_neg hother, if_neg (hne n' hn')]

/-- The new node maps nothing. -/
theorem leafAt_link {q' : List (Fin 512)} (hq' : q'.length = 2) (j : Fin 512) :
    leafAt (link s n i m rest).byte r q' j = leafAt s.byte r q' j := by
  have hgraft := graft_link htree hfree hq hreach hempty
  have hrange : PGSIZE * m < 2 ^ 64 :=
    (htree.range m (hfree ▸ List.mem_cons_self)).2.trans (by decide)
  have hnode : n ≠ m := by
    rintro rfl
    exact hgraft.fresh ⟨q, hq.le, hreach⟩
  rw [leafAt, leafAt, hgraft.reach_eq htree.proper hq'.le]
  split
  · next heq =>
      have hold : reach (child s.byte) r (q ++ [i]) = none := by
        rw [reach_concat, hreach, Option.bind_some, hgraft.empty]
      have hzero : entry (link s n i m rest).byte m j = 0 := by
        rw [entry_link hrange, if_neg fun h => hnode h.1.symm, if_pos rfl]
      rw [heq, hold, Option.bind_none, Option.bind_some, hzero, if_neg (by decide)]
  · cases hreach' : reach (child s.byte) r q' with
    | none => rw [Option.bind_none, Option.bind_none]
    | some n' =>
      -- the entry is in no node that has changed
      have hn : n' ≠ n := by
        rintro rfl
        rw [htree.proper hq'.le hq.le hreach' hreach] at hq'
        omega
      have hm : n' ≠ m := by
        rintro rfl
        exact hgraft.fresh ⟨q', hq'.le, hreach'⟩
      have hsame : entry (link s n i m rest).byte n' j = entry s.byte n' j := by
        rw [entry_link hrange, if_neg fun h => hn h.1, if_neg hm]
      rw [Option.bind_some, Option.bind_some, hsame]

theorem node_link (n' : ℕ) : Node (link s n i m rest).byte r n' ↔ Node s.byte r n' ∨ n' ∈ [m] := by
  rw [List.mem_singleton]
  exact (graft_link htree hfree hq hreach hempty).isNode_iff htree.proper

/-- A well-formed table stays so. -/
theorem sound_link (hs : Sound s r) : Sound (link s n i m rest) r := by
  have hgraft := graft_link htree hfree hq hreach hempty
  have hmem : m ∈ s.freelist := hfree ▸ List.mem_cons_self
  have hrange : PGSIZE * m < 2 ^ 64 := (htree.range m hmem).2.trans (by decide)
  have hfresh : ¬ Node s.byte r m := htree.node m hmem
  refine ⟨⟨hgraft.proper htree.proper, fun q' i' n' hq' hreach' hodd => ?_,
    fun q' i' e hq' he => ?_⟩, fun q' i' e hq' he hin => ?_⟩
  · rw [hgraft.reach_eq htree.proper hq'.le] at hreach'
    rw [entry_link hrange] at hodd ⊢
    split at hreach'
    · have hnode : m ≠ n := by
        rintro rfl
        exact hfresh ⟨q, hq.le, hreach⟩
      rw [← Option.some.inj hreach', if_neg fun h => hnode h.1, if_pos rfl] at hodd
      exact absurd hodd (by decide)
    · have hm : n' ≠ m := by
        rintro rfl
        exact hfresh ⟨q', hq'.le, hreach'⟩
      rw [if_neg hm] at hodd ⊢
      split
      · exact (nodeEntry_spec hrange).2.2.1
      · next hother =>
          rw [if_neg hother] at hodd
          exact hs.inner q' i' n' hq' hreach' hodd
  · rw [leafAt_link htree hfree hq hreach hempty hq'] at he
    obtain ⟨hflags, hnot⟩ := hs.leaves q' i' e hq' he
    refine ⟨hflags, fun hn => ?_⟩
    rcases (node_link htree hfree hq hreach hempty _).mp hn with hn | hn
    · exact hnot hn
    · exact hs.unfree q' i' e hq' he (List.mem_singleton.mp hn ▸ hmem)
  · rw [leafAt_link htree hfree hq hreach hempty hq'] at he
    exact hs.unfree q' i' e hq' he (hfree ▸ List.mem_cons_of_mem m hin)

/-- **New nodes.** A page that is linked to an empty entry is a node, and maps nothing. -/
theorem grown_link : Grown r [m] s (link s n i m rest) := by
  have hnodes := node_link htree hfree hq hreach hempty
  have hrest : ∀ n' ∈ rest, n' ∈ s.freelist := fun n' h => hfree ▸ List.mem_cons_of_mem m h
  obtain ⟨hnew, hnodup⟩ := List.nodup_cons.mp (hfree ▸ htree.nodup)
  refine ⟨⟨⟨(graft_link htree hfree hq hreach hempty).proper htree.proper, hnodup,
    fun n' hn' => htree.range n' (hrest n' hn'), fun n' hn' hnode => ?_⟩, hfree, hnodes⟩,
    fun q' j hq' => leafAt_link htree hfree hq hreach hempty hq' j,
    sound_link htree hfree hq hreach hempty⟩
  rcases (hnodes n').mp hnode with hold | hold
  · exact htree.node n' (hrest n' hn') hold
  · exact hnew (List.mem_singleton.mp hold ▸ hn')

end Link

/-- **Walking with allocation.** The loop adds nodes from the free pages; it stops when there is
none left, and otherwise ends at an entry of the last table for the address. -/
theorem walkLoop_true {level : ℕ} (hlevel : q.length + level = 2)
    (hpath : q ++ pathFrom va level = path va) (htree : Tree s r)
    (hreach : reach (child s.byte) r q = some n) :
    ∃ new t, Grown r new s t ∧ (walkLoop va true level s (PGSIZE * n) = (none, t) ∨
      ∃ m, reach (child t.byte) r (path va) = some m ∧
        walkLoop va true level s (PGSIZE * n) = (some (slot m (px 0 va)), t)) := by
  induction level generalizing s n q with
  | zero =>
    rw [pathFrom, List.append_nil] at hpath
    exact ⟨[], s, .calls htree s.calls, .inr ⟨n, hpath ▸ hreach, rfl⟩⟩
  | succ level ih =>
    have hnext : q ++ [px (level + 1) va] ++ pathFrom va level = path va := by
      rw [List.append_assoc]
      exact hpath
    have hlen : (q ++ [px (level + 1) va]).length + level = 2 := by
      rw [List.length_append, List.length_singleton]
      omega
    rw [walkLoop]
    simp only [and_PTE_V, load_slot, if_true]
    split
    · next hvalid =>
        rw [PTE2PA_eq]
        refine ih hlen hnext htree ?_
        rw [reach_concat, hreach, Option.bind_some, child_of_valid hvalid]
    · next hempty =>
        obtain hnone | ⟨m, rest, hfree, hsome⟩ := s.kalloc_cases
        · rw [hnone]
          exact ⟨[], _, .calls htree _, .inl rfl⟩
        · have hq : q.length < 2 := by omega
          have hgrown := grown_link htree hfree hq hreach hempty
          have hreach' : reach (child (link s n (px (level + 1) va) m rest).byte) r
              (q ++ [px (level + 1) va]) = some m := by
            rw [(graft_link htree hfree hq hreach hempty).reach_eq htree.proper (by omega),
              if_pos rfl]
          obtain ⟨new, t, hgrown', hresult⟩ := ih hlen hnext hgrown.tree hreach'
          rw [hsome]
          exact ⟨[m] ++ new, t, hgrown.trans hgrown', hresult⟩

/-- **`walk`** with allocation. -/
theorem walk_true (htree : Tree s r) (hva : va < MAXVA) :
    ∃ new t, Grown r new s t ∧ (walk s (PGSIZE * r) va true = .ok (none, t) ∨
      ∃ m, reach (child t.byte) r (path va) = some m ∧
        walk s (PGSIZE * r) va true = .ok (some (slot m (px 0 va)), t)) := by
  have hpath : [] ++ pathFrom va 2 = path va := rfl
  obtain ⟨new, t, hgrown, hresult⟩ := walkLoop_true rfl hpath htree rfl
  refine ⟨new, t, hgrown, ?_⟩
  rw [walk, if_neg (not_le.mpr hva)]
  rcases hresult with hnone | ⟨m, hm, hsome⟩
  · exact .inl (congrArg _ hnone)
  · exact .inr ⟨m, hm, congrArg _ hsome⟩

/-- **`walk`** without allocation. -/
theorem walk_false (s : Mem) (r : ℕ) (hva : va < MAXVA) : walk s (PGSIZE * r) va false =
    .ok ((reach (child s.byte) r (path va)).map fun m => slot m (px 0 va), s) := by
  rw [walk, if_neg (not_le.mpr hva), walkLoop_false]
  rfl

end Xv6.Vm
