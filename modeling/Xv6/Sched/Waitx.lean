import Xv6.Sched.Moves
import Xv6.Vm.Copy

/-!
# The system call `waitx`

`sys_waitx` passes its two locals to `waitx` in the other order than `waitx` names them, and
copies both to user memory whatever `waitx` returns. The call is modelled with the user memory of
the caller, the values its locals hold before they are assigned, and the process tables its scans
find; between two scans the caller sleeps.
-/

namespace Xv6

open Lib

/-- What the call can change: the process table and the memory of the caller. -/
structure WaitxState where
  kern : Kern
  user : UserMem

namespace Kern

/-- `copyout` of an `int`. -/
def copyoutInt (u : UserMem) (dstva : ℕ) (x : UInt32) : UserMem × Bool :=
  u.copyout dstva (byteLe x.toNat) 4

/-- One scan of `waitx` by the process `p`: what it returns, and the run and wait times where it
has stored them. It is `none` when the process goes to sleep. -/
def waitxScan (p : Slot) (u : UserMem) (addr : ℕ) (k : Kern) :
    Option (WaitxState × Option (UInt32 × UInt32) × Int32) :=
  match k.exitedChild p with
  | some np =>
    let x := k.proc np
    if addr = 0 then some (⟨k.freeproc np, u⟩, some x.times, x.pid)
    else
      let r := copyoutInt u addr x.xstate.toUInt32
      if r.2 then some (⟨k.freeproc np, r.1⟩, some x.times, x.pid)
      else some (⟨k, r.1⟩, some x.times, -1)
  | none =>
    if (k.findProc fun x => x.parent = some p).isNone ∨ (k.proc p).killed then
      some (⟨k, u⟩, none, -1)
    else none

/-- The rest of `sys_waitx`, from the values of its locals. -/
def storeTimes (s : WaitxState) (addr1 addr2 : ℕ) (wtime rtime : UInt32) (ret : Int32) :
    WaitxState × Int32 :=
  let r := copyoutInt s.user addr1 wtime
  if r.2 then
    let r' := copyoutInt r.1 addr2 rtime
    if r'.2 then ({ s with user := r'.1 }, ret) else ({ s with user := r'.1 }, -1)
  else ({ s with user := r.1 }, -1)

/-- `sys_waitx` by the process `p`, whose scans find the tables `ks`: the first that does not make
it sleep decides. Before they are assigned, the locals `wtime` and `rtime` hold `junk`. -/
def sysWaitx (p : Slot) (u : UserMem) (addr addr1 addr2 : ℕ) (junk : UInt32 × UInt32)
    (ks : List Kern) : Option (WaitxState × Int32) :=
  (ks.findSome? (waitxScan p u addr)).map fun r =>
    -- waitx(addr, &wtime, &rtime) against waitx(uint64 addr, uint *rtime, uint *wtime)
    let locals := r.2.1.getD junk
    storeTimes r.1 addr1 addr2 locals.1 locals.2 r.2.2

variable {p : Slot} {u : UserMem} {addr addr1 addr2 : ℕ} {k : Kern}

/-! ## What the call leaves -/

/-- All four bytes at a user address are mapped. -/
def HasInt (u : UserMem) (a : ℕ) : Prop := ∀ i, i < 4 → u.Has (a + i)

instance (u : UserMem) (a : ℕ) : Decidable (HasInt u a) := by unfold HasInt; infer_instance

theorem copyoutInt_of_span {a w : ℕ} (h : u.Span a 4 w) (x : UInt32) :
    copyoutInt u a x = ({ u with byte := blit u.byte a w (byteLe x.toNat) }, decide (w = 4)) :=
  UserMem.copyout_of_span h _

/-- User memory after the two copies, of which `w₁` and `w₂` bytes can be made. -/
def putTimes (b : Buf) (addr1 w₁ addr2 w₂ : ℕ) (wtime rtime : UInt32) : Buf :=
  blit (blit b addr1 w₁ (byteLe wtime.toNat)) addr2 (if w₁ = 4 then w₂ else 0)
    (byteLe rtime.toNat)

/-- How much of the two times reaches user memory depends on its pages only. -/
theorem storeTimes_eq {s : WaitxState} {w₁ w₂ : ℕ} (h₁ : s.user.Span addr1 4 w₁)
    (h₂ : s.user.Span addr2 4 w₂) (wtime rtime : UInt32) (ret : Int32) :
    storeTimes s addr1 addr2 wtime rtime ret =
      (⟨s.kern, ⟨s.user.mapped, putTimes s.user.byte addr1 w₁ addr2 w₂ wtime rtime⟩⟩,
        if w₁ = 4 ∧ w₂ = 4 then ret else -1) := by
  rw [storeTimes]
  simp only [copyoutInt_of_span h₁, copyoutInt_of_span h₂.congr, decide_eq_true_eq, putTimes]
  by_cases hw₁ : w₁ = 4
  · by_cases hw₂ : w₂ = 4
    · simp [hw₁, hw₂]
    · simp [hw₁, hw₂]
  · simp [hw₁]

/-- The table on which the last scan decides. -/
def deciding (p : Slot) (u : UserMem) (addr : ℕ) (ks : List Kern) : Option Kern :=
  ks.find? fun k => (waitxScan p u addr k).isSome

variable {ks : List Kern}

theorem findSome?_of_deciding (hk : deciding p u addr ks = some k) :
    ks.findSome? (waitxScan p u addr) = waitxScan p u addr k := by
  induction ks with
  | nil => cases hk
  | cons k₀ ks ih =>
    rw [deciding, List.find?_cons] at hk
    cases hscan : waitxScan p u addr k₀ with
    | none =>
      rw [hscan] at hk
      rw [List.findSome?_cons, hscan]
      exact ih hk
    | some r =>
      rw [hscan] at hk
      cases hk
      rw [List.findSome?_cons, hscan]

/-- User memory after the copy of the status, if there is an address to copy it to. -/
def putStatus (u : UserMem) (addr : ℕ) (x : Proc) : UserMem :=
  if addr = 0 then u else (copyoutInt u addr x.xstate.toUInt32).1

@[simp] theorem mapped_putStatus (u : UserMem) (addr : ℕ) (x : Proc) :
    (putStatus u addr x).mapped = u.mapped := by
  rw [putStatus]
  split <;> rfl

theorem span_putStatus {va len w : ℕ} (h : u.Span va len w) (x : Proc) :
    (putStatus u addr x).Span va len w := by
  have hhas : ∀ a, (putStatus u addr x).Has a ↔ u.Has a := by
    intro a
    rw [UserMem.Has, UserMem.Has, UserMem.walkaddr, UserMem.walkaddr, mapped_putStatus]
  exact ⟨h.le, fun i hi => (hhas _).mpr (h.has i hi), fun hlt hno => h.stop hlt ((hhas _).mp hno)⟩

variable {np : Slot}

/-- What a scan that finds an exited child leaves: unless its status cannot be stored, the child
is released. -/
theorem waitxScan_of_child (u : UserMem) (addr : ℕ) (hnp : k.exitedChild p = some np) :
    waitxScan p u addr k =
      some (⟨if addr = 0 ∨ HasInt u addr then k.freeproc np else k, putStatus u addr (k.proc np)⟩,
        some (k.proc np).times, if addr = 0 ∨ HasInt u addr then (k.proc np).pid else -1) := by
  obtain ⟨w, hspan⟩ := u.exists_span addr 4
  have hall : w = 4 ↔ HasInt u addr := hspan.eq_len_iff
  simp only [waitxScan, hnp, putStatus, copyoutInt_of_span hspan, decide_eq_true_eq, hall]
  by_cases haddr : addr = 0
  · simp [haddr]
  · by_cases hint : HasInt u addr <;> simp [haddr, hint]

/-- The locals are uninitialised in a call that fails because there is no child to wait for. -/
theorem waitxScan_of_none (hnp : k.exitedChild p = none)
    (hsome : (waitxScan p u addr k).isSome = true) :
    waitxScan p u addr k = some (⟨k, u⟩, none, -1) := by
  simp only [waitxScan, hnp] at hsome ⊢
  split at hsome
  · rw [if_pos ‹_›]
  · cases hsome

theorem freeproc_ne (hnp : k.exitedChild p = some np) : k.freeproc np ≠ k := by
  intro heq
  have hstate := congrArg (fun k => (k.proc np).state) heq
  rw [freeproc, proc_modProc_self] at hstate
  have hz := zombie_of_exitedChild hnp
  rw [hz] at hstate
  cases hstate

/-- A call that finds an exited child. What it leaves does not depend on the old locals. -/
theorem sysWaitx_of_child {w₁ w₂ : ℕ}
    (hk : deciding p u addr ks = some k) (hnp : k.exitedChild p = some np)
    (h₁ : u.Span addr1 4 w₁) (h₂ : u.Span addr2 4 w₂) (junk : UInt32 × UInt32) :
    sysWaitx p u addr addr1 addr2 junk ks =
      some (⟨if addr = 0 ∨ HasInt u addr then k.freeproc np else k,
          ⟨u.mapped, putTimes (putStatus u addr (k.proc np)).byte addr1 w₁ addr2 w₂
            (k.proc np).times.1 (k.proc np).times.2⟩⟩,
        if (addr = 0 ∨ HasInt u addr) ∧ HasInt u addr1 ∧ HasInt u addr2 then (k.proc np).pid
        else -1) := by
  have hall₁ : w₁ = 4 ↔ HasInt u addr1 := h₁.eq_len_iff
  have hall₂ : w₂ = 4 ↔ HasInt u addr2 := h₂.eq_len_iff
  rw [sysWaitx, findSome?_of_deciding hk, waitxScan_of_child u addr hnp, Option.map_some]
  refine congrArg some ((storeTimes_eq (span_putStatus h₁ _) (span_putStatus h₂ _) _ _ _).trans ?_)
  refine Prod.ext ?_ ?_
  · simp
  · simp only [hall₁, hall₂]
    split_ifs <;> tauto

/-- A call that has no child to wait for stores what its locals held. -/
theorem sysWaitx_of_none (addr1 addr2 : ℕ) (hk : deciding p u addr ks = some k)
    (hnp : k.exitedChild p = none) : ∃ w₁ w₂, u.Span addr1 4 w₁ ∧ w₂ ≤ 4 ∧
      ∀ junk, sysWaitx p u addr addr1 addr2 junk ks =
        some (⟨k, ⟨u.mapped, putTimes u.byte addr1 w₁ addr2 w₂ junk.1 junk.2⟩⟩, -1) := by
  have hsome : (waitxScan p u addr k).isSome = true := by
    simpa using List.find?_some hk
  obtain ⟨w₁, h₁⟩ := u.exists_span addr1 4
  obtain ⟨w₂, h₂⟩ := u.exists_span addr2 4
  refine ⟨w₁, w₂, h₁, h₂.le, fun junk => ?_⟩
  rw [sysWaitx, findSome?_of_deciding hk, waitxScan_of_none hnp hsome, Option.map_some]
  refine congrArg some ((storeTimes_eq h₁ h₂ _ _ _).trans (Prod.ext rfl ?_))
  simp

/-! ## A failed call -/

/-- A call that returns -1 has released no child, and what it has written to user memory does
not depend on what its locals held before. -/
structure FailsClean (p : Slot) (u : UserMem) (addr addr1 addr2 : ℕ) (ks : List Kern) (k : Kern) :
    Prop where
  kept : ∀ junk s, sysWaitx p u addr addr1 addr2 junk ks = some (s, -1) → s.kern = k
  computed : ∀ junk s junk' s', sysWaitx p u addr addr1 addr2 junk ks = some (s, -1) →
    sysWaitx p u addr addr1 addr2 junk' ks = some (s', -1) → s.user = s'.user

/-- What the call has to find in order to fail cleanly: with an exited child, that its status
cannot be stored or both times can; without one, that nothing can be stored at the first
address. -/
def Storable (p : Slot) (u : UserMem) (addr addr1 addr2 : ℕ) (k : Kern) : Prop :=
  if (k.exitedChild p).isSome then
    addr ≠ 0 ∧ ¬ HasInt u addr ∨ HasInt u addr1 ∧ HasInt u addr2
  else ¬ u.Has addr1

theorem failsClean_iff_of_child (hk : deciding p u addr ks = some k)
    (hnp : k.exitedChild p = some np) (hpid : (k.proc np).pid ≠ -1) :
    FailsClean p u addr addr1 addr2 ks k ↔
      addr ≠ 0 ∧ ¬ HasInt u addr ∨ HasInt u addr1 ∧ HasInt u addr2 := by
  obtain ⟨w₁, h₁⟩ := u.exists_span addr1 4
  obtain ⟨w₂, h₂⟩ := u.exists_span addr2 4
  have hcall := sysWaitx_of_child hk hnp h₁ h₂
  constructor
  · intro hclean
    by_contra hnot
    push Not at hnot
    have hcopied : addr = 0 ∨ HasInt u addr := by
      by_contra hno
      push Not at hno
      exact hno.2 (hnot.1 hno.1)
    have hfail := hcall (0, 0)
    rw [if_pos hcopied, if_neg fun h => hnot.2 h.2.1 h.2.2] at hfail
    exact freeproc_ne hnp (hclean.kept _ _ hfail)
  · intro hstore
    refine ⟨fun junk s hs => ?_, fun junk s junk' s' hs hs' => ?_⟩
    · rw [hcall junk, Option.some.injEq, Prod.mk.injEq] at hs
      obtain ⟨rfl, hret⟩ := hs
      rcases hstore with ⟨haddr, hint⟩ | ⟨hint₁, hint₂⟩
      · exact if_neg (by tauto)
      · by_cases hcopied : addr = 0 ∨ HasInt u addr
        · rw [if_pos ⟨hcopied, hint₁, hint₂⟩] at hret
          exact absurd hret hpid
        · exact if_neg hcopied
    · rw [hcall junk, Option.some.injEq, Prod.mk.injEq] at hs
      rw [hcall junk', Option.some.injEq, Prod.mk.injEq] at hs'
      rw [← hs.1, ← hs'.1]

/-- A byte of the two locals that reaches user memory. -/
theorem putTimes_apply {b : Buf} {w₁ w₂ : ℕ} (hw₁ : 0 < w₁) (hw₂ : w₂ ≤ 4) (x : UInt32) {c : UInt8}
    (hx : ∀ i, i < 4 → byteLe x.toNat i = c) : putTimes b addr1 w₁ addr2 w₂ x x addr1 = c := by
  rw [putTimes]
  by_cases hin : addr2 ≤ addr1 ∧ addr1 < addr2 + if w₁ = 4 then w₂ else 0
  · rw [blit_of_in hin.1 hin.2]
    refine hx _ ?_
    split at hin <;> omega
  · rw [blit_of_out hin, blit_of_in le_rfl (by omega), Nat.sub_self]
    exact hx 0 (by decide)

theorem failsClean_iff_of_none (hk : deciding p u addr ks = some k) (hnp : k.exitedChild p = none) :
    FailsClean p u addr addr1 addr2 ks k ↔ ¬ u.Has addr1 := by
  obtain ⟨w₁, w₂, h₁, hw₂, hcall⟩ := sysWaitx_of_none addr1 addr2 hk hnp
  rw [← h₁.pos_iff (by decide)]
  constructor
  · intro hclean hpos
    -- two calls whose locals held all zeros and all ones
    have heq := hclean.computed _ _ _ _ (hcall (0, 0)) (hcall (4294967295, 4294967295))
    have hbyte := congrFun (congrArg UserMem.byte heq) addr1
    dsimp only at hbyte
    rw [putTimes_apply hpos hw₂ 0 (c := 0) (by decide),
      putTimes_apply hpos hw₂ 4294967295 (c := 255) (by decide)] at hbyte
    exact absurd hbyte (by decide)
  · intro hzero
    obtain rfl : w₁ = 0 := by omega
    refine ⟨fun junk s hs => ?_, fun junk s junk' s' hs hs' => ?_⟩
    · rw [hcall junk, Option.some.injEq, Prod.mk.injEq] at hs
      rw [← hs.1]
    · rw [hcall junk, Option.some.injEq, Prod.mk.injEq] at hs
      rw [hcall junk', Option.some.injEq, Prod.mk.injEq] at hs'
      rw [← hs.1, ← hs'.1]
      simp [putTimes]

/-- **A failed `waitx`.** For every table the last scan finds, a call that returns -1 releases no
child and stores nothing it did not compute, exactly if what it finds is storable. -/
theorem failsClean_iff {ks : List Kern} (hk : deciding p u addr ks = some k)
    (hpid : ∀ i, (k.proc i).pid ≠ -1) :
    FailsClean p u addr addr1 addr2 ks k ↔ Storable p u addr addr1 addr2 k := by
  rw [Storable]
  cases hnp : k.exitedChild p with
  | none => exact failsClean_iff_of_none hk hnp
  | some np => exact failsClean_iff_of_child hk hnp (hpid np)

/-- Init with one child, which may have exited. -/
def oneChild (x : Proc) : Kern :=
  { boot with proc := fun i =>
      if i = initproc then { Proc.zero.alloc 1 0 with state := .running }
      else if i = 1 then x else Proc.zero }

/-- An exited child of init. -/
def exitedWith (xstate rtime etime : Int32) : Proc :=
  { Proc.zero.alloc 2 0 with state := .zombie, parent := some initproc, xstate, rtime, etime }

/-- User memory of zeros with one page. -/
def onePage : UserMem := ⟨fun n => n = 1, fun _ => 0⟩

/-- The status cannot be stored: the call returns -1. -/
theorem failsClean_oneChild :
    (∃ s, sysWaitx initproc onePage 8192 4096 4100 (7, 0) [oneChild (exitedWith 3 5 20)] =
        some (s, -1)) ∧
      FailsClean initproc onePage 8192 4096 4100 [oneChild (exitedWith 3 5 20)]
        (oneChild (exitedWith 3 5 20)) :=
  ⟨⟨_, rfl⟩, (failsClean_iff (k := oneChild (exitedWith 3 5 20)) rfl (by decide)).mpr (by
    rw [Storable, if_pos (by decide)]
    exact .inl ⟨by decide, by decide⟩)⟩

/-- With an address that is not mapped the call returns -1 and the child is gone; without a child
it returns -1 and the old contents of a local are in user memory. -/
theorem sysWaitx_loses_child :
    (∃ s, sysWaitx initproc onePage 0 4096 8192 (0, 0) [oneChild (exitedWith 3 5 20)] =
        some (s, -1) ∧ (s.kern.proc 1).state = .unused) ∧
      (∃ s, sysWaitx initproc onePage 0 4096 4100 (7, 0) [oneChild Proc.zero] = some (s, -1) ∧
        s.user.byte 4096 = 7) :=
  ⟨⟨_, rfl, by decide⟩, ⟨_, rfl, by decide⟩⟩

/-! ## Where the times go -/

/-- The `int` at a user address. -/
def loadInt (u : UserMem) (a : ℕ) : ℕ := getLe u.byte a 4

theorem getLe_byteLe_word (b : Buf) (a : ℕ) (x : UInt32) :
    getLe (blit b a 4 (byteLe x.toNat)) a 4 = x.toNat := by
  rw [getLe_blit_byteLe]
  exact Nat.mod_eq_of_lt x.toNat_lt

/-- Two addresses at which an `int` can be stored without touching the other. -/
def Apart (a c : ℕ) : Prop := a + 4 ≤ c ∨ c + 4 ≤ a

instance (a c : ℕ) : Decidable (Apart a c) := by unfold Apart; infer_instance

/-- The call of the prototype `int waitx(int*, int* /*wtime*/, int* /*rtime*/)` on an exited child
and valid pointers; the status pointer may be null. -/
structure ValidCall (p : Slot) (u : UserMem) (status wp rp : ℕ) (ks : List Kern) (k : Kern)
    (np : Slot) : Prop where
  deciding : deciding p u status ks = some k
  child : k.exitedChild p = some np
  waiting : HasInt u wp
  running : HasInt u rp
  apart : Apart wp rp
  status : status ≠ 0 → HasInt u status ∧ Apart status wp ∧ Apart status rp

/-- Each value is where the prototype says. -/
structure Delivered (u : UserMem) (status wp rp : ℕ) (x : Proc) : Prop where
  rtime : loadInt u rp = x.rtime.toUInt32.toNat
  wtime : loadInt u wp = (x.etime - x.ctime - x.rtime).toUInt32.toNat
  status : status ≠ 0 → loadInt u status = x.xstate.toUInt32.toNat

/-- What the call stores: the times in each other's place. -/
theorem ValidCall.stores {status wp rp : ℕ}
    (h : ValidCall p u status wp rp ks k np) (junk : UInt32 × UInt32) :
    ∃ s, sysWaitx p u status wp rp junk ks = some (s, (k.proc np).pid) ∧
      loadInt s.user wp = (k.proc np).rtime.toUInt32.toNat ∧
      loadInt s.user rp =
        ((k.proc np).etime - (k.proc np).ctime - (k.proc np).rtime).toUInt32.toNat ∧
      (status ≠ 0 → loadInt s.user status = (k.proc np).xstate.toUInt32.toNat) := by
  have hspan : ∀ {a}, HasInt u a → u.Span a 4 4 :=
    fun hint => ⟨le_rfl, hint, fun hlt => absurd hlt (lt_irrefl 4)⟩
  have hcall := sysWaitx_of_child h.deciding h.child (hspan h.waiting) (hspan h.running) junk
  have hcopied : status = 0 ∨ HasInt u status := by
    by_cases hs : status = 0
    · exact .inl hs
    · exact .inr (h.status hs).1
  rw [if_pos hcopied, if_pos ⟨hcopied, h.waiting, h.running⟩] at hcall
  have hapart := h.apart
  rw [Apart] at hapart
  refine ⟨_, hcall, ?_, ?_, fun hs => ?_⟩
  · rw [loadInt, putTimes, if_pos rfl, getLe_blit_of_disjoint hapart]
    exact getLe_byteLe_word _ _ _
  · rw [loadInt, putTimes, if_pos rfl]
    exact getLe_byteLe_word _ _ _
  · obtain ⟨hint, hwp, hrp⟩ := h.status hs
    rw [Apart] at hwp hrp
    rw [loadInt, putTimes, if_pos rfl, getLe_blit_of_disjoint hrp, getLe_blit_of_disjoint hwp,
      putStatus, if_neg hs, copyoutInt_of_span (hspan hint)]
    exact getLe_byteLe_word _ _ _

/-- **Where `waitx` delivers the times.** A call on valid pointers returns the child's pid, and
the values are where the prototype says exactly if the child's running time is its waiting
time. -/
theorem delivered_iff {status wp rp : ℕ} {ks : List Kern} {np : Slot}
    (h : ValidCall p u status wp rp ks k np) (junk : UInt32 × UInt32) :
    ∃ s, sysWaitx p u status wp rp junk ks = some (s, (k.proc np).pid) ∧
      (Delivered s.user status wp rp (k.proc np) ↔ (k.proc np).rtime =
        (k.proc np).etime - (k.proc np).ctime - (k.proc np).rtime) := by
  obtain ⟨s, hcall, hwp, hrp, hstatus⟩ := h.stores junk
  have hinj : ∀ {x y : Int32}, x.toUInt32.toNat = y.toUInt32.toNat → x = y :=
    fun heq => congrArg UInt32.toInt32 (UInt32.toNat_inj.mp heq)
  refine ⟨s, hcall, fun hd => ?_, fun heq => ?_⟩
  · exact hinj (hwp.symm.trans hd.wtime)
  · refine ⟨?_, ?_, hstatus⟩
    · rw [hrp, ← heq]
    · rw [hwp, ← heq]

theorem validCall_oneChild (rtime : Int32) :
    ValidCall initproc onePage 4096 4100 4104 [oneChild (exitedWith 3 rtime 20)]
      (oneChild (exitedWith 3 rtime 20)) 1 :=
  ⟨rfl, rfl, by decide, by decide, by decide, fun _ => ⟨by decide, by decide, by decide⟩⟩

theorem delivered_oneChild : ∃ s, sysWaitx initproc onePage 4096 4100 4104 (0, 0)
    [oneChild (exitedWith 3 10 20)] = some (s, 2) ∧
      Delivered s.user 4096 4100 4104 (exitedWith 3 10 20) := by
  obtain ⟨s, hcall, hiff⟩ := delivered_iff (validCall_oneChild 10) (0, 0)
  exact ⟨s, hcall, hiff.mpr (by decide)⟩

/-- A child that ran for 5 ticks of its 20: the caller finds 15 under the running time. -/
theorem oneChild_not_delivered : ∃ s, sysWaitx initproc onePage 4096 4100 4104 (0, 0)
    [oneChild (exitedWith 3 5 20)] = some (s, 2) ∧ loadInt s.user 4100 = 5 ∧
      loadInt s.user 4104 = 15 ∧ ¬ Delivered s.user 4096 4100 4104 (exitedWith 3 5 20) := by
  obtain ⟨s, hcall, hwp, hrp, -⟩ := (validCall_oneChild 5).stores (0, 0)
  refine ⟨s, hcall, hwp, hrp, fun hd => ?_⟩
  have heq := hrp.symm.trans hd.rtime
  exact absurd heq (by decide)

end Kern

end Xv6
