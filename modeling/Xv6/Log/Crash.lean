import Xv6.Log.Commit

/-!
# Crash atomicity of the log

A transaction is a sequence of buffers that were modified and handed to `log_write`. Whatever
the point between two block writes at which `commit` is cut off, and however often recovery is
cut off after it, the recovery that completes leaves the blocks outside the log all as before
the transaction or all as after it. The two invariants are `Clean`, the disk with no transaction
pending, and `Committed`, the disk between the two header writes.
-/

namespace Xv6

open Lib Lib.Dev

/-- The blocks of the log: the header at `start` and the log blocks after it. -/
def Log.Area (l : Log) (b : BlockNo) : Prop :=
  ∃ i : ℕ, (i : ℤ) < l.size ∧ b = l.start + UInt32.ofNat i

variable {l : Log}

theorem Log.area_start (h : 0 < l.size) : l.Area l.start := ⟨0, by simpa using h, by simp⟩

theorem Log.area_slot {i : ℕ} (h : (i : ℤ) < l.size - 1) : l.Area (logSlot l.start i) := by
  refine ⟨i + 1, by push_cast; omega, ?_⟩
  rw [logSlot, UInt32.ofNat_add, UInt32.add_assoc]
  rfl

/-- One step of a transaction: a buffer is filled with new contents and recorded. -/
def logBlock (m : Mem) (w : BlockNo × Block) : Except String Mem := logWrite (m.fill w.1 w.2) w.1

/-- A transaction: the buffers its operations modify and record, in order. -/
def logBlocks (m : Mem) : List (BlockNo × Block) → Except String Mem
  | [] => .ok m
  | w :: ws => logBlock m w >>= fun m' => logBlocks m' ws

/-- What recording keeps true of the in-memory header. -/
structure Log.Fits (l : Log) : Prop where
  nodup : l.lh.Nodup
  length_le : l.lh.length ≤ LOGSIZE
  length_lt : l.lh ≠ [] → (l.lh.length : ℤ) ≤ l.size - 1

/-- What a transaction leaves in memory. -/
structure Recorded (m : Mem) (tx : List (BlockNo × Block)) (m' : Mem) : Prop where
  start : m'.log.start = m.log.start
  size : m'.log.size = m.log.size
  fits : m'.log.Fits
  mem_lh : ∀ b, b ∈ m'.log.lh ↔ b ∈ m.log.lh ∨ b ∈ tx.map Prod.fst
  look : ∀ d, m'.look d = store tx (m.look d)

theorem logBlock_recorded {m m' : Mem} {w : BlockNo × Block} (hm : m.log.Fits)
    (h : logBlock m w = .ok m') : Recorded m [w] m' := by
  obtain ⟨hroom, hsize, -, hcache, hlog⟩ := logWrite_ok h
  replace hlog : m'.log =
    { m.log with lh := if w.1 ∈ m.log.lh then m.log.lh else m.log.lh ++ [w.1] } := hlog
  simp only [Mem.log_fill] at hroom hsize
  have hlook : ∀ d, m'.look d = store [w] (m.look d) := by
    intro d
    have : m'.look d = (m.fill w.1 w.2).look d := by funext b; simp [Mem.look, hcache]
    rw [this, Mem.look_fill]; rfl
  by_cases hb : w.1 ∈ m.log.lh
  · rw [if_pos hb] at hlog
    refine ⟨by rw [hlog], by rw [hlog], by rw [hlog]; exact hm, ?_, hlook⟩
    intro b
    rw [hlog]
    simp only [List.map_cons, List.map_nil, List.mem_singleton, iff_self_or]
    rintro rfl
    exact hb
  · rw [if_neg hb] at hlog
    refine ⟨by rw [hlog], by rw [hlog], ?_, ?_, hlook⟩
    · rw [hlog]
      refine ⟨?_, ?_, ?_⟩
      · simpa [List.concat_eq_append] using hm.nodup.concat hb
      · simpa using Nat.succ_le_of_lt hroom
      · intro _; simp only [List.length_append, List.length_singleton]; push_cast; omega
    · intro b; rw [hlog]; simp

theorem logBlocks_recorded {m m' : Mem} {tx : List (BlockNo × Block)} (hm : m.log.Fits)
    (h : logBlocks m tx = .ok m') : Recorded m tx m' := by
  induction tx generalizing m with
  | nil =>
    simp only [logBlocks, Except.ok.injEq] at h
    subst h
    exact ⟨rfl, rfl, hm, by simp, fun _ => rfl⟩
  | cons w tx ih =>
    simp only [logBlocks] at h
    cases hw : logBlock m w with
    | error e => rw [hw] at h; cases h
    | ok m₁ =>
      rw [hw] at h
      have h₁ := logBlock_recorded hm hw
      have h₂ := ih h₁.fits h
      refine ⟨by rw [h₂.start, h₁.start], by rw [h₂.size, h₁.size], h₂.fits, ?_, ?_⟩
      · intro b
        rw [h₂.mem_lh, h₁.mem_lh]
        simp [or_assoc]
      · intro d; rw [h₂.look, h₁.look]; rfl

/-! ## The two invariants -/

/-- No transaction is pending: the header on disk is clear and the blocks outside the log are
those of `view`. -/
structure Clean (l : Log) (view d : Disk) : Prop where
  head : headN (d l.start) = 0
  rest : ∀ b, ¬ l.Area b → d b = view b

/-- The transaction `lh` is committed and partly installed: the header lists it, the log slots
hold its contents, and only its own blocks may still differ from `view`. -/
structure Committed (l : Log) (view d : Disk) : Prop where
  head : getHead (d l.start) = l.lh
  slots : ∀ i (hi : i < l.lh.length), d (logSlot l.start i) = view l.lh[i]
  rest : ∀ b, ¬ l.Area b → b ∉ l.lh → d b = view b

/-- A header that recording has filled, none of whose blocks lies in the log. -/
structure Log.Ready (l : Log) : Prop extends l.Fits where
  off : ∀ b ∈ l.lh, ¬ l.Area b

theorem Log.Ready.offSlots (h : l.Ready) : OffSlots l.start l.lh.length l.lh := by
  intro b hb i hi heq
  have hne : l.lh ≠ [] := List.ne_nil_of_mem hb
  have hlt := h.length_lt hne
  exact h.off b hb (heq ▸ Log.area_slot (by omega))

theorem Log.Ready.size_pos (h : l.Ready) (hne : l.lh ≠ []) : 0 < l.size := by
  have := h.length_lt hne
  have : 0 < l.lh.length := List.length_pos_of_ne_nil hne
  omega

theorem Log.Ready.slot_notMem (h : l.Ready) {i : ℕ} (hi : i < l.lh.length) :
    logSlot l.start i ∉ l.lh := fun hmem => h.offSlots _ hmem i hi rfl

theorem Log.Ready.start_notMem (h : l.Ready) : l.start ∉ l.lh := fun hmem =>
  h.off _ hmem (Log.area_start (h.size_pos (List.ne_nil_of_mem hmem)))

theorem Log.Ready.area_slot (h : l.Ready) {i : ℕ} (hi : i < l.lh.length) :
    l.Area (logSlot l.start i) := by
  have := h.length_lt (List.ne_nil_of_length_pos (by omega))
  exact Log.area_slot (by omega)

theorem Log.Ready.slot_ne_start (h : l.Ready) {i : ℕ} (hi : i < l.lh.length) :
    logSlot l.start i ≠ l.start := by
  have := h.length_le
  simp only [LOGSIZE, MAXOPBLOCKS] at this
  exact logSlot_ne_start (by omega)

/-- The writes that install the contents `view` of the transaction. -/
def Log.homes (l : Log) (view : Disk) : List (BlockNo × Block) := l.lh.map fun b => (b, view b)

theorem Log.map_fst_homes (l : Log) (view : Disk) : (l.homes view).map Prod.fst = l.lh := by
  rw [homes, List.map_map]
  exact List.map_id l.lh

/-- A block that is not one of the transaction's is not touched by any part of installing it. -/
theorem Log.store_homes_of_notMem {view : Disk} {b : BlockNo} (hb : b ∉ l.lh) (k : ℕ)
    (d : Disk) : store ((l.homes view).take k) d b = d b := by
  apply store_of_notMem
  intro hmem
  have hmem := List.map_subset _ (List.take_subset k _) hmem
  rw [l.map_fst_homes view] at hmem
  exact hb hmem

variable {view d : Disk}

/-- A partly installed transaction is still committed. -/
theorem Committed.install (hl : l.Ready) (h : Committed l view d)
    (k : ℕ) : Committed l view (store ((l.homes view).take k) d) := by
  refine ⟨?_, ?_, ?_⟩
  · rw [Log.store_homes_of_notMem hl.start_notMem]; exact h.head
  · intro i hi
    rw [Log.store_homes_of_notMem (hl.slot_notMem hi)]
    exact h.slots i hi
  · intro b hb hmem
    rw [Log.store_homes_of_notMem hmem]
    exact h.rest b hb hmem

/-- Installing everything and clearing the header completes the transaction. -/
theorem Committed.clear (hl : l.Ready) (hsize : 0 < l.size)
    (h : Committed l view d) {h₀ : Block} (hh₀ : headN h₀ = 0) :
    Clean l view (store (l.homes view ++ [(l.start, h₀)]) d) := by
  rw [store_append]
  refine ⟨by simpa using hh₀, ?_⟩
  intro b hb
  have hne : b ≠ l.start := fun heq => hb (heq ▸ Log.area_start hsize)
  rw [store_of_notMem (by simpa using hne)]
  by_cases hmem : b ∈ l.lh
  · apply store_of_mem
    · rw [l.map_fst_homes view]; exact hl.nodup
    · exact List.mem_map.mpr ⟨b, hmem, rfl⟩
  · rw [store_of_notMem (by rwa [l.map_fst_homes view])]
    exact h.rest b hb hmem

/-! ## Recovery -/

/-- Memory after a reboot, once `initlog` has taken the log's place from the superblock. -/
def bootMem (l : Log) : Mem where
  log := { start := l.start, size := l.size, outstanding := 0, committing := false, lh := [] }
  cache := fun _ => none
  pins := fun _ => 0

@[simp] theorem look_bootMem (l : Log) (d : Disk) : (bootMem l).look d = d := rfl
@[simp] theorem start_bootMem (l : Log) : (bootMem l).log.start = l.start := rfl

/-- Recovery of a clean disk writes a clear header over itself: it changes nothing. -/
theorem Clean.recover (h : Clean l view d) (k : ℕ) : recoverFromLog.crash (bootMem l) d k = d := by
  have hnil : getHead ((bootMem l).look d (bootMem l).log.start) = [] := getHead_eq_nil h.head
  have hw := writes_recoverFromLog hnil (by intro b hb; cases hb)
  have hhead : putHead [] (d l.start) = d l.start := putHead_nil_of_headN h.head
  rw [crash, hw]
  cases k with
  | zero => rfl
  | succ k => simp [homeWrites, hhead]

/-- Recovery of a committed disk leaves it committed until its last write, which completes the
transaction. -/
theorem Committed.recover (hl : l.Ready) (hne : l.lh ≠ []) (h : Committed l view d) :
    (∀ k, Committed l view (recoverFromLog.crash (bootMem l) d k) ∨
      Clean l view (recoverFromLog.crash (bootMem l) d k)) ∧
    Clean l view (recoverFromLog.disk (bootMem l) d) := by
  have hlist : getHead ((bootMem l).look d (bootMem l).log.start) = l.lh := h.head
  have hw := writes_recoverFromLog hlist hl.offSlots
  rw [look_bootMem, start_bootMem, homeWrites_eq_map h.slots] at hw
  have hdone : Clean l view (recoverFromLog.disk (bootMem l) d) := by
    rw [disk, hw]
    exact h.clear hl (hl.size_pos hne) (headN_putHead_nil _)
  refine ⟨fun k => ?_, hdone⟩
  by_cases hk : k ≤ l.lh.length
  · left
    rw [crash, hw, List.take_append_of_le_length (by simpa using hk)]
    exact h.install hl k
  · right
    rw [crash, List.take_of_length_le (by rw [hw]; simp; omega)]
    exact hdone

/-- A clean disk stays clean however often recovery is cut off. -/
theorem Clean.recovers {view d e : Disk} (h : Clean l view d)
    (hrec : Recovers recoverFromLog (bootMem l) d e) : Clean l view e := by
  refine hrec.rule (I := Clean l view) ?_ ?_ h
  · intro d k hd; rw [hd.recover k]; exact hd
  · intro d hd; rw [disk_eq_crash, hd.recover]; exact hd

/-- A committed transaction is installed however often recovery is cut off. -/
theorem Committed.recovers {view d e : Disk} (hl : l.Ready) (hne : l.lh ≠ [])
    (h : Committed l view d) (hrec : Recovers recoverFromLog (bootMem l) d e) : Clean l view e := by
  refine hrec.rule (I := fun d => Committed l view d ∨ Clean l view d) ?_ ?_ (Or.inl h)
  · rintro d k (hd | hd)
    · exact (hd.recover hl hne).1 k
    · right; rw [hd.recover k]; exact hd
  · rintro d (hd | hd)
    · exact (hd.recover hl hne).2
    · rw [disk_eq_crash, hd.recover]; exact hd

/-! ## Commit -/

/-- Until the header is written, a crash of `commit` leaves the old contents and a clear
header. -/
theorem crash_commit_before {m : Mem} {d : Disk} (hl : m.log.Ready)
    (hd : headN (d m.log.start) = 0) {k : ℕ} (hk : k ≤ m.log.lh.length) :
    Clean m.log d (commit.crash m d k) := by
  by_cases hne : m.log.lh = []
  · rw [crash, writes_commit_nil hne]
    simpa using Clean.mk hd fun _ _ => rfl
  obtain ⟨h₁, h₀, -, -, hw⟩ := writes_commit (d := d) hne hl.length_le hl.offSlots
  rw [crash, hw, List.take_append_of_le_length (by simpa [logWrites] using hk)]
  refine ⟨?_, ?_⟩
  · rw [store_logWrites_of_ne d fun i hi => (hl.slot_ne_start hi).symm]
    exact hd
  · intro b hb
    refine store_logWrites_of_ne d ?_ k
    rintro i hi rfl
    exact hb (hl.area_slot hi)

/-- From the header write on, a crash of `commit` leaves a disk from which recovery installs
the transaction. -/
theorem crash_commit_after {m : Mem} {d view : Disk} (hl : m.log.Ready) (hne : m.log.lh ≠ [])
    (hlook : ∀ b ∈ m.log.lh, m.look d b = view b)
    (hrest : ∀ b, ¬ m.log.Area b → b ∉ m.log.lh → d b = view b) {k : ℕ}
    (hk : m.log.lh.length < k) :
    Committed m.log view (commit.crash m d k) ∨ Clean m.log view (commit.crash m d k) := by
  obtain ⟨h₁, h₀, hh₁, hh₀, hw⟩ := writes_commit (d := d) hne hl.length_le hl.offSlots
  have hhomes : m.log.lh.map (fun b => (b, m.look d b)) = m.log.homes view := by
    apply List.map_congr_left
    intro b hb
    rw [hlook b hb]
  rw [hhomes] at hw
  -- the disk just after the header write
  have hcommitted : Committed m.log view
      (store (logWrites m.log.start (m.look d) 0 m.log.lh ++ [(m.log.start, h₁)]) d) := by
    rw [store_append]
    refine ⟨by simpa using hh₁, ?_, ?_⟩
    · intro i hi
      rw [store_of_notMem (by simpa using hl.slot_ne_start hi), store_logWrites hl.length_le _ hi]
      exact hlook _ (List.getElem_mem hi)
    · intro b hb hmem
      have hstart : b ≠ m.log.start := fun heq =>
        hb (heq ▸ Log.area_start (hl.size_pos hne))
      have hslots : ∀ i < m.log.lh.length, b ≠ logSlot m.log.start i := fun i hi heq =>
        hb (heq ▸ hl.area_slot hi)
      rw [store_of_notMem (by simpa using hstart)]
      have := store_logWrites_of_ne (f := m.look d) d hslots m.log.lh.length
      rw [List.take_of_length_le (by simp [logWrites])] at this
      rw [this]
      exact hrest b hb hmem
  rw [← List.append_assoc] at hw
  rw [crash, hw, List.take_append, List.take_of_length_le (by simp [logWrites]; omega),
    store_append]
  set j := k - (logWrites m.log.start (m.look d) 0 m.log.lh ++ [(m.log.start, h₁)]).length
  by_cases hj : j ≤ (m.log.homes view).length
  · left
    rw [List.take_append_of_le_length hj]
    exact hcommitted.install hl j
  · right
    rw [List.take_of_length_le (by simp; omega)]
    exact hcommitted.clear hl (hl.size_pos hne) hh₀

/-- **Crash atomicity.** Take a disk with no transaction pending and any transaction whose
blocks lie outside the log. Cut `commit` off after `k` block writes, let recovery be cut off any
number of times, and let one recovery complete: the header on disk is clear and the blocks
outside the log are all as before the transaction or all with its contents, the latter whenever
the first header write had reached the disk. -/
theorem crash_atomic {m₀ m : Mem} {d e : Disk} {tx : List (BlockNo × Block)}
    (hempty : m₀.log.lh = []) (hhead : headN (d m₀.log.start) = 0)
    (htx : logBlocks m₀ tx = .ok m) (hout : ∀ b ∈ tx.map Prod.fst, ¬ m₀.log.Area b) (k : ℕ)
    (hrec : Recovers recoverFromLog (bootMem m₀.log) (commit.crash m d k) e) :
    headN (e m₀.log.start) = 0 ∧
      ((∀ b, ¬ m₀.log.Area b → e b = d b) ∨ (∀ b, ¬ m₀.log.Area b → e b = store tx d b)) ∧
      (m.log.lh.length < k → ∀ b, ¬ m₀.log.Area b → e b = store tx d b) := by
  have hrecd : Recorded m₀ tx m := logBlocks_recorded
    ⟨by simp [hempty], by simp [hempty], fun h => absurd hempty h⟩ htx
  have hmem : ∀ b, b ∈ m.log.lh ↔ b ∈ tx.map Prod.fst := by
    intro b; rw [hrecd.mem_lh]; simp [hempty]
  have harea : ∀ b, m.log.Area b ↔ m₀.log.Area b := by
    intro b; simp only [Log.Area, hrecd.start, hrecd.size]
  have hl : m.log.Ready := by
    refine ⟨hrecd.fits, ?_⟩
    intro b hb
    rw [harea]
    exact hout b ((hmem b).mp hb)
  have hboot : bootMem m₀.log = bootMem m.log := by simp [bootMem, hrecd.start, hrecd.size]
  rw [hboot] at hrec
  rw [← hrecd.start] at hhead ⊢
  -- the contents of the transaction, in the cache and at home
  have hlook : ∀ b ∈ m.log.lh, m.look d b = store tx d b := by
    intro b hb
    rw [hrecd.look]
    exact store_congr (Or.inl ((hmem b).mp hb))
  have hrest : ∀ b, b ∉ m.log.lh → d b = store tx d b := by
    intro b hb
    rw [store_of_notMem (by rwa [← hmem b])]
  by_cases hne : m.log.lh = []
  · -- nothing was recorded: the transaction is empty
    have hclean : Clean m.log d (commit.crash m d k) := by
      rw [crash, writes_commit_nil hne]
      simpa using Clean.mk hhead fun _ _ => rfl
    have he := hclean.recovers hrec
    have hold : ∀ b, ¬ m₀.log.Area b → e b = d b := fun b hb =>
      he.rest b (by rwa [harea])
    have hnew : ∀ b, ¬ m₀.log.Area b → e b = store tx d b := fun b hb => by
      rw [hold b hb]; exact hrest b (by simp [hne])
    exact ⟨he.head, Or.inl hold, fun _ => hnew⟩
  by_cases hk : k ≤ m.log.lh.length
  · have he := (crash_commit_before hl hhead hk).recovers hrec
    exact ⟨he.head, Or.inl fun b hb => he.rest b (by rwa [harea]), fun h => absurd hk (by omega)⟩
  · have he : Clean m.log (store tx d) e := by
      rcases crash_commit_after hl hne hlook (fun b _ hb => hrest b hb)
          (lt_of_not_ge hk) with h | h
      · exact h.recovers hl hne hrec
      · exact h.recovers hrec
    have hnew : ∀ b, ¬ m₀.log.Area b → e b = store tx d b := fun b hb =>
      he.rest b (by rwa [harea])
    exact ⟨he.head, Or.inr hnew, fun _ => hnew⟩

/-- A log at block 2 as `mkfs` lays it out, with one operation in progress. -/
def quietMem : Mem where
  log := { start := 2, size := 30, outstanding := 1, committing := false, lh := [] }
  cache := fun _ => none
  pins := fun _ => 0

theorem crash_atomic_one_block : ∃ m e,
    logBlocks quietMem [(40, fun _ => 7)] = .ok m ∧
      Recovers recoverFromLog (bootMem quietMem.log) (commit.crash m (fun _ _ => 0) 2) e ∧
      headN (e 2) = 0 ∧ e 40 = fun _ => 7 := by
  have harea : ¬ quietMem.log.Area 40 := by
    rintro ⟨i, hi, h⟩
    have h' := congrArg UInt32.toNat h
    simp only [quietMem, UInt32.toNat_add, UInt32.toNat_ofNat'] at h' hi
    have h40 : (40 : UInt32).toNat = 40 := rfl
    have h2 : (2 : UInt32).toNat = 2 := rfl
    omega
  -- recovery is cut off after installing the block and then completes
  have htx : ∃ m, logBlocks quietMem [(40, fun _ => 7)] = .ok m ∧ m.log.lh.length < 2 :=
    ⟨_, rfl, by decide⟩
  obtain ⟨m, htx, hlen⟩ := htx
  have h := crash_atomic (d := fun _ _ => 0) rfl rfl htx (by simpa using harea) 2
    ((Recovers.done _).again 1)
  exact ⟨m, _, htx, (Recovers.done _).again 1, h.1, by simpa using h.2.2 hlen 40 harea⟩

end Xv6
