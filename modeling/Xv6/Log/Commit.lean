import Xv6.Log.Disk
import Mathlib.Data.List.Nodup

/-!
# Committing and recovering a transaction

`log.c` from `install_trans` to `log_write`, translated statement by statement: `logWrite`
records a block, `commit` copies the recorded blocks to the log, writes the header, installs
the blocks at home and clears the header, and `recoverFromLog` redoes the installation from the
header found on disk.
-/

namespace Xv6

open Lib Lib.Dev

/-- `log.start + tail + 1`, the log block of the `tail`-th entry of the header. -/
def logSlot (start : BlockNo) (tail : ℕ) : BlockNo := start + UInt32.ofNat tail + 1

theorem toNat_logSlot (start : BlockNo) (i : ℕ) :
    (logSlot start i).toNat = (start.toNat + i + 1) % 2 ^ 32 := by
  simp only [logSlot, UInt32.toNat_add, UInt32.toNat_ofNat', UInt32.toNat_one]
  omega

variable {start : BlockNo}

theorem logSlot_inj {i j : ℕ} (hi : i < 2 ^ 32) (hj : j < 2 ^ 32)
    (h : logSlot start i = logSlot start j) : i = j := by
  have h' := congrArg UInt32.toNat h
  rw [toNat_logSlot, toNat_logSlot] at h'
  omega

theorem logSlot_ne_start {i : ℕ} (hi : i + 1 < 2 ^ 32) : logSlot start i ≠ start := by
  intro h
  have h' := congrArg UInt32.toNat h
  have hlt := start.toNat_lt
  rw [toNat_logSlot] at h'
  omega

/-- The body of the loop of `install_trans`, for the entry `block[tail] = b`. -/
def installBlock (recovering : Bool) (tail : ℕ) (b : BlockNo) : LogM Unit := do
  let start ← gets fun m => m.log.start
  let lbuf ← bread (logSlot start tail)
  let _dbuf ← bread b
  bwrite b lbuf
  if recovering then pure () else bunpin b

/-- The loop of `install_trans`, from entry `tail` on. -/
def installTransFrom (recovering : Bool) : ℕ → List BlockNo → LogM Unit
  | _, [] => pure ()
  | tail, b :: bs => do
      installBlock recovering tail b
      installTransFrom recovering (tail + 1) bs

/-- Copy committed blocks from the log to their home location. -/
def installTrans (recovering : Bool) : LogM Unit := do
  let lh ← gets fun m => m.log.lh
  installTransFrom recovering 0 lh

/-- Set the in-memory header. -/
def setLh (lh : List BlockNo) : LogM Unit := modify fun m => { m with log := { m.log with lh } }

/-- Read the log header from disk into the in-memory log header. -/
def readHead : LogM Unit := do
  let start ← gets fun m => m.log.start
  let buf ← bread start
  setLh (getHead buf)

/-- Write the in-memory log header to disk: the point at which the transaction commits. -/
def writeHead : LogM Unit := do
  let start ← gets fun m => m.log.start
  let lh ← gets fun m => m.log.lh
  let buf ← bread start
  bwrite start (putHead lh buf)

/-- Install a committed transaction found on disk and clear the log. -/
def recoverFromLog : LogM Unit := do
  readHead
  installTrans true
  setLh []
  writeHead

/-- The body of the loop of `write_log`, for the entry `block[tail] = b`. -/
def writeLogBlock (tail : ℕ) (b : BlockNo) : LogM Unit := do
  let start ← gets fun m => m.log.start
  let _to ← bread (logSlot start tail)
  let src ← bread b
  bwrite (logSlot start tail) src

/-- The loop of `write_log`, from entry `tail` on. -/
def writeLogFrom : ℕ → List BlockNo → LogM Unit
  | _, [] => pure ()
  | tail, b :: bs => do
      writeLogBlock tail b
      writeLogFrom (tail + 1) bs

/-- Copy modified blocks from the cache to the log. -/
def writeLog : LogM Unit := do
  let lh ← gets fun m => m.log.lh
  writeLogFrom 0 lh

/-- Commit the recorded transaction. -/
def commit : LogM Unit := do
  let lh ← gets fun m => m.log.lh
  if lh.length > 0 then
    writeLog
    writeHead
    installTrans false
    setLh []
    writeHead
  else pure ()

/-- Record a modified block in the header, absorbing it if it is recorded already, and pin it
in the cache. -/
def logWrite (m : Mem) (b : BlockNo) : Except String Mem :=
  if m.log.lh.length ≥ LOGSIZE ∨ (m.log.lh.length : ℤ) ≥ m.log.size - 1 then
    .error "too big a transaction"
  else if m.log.outstanding < 1 then
    .error "log_write outside of trans"
  else
    let i := m.log.lh.idxOf b
    if i = m.log.lh.length then
      let m := bpin m b
      .ok { m with log := { m.log with lh := m.log.lh ++ [b] } }
    else
      .ok { m with log := { m.log with lh := m.log.lh.set i b } }

/-- What a successful `log_write` has checked and done. -/
theorem logWrite_ok {m m' : Mem} {b : BlockNo} (h : logWrite m b = .ok m') :
    m.log.lh.length < LOGSIZE ∧ (m.log.lh.length : ℤ) < m.log.size - 1 ∧
      1 ≤ m.log.outstanding ∧ m'.cache = m.cache ∧
      m'.log = { m.log with lh := if b ∈ m.log.lh then m.log.lh else m.log.lh ++ [b] } := by
  unfold logWrite at h
  split at h
  · cases h
  rename_i hroom
  split at h
  · cases h
  rename_i hout
  simp only [not_or, not_le, ge_iff_le] at hroom
  refine ⟨hroom.1, hroom.2, by omega, ?_⟩
  by_cases hb : b ∈ m.log.lh
  · have hi : m.log.lh.idxOf b < m.log.lh.length := List.idxOf_lt_length_of_mem hb
    simp only [hi.ne, if_false, Except.ok.injEq] at h
    subst h
    have hset : m.log.lh.set (m.log.lh.idxOf b) b = m.log.lh := by
      conv_rhs => rw [← List.set_getElem_self hi]
      rw [List.getElem_idxOf hi]
    simp [hb, hset]
  · have hi : m.log.lh.idxOf b = m.log.lh.length := List.idxOf_eq_length hb
    simp only [hi, if_true, Except.ok.injEq] at h
    subst h
    simp [hb, bpin]

variable {m : Mem}

/-- With room in the log and inside an operation, `log_write` does not panic. -/
theorem exists_logWrite_ok (hlen : m.log.lh.length < LOGSIZE)
    (hsize : (m.log.lh.length : ℤ) < m.log.size - 1) (hout : 1 ≤ m.log.outstanding)
    (b : BlockNo) : ∃ m', logWrite m b = .ok m' := by
  rw [logWrite, if_neg (by omega), if_neg (by omega)]
  dsimp only
  split <;> exact ⟨_, rfl⟩

/-! ## What the programs write

Every program changes what `bread` returns exactly as its writes change the disk, so its writes
can be computed from `struct log` and from the contents `bread` returned at its start. -/

/-- Run from `m` and `d`, the program issues the writes `ws`, leaves `struct log` as `l`, and
later reads see what it wrote. -/
structure Issues {α : Type} (p : LogM α) (m : Mem) (d : Disk) (ws : List (BlockNo × Block))
    (l : Log) : Prop where
  writes : p.writes m d = ws
  log : (p.state m d).log = l
  look : (p.state m d).look (p.disk m d) = store ws (m.look d)

variable {d : Disk}

/-- The rule for sequencing: the continuation is described from any memory and disk that look
as the first program left them. -/
theorem Issues.bind {α β : Type} {p : LogM α} {f : α → LogM β}
    {ws ws' : List (BlockNo × Block)} {l l' : Log} (hp : Issues p m d ws l)
    (hf : ∀ m' d', m'.log = l → m'.look d' = store ws (m.look d) →
      Issues (f (p.val m d)) m' d' ws' l') :
    Issues (p >>= f) m d (ws ++ ws') l' := by
  have h := hf (p.state m d) (p.disk m d) hp.log hp.look
  refine ⟨?_, ?_, ?_⟩
  · rw [writes_bind, hp.writes, h.writes]
  · rw [state_bind, h.log]
  · rw [state_bind, disk_bind, h.look, hp.look, store_append]

/-- Sequencing after a program that writes nothing. -/
theorem Issues.bind_read {α β : Type} {p : LogM α} {f : α → LogM β}
    {ws : List (BlockNo × Block)} {l l' : Log} (hp : Issues p m d [] l)
    (hf : ∀ m' d', m'.log = l → m'.look d' = m.look d →
      Issues (f (p.val m d)) m' d' ws l') : Issues (p >>= f) m d ws l' :=
  hp.bind fun m' d' hl hk => hf m' d' hl hk

/-- Sequencing before a program that writes nothing. -/
theorem Issues.bind_quiet {α β : Type} {p : LogM α} {f : α → LogM β}
    {ws : List (BlockNo × Block)} {l l' : Log} (hp : Issues p m d ws l)
    (hf : ∀ m' d', m'.log = l → Issues (f (p.val m d)) m' d' [] l') :
    Issues (p >>= f) m d ws l' := by
  have h := hp.bind fun m' d' hl _ => hf m' d' hl
  rwa [List.append_nil] at h

theorem issues_pure {α : Type} (a : α) (m : Mem) (d : Disk) :
    Issues (pure a : LogM α) m d [] m.log := ⟨rfl, rfl, rfl⟩

theorem issues_gets {α : Type} (f : Mem → α) (m : Mem) (d : Disk) :
    Issues (gets f : LogM α) m d [] m.log := ⟨rfl, rfl, rfl⟩

theorem issues_setLh (lh : List BlockNo) (m : Mem) (d : Disk) :
    Issues (setLh lh) m d [] { m.log with lh } := ⟨rfl, rfl, rfl⟩

theorem issues_bread (b : BlockNo) (m : Mem) (d : Disk) : Issues (bread b) m d [] m.log :=
  ⟨writes_bread m d b, log_bread m d b, by rw [disk_bread, look_bread]; rfl⟩

theorem issues_bwrite (b : BlockNo) (data : Block) (m : Mem) (d : Disk) :
    Issues (bwrite b data) m d [(b, data)] m.log :=
  ⟨rfl, rfl, by rw [disk_bwrite, look_bwrite]; rfl⟩

theorem issues_bunpin (b : BlockNo) (m : Mem) (d : Disk) : Issues (bunpin b) m d [] m.log :=
  ⟨rfl, rfl, rfl⟩

/-- The writes of `write_log`: log slot by log slot, the contents of the recorded blocks. -/
def logWrites (start : BlockNo) (f : BlockNo → Block) (tail : ℕ) (bs : List BlockNo) :
    List (BlockNo × Block) :=
  (bs.zipIdx tail).map fun x => (logSlot start x.2, f x.1)

/-- The writes of `install_trans`: block by block, the contents of the log slots. -/
def homeWrites (start : BlockNo) (f : BlockNo → Block) (tail : ℕ) (bs : List BlockNo) :
    List (BlockNo × Block) :=
  (bs.zipIdx tail).map fun x => (x.1, f (logSlot start x.2))

variable {bs : List BlockNo} {f g : BlockNo → Block}

theorem logWrites_congr (h : ∀ b ∈ bs, f b = g b) (tail : ℕ) :
    logWrites start f tail bs = logWrites start g tail bs := by
  apply List.map_congr_left
  intro x hx
  rw [h x.1 (List.fst_mem_of_mem_zipIdx hx)]

theorem homeWrites_congr {n tail : ℕ}
    (hn : tail + bs.length ≤ n) (h : ∀ i < n, f (logSlot start i) = g (logSlot start i)) :
    homeWrites start f tail bs = homeWrites start g tail bs := by
  apply List.map_congr_left
  intro x hx
  have hlt := List.snd_lt_add_of_mem_zipIdx hx
  rw [h x.2 (by omega)]

/-- None of the blocks is one of the first `n` log slots. -/
def OffSlots (start : BlockNo) (n : ℕ) (bs : List BlockNo) : Prop :=
  ∀ b ∈ bs, ∀ i < n, b ≠ logSlot start i

theorem OffSlots.tail {start b : BlockNo} {n : ℕ}
    (h : OffSlots start n (b :: bs)) : OffSlots start n bs :=
  fun c hc => h c (List.mem_cons_of_mem _ hc)

theorem issues_writeLogBlock (tail : ℕ) (b : BlockNo) (m : Mem) (d : Disk) :
    Issues (writeLogBlock tail b) m d [(logSlot m.log.start tail, m.look d b)] m.log := by
  refine (issues_gets _ m d).bind_read fun m₁ d₁ hl₁ hk₁ => ?_
  refine (issues_bread _ m₁ d₁).bind_read fun m₂ d₂ hl₂ hk₂ => ?_
  refine (issues_bread _ m₂ d₂).bind_read fun m₃ d₃ hl₃ hk₃ => ?_
  simp only [val_gets, val_bread, hk₂, hk₁]
  have h := issues_bwrite (logSlot m.log.start tail) (m.look d b) m₃ d₃
  rwa [hl₃, hl₂, hl₁] at h

theorem issues_installBlock (r : Bool) (tail : ℕ) (b : BlockNo) (m : Mem) (d : Disk) :
    Issues (installBlock r tail b) m d [(b, m.look d (logSlot m.log.start tail))] m.log := by
  refine (issues_gets _ m d).bind_read fun m₁ d₁ hl₁ hk₁ => ?_
  refine (issues_bread _ m₁ d₁).bind_read fun m₂ d₂ hl₂ hk₂ => ?_
  refine (issues_bread _ m₂ d₂).bind_read fun m₃ d₃ hl₃ hk₃ => ?_
  simp only [val_gets, val_bread, hk₁]
  refine (issues_bwrite _ _ m₃ d₃).bind_quiet fun m₄ d₄ hl₄ => ?_
  rw [← hl₁, ← hl₂, ← hl₃, ← hl₄]
  cases r
  · exact issues_bunpin b m₄ d₄
  · exact issues_pure () m₄ d₄

theorem issues_writeLogFrom {n : ℕ} (tail : ℕ) (m : Mem) (d : Disk)
    (hn : tail + bs.length ≤ n) (hbs : OffSlots m.log.start n bs) :
    Issues (writeLogFrom tail bs) m d (logWrites m.log.start (m.look d) tail bs) m.log := by
  induction bs generalizing tail m d with
  | nil => exact issues_pure _ m d
  | cons b bs ih =>
    simp only [List.length_cons] at hn
    refine (issues_writeLogBlock tail b m d).bind fun m₁ d₁ hl hk => ?_
    have hrest := ih (tail + 1) m₁ d₁ (by omega) (by rw [hl]; exact hbs.tail)
    rw [hl, hk] at hrest
    -- the slot just written is not one of the blocks still to be copied
    rw [logWrites_congr (g := m.look d)] at hrest
    · exact hrest
    · intro c hc
      exact store_of_notMem (by simpa using hbs.tail c hc tail (by omega)) _

theorem issues_installTransFrom (r : Bool) {n : ℕ} (tail : ℕ) (m : Mem)
    (d : Disk) (hn : tail + bs.length ≤ n) (hbs : OffSlots m.log.start n bs) :
    Issues (installTransFrom r tail bs) m d (homeWrites m.log.start (m.look d) tail bs)
      m.log := by
  induction bs generalizing tail m d with
  | nil => exact issues_pure _ m d
  | cons b bs ih =>
    simp only [List.length_cons] at hn
    refine (issues_installBlock r tail b m d).bind fun m₁ d₁ hl hk => ?_
    have hrest := ih (tail + 1) m₁ d₁ (by omega) (by rw [hl]; exact hbs.tail)
    rw [hl, hk] at hrest
    -- the home block just written is not one of the log slots still to be read
    rw [homeWrites_congr (g := m.look d) (n := n) (by omega)] at hrest
    · exact hrest
    · intro i hi
      exact store_of_notMem (by simpa using (hbs b List.mem_cons_self i hi).symm) _

theorem issues_writeLog (d : Disk) (hoff : OffSlots m.log.start m.log.lh.length m.log.lh) :
    Issues writeLog m d (logWrites m.log.start (m.look d) 0 m.log.lh) m.log := by
  refine (issues_gets _ m d).bind_read fun m₁ d₁ hl hk => ?_
  have h := issues_writeLogFrom 0 m₁ d₁ (zero_add m.log.lh.length).le (by rw [hl]; exact hoff)
  rwa [hl, hk] at h

theorem issues_installTrans (r : Bool) (d : Disk)
    (hoff : OffSlots m.log.start m.log.lh.length m.log.lh) :
    Issues (installTrans r) m d (homeWrites m.log.start (m.look d) 0 m.log.lh) m.log := by
  refine (issues_gets _ m d).bind_read fun m₁ d₁ hl hk => ?_
  have h := issues_installTransFrom r 0 m₁ d₁ (zero_add m.log.lh.length).le
    (by rw [hl]; exact hoff)
  rwa [hl, hk] at h

theorem issues_writeHead (m : Mem) (d : Disk) :
    Issues writeHead m d [(m.log.start, putHead m.log.lh (m.look d m.log.start))] m.log := by
  refine (issues_gets _ m d).bind_read fun m₁ d₁ hl₁ hk₁ => ?_
  refine (issues_gets _ m₁ d₁).bind_read fun m₂ d₂ hl₂ hk₂ => ?_
  refine (issues_bread _ m₂ d₂).bind_read fun m₃ d₃ hl₃ hk₃ => ?_
  simp only [val_gets, val_bread, hk₂, hk₁, hl₁]
  have h := issues_bwrite m.log.start (putHead m.log.lh (m.look d m.log.start)) m₃ d₃
  rwa [hl₃, hl₂, hl₁] at h

theorem issues_readHead (m : Mem) (d : Disk) :
    Issues readHead m d [] { m.log with lh := getHead (m.look d m.log.start) } := by
  refine (issues_gets _ m d).bind_read fun m₁ d₁ hl₁ hk₁ => ?_
  refine (issues_bread _ m₁ d₁).bind_read fun m₂ d₂ hl₂ hk₂ => ?_
  simp only [val_gets, val_bread, hk₁]
  have h := issues_setLh (getHead (m.look d m.log.start)) m₂ d₂
  rwa [hl₂, hl₁] at h

/-! ## Where the writes go -/

theorem map_fst_logWrites (start : BlockNo) (f : BlockNo → Block) (bs : List BlockNo) :
    (logWrites start f 0 bs).map Prod.fst = (List.range bs.length).map (logSlot start) := by
  rw [logWrites, List.map_map, List.range_eq_range', ← List.zipIdx_map_snd, List.map_map]
  rfl

/-- The log slots hold what `write_log` copied to them. -/
theorem store_logWrites {f : BlockNo → Block}
    (hlen : bs.length ≤ LOGSIZE) (d : Disk) {i : ℕ} (hi : i < bs.length) :
    store (logWrites start f 0 bs) d (logSlot start i) = f bs[i] := by
  have hbound : ∀ j < bs.length, j < 2 ^ 32 := by
    intro j hj; simp only [LOGSIZE, MAXOPBLOCKS] at hlen; omega
  apply store_of_mem
  · rw [map_fst_logWrites]
    refine List.nodup_range.map_on ?_
    intro j hj k hk h
    exact logSlot_inj (hbound j (by simpa using hj)) (hbound k (by simpa using hk)) h
  · simp only [logWrites, List.mem_map]
    exact ⟨(bs[i], i), by simp [List.mem_zipIdx_iff_getElem?], rfl⟩

/-- `write_log` leaves alone every block that is not a log slot. -/
theorem store_logWrites_of_ne {f : BlockNo → Block}
    (d : Disk) {b : BlockNo} (hb : ∀ i < bs.length, b ≠ logSlot start i) (k : ℕ) :
    store ((logWrites start f 0 bs).take k) d b = d b := by
  apply store_of_notMem
  intro hmem
  have hmem := List.map_subset _ (List.take_subset k _) hmem
  rw [map_fst_logWrites, List.mem_map] at hmem
  obtain ⟨i, hi, rfl⟩ := hmem
  exact hb i (by simpa using hi) rfl

/-- Where each log slot holds the contents of its block, installing writes those contents. -/
theorem homeWrites_eq_map (h : ∀ i (hi : i < bs.length), f (logSlot start i) = g bs[i]) :
    homeWrites start f 0 bs = bs.map fun b => (b, g b) := by
  apply List.ext_getElem
  · simp [homeWrites]
  · intro i hi hi'
    have hi₀ : i < bs.length := by simpa using hi'
    simp [homeWrites, h i hi₀]

/-- **What `commit` writes.** First the recorded contents to the log slots, then a header that
lists the recorded blocks, then the recorded contents to their home blocks, and last a header
with `n = 0`. -/
theorem writes_commit (hne : m.log.lh ≠ []) (hlen : m.log.lh.length ≤ LOGSIZE)
    (hoff : OffSlots m.log.start m.log.lh.length m.log.lh) :
    ∃ h₁ h₀ : Block, getHead h₁ = m.log.lh ∧ headN h₀ = 0 ∧
      commit.writes m d =
        logWrites m.log.start (m.look d) 0 m.log.lh ++ ([(m.log.start, h₁)] ++
          (m.log.lh.map (fun b => (b, m.look d b)) ++ [(m.log.start, h₀)])) := by
  have hpos : m.log.lh.length > 0 := List.length_pos_of_ne_nil hne
  have hlt : ∀ i < m.log.lh.length, i + 1 < 2 ^ 32 := by
    intro i hi; simp only [LOGSIZE, MAXOPBLOCKS] at hlen; omega
  -- the contents seen after write_log and after the first write_head
  set f₁ := store (logWrites m.log.start (m.look d) 0 m.log.lh) (m.look d) with hf₁
  set h₁ := putHead m.log.lh (f₁ m.log.start) with hh₁
  set f₂ := store [(m.log.start, h₁)] f₁ with hf₂
  set f₃ := store (m.log.lh.map fun b => (b, m.look d b)) f₂ with hf₃
  have hcell : ∀ i (hi : i < m.log.lh.length),
      f₂ (logSlot m.log.start i) = m.look d m.log.lh[i] := by
    intro i hi
    rw [hf₂, store_of_notMem (by simpa using logSlot_ne_start (hlt i hi)), hf₁,
      store_logWrites hlen _ hi]
  refine ⟨h₁, putHead [] (f₃ m.log.start), getHead_putHead hlen _, headN_putHead_nil _, ?_⟩
  refine Issues.writes (l := { m.log with lh := [] }) ?_
  refine (issues_gets _ m d).bind_read fun m₁ d₁ hl₁ hk₁ => ?_
  simp only [val_gets, hpos, if_true]
  have hw := issues_writeLog (m := m₁) d₁ (by rw [hl₁]; exact hoff)
  rw [hl₁, hk₁] at hw
  refine hw.bind fun m₂ d₂ hl₂ hk₂ => ?_
  rw [hk₁, ← hf₁] at hk₂
  have hh := issues_writeHead m₂ d₂
  rw [hl₂, hk₂, ← hh₁] at hh
  refine hh.bind fun m₃ d₃ hl₃ hk₃ => ?_
  rw [hk₂, ← hf₂] at hk₃
  have hi := issues_installTrans false (m := m₃) d₃ (by rw [hl₃]; exact hoff)
  rw [hl₃, hk₃, homeWrites_eq_map hcell] at hi
  refine hi.bind fun m₄ d₄ hl₄ hk₄ => ?_
  rw [hk₃, ← hf₃] at hk₄
  refine (issues_setLh [] m₄ d₄).bind_read fun m₅ d₅ hl₅ hk₅ => ?_
  have hc := issues_writeHead m₅ d₅
  rw [hl₅, hl₄, hk₅, hk₄] at hc
  exact hc

/-- An empty transaction is not committed. -/
theorem writes_commit_nil (h : m.log.lh = []) : commit.writes m d = [] := by
  simp [commit, h]

/-- **What recovery writes.** The contents of the log slots to the blocks the header on disk
lists, then a header with `n = 0`. -/
theorem writes_recoverFromLog
    (hbs : getHead (m.look d m.log.start) = bs) (hoff : OffSlots m.log.start bs.length bs) :
    recoverFromLog.writes m d = homeWrites m.log.start (m.look d) 0 bs ++
      [(m.log.start, putHead []
        (store (homeWrites m.log.start (m.look d) 0 bs) (m.look d) m.log.start))] := by
  refine Issues.writes (l := { m.log with lh := [] }) ?_
  refine (issues_readHead m d).bind_read fun m₁ d₁ hl₁ hk₁ => ?_
  have hi := issues_installTrans true (m := m₁) d₁ (by rw [hl₁, hbs]; exact hoff)
  rw [hl₁, hk₁, hbs] at hi
  refine hi.bind fun m₂ d₂ hl₂ hk₂ => ?_
  refine (issues_setLh [] m₂ d₂).bind_read fun m₃ d₃ hl₃ hk₃ => ?_
  have hc := issues_writeHead m₃ d₃
  rw [hl₃, hl₂, hk₃, hk₂, hk₁] at hc
  exact hc

end Xv6
