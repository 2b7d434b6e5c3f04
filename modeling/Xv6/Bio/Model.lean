import Xv6.Param
import Xv6.Lib.Run
import Mathlib.Data.List.FinRange

/-!
# The buffer cache

`bget`, `bread`, `bwrite`, `brelse`, `bpin` and `bunpin` of `kernel/bio.c`, and `begin_op`,
`end_op`, `log_write` and `commit` of `kernel/log.c`, which use them, run by any number of
processes. What is done under `bcache.lock` or `log.lock` is one step, and so is a transfer by the
disk, during which the process that waits for it keeps the buffer locked. A process may call
`bread`, change the buffers it has locked and give them to `log_write` or `bwrite`, and release
them, at any time; a buffer it has changed it gives to one of the two before it calls `brelse`. The
system calls of the kernel use the cache in this way, with the device `ROOTDEV`.

The contents of a block are of any type; `header` is how the list of logged blocks is laid out in
the header block of the log.
-/

namespace Xv6.Bio

open Function (update)

/-- The number of a buffer. -/
abbrev Idx := Fin NBUF

/-- `struct buf`, without its lock and its links. -/
structure Buf (D : Type) where
  dev : ℕ
  blockno : ℕ
  valid : Bool
  refcnt : ℕ
  data : D

/-- The lines of `commit`, with the local variables of the loops. -/
inductive CommitAt
  /-- `write_log`: `to = bread(log.dev, log.start + tail + 1)` -/
  | toBuf (tail : ℕ)
  /-- `from = bread(log.dev, log.lh.block[tail])` -/
  | fromBuf (tail : ℕ) (tbuf : Idx)
  /-- `memmove(to->data, from->data)` -/
  | copy (tail : ℕ) (tbuf fbuf : Idx)
  /-- `bwrite(to)` -/
  | write (tail : ℕ) (tbuf fbuf : Idx)
  /-- `brelse(from)` -/
  | relFrom (tail : ℕ) (tbuf fbuf : Idx)
  /-- `brelse(to)` -/
  | relTo (tail : ℕ) (tbuf : Idx)
  /-- `write_head`, the first or the second: `buf = bread(log.dev, log.start)` -/
  | head (second : Bool)
  /-- The copy of the header. -/
  | fill (second : Bool) (buf : Idx)
  /-- `bwrite(buf)` -/
  | writeHead (second : Bool) (buf : Idx)
  /-- `brelse(buf)` -/
  | relHead (second : Bool) (buf : Idx)
  /-- `install_trans`: `lbuf = bread(log.dev, log.start + tail + 1)` -/
  | log (tail : ℕ)
  /-- `dbuf = bread(log.dev, log.lh.block[tail])` -/
  | dst (tail : ℕ) (lbuf : Idx)
  /-- `memmove(dbuf->data, lbuf->data)` -/
  | install (tail : ℕ) (lbuf dbuf : Idx)
  /-- `bwrite(dbuf)` -/
  | writeDst (tail : ℕ) (lbuf dbuf : Idx)
  /-- `bunpin(dbuf)` -/
  | unpin (tail : ℕ) (lbuf dbuf : Idx)
  /-- `brelse(lbuf)` -/
  | relLog (tail : ℕ) (lbuf dbuf : Idx)
  /-- `brelse(dbuf)` -/
  | relDst (tail : ℕ) (dbuf : Idx)
  /-- `log.lh.n = 0` -/
  | clear
  /-- `log.committing = 0` -/
  | done
  deriving DecidableEq

/-- The caller of `bread`. -/
inductive Caller
  /-- Other code. -/
  | user
  | toBuf (tail : ℕ)
  | fromBuf (tail : ℕ) (tbuf : Idx)
  | head (second : Bool)
  | log (tail : ℕ)
  | dst (tail : ℕ) (lbuf : Idx)
  deriving DecidableEq

/-- Where a process is. -/
inductive Stage
  /-- In other code. -/
  | idle
  /-- In `bget(dev, b)`, at `acquiresleep(&b->lock)`. -/
  | lock (b : ℕ) (i : Idx) (c : Caller)
  /-- In `bread(dev, b)`, at the test of `b->valid`. -/
  | read (b : ℕ) (i : Idx) (c : Caller)
  /-- In `brelse`, past `releasesleep(&b->lock)`; called by `commit` or not. -/
  | drop (i : Idx) (c : Option CommitAt)
  | commit (pc : CommitAt)
  deriving DecidableEq

/-- Where a process goes on with the buffer that `bread` has returned. -/
def Caller.go (i : Idx) : Caller → Stage
  | .user => .idle
  | .toBuf tail => .commit (.fromBuf tail i)
  | .fromBuf tail tbuf => .commit (.copy tail tbuf i)
  | .head second => .commit (.fill second i)
  | .log tail => .commit (.dst tail i)
  | .dst tail lbuf => .commit (.install tail lbuf i)

/-- Where a process goes on after `brelse`. -/
def Stage.after : Option CommitAt → Stage
  | none => .idle
  | some pc => .commit pc

/-- The cache, the disk, the log and the processes. -/
structure Sys (P T D : Type) where
  buf : Idx → Buf D
  /-- The holder of the lock of a buffer. -/
  holder : Idx → Option P
  /-- The buffers in the order of the list, from `bcache.head.next` on. -/
  lru : List Idx
  disk : ℕ → D
  /-- `log.lh.block[0..n)` -/
  lh : List ℕ
  outstanding : ℕ
  committing : Bool
  /-- The process is between `begin_op` and `end_op`. -/
  inOp : P → Bool
  stage : P → Stage
  /-- The buffers pinned by other code than the log. -/
  pinned : T → Option Idx
  /-- The buffer has been changed, and not yet been given to `log_write` or `bwrite`. -/
  dirty : Idx → Bool
  /-- History: how many blocks `commit` has copied to the log. No step tests it, nor the fields
  below. -/
  copied : ℕ
  /-- History: how many blocks `commit` has installed. -/
  installed : ℕ
  /-- History: what was last stored in a buffer of the block. -/
  given : ℕ → D
  /-- History: what was last stored in a buffer of the block by other code than `commit`. -/
  last : ℕ → D

/-- The place of the log on disk. -/
structure Log (D : Type) where
  start : ℕ
  size : ℕ
  /-- The header block of a list of blocks. -/
  header : List ℕ → D

/-- What can happen next. -/
inductive Act (P T D : Type)
  | bread (p : P) (b : ℕ)
  /-- A change of a buffer that the process has locked. -/
  | modify (p : P) (i : Idx) (data : D)
  | logWrite (p : P) (i : Idx)
  | bwrite (p : P) (i : Idx)
  | brelse (p : P) (i : Idx)
  | bpin (p : P) (i : Idx) (t : T)
  | bunpin (p : P) (t : T)
  | beginOp (p : P)
  | endOp (p : P)
  /-- A process in a call goes on. -/
  | run (p : P)
  deriving DecidableEq

namespace Sys

variable {P T D : Type}

/-- The buffer holds the block. -/
def Caches (s : Sys P T D) (i : Idx) (b : ℕ) : Prop :=
  (s.buf i).dev = ROOTDEV ∧ (s.buf i).blockno = b

instance (s : Sys P T D) (i : Idx) (b : ℕ) : Decidable (s.Caches i b) :=
  inferInstanceAs (Decidable (_ ∧ _))

/-- The first loop of `bget`. -/
def cached (s : Sys P T D) (b : ℕ) : Option Idx := s.lru.find? fun i => s.Caches i b

/-- The second loop of `bget`. -/
def unused (s : Sys P T D) : Option Idx := s.lru.reverse.find? fun i => (s.buf i).refcnt = 0

def setBuf (s : Sys P T D) (i : Idx) (x : Buf D) : Sys P T D :=
  { s with buf := update s.buf i x }

def setHolder (s : Sys P T D) (i : Idx) (h : Option P) : Sys P T D :=
  { s with holder := update s.holder i h }

def setRefcnt (s : Sys P T D) (i : Idx) (k : ℕ) : Sys P T D :=
  s.setBuf i { s.buf i with refcnt := k }

/-- A change of the data of a buffer. -/
def store (s : Sys P T D) (i : Idx) (data : D) : Sys P T D :=
  { s.setBuf i { s.buf i with data } with
    dirty := update s.dirty i true
    given := update s.given (s.buf i).blockno data }

/-- `virtio_disk_rw(b, 1)` -/
def flush (s : Sys P T D) (i : Idx) : Sys P T D :=
  { s with
    disk := update s.disk (s.buf i).blockno (s.buf i).data
    dirty := update s.dirty i false }

/-- The part of `brelse` under `bcache.lock`. -/
def unref (s : Sys P T D) (i : Idx) : Sys P T D :=
  { s.setRefcnt i ((s.buf i).refcnt - 1) with
    lru := if (s.buf i).refcnt - 1 = 0 then i :: s.lru.erase i else s.lru }

/-- The part of `log_write` that adds a block to the log. -/
def addLog (s : Sys P T D) (i : Idx) : Sys P T D :=
  { s.setRefcnt i ((s.buf i).refcnt + 1) with lh := s.lh ++ [(s.buf i).blockno] }

/-- The buffer that a pointer pins. -/
def setPinned [DecidableEq T] (s : Sys P T D) (t : T) (i : Option Idx) : Sys P T D :=
  { s with pinned := update s.pinned t i }

variable [DecidableEq P]

def goto (s : Sys P T D) (p : P) (st : Stage) : Sys P T D :=
  { s with stage := update s.stage p st }

/-- `bget`, up to the lock of the buffer. -/
def bget (s : Sys P T D) (p : P) (b : ℕ) (c : Caller) : Except String (Sys P T D) :=
  match s.cached b with
  | some i => .ok ((s.setRefcnt i ((s.buf i).refcnt + 1)).goto p (.lock b i c))
  | none =>
    match s.unused with
    | some i => .ok ((s.setBuf i ⟨ROOTDEV, b, false, 1, (s.buf i).data⟩).goto p (.lock b i c))
    | none => .error "bget: no buffers"

/-- `brelse`, up to `releasesleep`. -/
def brelse (s : Sys P T D) (p : P) (i : Idx) (c : Option CommitAt) : Except String (Sys P T D) :=
  if s.holder i = some p then .ok ((s.setHolder i none).goto p (.drop i c))
  else .error "brelse"

def bwrite (s : Sys P T D) (p : P) (i : Idx) : Except String (Sys P T D) :=
  if s.holder i = some p then .ok (s.flush i) else .error "bwrite"

/-- `log_write`; the buffer counts as given to the log. -/
def logWrite (L : Log D) (s : Sys P T D) (i : Idx) : Except String (Sys P T D) :=
  if LOGSIZE ≤ s.lh.length ∨ L.size - 1 ≤ s.lh.length then .error "too big a transaction"
  else if s.outstanding < 1 then .error "log_write outside of trans"
  else
    let s' := if (s.buf i).blockno ∈ s.lh then s else s.addLog i
    .ok { s' with dirty := update s'.dirty i false }

/-- `begin_op`; a process for which the log has no room waits. -/
def beginOp (s : Sys P T D) (p : P) : Option (Sys P T D) :=
  if s.committing ∨ LOGSIZE < s.lh.length + (s.outstanding + 1) * MAXOPBLOCKS then none
  else some
    { s with outstanding := s.outstanding + 1, inOp := update s.inOp p true }

/-- `end_op`, up to `commit`. -/
def endOp (s : Sys P T D) (p : P) : Except String (Sys P T D) :=
  let s' := { s with outstanding := s.outstanding - 1, inOp := update s.inOp p false }
  if s.committing then .error "log.committing"
  else if s.outstanding - 1 = 0 then
    .ok ({ s' with committing := true }.goto p
      (.commit (if s.lh = [] then .done else .toBuf 0)))
  else .ok s'

/-- A line of `commit`. -/
def commit (L : Log D) (s : Sys P T D) (p : P) : CommitAt → Except String (Sys P T D)
  | .toBuf tail =>
    if tail < s.lh.length then s.bget p (L.start + tail + 1) (.toBuf tail)
    else .ok (s.goto p (.commit (.head false)))
  | .fromBuf tail tbuf => s.bget p (s.lh.getD tail 0) (.fromBuf tail tbuf)
  | .copy tail tbuf fbuf =>
    .ok ({ s.store tbuf (s.buf fbuf).data with copied := tail + 1 }.goto p
      (.commit (.write tail tbuf fbuf)))
  | .write tail tbuf fbuf =>
    (s.bwrite p tbuf).map fun t => t.goto p (.commit (.relFrom tail tbuf fbuf))
  | .relFrom tail tbuf fbuf => s.brelse p fbuf (some (.relTo tail tbuf))
  | .relTo tail tbuf => s.brelse p tbuf (some (.toBuf (tail + 1)))
  | .head second => s.bget p L.start (.head second)
  | .fill second i => .ok ((s.store i (L.header s.lh)).goto p (.commit (.writeHead second i)))
  | .writeHead second i => (s.bwrite p i).map fun t => t.goto p (.commit (.relHead second i))
  | .relHead second i => s.brelse p i (some (if second then .done else .log 0))
  | .log tail =>
    if tail < s.lh.length then s.bget p (L.start + tail + 1) (.log tail)
    else .ok (s.goto p (.commit .clear))
  | .dst tail lbuf => s.bget p (s.lh.getD tail 0) (.dst tail lbuf)
  | .install tail lbuf dbuf =>
    .ok ((s.store dbuf (s.buf lbuf).data).goto p (.commit (.writeDst tail lbuf dbuf)))
  | .writeDst tail lbuf dbuf =>
    (s.bwrite p dbuf).map fun t => t.goto p (.commit (.unpin tail lbuf dbuf))
  | .unpin tail lbuf dbuf =>
    .ok ({ s.setRefcnt dbuf ((s.buf dbuf).refcnt - 1) with installed := s.installed + 1 }.goto p
      (.commit (.relLog tail lbuf dbuf)))
  | .relLog tail lbuf dbuf => s.brelse p lbuf (some (.relDst tail dbuf))
  | .relDst tail dbuf => s.brelse p dbuf (some (.log (tail + 1)))
  | .clear =>
    .ok ({ s with lh := [], copied := 0, installed := 0 }.goto p (.commit (.head true)))
  | .done => .ok ({ s with committing := false }.goto p .idle)

/-- The next step of a process that is in a call. -/
def run (L : Log D) (s : Sys P T D) (p : P) : Option (Except String (Sys P T D)) :=
  match s.stage p with
  | .idle => none
  | .lock b i c =>
    if s.holder i = none then
      some (.ok ((s.setHolder i (some p)).goto p (.read b i c)))
    else none
  | .read _ i c =>
    if (s.buf i).valid then some (.ok (s.goto p (c.go i)))
    else some (.ok ((s.setBuf i { s.buf i with
      valid := true, data := s.disk (s.buf i).blockno }).goto p (c.go i)))
  | .drop i c => some (.ok ((s.unref i).goto p (Stage.after c)))
  | .commit pc => some (s.commit L p pc)

variable [DecidableEq T]

/-- The step function; none where a step is not possible. -/
def step (L : Log D) (s : Sys P T D) : Act P T D → Option (Except String (Sys P T D))
  | .bread p b => if s.stage p = .idle then some (s.bget p b .user) else none
  | .modify p i data =>
    if s.stage p = .idle ∧ s.holder i = some p then
      let t := s.store i data
      some (.ok { t with last := update t.last (s.buf i).blockno data })
    else none
  | .logWrite p i =>
    if s.stage p = .idle ∧ s.holder i = some p then some (s.logWrite L i) else none
  | .bwrite p i =>
    if s.stage p = .idle ∧ s.holder i = some p then some (s.bwrite p i) else none
  | .brelse p i =>
    if s.stage p = .idle ∧ s.holder i = some p ∧ s.dirty i = false then some (s.brelse p i none)
    else none
  | .bpin p i t =>
    if s.stage p = .idle ∧ s.holder i = some p ∧ s.pinned t = none then
      some (.ok ((s.setRefcnt i ((s.buf i).refcnt + 1)).setPinned t (some i)))
    else none
  | .bunpin p t =>
    if s.stage p = .idle then
      (s.pinned t).map fun i => .ok ((s.setRefcnt i ((s.buf i).refcnt - 1)).setPinned t none)
    else none
  | .beginOp p =>
    if s.stage p = .idle ∧ s.inOp p = false then (s.beginOp p).map .ok else none
  | .endOp p => if s.stage p = .idle ∧ s.inOp p = true then some (s.endOp p) else none
  | .run p => s.run L p

/-- A step that does not panic. -/
def next (L : Log D) (s : Sys P T D) (a : Act P T D) : Option (Sys P T D) :=
  (s.step L a).bind Except.toOption

/-- `binit`, on a disk whose log is empty. -/
def binit (disk : ℕ → D) (data : Idx → D) : Sys P T D where
  buf i := ⟨0, 0, false, 0, data i⟩
  holder _ := none
  lru := (List.finRange NBUF).reverse
  disk := disk
  lh := []
  outstanding := 0
  committing := false
  inOp _ := false
  stage _ := .idle
  pinned _ := none
  dirty _ := false
  copied := 0
  installed := 0
  given := disk
  last := disk

end Sys

end Xv6.Bio
