import Xv6.Content.Partial
import Xv6.Content.Path
import Xv6.Sh.Parse

/-!
# Appending to a file

The path of a command `cmd >> file`: the mode that `parseredirs` builds, what `sys_open` makes of
it on a file that exists, and the writes of the command through `filewrite`. `sys_open` starts the
file at offset 0 and nothing in the mode says otherwise, so the writes replace the beginning of the
file.
-/

namespace Xv6

/-- How many of the `n` bytes at `va` are mapped before the first that is not. -/
def UserMem.mappedLen (u : UserMem) : ℕ → ℕ → ℕ
  | _, 0 => 0
  | va, n + 1 => if u.Has va then u.mappedLen (va + 1) n + 1 else 0

theorem UserMem.span_mappedLen (u : UserMem) (va n : ℕ) : u.Span va n (u.mappedLen va n) := by
  induction n generalizing va with
  | zero => exact ⟨le_rfl, fun i hi => absurd hi (Nat.not_lt_zero i), fun h => absurd h (by simp)⟩
  | succ n ih =>
    rw [mappedLen]
    split
    · next hhas =>
        have hfirst : ∀ i, i < 1 → u.Has (va + i) := by
          intro i hi
          rwa [Nat.lt_one_iff.mp hi]
        have hspan := Span.append (Nat.succ_pos n) hfirst (ih (va + 1))
        rwa [Nat.add_comm 1] at hspan
    · next hhas => exact ⟨Nat.zero_le _, fun i hi => absurd hi (Nat.not_lt_zero i), fun _ => hhas⟩

namespace Content

open Lib Mkfs
open Function (update update_eq_self update_of_ne update_self)

/-- A `write` of a command: the memory then, the address and the count. -/
structure Write where
  u : UserMem
  va : ℕ
  n : Int32

namespace Write

/-- The bytes of a write that go to the first block of the file. -/
def head (w : Write) : ℕ := min w.n.toInt.toNat BSIZE

/-- How many of them can be copied. -/
def copied (w : Write) : ℕ := w.u.mappedLen w.va w.head

/-- A write at offset 0 that writes nothing: there is nothing to write, or the copy to the first
block fails. -/
def Idle (w : Write) : Prop := w.head = 0 ∨ w.copied < w.head

/-- What such a write makes of the contents: the bytes before the unmapped one are in the buffer of
the block. -/
def patch (c : List UInt8) (w : Write) : List UInt8 :=
  c.mapIdx fun k x => if k < w.copied then w.u.byte (w.va + k) else x

end Write

namespace Fs

/-- The commit of an `end_op`: the header of the log is empty. -/
def endOp (s : Fs) : Fs := { s with disk := { s.disk with lh := [] } }

/-- The loop of `filewrite`, with `k` of `n` bytes written; each turn writes at least one. -/
def filewriteLoop (f : Fin NFILE) (u : UserMem) (addr n : ℕ) : ℕ → Fs → ℕ → Except Panic (ℕ × Fs)
  | 0, s, k => .ok (k, s)
  | turns + 1, s, k =>
    if k < n then do
      let (r, s) ← s.writeChunk f u (addr + k) (.ofNat (min (n - k) maxWrite))
      if r ≠ min (n - k) maxWrite then .ok (k, s.endOp)
      else filewriteLoop f u addr n turns s.endOp (k + min (n - k) maxWrite)
    else .ok (k, s)

/-- `filewrite` of a file with an inode. -/
def filewrite (s : Fs) (f : Fin NFILE) (w : Write) : Except Panic (ℤ × Fs) :=
  if !(s.file f).writable then .ok (-1, s)
  else do
    let (k, s) ← filewriteLoop f w.u w.va w.n.toInt.toNat w.n.toInt.toNat s 0
    .ok (if k = w.n.toInt then w.n.toInt else -1, s)

/-- The writes of a command, with the bytes by which they have moved the offset. -/
def writes (f : Fin NFILE) : List Write → Fs → Except Panic (List UInt8 × Fs)
  | [], s => .ok ([], s)
  | w :: ws, s => do
      let (_, t) ← s.filewrite f w
      let (bytes, v) ← writes f ws t
      .ok ((List.range ((t.file f).off.toNat - (s.file f).off.toNat)).map
        (fun k => w.u.byte (w.va + k)) ++ bytes, v)

/-- The mode of the redirection that `parseredirs` builds for a token. -/
def redirMode (tok : Char) : ℕ :=
  match Sh.redircmd tok (.exec []) 0 0 with
  | .redir _ _ _ mode _ => mode
  | _ => 0

/-- A command with the writes `ws` runs as `cmd >> path`; none if the file cannot be opened. -/
def runAppend (s : Fs) (path : List UInt8) (ws : List Write) :
    Except Panic (Option (List UInt8 × Fs)) := do
  let (fd, s) ← s.sysOpen path (.ofNat (redirMode '+'))
  if fd < 0 then .ok none
  else match s.ofile (Fin.ofNat NOFILE fd.toNat) with
    | none => .ok none
    | some f => do
        let r ← writes f ws s.endOp
        .ok (some r)

/-- The contents of the file `i`. -/
def content (s : Fs) (i : ℕ) : List UInt8 :=
  (List.range (s.disk.inode i).size.toNat).map (byteAt s.disk.sect (s.disk.inode i))

/-! ## A chunk -/

variable {s t v : Fs} {f : Fin NFILE} {i : ℕ} {u : UserMem} {va : ℕ} {b : Buf}

/-- The file `f` of the inode `i` is open for writing. -/
structure Writing (s : Fs) (f : Fin NFILE) (i : ℕ) : Prop where
  intact : Intact s.disk.inodes s.disk
  coherent : s.Coherent
  lt : i < NINODES
  ip : (s.file f).ip = i
  writable : (s.file f).writable = true
  inside : (s.file f).off.toNat ≤ (s.disk.inode i).size.toNat

theorem Writing.endOp (h : s.Writing f i) : s.endOp.Writing f i :=
  ⟨⟨h.intact.sound.congr rfl fun _ _ => rfl, h.intact.whole⟩, h.coherent, h.lt, h.ip, h.writable,
    h.inside⟩

/-- At the offset, `m` bytes of `b` have been written, and `e` have been copied. -/
structure Put (s : Fs) (f : Fin NFILE) (i : ℕ) (b : Buf) (m e : ℕ) (t : Fs) : Prop where
  le : m ≤ e
  off : (t.file f).off.toNat = (s.file f).off.toNat + m
  size : (t.disk.inode i).size.toNat =
    max (s.disk.inode i).size.toNat ((s.file f).off.toNat + m)
  byte : ∀ a, a < MAXFILE * BSIZE → byteAt t.disk.sect (t.disk.inode i) a =
    blit (byteAt s.disk.sect (s.disk.inode i)) (s.file f).off.toNat e b a

theorem file_writei {src : Source} {off n : UInt32} {r : ℤ}
    (h : s.writei i src off n = .ok (r, t)) : t.file = s.file := by
  obtain ⟨⟨d, ip, r'⟩, -, h⟩ := bind_eq_ok.mp h
  cases h
  rfl

/-- The offset is moved, and the inode unlocked. -/
theorem released_advance {r : ℤ} (hr : 0 ≤ r → (s.file f).off.toNat + r.toNat < 2 ^ 32)
    (h : (if r > 0 then s.advance f (.ofNat r.toNat) else s).Released i t) :
    t.disk = s.disk ∧ (s.Coherent → t.Coherent) ∧ (t.file f).ip = (s.file f).ip ∧
      (t.file f).writable = (s.file f).writable ∧
      (t.file f).off.toNat = (s.file f).off.toNat + r.toNat := by
  obtain rfl := h
  split
  · next hpos =>
      refine ⟨rfl, id, by simp [advance], by simp [advance], ?_⟩
      have hlt := hr hpos.le
      rw [off_advance, UInt32.toNat_add, UInt32.toNat_ofNat_of_lt' (show r.toNat < 2 ^ 32 by omega)]
      exact Nat.mod_eq_of_lt hlt
  · next hneg => exact ⟨rfl, id, rfl, rfl, by rw [Int.toNat_of_nonpos (not_lt.mp hneg)]; rfl⟩

/-- **A turn of `filewrite`.** -/
theorem writeChunk_put (h : s.Writing f i) {n : UInt32} {r : ℤ}
    (hok : s.writeChunk f u va n = .ok (r, t)) : t.Writing f i ∧ ∃ m e,
      s.Put f i (fun k => u.byte (va + k)) m e t ∧ (r = n.toNat → m = n.toNat) ∧
      ((s.file f).off.toNat + n.toNat ≤ MAXFILE * BSIZE → r = m ∧ u.Span va n.toNat e ∧
        m = reportedLen (s.file f).off.toNat n.toNat e) := by
  obtain ⟨s₁, hlock, hok⟩ := bind_eq_ok.mp hok
  obtain ⟨⟨r', s₂⟩, hwrite, hok⟩ := bind_eq_ok.mp hok
  obtain ⟨s₃, hunlock, hok⟩ := bind_eq_ok.mp hok
  obtain ⟨rfl, rfl⟩ := Prod.mk.inj (Except.ok.inj hok)
  rw [h.ip] at hlock hwrite hunlock
  have hl := (ilock_post h.lt h.coherent).result hlock
  have hdisk := hl.peek.disk
  have hheld : s₁.Held i := ⟨h.lt, hl.held.2, hl.valid⟩
  have hduring : During {bmapstart, IBLOCK i} 0 s₁.disk.lh s₁ :=
    ⟨hdisk ▸ h.intact, hl.peek.coherent h.coherent, .refl _ _ _⟩
  obtain ⟨hduring, ham, -, hwritten⟩ :=
    (writei_during hduring hheld (by simp) (by simp) (.user u va) _ n).result hwrite
  have hfile := (file_writei hwrite).trans hl.peek.file
  have hmem : s₂.mem i = s₂.disk.inode i := (hduring.mem_eq (ham.held hheld)).1
  have hinside := h.inside
  have hmax := (h.intact.whole ⟨i, h.lt⟩).size_le
  have hsmall : MAXFILE * BSIZE = 274432 := rfl
  change (s.disk.inode i).size.toNat ≤ _ at hmax
  rw [Written, hl.peek.file, hdisk, show s₁.mem _ = s.disk.inode i from hl.mem, hmem, Refused]
    at hwritten
  have hbound : 0 ≤ r' → (s.file f).off.toNat + r'.toNat < 2 ^ 32 := by
    intro hr
    rcases hwritten with ⟨-, rfl, -⟩ | ⟨hnot, m, e, rfl, hm, -⟩ <;> omega
  obtain ⟨hdisk₃, hcoherent, hip, hwritable, hoff⟩ :=
    released_advance (hfile ▸ hbound) ((iunlock_post _ i).result hunlock)
  rw [hfile] at hip hwritable hoff
  have hput : ∃ m e, s.Put f i (fun k => u.byte (va + k)) m e s₃ ∧ (r' = n.toNat → m = n.toNat) ∧
      ((s.file f).off.toNat + n.toNat ≤ MAXFILE * BSIZE → r' = m ∧ u.Span va n.toNat e ∧
        m = reportedLen (s.file f).off.toNat n.toNat e) := by
    rcases hwritten with ⟨href, rfl, rfl⟩ | ⟨-, m, e, rfl, hm, hsp⟩
    · refine ⟨0, 0, ⟨le_rfl, hoff, ?_, fun a _ => ?_⟩, fun hr => ?_, fun hfits => ?_⟩
      · rw [hdisk₃, hdisk]
        omega
      · rw [hdisk₃, hdisk, blit_zero]
      · omega
      · omega
    · refine ⟨m, e, ⟨hsp.le_end, hoff, ?_, fun a ha => ?_⟩, fun hr => (by omega), fun _ => ⟨rfl, ?_⟩⟩
      · rw [hdisk₃]
        exact hsp.size
      · rw [hdisk₃, hsp.byteAt_eq a (Nat.div_lt_of_lt_mul (by rw [Nat.mul_comm]; omega))]
        rfl
      · have hspan : u.Span va n.toNat e := hsp.span
        exact ⟨hspan, hsp.eq_reportedLen hm hspan.le⟩
  obtain ⟨m, e, hput', -⟩ := id hput
  refine ⟨⟨hdisk₃ ▸ hduring.intact, hcoherent hduring.coherent, h.lt, hip.trans h.ip,
    hwritable.trans h.writable, ?_⟩, hput⟩
  rw [hput'.off, hput'.size]
  exact le_max_right _ _

/-! ## The writes -/

/-- `m` bytes of `b` follow what was before the offset. -/
structure Extended (s : Fs) (f : Fin NFILE) (i : ℕ) (b : Buf) (m : ℕ) (t : Fs) : Prop where
  writing : t.Writing f i
  off : (t.file f).off.toNat = (s.file f).off.toNat + m
  size : (t.disk.inode i).size.toNat = max (s.disk.inode i).size.toNat (t.file f).off.toNat
  before : ∀ a, a < (s.file f).off.toNat →
    byteAt t.disk.sect (t.disk.inode i) a = byteAt s.disk.sect (s.disk.inode i) a
  bytes : ∀ k, k < m → byteAt t.disk.sect (t.disk.inode i) ((s.file f).off.toNat + k) = b k

theorem Writing.off_le (h : s.Writing f i) : (s.file f).off.toNat ≤ MAXFILE * BSIZE :=
  h.inside.trans (h.intact.whole ⟨i, h.lt⟩).size_le

theorem Extended.refl (h : s.Writing f i) (b : Buf) : s.Extended f i b 0 s :=
  ⟨h, rfl, (max_eq_left h.inside).symm, fun _ _ => rfl, fun k hk => absurd hk (Nat.not_lt_zero k)⟩

theorem Put.extended {m e : ℕ} (h : s.Put f i b m e t) (ht : t.Writing f i) :
    s.Extended f i b m t := by
  have hle := h.le
  have hmax := ht.off_le
  rw [h.off] at hmax
  refine ⟨ht, h.off, by rw [h.off, h.size], fun a ha => ?_, fun k hk => ?_⟩
  · rw [h.byte a (by omega), blit_of_out (by omega)]
  · rw [h.byte _ (by omega), blit_of_in (by omega) (by omega), Nat.add_sub_cancel_left]

theorem Extended.trans {m m' : ℕ} {b' : Buf} (h : s.Extended f i b m t)
    (h' : t.Extended f i b' m' v) (hb : ∀ k, k < m' → b' k = b (m + k)) :
    s.Extended f i b (m + m') v := by
  have hoff := h.off
  have hoff' := h'.off
  refine ⟨h'.writing, by omega, ?_, fun a ha => ?_, fun k hk => ?_⟩
  · rw [h'.size, h.size]
    omega
  · rw [h'.before a (by omega), h.before a ha]
  · rcases Nat.lt_or_ge k m with hkm | hkm
    · rw [h'.before _ (by omega), h.bytes k hkm]
    · have hnew := h'.bytes (k - m) (by omega)
      rwa [hoff, hb _ (by omega), show (s.file f).off.toNat + m + (k - m) =
        (s.file f).off.toNat + k by omega, show m + (k - m) = k by omega] at hnew

theorem Extended.endOp {m : ℕ} (h : s.Extended f i b m t) : s.Extended f i b m t.endOp :=
  ⟨h.writing.endOp, h.off, h.size, h.before, h.bytes⟩

/-- **The loop of `filewrite`.** -/
theorem filewriteLoop_extended {turns n k k' : ℕ} (h : s.Writing f i)
    (hok : filewriteLoop f u va n turns s k = .ok (k', t)) :
    ∃ m, s.Extended f i (fun j => u.byte (va + k + j)) m t := by
  induction turns generalizing s k with
  | zero =>
    cases hok
    exact ⟨0, .refl h _⟩
  | succ turns ih =>
    rw [filewriteLoop] at hok
    split at hok
    · obtain ⟨⟨r, s₁⟩, hchunk, hok⟩ := bind_eq_ok.mp hok
      obtain ⟨hs₁, m, e, hput, hall, -⟩ := writeChunk_put h hchunk
      have hext := (hput.extended hs₁).endOp
      simp only at hok
      split at hok
      · cases hok
        exact ⟨m, hext⟩
      · next hr =>
          have hn : (UInt32.ofNat (min (n - k) maxWrite)).toNat = min (n - k) maxWrite :=
            UInt32.toNat_ofNat_of_lt' (show min (n - k) 3072 < 2 ^ 32 by omega)
          rw [hn] at hall
          obtain rfl := hall (by omega)
          obtain ⟨m', hrest⟩ := ih hs₁.endOp hok
          exact ⟨_, hext.trans hrest fun j _ => by
            rw [Nat.add_assoc va, Nat.add_assoc va, Nat.add_assoc]⟩
    · cases hok
      exact ⟨0, .refl h _⟩

theorem filewrite_extended {w : Write} {r : ℤ} (h : s.Writing f i)
    (hok : s.filewrite f w = .ok (r, t)) :
    ∃ m, s.Extended f i (fun k => w.u.byte (w.va + k)) m t := by
  rw [filewrite, if_neg (by simp [h.writable])] at hok
  obtain ⟨⟨k, t'⟩, hloop, hok⟩ := bind_eq_ok.mp hok
  cases hok
  exact filewriteLoop_extended h hloop

/-- **The writes of a command** follow one another. -/
theorem writes_extended {ws : List Write} {w : List UInt8} (h : s.Writing f i)
    (hok : writes f ws s = .ok (w, t)) : s.Extended f i (fun k => w.getD k 0) w.length t := by
  induction ws generalizing s w with
  | nil =>
    cases hok
    exact .refl h _
  | cons x ws ih =>
    obtain ⟨⟨r, s₁⟩, hfirst, hok⟩ := bind_eq_ok.mp hok
    obtain ⟨⟨w', s₂⟩, hrest, hok⟩ := bind_eq_ok.mp hok
    cases hok
    obtain ⟨m, hext⟩ := filewrite_extended h hfirst
    have hm : (s₁.file f).off.toNat - (s.file f).off.toNat = m := by
      rw [hext.off, Nat.add_sub_cancel_left]
    rw [hm, List.length_append, List.length_map, List.length_range]
    refine Extended.trans ⟨hext.writing, hext.off, hext.size, hext.before, fun k hk => ?_⟩
      (ih hext.writing hrest) fun k hk => ?_
    · rw [hext.bytes k hk]
      simp [List.getElem?_append_left, hk]
    · simp [List.getElem?_append_right]

/-! ## Writes that write nothing -/

theorem content_eq_patch {w : Write} (hsize : (t.disk.inode i).size = (s.disk.inode i).size)
    (hbyte : ∀ a, a < (s.disk.inode i).size.toNat → byteAt t.disk.sect (t.disk.inode i) a =
      if a < w.copied then w.u.byte (w.va + a) else byteAt s.disk.sect (s.disk.inode i) a) :
    t.content i = w.patch (s.content i) := by
  rw [content, content, Write.patch, hsize]
  refine List.ext_getElem (by simp) fun a ha _ => ?_
  rw [List.length_map, List.length_range] at ha
  simp [hbyte a ha]

theorem filewrite_idle {w : Write} {r : ℤ} (h : s.Writing f i) (hoff : (s.file f).off.toNat = 0)
    (hok : s.filewrite f w = .ok (r, t)) : ((t.file f).off.toNat = 0 ↔ w.Idle) ∧
      (w.Idle → t.content i = w.patch (s.content i)) := by
  rw [filewrite, if_neg (by simp [h.writable])] at hok
  obtain ⟨⟨k, t'⟩, hloop, hok⟩ := bind_eq_ok.mp hok
  cases hok
  have hcopied := w.u.span_mappedLen w.va w.head
  change w.u.Span w.va w.head w.copied at hcopied
  have hhead : w.head = min w.n.toInt.toNat 1024 := rfl
  rw [Write.Idle]
  generalize w.n.toInt.toNat = n at *
  cases n with
  | zero =>
    cases hloop
    have hzero : w.copied = 0 := by have := hcopied.le; omega
    refine ⟨by omega, fun _ => content_eq_patch rfl fun a _ => ?_⟩
    rw [if_neg (by omega)]
  | succ n =>
    rw [filewriteLoop, if_pos (Nat.succ_pos n)] at hloop
    obtain ⟨⟨r, s₁⟩, hchunk, hloop⟩ := bind_eq_ok.mp hloop
    obtain ⟨hs₁, m, e, hput, -, hfits⟩ := writeChunk_put h hchunk
    have hn : (UInt32.ofNat (min (n + 1 - 0) maxWrite)).toNat = min (n + 1) 3072 :=
      UInt32.toNat_ofNat_of_lt' (show min (n + 1) 3072 < 2 ^ 32 by omega)
    rw [hn, hoff, Nat.zero_add] at hfits
    obtain ⟨hr, hspan, hm⟩ := hfits ((min_le_right _ _).trans (by decide))
    have he := hspan.le
    have hboth : w.copied = min e w.head := by
      refine hcopied.unique ⟨min_le_right _ _, fun j hj => hspan.has j (by omega), fun hlt => ?_⟩
      rw [min_eq_left (by omega)]
      exact hspan.stop (by omega)
    rw [reportedLen, Nat.zero_add, Nat.sub_zero] at hm
    simp only [BSIZE] at hm
    have hzero : m = 0 ↔ e < w.head := by
      split at hm <;> omega
    have hmax : min (n + 1 - 0) maxWrite = min (n + 1) 3072 := rfl
    simp only [hmax] at hloop
    split at hloop
    · cases hloop
      have hoff₁ : (s₁.file f).off.toNat = m := by rw [hput.off, hoff, Nat.zero_add]
      refine ⟨?_, fun hidle => content_eq_patch ?_ fun a ha => ?_⟩
      · change (s₁.file f).off.toNat = 0 ↔ _
        omega
      · change (s₁.disk.inode i).size = _
        have hsize := hput.size
        rw [← UInt32.toNat_inj]
        omega
      · have hmax := (h.intact.whole ⟨i, h.lt⟩).size_le
        change (s.disk.inode i).size.toNat ≤ _ at hmax
        change byteAt s₁.disk.sect (s₁.disk.inode i) a = _
        rw [hput.byte a (by omega), hoff, show w.copied = e by omega]
        simp [blit]
    · next hne =>
        have hpos : m ≠ 0 := by
          simp only [ne_eq, not_not] at hne
          omega
        obtain ⟨m', hrest⟩ := filewriteLoop_extended hs₁.endOp hloop
        have hoff' := hrest.off
        change _ = (s₁.file f).off.toNat + m' at hoff'
        rw [hput.off, hoff] at hoff'
        exact ⟨by omega, fun hidle => by omega⟩

theorem writes_idle {ws : List Write} {w : List UInt8} (h : s.Writing f i)
    (hoff : (s.file f).off.toNat = 0) (hok : writes f ws s = .ok (w, t)) :
    (w = [] ↔ ∀ x ∈ ws, x.Idle) ∧ (w = [] → t.content i = ws.foldl Write.patch (s.content i)) := by
  induction ws generalizing s w with
  | nil =>
    cases hok
    simp
  | cons x ws ih =>
    obtain ⟨⟨r, s₁⟩, hfirst, hok⟩ := bind_eq_ok.mp hok
    obtain ⟨⟨w', s₂⟩, hrest, hok⟩ := bind_eq_ok.mp hok
    cases hok
    obtain ⟨m, hext⟩ := filewrite_extended h hfirst
    obtain ⟨hidle, hpatch⟩ := filewrite_idle h hoff hfirst
    simp only [hoff, Nat.sub_zero, List.append_eq_nil_iff, List.map_eq_nil_iff,
      List.range_eq_nil, List.forall_mem_cons, List.foldl_cons, hidle]
    refine ⟨and_congr_right fun hx => (ih hext.writing (hidle.mpr hx) hrest).1, fun hw => ?_⟩
    rw [← hpatch hw.1]
    exact (ih hext.writing (hidle.mpr hw.1) hrest).2 hw.2

/-! ## The redirection -/

/-- The path leads to the inode `i`. -/
def Leads (s : Fs) (path : List UInt8) (i : ℕ) : Prop := ∃ dp name,
  s.disk.resolveParent (s.start path) (names path) = some (dp, name) ∧
    s.disk.child dp name = some i

theorem create_existing {path : List UInt8} (h : s.Consistent) (hnul : 0 ∉ path)
    (hpath : s.Leads path i) (htype : (s.disk.inode i).type = T_FILE) {r : Option ℕ}
    (hok : s.create path T_FILE 0 0 = .ok (r, t)) : r = some i ∧ i < NINODES ∧ Peek s t ∧
      t.mem i = s.disk.inode i := by
  obtain ⟨dp, name, hparent, hchild⟩ := hpath
  obtain ⟨⟨r₁, s₁⟩, hnamex, hok⟩ := bind_eq_ok.mp hok
  obtain ⟨hwalked, -, hresult⟩ := (namex_post h.coherent h.intact h.rooted h.cwd_pos h.cwd_lt hnul
    true _).result hnamex
  have hr₁ : r₁.map (fun r => (r.1, cname r.2)) = some (dp, name) := hresult.trans hparent
  obtain ⟨⟨dp', name'⟩, rfl, heq⟩ := Option.map_eq_some_iff.mp hr₁
  obtain ⟨rfl, rfl⟩ := Prod.mk.inj heq
  have hw : Walking s.ref s s₁ dp' := hwalked
  obtain ⟨s₂, hlock, hok⟩ := bind_eq_ok.mp hok
  have hl := (ilock_post hw.kept.1 (hw.peek.coherent h.coherent)).result hlock
  obtain ⟨⟨r₃, s₃⟩, hlook, hok⟩ := bind_eq_ok.mp hok
  have hfound := (dirlookup_post (hw.whole hl h.intact) name').result hlook
  have hentry := hfound.entry
  rw [hw.mem_eq hl, hw.disk_eq hl] at hentry
  have hthere := hentry.symm.trans hchild
  cases hfound with
  | none _ => cases hthere
  | @some j off u hat hgot =>
    obtain rfl := Option.some.inj hthere
    have hkept := hw.kept_entry hl h.rooted (type_of_dirlookup hlook) hat
    obtain ⟨s₄, hput, hw'⟩ := hw.next h.coherent hl hgot hkept
    simp only [hput, bind, Except.bind] at hok
    obtain ⟨s₅, hlock', hok⟩ := bind_eq_ok.mp hok
    have hl' := (ilock_post hkept.1 (hw'.peek.coherent h.coherent)).result hlock'
    have hmem := hw'.mem_eq hl'
    rw [if_pos ⟨trivial, .inl (by rw [hmem, htype])⟩] at hok
    cases hok
    exact ⟨rfl, hkept.1, hw'.peek.trans hl'.peek, hmem⟩

theorem openFile_writing {omode : UInt32} {fd : ℤ} (htrunc : omode &&& O_TRUNC = 0)
    (hwrite : omode &&& O_WRONLY ≠ 0) (htype : (s.mem i).type = T_FILE)
    (hok : s.openFile i omode = .ok (fd, t)) (hfd : ¬ fd < 0)
    (hf : t.ofile (Fin.ofNat NOFILE fd.toNat) = some f) : t.disk = s.disk ∧
      (s.Coherent → t.Coherent) ∧ (t.file f).ip = i ∧ (t.file f).writable = true ∧
      (t.file f).off = 0 := by
  unfold openFile filealloc at hok
  split at hok
  · obtain ⟨v, -, hok⟩ := bind_eq_ok.mp hok
    cases hok
    exact absurd (by decide) hfd
  next f' s₁ hfile =>
  split at hfile
  · cases hfile
  cases hfile
  unfold fdalloc at hok
  split at hok
  · obtain ⟨v, -, hok⟩ := bind_eq_ok.mp hok
    cases hok
    exact absurd (by decide) hfd
  next fd' s₂ hdesc =>
  split at hdesc
  · cases hdesc
  cases hdesc
  rw [openDone, if_neg fun h => h.1 htrunc] at hok
  obtain ⟨v, hunlock, hok⟩ := bind_eq_ok.mp hok
  cases hok
  obtain rfl := (iunlock_post _ i).result hunlock
  have hindex : Fin.ofNat NOFILE ((fd' : ℕ) : ℤ).toNat = fd' := by
    rw [Int.toNat_natCast]
    exact Fin.cast_val_eq_self fd'
  rw [hindex] at hf
  obtain rfl : f' = f := by simpa using hf
  have hnot : (s.mem i).type ≠ T_DEVICE := by
    rw [htype]
    decide
  exact ⟨rfl, id, by simp, by simp [hwrite], by simp [hnot]⟩

/-- **Appending.** The content is the old one followed by what has been written exactly if there was
none, or if nothing has been written, and what has been copied in vain leaves it as it was. -/
theorem append_iff_idle {path : List UInt8} {ws : List Write} {w : List UInt8} (h : s.Consistent)
    (hnul : 0 ∉ path) (hpath : s.Leads path i) (htype : (s.disk.inode i).type = T_FILE)
    (hok : s.runAppend path ws = .ok (some (w, t))) :
    t.content i = s.content i ++ w ↔ s.content i = [] ∨
      (∀ x ∈ ws, x.Idle) ∧ ws.foldl Write.patch (s.content i) = s.content i := by
  obtain ⟨⟨fd, s₁⟩, hopen, hok⟩ := bind_eq_ok.mp hok
  simp only at hok
  split at hok
  · cases hok
  next hfd =>
  split at hok
  · cases hok
  next f hf =>
  obtain ⟨⟨w', t'⟩, hwrites, hok⟩ := bind_eq_ok.mp hok
  cases hok
  obtain ⟨⟨r, s₀⟩, hcreate, hopen⟩ := bind_eq_ok.mp hopen
  rw [openInode, if_pos (by decide)] at hcreate
  obtain ⟨rfl, hlt, hpeek, hmem⟩ := create_existing h hnul hpath htype hcreate
  have hfile : (s₀.mem i).type = T_FILE := by rw [hmem, htype]
  simp only [hfile] at hopen
  rw [if_neg fun h => absurd h.1 (by decide)] at hopen
  obtain ⟨hdisk, hcoherent, hip, hwritable, hoff⟩ :=
    openFile_writing (by decide) (by decide) hfile hopen hfd hf
  rw [hpeek.disk] at hdisk
  have hzero : (s₁.endOp.file f).off.toNat = 0 := congrArg UInt32.toNat hoff
  have hwriting : s₁.Writing f i := ⟨hdisk ▸ h.intact, hcoherent (hpeek.coherent h.coherent), hlt,
    hip, hwritable, hzero.le.trans (Nat.zero_le _)⟩
  have hsame : s₁.endOp.content i = s.content i := by
    rw [content, content, endOp, hdisk]
    rfl
  have hext := writes_extended hwriting.endOp hwrites
  obtain ⟨hidle, hpatch⟩ := writes_idle hwriting.endOp hzero hwrites
  have hlen : (t.content i).length = max (s.content i).length w.length := by
    rw [← hsame, content, content, List.length_map, List.length_map, List.length_range,
      List.length_range, hext.size, hext.off, hzero, Nat.zero_add]
  rw [hsame] at hpatch
  constructor
  · intro happend
    rw [happend, List.length_append] at hlen
    by_cases hw : w = []
    · refine .inr ⟨hidle.mp hw, ?_⟩
      rw [← hpatch hw, happend, hw, List.append_nil]
    · have := List.length_pos_iff.mpr hw
      exact .inl (List.length_eq_zero_iff.mp (by omega))
  · rintro (hempty | ⟨hall, hfold⟩)
    · rw [hempty, List.length_nil, Nat.zero_max] at hlen
      rw [hempty, List.nil_append]
      refine List.ext_getElem hlen fun k hk hk' => ?_
      have hbyte := hext.bytes k hk'
      rw [hzero, Nat.zero_add] at hbyte
      simp [content, hbyte, hk']
    · have hw := hidle.mpr hall
      rw [hpatch hw, hfold, hw, List.append_nil]

/-! ## A file of at most one byte -/

/-- The directory with the file `a`. -/
def named : Buf := direntBytes 2 (cstr [97])

/-- The file `a` is empty, or has the one byte `a`; another process has it open. -/
def holdingA (full : Bool) : Fs :=
  { rootOnly with
    disk := pairDisk (oneBlock T_DIR 1 16 46) (oneBlock T_FILE 1 (if full then 1 else 0) 47) named
      fun _ => 97
    ref := inc (inc (fun _ => 0) 1) 2 }

theorem consistent_holdingA (full : Bool) : (holdingA full).Consistent := by
  have hinode : ∀ {i : ℕ}, i < NINODES → (holdingA full).disk.inode i = _ :=
    fun hi => inode_pairDisk _ _ named (fun _ => 97) hi
  refine ⟨intact_pairDisk (by decide) (by cases full <;> decide) _ _,
    fun i _ _ hvalid => (by cases hvalid),
    ⟨⟨by decide, fun _ => .inr (by cases full <;> decide)⟩, fun i hi htype off hmod hlt _ => ?_⟩,
    by cases full <;> decide, by cases full <;> decide⟩
  rw [hinode hi.1] at htype hlt ⊢
  split at htype
  · exact absurd htype (by cases full <;> decide)
  next h2 =>
  rw [if_neg h2] at hlt ⊢
  split at htype
  · next h1 =>
      rw [if_pos h1] at hlt ⊢
      have hfirst : off < 16 := hlt
      obtain rfl : off = 0 := by
        simp only [DIRENT] at hmod
        omega
      have htwo : (direntAt (byteAt (holdingA full).disk.sect (oneBlock T_DIR 1 16 46)) 0).1 = 2 := by
        cases full <;> decide
      rw [htwo]
      exact ⟨by decide, fun _ => .inr (by cases full <;> decide)⟩
  · exact absurd htype (by decide)

theorem leads_holdingA (full : Bool) : (holdingA full).Leads [97] 2 := by
  refine ⟨1, [97], ?_, ?_⟩
  · cases full <;> decide +kernel
  · cases full <;> decide +kernel

theorem append_iff_idle_empty : ∃ t, (holdingA false).runAppend [97]
      [⟨onePage 98, 0, 2⟩, ⟨onePage 99, 4095, 1⟩] = .ok (some ([98, 98, 99], t)) ∧
    t.content 2 = (holdingA false).content 2 ++ [98, 98, 99] := by
  have hrun : ((holdingA false).runAppend [97] [⟨onePage 98, 0, 2⟩,
      ⟨onePage 99, 4095, 1⟩]).toOption.any (fun r => r.any fun r => r.1 = [98, 98, 99]) = true := by
    decide +kernel
  cases hok : (holdingA false).runAppend [97] [⟨onePage 98, 0, 2⟩, ⟨onePage 99, 4095, 1⟩] with
  | error p =>
    rw [hok] at hrun
    cases hrun
  | ok r =>
    rw [hok] at hrun
    obtain ⟨⟨w, t⟩, rfl, hw⟩ := (Option.any_eq_true _ r).mp hrun
    obtain rfl := of_decide_eq_true hw
    refine ⟨t, rfl, (append_iff_idle (consistent_holdingA false) (by decide) (leads_holdingA false)
      (by decide +kernel) hok).mpr (.inl (by decide +kernel))⟩

/-- The byte of the file is overwritten. -/
theorem oneByte_overwritten : (holdingA true).Consistent ∧ (holdingA true).Leads [97] 2 ∧
    (holdingA true).content 2 = [97] ∧
    ((holdingA true).runAppend [97] [⟨onePage 98, 0, 1⟩]).toOption.map
      (fun r => r.map fun r => (r.1, r.2.content 2)) = some (some ([98], [98])) :=
  ⟨consistent_holdingA true, leads_holdingA true, by decide +kernel, by decide +kernel⟩

end Fs

end Content

end Xv6
