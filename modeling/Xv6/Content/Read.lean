import Xv6.Content.Write

/-!
# Reading

A file whose blocks all exist is an array of bytes: `readi` copies the bytes it is asked for, up to
the size of the file, and changes nothing on the disk.
-/

namespace Xv6.Content

open Lib Mkfs

variable {s : Disk} {ip : Dinode} {dst : Dest}

/-! ## The destination -/

namespace Dest

/-- The destination with `m` bytes of `src` at its byte `tot`. -/
def put : Dest → ℕ → ℕ → Buf → Dest
  | .kernel data, tot, m, src => .kernel (blit data tot m src)
  | .user u va, tot, m, src => .user { u with byte := blit u.byte (va + tot) m src } va

/-- The destination has room for `n` bytes. -/
def Fits : Dest → ℕ → Prop
  | .kernel _, _ => True
  | .user u va, n => ∀ k, k < n → u.Has (va + k)

variable {tot m n : ℕ} {src : Buf}

theorem Fits.put (h : dst.Fits n) : (dst.put tot m src).Fits n := by
  cases dst <;> exact h

theorem put_zero (dst : Dest) (tot : ℕ) (src : Buf) : dst.put tot 0 src = dst := by
  cases dst <;> simp [put]

/-- Two parts, one after the other. -/
theorem put_put (dst : Dest) (tot m k : ℕ) (src : Buf) :
    (dst.put tot m src).put (tot + m) k (fun i => src (m + i)) = dst.put tot (m + k) src := by
  cases dst with
  | kernel data => simp only [put, blit_blit]
  | user u va => simp only [put, ← Nat.add_assoc, blit_blit]

theorem put_congr {src' : Buf} (h : ∀ k, k < m → src' k = src k) :
    dst.put tot m src' = dst.put tot m src := by
  cases dst <;> simp only [put, blit_congr h]

end Dest

theorem eitherCopyout_of_fits {tot m n : ℕ} (h : dst.Fits n) (hle : tot + m ≤ n) (src : Buf) :
    eitherCopyout tot src m dst = (dst.put tot m src, true) := by
  cases dst with
  | kernel data => rfl
  | user u va =>
    have hspan : u.Span (va + tot) m m := by
      refine ⟨le_rfl, fun k hk => ?_, fun hlt => absurd hlt (lt_irrefl m)⟩
      rw [Nat.add_assoc]
      exact h (tot + k) (by omega)
    simp only [eitherCopyout, UserMem.copyout_of_span hspan, decide_true, Dest.put]

theorem bmap_of_stored {bn : ℕ} (hbn : bn < MAXFILE) (h : number s.sect ip (slotOf bn) ≠ 0) :
    s.bmap ip bn = .ok (number s.sect ip (slotOf bn), ip, s) := by
  unfold Disk.bmap
  split
  · next hdirect =>
      have hslot : slotOf bn = .addr (Fin.ofNat _ bn) := if_pos hdirect
      rw [hslot, number] at h ⊢
      rw [Disk.fillAddr, if_neg fun h0 => h (by rw [h0]; rfl)]
  · next hdirect =>
      have hslot : slotOf bn = .entry (Fin.ofNat _ (bn - NDIRECT)) := if_neg hdirect
      have hentry : bn - NDIRECT < NINDIRECT := by
        simp only [MAXFILE, NDIRECT, NINDIRECT] at *
        omega
      have hind : ip.indirect ≠ 0 := indirect_ne_zero (not_lt.mp hdirect) h
      have haddr : s.fillAddr ip (Fin.last NDIRECT) = .ok (ip.indirect, ip, s) := by
        rw [Disk.fillAddr, if_neg fun h0 => hind (by rw [Dinode.indirect, h0]; rfl)]
        rfl
      have hnumber : number s.sect ip (slotOf bn) =
          getLe (s.sect ip.indirect) (4 * (bn - NDIRECT)) 4 := by
        rw [hslot, number, if_neg hind, Fin.val_ofNat, Nat.mod_eq_of_lt hentry]
      rw [hnumber] at h ⊢
      rw [if_pos hentry, haddr]
      simp only [bind, Except.bind, Disk.fillEntry, if_neg h]

/-- The blocks of the bytes from `lo` to `hi` exist. -/
def Present (s : Disk) (ip : Dinode) (lo hi : ℕ) : Prop :=
  ∀ a, lo ≤ a → a < hi → a / BSIZE < MAXFILE ∧ number s.sect ip (slotOf (a / BSIZE)) ≠ 0

/-- The bytes of a part of a block are bytes of the file. -/
theorem sect_of_part {off m k : ℕ} (hpart : off % BSIZE + m ≤ BSIZE) (hk : k < m)
    (hne : number s.sect ip (slotOf (off / BSIZE)) ≠ 0) :
    s.sect (number s.sect ip (slotOf (off / BSIZE))) (off % BSIZE + k) =
      byteAt s.sect ip (off + k) := by
  have hdiv := div_add_of_part hpart hk
  have hmodk : (off + k) % BSIZE = off % BSIZE + k := by
    rw [Nat.add_mod, Nat.mod_eq_of_lt (show k < BSIZE by omega)]
    exact Nat.mod_eq_of_lt (by omega)
  rw [byteAt, hdiv, if_neg hne, hmodk]

/-- **The loop of `readi`.** -/
theorem readLoop_of_present {turns tot off n : ℕ} (htot : tot ≤ n) (hturns : n - tot ≤ turns)
    (hfits : dst.Fits n) (h : Present s ip off (off + (n - tot))) :
    readLoop turns s ip dst tot off n =
      .ok (s, ip, dst.put tot (n - tot) (fun k => byteAt s.sect ip (off + k)), n) := by
  induction turns generalizing dst tot off with
  | zero =>
    obtain rfl : tot = n := by omega
    rw [readLoop, Nat.sub_self, Dest.put_zero]
  | succ turns ih =>
    rw [readLoop]
    split
    · next hlt =>
        have hmod := Nat.mod_lt off (show 0 < BSIZE by decide)
        obtain ⟨hmax, hne⟩ := h off le_rfl (by omega)
        set m := min (n - tot) (BSIZE - off % BSIZE) with hm
        have hpart : off % BSIZE + m ≤ BSIZE := by omega
        have hsrc : ∀ k, k < m →
            s.sect (number s.sect ip (slotOf (off / BSIZE))) (off % BSIZE + k) =
              byteAt s.sect ip (off + k) := fun k hk => sect_of_part hpart hk hne
        have hrest : Present s ip (off + m) (off + m + (n - (tot + m))) := fun a hlo hhi =>
          h a (by omega) (by omega)
        rw [bmap_of_stored hmax hne]
        simp only [bind, Except.bind, eitherCopyout_of_fits hfits (show tot + m ≤ n by omega),
          if_true, Dest.put_congr hsrc]
        rw [ih (by omega) (by omega) hfits.put hrest]
        simp only [Nat.add_assoc off m, Dest.put_put dst tot m _ fun k => byteAt s.sect ip (off + k)]
        rw [show m + (n - (tot + m)) = n - tot by omega]
    · obtain rfl : tot = n := by omega
      rw [Nat.sub_self, Dest.put_zero]

/-! ## `readi` -/

/-- A file: its size is one that an inode can map, and the blocks up to it exist. -/
structure Whole (sect : ℕ → Buf) (d : Dinode) : Prop where
  size_le : d.size.toNat ≤ MAXFILE * BSIZE
  stored : ∀ bn, bn * BSIZE < d.size.toNat → number sect d (slotOf bn) ≠ 0

theorem Whole.present (h : Whole s.sect ip) {lo hi : ℕ} (hhi : hi ≤ ip.size.toNat) :
    Present s ip lo hi := by
  intro a _ ha
  have hsize := h.size_le
  have hdiv := Nat.div_add_mod a BSIZE
  refine ⟨?_, h.stored _ ?_⟩
  · apply Nat.div_lt_of_lt_mul
    rw [Nat.mul_comm]
    omega
  · rw [Nat.mul_comm]
    omega

/-- The number of bytes that `readi` is left with. -/
theorem toNat_clipped {size off n : UInt32} (hoff : off.toNat ≤ size.toNat)
    (hsum : off.toNat + n.toNat < 2 ^ 32) : (if off + n > size then size - off else n).toNat =
      min (off.toNat + n.toNat) size.toNat - off.toNat := by
  split
  · next hlt =>
      rw [gt_iff_lt, UInt32.lt_iff_toNat_lt, UInt32.toNat_add] at hlt
      rw [UInt32.toNat_sub_of_le _ _ (UInt32.le_iff_toNat_le.mpr hoff)]
      omega
  · next hge =>
      rw [gt_iff_lt, UInt32.lt_iff_toNat_lt, UInt32.toNat_add] at hge
      omega

/-- **`readi`** copies the bytes of the file from `off` on, up to its size. -/
theorem readi_of_whole (h : Whole s.sect ip) {off n : UInt32} (hsum : off.toNat + n.toNat < 2 ^ 32)
    (hfits : dst.Fits (min (off.toNat + n.toNat) ip.size.toNat - off.toNat)) :
    readi s ip dst off n = .ok (s, ip,
      dst.put 0 (min (off.toNat + n.toNat) ip.size.toNat - off.toNat)
        (fun k => byteAt s.sect ip (off.toNat + k)),
      (min (off.toNat + n.toNat) ip.size.toNat - off.toNat : ℕ)) := by
  have hadd : (off + n).toNat = off.toNat + n.toNat := by
    rw [UInt32.toNat_add]
    exact Nat.mod_eq_of_lt hsum
  rw [readi]
  split
  · next hguard =>
      have hpast : ip.size.toNat < off.toNat := by
        rw [gt_iff_lt, UInt32.lt_iff_toNat_lt, UInt32.lt_iff_toNat_lt] at hguard
        omega
      rw [show min (off.toNat + n.toNat) ip.size.toNat - off.toNat = 0 by omega, Dest.put_zero]
      rfl
  · next hguard =>
      rw [gt_iff_lt, UInt32.lt_iff_toNat_lt, UInt32.lt_iff_toNat_lt] at hguard
      have hcount := toNat_clipped (by omega : off.toNat ≤ ip.size.toNat) hsum
      rw [← hcount] at hfits ⊢
      exact readLoop_of_present (Nat.zero_le _) le_rfl hfits (h.present (by omega))

/-- A read of a file that has its blocks changes nothing on the disk, whatever it copies. -/
theorem readLoop_keeps {turns tot off n : ℕ} (h : Present s ip off (off + (n - tot))) :
    ∃ dst' r, readLoop turns s ip dst tot off n = .ok (s, ip, dst', r) := by
  induction turns generalizing dst tot off with
  | zero => exact ⟨dst, tot, rfl⟩
  | succ turns ih =>
    rw [readLoop]
    split
    · next hlt =>
        obtain ⟨hmax, hne⟩ := h off le_rfl (by omega)
        rw [bmap_of_stored hmax hne]
        simp only [bind, Except.bind]
        split
        · exact ih fun a hlo hhi => h a (by omega) (by omega)
        · exact ⟨_, _, rfl⟩
    · exact ⟨dst, tot, rfl⟩

theorem readi_keeps (h : Whole s.sect ip) (dst : Dest) (off n : UInt32) :
    ∃ dst' r, readi s ip dst off n = .ok (s, ip, dst', r) := by
  rw [readi]
  split
  · exact ⟨dst, 0, rfl⟩
  · next hguard =>
      rw [gt_iff_lt, UInt32.lt_iff_toNat_lt, UInt32.lt_iff_toNat_lt, UInt32.toNat_add] at hguard
      refine readLoop_keeps (h.present ?_)
      rw [Nat.sub_zero]
      split
      · next hlt =>
          rw [UInt32.toNat_sub_of_le _ _ (UInt32.le_iff_toNat_le.mpr (by omega))]
          omega
      · next hge =>
          rw [gt_iff_lt, UInt32.lt_iff_toNat_lt, UInt32.toNat_add] at hge
          have hn := n.toNat_lt
          omega

/-- `readi` returns the bytes of `f`, as far as the file reaches. -/
def Yields (s : Disk) (ip : Dinode) (f : ℕ → UInt8) : Prop :=
  ∀ (off n : UInt32) (dst : Dest), off.toNat + n.toNat < 2 ^ 32 →
    dst.Fits (min (off.toNat + n.toNat) ip.size.toNat - off.toNat) →
    readi s ip dst off n = .ok (s, ip,
      dst.put 0 (min (off.toNat + n.toNat) ip.size.toNat - off.toNat) (fun k => f (off.toNat + k)),
      (min (off.toNat + n.toNat) ip.size.toNat - off.toNat : ℕ))

theorem yields_iff (h : Whole s.sect ip) {f : ℕ → UInt8} :
    Yields s ip f ↔ ∀ a, a < ip.size.toNat → byteAt s.sect ip a = f a := by
  constructor
  · intro hread a ha
    have hsize := h.size_le
    have hsmall : MAXFILE * BSIZE < 2 ^ 31 := by decide
    have htoNat : (UInt32.ofNat a).toNat = a :=
      UInt32.toNat_ofNat_of_lt' (show a < 2 ^ 32 by omega)
    have hone : (1 : UInt32).toNat = 1 := rfl
    have hsum : (UInt32.ofNat a).toNat + (1 : UInt32).toNat < 2 ^ 32 := by omega
    have hf := hread (.ofNat a) 1 (.kernel fun _ => 0) hsum trivial
    have hfits : (Dest.kernel fun _ => 0).Fits (min ((UInt32.ofNat a).toNat + (1 : UInt32).toNat)
      ip.size.toNat - (UInt32.ofNat a).toNat) := trivial
    rw [readi_of_whole h hsum hfits, htoNat, hone,
      show min (a + 1) ip.size.toNat - a = 1 by omega] at hf
    simp only [Dest.put, Except.ok.injEq, Prod.mk.injEq, Dest.kernel.injEq, true_and, and_true] at hf
    exact congrFun hf 0
  · intro hbyte off n dst hsum hfits
    rw [readi_of_whole h hsum hfits, Dest.put_congr fun k hk => hbyte _ (by omega)]

end Xv6.Content
