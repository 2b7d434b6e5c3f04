import Xv6.Content.Budget

/-!
# The sections of the file system

Every system call that changes the disk does so between `begin_op` and `end_op`. With nothing else
in the log, each such section logs at most `MAXOPBLOCKS` blocks, whether it returns or panics, as
long as the file system is consistent.
-/

namespace Xv6.Content

open Lib Mkfs

namespace Fs

variable {R : Finset ℕ} {k : ℕ} {l : List ℕ} {s s₀ t u v : Fs} {base : ℕ → ℕ} {i j dp ip : ℕ}

/-! ## `link` -/

/-- A file has one more link and one more reference. -/
theorem Rooted.link {d d' : Disk} {ip : Fin NINODES} {ino : Dinode} (h : Rooted base d)
    (hintact : Intact d.inodes d) (hd : d'.Holds ip ino d) (htype : ino.type = (d.inode ip).type)
    (hfile : (d.inode ip).type ≠ T_DIR) : Rooted (inc base ip) d' := by
  have hkept : ∀ j, Kept base d j → Kept (inc base ip) d' j := by
    intro j hj
    refine ⟨hj.1, fun hne => ?_⟩
    by_cases hji : j = ip
    · exact .inr (inc_pos_iff.mpr (.inl hji))
    · rw [inode_of_holds_of_ne hd hj.1 hji] at hne ⊢
      exact (hj.inc ip).2 hne
  refine ⟨hkept _ h.root, fun i hi hdir off hmod hlt => ?_⟩
  have hne : i ≠ ip := by
    rintro rfl
    rw [inode_of_holds hd, htype] at hdir
    exact hfile hdir
  have hsame := inode_of_holds_of_ne hd hi.1 hne
  have hbytes : byteAt d'.sect (d.inode i) = byteAt d.sect (d.inode i) :=
    funext fun a => byteAt_of_holds hd hintact.sound ⟨i, hi.1⟩ a
  rw [hsame] at hdir hlt ⊢
  rw [hbytes]
  refine fun hlive => hkept _ (h.entries i ⟨hi.1, fun hne' => ?_⟩ hdir off hmod hlt hlive)
  have hold := hi.2 (by rwa [hsame])
  rw [hsame] at hold
  refine hold.imp_right fun hpos => ?_
  rwa [inc, Function.update_of_ne hne] at hpos

/-- The link is taken back. -/
theorem linkBad_logs (h : During R k l s) (hi : ip < NINODES) (hmap : bmapstart ∈ R)
    (hR : IBLOCK ip ∈ R) :
    Post (fun p => Grew R k l p.lh) (fun r => Grew R k l r.2.disk.lh) (s.linkBad ip) := by
  refine (ilock_post hi h.coherent).seq (fun p hp => ?_) fun t _ hl => ?_
  · rw [hp.1]
    exact h.lh
  have ht := h.peek hl.peek
  have hheld : t.Held ip := ⟨hi, by rw [hl.ref]; exact hl.pos, hl.valid⟩
  refine Post.seq (iupdate_during ht hheld hR ?_) (fun _ => id) ?_
  · exact fun _ => ⟨rfl, rfl, rfl⟩
  rintro u - ⟨hu, ham, -⟩
  refine (iunlockput_grew hu.lh (hu.ranged (ham.held hheld)) hmap hR).seq (fun _ => id) ?_
  rintro v - ⟨hv, -⟩
  exact .ok hv

/-- A reference that is dropped at the end. -/
theorem iput_grew (h : During R k l s) (hi : i < NINODES) (ht : Cleared s j t) (hj : j < NINODES)
    (hne : i ≠ j) (hpos : 0 < s.ref i) (hlh : Grew R k l t.disk.lh) (hmap : bmapstart ∈ R)
    (hR : IBLOCK i ∈ R) :
    Post (fun p => Grew R k l p.lh) (fun u => Grew R k l u.disk.lh) (t.iput i) := by
  have hranged : t.Last i → t.Ranged i := by
    intro hlast
    refine ht.ranged hj (h.ranged ⟨hi, hpos, ?_⟩) hne
    rw [← ht.valid i hne]
    exact hlast.2.1
  refine (iput_cleared hranged).mono (fun p hp => ?_) fun u hu => hu.grew hlh hmap hR
  exact hlh.trans (hp.weaken (pair_subset hmap hR) le_rfl)

/-- The second half of `link`: the name is entered, or the link is taken back. -/
theorem linkNew_logs (h : During {IBLOCK ip, bmapstart} 0 l s) (hrooted : Rooted s.ref s.disk)
    (hcwd : 0 < s.ref s.cwd) (hlt : s.cwd < NINODES) (hi : ip < NINODES) (hpos : 0 < s.ref ip)
    (hfile : (s.disk.inode ip).type ≠ T_DIR) {new : List UInt8} (hnul : 0 ∉ new) :
    Logs l (s.linkNew ip new) := by
  have hin : ∀ {k : ℕ} {l' : List ℕ}, k ≤ 2 → Grew {IBLOCK ip, bmapstart} k l l' →
      Within l l' := fun hk hgrew => hgrew.within
    ((Nat.add_le_add Finset.card_le_two hk).trans (by simp only [MAXOPBLOCKS]; omega))
  have hbad : ∀ {r : Option (ℕ × Buf)} {t : Fs}, Walked s.ref s (r, t) →
      Logs l (t.linkBad ip) := by
    intro r t hw
    have hpeek : Peek s t := by
      cases r with
      | none => exact hw.1
      | some r => exact (show Walking s.ref s t r.1 from hw).peek
    exact (linkBad_logs (h.peek hpeek) hi (by simp) (by simp)).mono
      (fun p hp => hin (Nat.zero_le 2) hp) fun r hr => hin (Nat.zero_le 2) hr
  refine (namex_post h.coherent h.intact hrooted hcwd hlt hnul true _).seq (fun p hp => ?_) ?_
  · rw [hp.1]
    exact hin (Nat.zero_le 2) h.lh
  rintro ⟨r, t⟩ - ⟨hw, -⟩
  cases r with
  | none => exact hbad hw
  | some r =>
    obtain ⟨dp, name⟩ := r
    have hw : Walking s.ref s t dp := hw
    have hcard := card_three (IBLOCK ip) bmapstart (IBLOCK dp)
    have hin3 : ∀ {k : ℕ} {l' : List ℕ}, k ≤ 2 →
        Grew {IBLOCK ip, bmapstart, IBLOCK dp} k l l' → Within l l' :=
      fun hk hgrew => hgrew.within (by simp only [MAXOPBLOCKS]; omega)
    refine (ilock_post hw.kept.1 (hw.peek.coherent h.coherent)).seq (fun p hp => ?_)
      fun u _ hl => ?_
    · rw [hw.lh hp.1]
      exact hin (Nat.zero_le 2) h.lh
    have hu : During {IBLOCK ip, bmapstart, IBLOCK dp} 0 l u :=
      (h.peek (hw.peek.trans hl.peek)).weaken (by intro c; simp; tauto) le_rfl
    have hud : u.Held dp := ⟨hw.kept.1, by rw [hl.ref]; exact hl.pos, hl.valid⟩
    refine (dirlink_during hu hud (by simp) (by simp) name ip).seq (fun p hp => hin3 le_rfl hp) ?_
    rintro ⟨ok, v⟩ hlink ⟨hv, ham, hsame⟩
    cases ok with
    | true =>
      have hdir : (u.mem dp).type = T_DIR := by
        by_contra hnot
        rw [dirlink, dirlookup, if_pos hnot] at hlink
        cases hlink
      have hne : ip ≠ dp := by
        rintro rfl
        rw [hw.mem_eq hl] at hdir
        exact hfile hdir
      refine (iunlockput_grew hv.lh (hv.ranged (ham.held hud)) (by simp) (by simp)).seq
        (fun p hp => hin3 le_rfl hp) ?_
      rintro x - ⟨hx, hclear⟩
      have hvpos : 0 < v.ref ip := by
        rw [ham.ref, hl.ref, hw.ref]
        exact inc_pos_iff.mpr (.inr hpos)
      refine (iput_grew hv hi hclear hud.lt hne hvpos hx (by simp) (by simp)).seq
        (fun p hp => hin3 le_rfl hp) fun y _ hy => .ok (hin3 le_rfl hy)
    | false =>
      obtain ⟨x, hput, hwalked⟩ := hw.unlockput h.coherent hl (hsame rfl) ham.lock ham.ref
      simp only [hput, bind, Except.bind]
      exact hbad hwalked

theorem sysLink_logs (h : s.Consistent) {old new : List UInt8} (hold : 0 ∉ old) (hnew : 0 ∉ new) :
    Logs s.disk.lh (s.sysLink old new) := by
  refine (namei_logs h hold).seq (fun _ => id) ?_
  rintro ⟨r, t⟩ - hw
  cases r with
  | none => exact .ok (Walked.within hw)
  | some ip =>
    have hw : Walking s.ref s t ip := hw
    refine (hw.ilock h).seq (fun _ => id) fun u _ hl => ?_
    split
    · obtain ⟨v, hput, hwalked⟩ := hw.unlockput h.coherent hl (.refl u) rfl rfl
      simp only [hput, bind, Except.bind]
      exact .ok (hwalked.within)
    next hfile =>
    obtain ⟨hu, hheld⟩ := hw.during (R := {IBLOCK ip, bmapstart}) (k := 0) hl h.coherent h.intact
    rw [hw.mem_eq hl] at hfile
    refine Post.seq (iupdate_during hu hheld (by simp) ?_) (fun p hp => hp.within ?_) ?_
    · exact fun _ => ⟨rfl, rfl, rfl⟩
    · exact Nat.le_trans Finset.card_le_two (by simp only [MAXOPBLOCKS]; omega)
    rintro v - ⟨hv, ham, hholds, -⟩
    refine (iunlock_post v ip).seq (fun p hp => ?_) ?_
    · rw [hp]
      exact hv.lh.within (Nat.le_trans Finset.card_le_two (by simp only [MAXOPBLOCKS]; omega))
    rintro x - rfl
    have href : v.ref = inc s.ref ip := by rw [ham.ref, hl.ref, hw.ref]
    have hcwd : v.cwd = s.cwd := by rw [ham.cwd, hl.peek.cwd, hw.peek.cwd]
    have htype : (v.disk.inode ip).type = (s.disk.inode ip).type := by
      rw [inode_of_holds hholds, hw.mem_eq hl]
    have hrooted : Rooted v.ref v.disk := by
      rw [href]
      rw [hw.disk_eq hl, hw.mem_eq hl] at hholds
      exact h.rooted.link h.intact hholds rfl hfile
    refine linkNew_logs (s := { v with lock := Function.update v.lock ip false })
      ⟨hv.intact, hv.coherent, hv.lh⟩ hrooted ?_ ?_ hheld.lt ?_ (htype ▸ hfile) hnew
    · change 0 < v.ref v.cwd
      rw [href, hcwd]
      exact inc_pos_iff.mpr (.inr h.cwd_pos)
    · change v.cwd < NINODES
      rw [hcwd]
      exact h.cwd_lt
    · change 0 < v.ref ip
      rw [href]
      exact inc_pos_iff.mpr (.inl rfl)

/-! ## The rest -/

/-- A reference is dropped, with nothing else done. -/
theorem Consistent.during (h : s.Consistent) (R : Finset ℕ) : During R 0 s.disk.lh s :=
  ⟨h.intact, h.coherent, .refl _ _ _⟩

theorem iput_within (h : During {bmapstart, IBLOCK i} 0 l t) (hi : i < NINODES) :
    Post (fun p => Within l p.lh) (fun u => Within l u.disk.lh) (t.iput i) := by
  have hcard : ({bmapstart, IBLOCK i} : Finset ℕ).card + 0 ≤ MAXOPBLOCKS :=
    Nat.le_trans Finset.card_le_two (by simp only [MAXOPBLOCKS]; omega)
  refine (iput_cleared fun hlast => h.ranged ⟨hi, ?_, hlast.2.1⟩).mono (fun p hp => ?_)
    fun u hu => ?_
  · rw [hlast.1]
    exact Nat.one_pos
  · exact (h.lh.trans hp).within hcard
  · exact (h.lh.trans hu.lh).within hcard

theorem sysChdir_logs (h : s.Consistent) {path : List UInt8} (hnul : 0 ∉ path) :
    Logs s.disk.lh (s.sysChdir (some path)) := by
  refine (namei_logs h hnul).seq (fun _ => id) ?_
  rintro ⟨r, t⟩ - hw
  cases r with
  | none => exact .ok (Walked.within hw)
  | some ip =>
    have hw : Walking s.ref s t ip := hw
    refine (hw.ilock h).seq (fun _ => id) fun u _ hl => ?_
    split
    · obtain ⟨v, hput, hwalked⟩ := hw.unlockput h.coherent hl (.refl u) rfl rfl
      rw [hput]
      exact .ok (hwalked.within)
    refine (iunlock_post u ip).seq (fun p hp => ?_) fun v _ hv => ?_
    · rw [hw.lh_locked hl hp]
      exact .refl _
    have hback := hw.back hl (.refl u) rfl rfl hv
    refine (iput_within ((h.during _).peek hback.peek) (hback.peek.cwd ▸ h.cwd_lt)).seq
      (fun _ => id) ?_
    exact fun x _ hx => .ok hx

/-- What `exec` reads changes nothing. -/
theorem readParts_of_whole (h : Whole s.disk.sect (s.mem ip))
    (parts : List (Dest × UInt32 × UInt32)) : s.readParts ip parts = .ok s := by
  induction parts with
  | nil => rfl
  | cons part parts ih =>
    obtain ⟨dst, off, n⟩ := part
    obtain ⟨dst', r, hread⟩ := readi_keeps h dst off n
    rw [readParts, readi_of_keeps hread]
    exact ih

theorem execRead_logs (h : s.Consistent) {path : List UInt8} (hnul : 0 ∉ path)
    (parts : List (Dest × UInt32 × UInt32)) :
    Logs s.disk.lh (s.execRead path parts) := by
  refine (namei_logs h hnul).seq (fun _ => id) ?_
  rintro ⟨r, t⟩ - hw
  cases r with
  | none => exact .ok (Walked.within hw)
  | some ip =>
    have hw : Walking s.ref s t ip := hw
    refine (hw.ilock h).seq (fun _ => id) fun u _ hl => ?_
    obtain ⟨v, hput, hwalked⟩ := hw.unlockput h.coherent hl (.refl u) rfl rfl
    rw [readParts_of_whole (hw.whole hl h.intact)]
    simp only [hput, bind, Except.bind]
    exact .ok (hwalked.within)

theorem touched_le (off : ℕ) {n : ℕ} (hn : n ≤ maxWrite) : touched off n ≤ 4 := by
  have hmax : maxWrite = 3072 := rfl
  simp only [touched, endBlock, BSIZE]
  omega

theorem writeChunk_logs (h : s.Consistent) {f : Fin NFILE} (hip : (s.file f).ip < NINODES)
    (u : UserMem) (va : ℕ) {n : UInt32} (hn : n.toNat ≤ maxWrite) :
    Logs s.disk.lh (s.writeChunk f u va n) := by
  have hcard : ({bmapstart, IBLOCK (s.file f).ip} : Finset ℕ).card ≤ 2 := Finset.card_le_two
  unfold writeChunk
  simp only
  refine (ilock_post hip h.coherent).seq (fun p hp => ?_) fun t _ hl => ?_
  · rw [hp.1]
    exact .refl _
  have hduring : During {bmapstart, IBLOCK (s.file f).ip} 0 s.disk.lh t :=
    (h.during _).peek hl.peek
  have hin : ∀ {off : ℕ} {l' : List ℕ}, Grew {bmapstart, IBLOCK (s.file f).ip}
      (0 + (touched off n.toNat + 1)) s.disk.lh l' → Within s.disk.lh l' := by
    intro off l' hgrew
    have htouched := touched_le off hn
    exact hgrew.within (by simp only [MAXOPBLOCKS]; omega)
  refine (writei_during hduring ⟨hip, by rw [hl.ref]; exact hl.pos, hl.valid⟩ (by simp) (by simp)
    _ _ n).seq (fun p hp => hin hp.grew) ?_
  rintro ⟨r, v⟩ - ⟨hv, -⟩
  refine (iunlock_post _ _).seq (fun p hp => ?_) ?_
  · rw [hp]
    split
    · exact hin hv.lh
    · exact hin hv.lh
  · rintro x - rfl
    refine .ok ?_
    simp only
    split
    · exact hin hv.lh
    · exact hin hv.lh

end Fs

/-! ## The budget -/

namespace Section

variable {s : Fs} {sec : Section}

/-- The state in which a section begins when no other is under way: the file system is consistent,
open files have inodes, and the log is empty. -/
structure Start (s : Fs) : Prop extends s.Consistent where
  files : ∀ f, (s.file f).type = .inode ∨ (s.file f).type = .device → (s.file f).ip < NINODES
  log : s.disk.lh = []

theorem run_within (h : Start s) (happlies : sec.Applies s) : Fs.Logs s.disk.lh (sec.run s) := by
  have hcons := h.toConsistent
  cases sec with
  | write f u addr n i =>
    refine Fs.writeChunk_logs hcons (h.files f (.inl happlies)) u _ ?_
    rw [UInt32.toNat_ofNat']
    exact (Nat.mod_le _ _).trans (min_le_right _ _)
  | «open» path omode => exact Fs.sysOpen_logs hcons path.2 omode
  | mkdir path =>
    cases path with
    | none => exact .ok (.refl _)
    | some path => exact Fs.mknod_logs hcons path.2 _ _ _
  | mknod path major minor =>
    cases path with
    | none => exact .ok (.refl _)
    | some path => exact Fs.mknod_logs hcons path.2 _ _ _
  | link old new => exact Fs.sysLink_logs hcons old.2 new.2
  | unlink path => exact Fs.sysUnlink_logs hcons path.2
  | chdir path =>
    cases path with
    | none => exact .ok (.refl _)
    | some path => exact Fs.sysChdir_logs hcons path.2
  | exec path parts => exact Fs.execRead_logs hcons path.2 parts
  | close f =>
    have hduring := hcons.during {bmapstart, IBLOCK (s.file f).ip}
    have hclosed : Fs.During _ 0 s.disk.lh (s.unalloc f) := ⟨hduring.intact, hduring.coherent,
      hduring.lh⟩
    exact (Fs.iput_within hclosed (h.files f happlies)).seq (fun _ => id) fun u _ hu => .ok hu
  | exit =>
    exact (Fs.iput_within (hcons.during _) hcons.cwd_lt).seq (fun _ => id) fun u _ hu => .ok hu

/-- **The log budget.** A section that begins with an empty log logs each block once and at most
`MAXOPBLOCKS` of them, whether it returns or panics. -/
theorem within_budget (h : Start s) (happlies : sec.Applies s) :
    Post (fun p => p.lh.Nodup ∧ p.lh.length ≤ MAXOPBLOCKS)
      (fun r => r.2.disk.lh.Nodup ∧ r.2.disk.lh.length ≤ MAXOPBLOCKS) (sec.run s) := by
  have hlen : ∀ {l : List ℕ}, Within s.disk.lh l → l.Nodup ∧ l.length ≤ MAXOPBLOCKS := by
    intro l hl
    rw [h.log] at hl
    exact ⟨hl.nodup List.nodup_nil, by simpa using hl.length_le List.nodup_nil⟩
  exact (run_within h happlies).mono (fun p hp => hlen hp) fun r hr => hlen hr

/-- `mkdir("a")` in the root of a file system that has nothing else. -/
def mkdirA : Section := .mkdir (some ⟨[97], by decide⟩)

theorem start_rootOnly : Start Fs.rootOnly :=
  ⟨Fs.consistent_rootOnly, fun _ h => (by simp [Fs.rootOnly] at h), rfl⟩

theorem within_budget_rootOnly : Start Fs.rootOnly ∧ mkdirA.Applies Fs.rootOnly ∧
    Post (fun p => p.lh.Nodup ∧ p.lh.length ≤ MAXOPBLOCKS)
      (fun r => r.2.disk.lh.Nodup ∧ r.2.disk.lh.length ≤ MAXOPBLOCKS)
      (mkdirA.run Fs.rootOnly) :=
  ⟨start_rootOnly, trivial, within_budget start_rootOnly trivial⟩

end Section

end Xv6.Content
