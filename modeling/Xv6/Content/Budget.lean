import Xv6.Content.Release

/-!
# What the calls log

Each call of `sysfile.c` looks names up, which logs nothing, and then changes a few inodes: the
blocks of these inodes and the free map are known when the first of them is logged, and what is
written to a directory adds two blocks, one of entries and an indirect one.
-/

namespace Xv6.Content

open Lib Mkfs

variable {R : Finset ℕ} {k : ℕ} {l l' : List ℕ}

/-- The header has grown by no more blocks than an operation may write. -/
def Within (l l' : List ℕ) : Prop := Grew ∅ MAXOPBLOCKS l l'

theorem Grew.within (h : Grew R k l l') (hcard : R.card + k ≤ MAXOPBLOCKS) : Within l l' :=
  h.mono (X := R) (by simp) (by omega)

theorem Within.refl (l : List ℕ) : Within l l := Grew.refl _ _ l

theorem card_three (a b c : ℕ) : ({a, b, c} : Finset ℕ).card ≤ 3 :=
  (Finset.card_insert_le a _).trans (Nat.succ_le_succ (Finset.card_le_two))

namespace Fs

/-- The call logs no more blocks than an operation may write, whether it returns or stops. -/
abbrev Logs {α : Type} (l : List ℕ) (x : Except Panic (α × Fs)) : Prop :=
  Post (fun p => Within l p.lh) (fun r => Within l r.2.disk.lh) x

variable {s s₀ t u : Fs} {base : ℕ → ℕ} {i j dp ip : ℕ} {name : Buf}

theorem Walking.during (h : Walking base s₀ s ip) (hl : Locked s ip t) (hs : s₀.Coherent)
    (hintact : Intact s₀.disk.inodes s₀.disk) : During R k s₀.disk.lh t ∧ t.Held ip := by
  have hdisk := h.disk_eq hl
  refine ⟨⟨?_, hl.peek.coherent (h.peek.coherent hs), ?_⟩, h.kept.1, ?_, hl.valid⟩
  · rw [hdisk]
    exact hintact
  · rw [hdisk]
    exact .refl _ _ _
  · rw [hl.ref]
    exact hl.pos

theorem Locked.held_other (h : Locked s i t) (hj : s.Held j) (hne : j ≠ i) : t.Held j :=
  ⟨hj.lt, by rw [h.ref]; exact hj.pos, by rw [(h.others j hne).2]; exact hj.valid⟩

theorem Cleared.grew (h : Cleared s i t) (hs : Grew R k l s.disk.lh) (hmap : bmapstart ∈ R)
    (hi : IBLOCK i ∈ R) : Grew R k l t.disk.lh :=
  hs.trans (h.lh.weaken (pair_subset hmap hi) le_rfl)

/-- The inode is put, with blocks of `R` logged only. -/
theorem iunlockput_grew (hs : Grew R k l s.disk.lh) (hr : s.Ranged i) (hmap : bmapstart ∈ R)
    (hi : IBLOCK i ∈ R) :
    Post (fun p => Grew R k l p.lh) (fun t => Grew R k l t.disk.lh ∧ Cleared s i t)
      (s.iunlockput i) := by
  refine (iunlockput_cleared hr).mono (fun p hp => ?_) fun t ht => ⟨ht.grew hs hmap hi, ht⟩
  exact hs.trans (hp.weaken (pair_subset hmap hi) le_rfl)

/-! ## Creating -/

/-- An inode at the end of `create`: it can be put or truncated within the budget. -/
structure Ready (l : List ℕ) (s : Fs) (ip : ℕ) : Prop where
  lt : ip < NINODES
  ranged : s.Ranged ip
  lh : ∃ R : Finset ℕ, R.card ≤ 3 ∧ bmapstart ∈ R ∧ IBLOCK ip ∈ R ∧ Grew R 6 l s.disk.lh

theorem Ready.within (h : Ready l s ip) (hgrew : Grew {bmapstart, IBLOCK ip} 0 s.disk.lh l') :
    Within l l' := by
  obtain ⟨R, hcard, hmap, hip, hlh⟩ := h.lh
  exact (hlh.trans (hgrew.weaken (pair_subset hmap hip) le_rfl)).within
    (by simp only [MAXOPBLOCKS]; omega)

theorem Ready.unlockput (h : Ready l s ip) :
    Post (fun p => Within l p.lh) (fun t => Within l t.disk.lh) (s.iunlockput ip) :=
  (iunlockput_cleared h.ranged).mono (fun _ hp => h.within hp) fun _ ht => h.within ht.lh

theorem createEntry_logs (h : During R k l s) (hdp : s.Held dp) (hip : s.Held ip) (hne : ip ≠ dp)
    (hmap : bmapstart ∈ R) (hR : IBLOCK dp ∈ R) (name : Buf) :
    Post (fun p => Grew R (k + 2) l p.lh)
      (fun r => r.1 = ip ∧ Grew R (k + 2) l r.2.disk.lh ∧ r.2.Ranged ip)
      (s.createEntry dp name ip) := by
  refine (dirlink_during h hdp hmap hR name ip).seq (fun _ => id) ?_
  rintro ⟨ok, t⟩ - ⟨hduring, ham, -⟩
  cases ok with
  | false => exact .error hduring.lh
  | true =>
    refine (iunlockput_grew hduring.lh (hduring.ranged (ham.held hdp)) hmap hR).seq (fun _ => id) ?_
    rintro u - ⟨hgrew, hclear⟩
    exact .ok ⟨rfl, hgrew, hclear.ranged hdp.lt (hduring.ranged (ham.held hip)) hne⟩

theorem createDots_logs (h : During R k l s) (hdp : s.Held dp) (hip : s.Held ip)
    (hmap : bmapstart ∈ R) (hRd : IBLOCK dp ∈ R) (hRi : IBLOCK ip ∈ R) :
    Post (fun p => Grew R (k + 4) l p.lh)
      (fun t => During R (k + 4) l t ∧ t.Held dp ∧ t.Held ip) (s.createDots dp ip) := by
  refine Post.seq (iupdate_during h hdp hRd ?_) (fun p hp => hp.weaken subset_rfl (by omega)) ?_
  · exact fun _ => ⟨rfl, rfl, rfl⟩
  rintro s₁ - ⟨h₁, ham₁, -⟩
  refine (dirlink_during h₁ (ham₁.held hip) hmap hRi _ ip).seq
    (fun p hp => hp.weaken subset_rfl (by omega)) ?_
  rintro ⟨ok, s₂⟩ - ⟨h₂, ham₂, -⟩
  cases ok with
  | false => exact .error (h₂.lh.weaken subset_rfl (by omega))
  | true =>
    refine (dirlink_during h₂ (ham₂.held (ham₁.held hip)) hmap hRi _ dp).seq (fun _ => id) ?_
    rintro ⟨ok, s₃⟩ - ⟨h₃, ham₃, -⟩
    cases ok with
    | false => exact .error h₃.lh
    | true =>
      exact .ok ⟨h₃, ham₃.held (ham₂.held (ham₁.held hdp)),
        ham₃.held (ham₂.held (ham₁.held hip))⟩

/-- The new inode and its entries: the free map, the blocks of two inodes, and at most six others. -/
theorem createNew_logs (h : During {bmapstart, IBLOCK dp} 0 l s) (hdp : s.Held dp) (name : Buf)
    (type major minor : UInt16) :
    Post (fun p => Within l p.lh) (fun r => Ready l r.2 r.1)
      (s.createNew dp name type major minor) := by
  refine (ialloc_during h type).seq (fun p hp => hp.within ?_) ?_
  · have := Finset.card_le_two (a := bmapstart) (b := IBLOCK dp)
    simp only [MAXOPBLOCKS]
    omega
  rintro ⟨ip, s₁⟩ - ⟨hlt, hfree, h₁, href₁, hmem₁, hvalid₁⟩
  have hcard := card_three (IBLOCK ip) bmapstart (IBLOCK dp)
  have hmap : bmapstart ∈ ({IBLOCK ip, bmapstart, IBLOCK dp} : Finset ℕ) := by simp
  have hRd : IBLOCK dp ∈ ({IBLOCK ip, bmapstart, IBLOCK dp} : Finset ℕ) := by simp
  have hRi : IBLOCK ip ∈ ({IBLOCK ip, bmapstart, IBLOCK dp} : Finset ℕ) := by simp
  have hstop : ∀ {k : ℕ} (p : Panic), k ≤ 6 →
      Grew {IBLOCK ip, bmapstart, IBLOCK dp} k l p.lh → Within l p.lh := fun p hk hp =>
    hp.within (by simp only [MAXOPBLOCKS]; omega)
  have hne : ip ≠ dp := by
    rintro rfl
    exact (h.mem_eq hdp).2 hfree
  have hdp₁ : s₁.Held dp := ⟨hdp.lt, by rw [href₁]; exact inc_pos_iff.mpr (.inr hdp.pos),
    by rw [hvalid₁ dp hdp.pos]; exact hdp.valid⟩
  refine (ilock_post hlt h₁.coherent).seq (fun p hp => hstop p (Nat.zero_le 6) ?_) fun s₂ _ hl => ?_
  · rw [hp.1]
    exact h₁.lh
  have h₂ := h₁.peek hl.peek
  have hip₂ : s₂.Held ip := ⟨hlt, by rw [hl.ref]; exact hl.pos, hl.valid⟩
  have hdp₂ := hl.held_other hdp₁ hne.symm
  refine Post.seq (iupdate_during h₂ hip₂ hRi ?_) (fun p hp => hstop p (Nat.zero_le 6) hp) ?_
  · exact fun _ => ⟨rfl, rfl, rfl⟩
  rintro s₃ - ⟨h₃, ham₃, -⟩
  have hentry : ∀ {k : ℕ} {u : Fs}, k ≤ 4 → During {IBLOCK ip, bmapstart, IBLOCK dp} k l u →
      u.Held dp → u.Held ip → Post (fun p => Within l p.lh) (fun r => Ready l r.2 r.1)
        (u.createEntry dp name ip) := by
    intro k u hk hu hud hui
    refine (createEntry_logs hu hud hui hne hmap hRd name).mono
      (fun p hp => hstop p (by omega) hp) ?_
    rintro ⟨_, v⟩ ⟨rfl, hgrew, hranged⟩
    exact ⟨hlt, hranged, _, hcard, hmap, hRi, hgrew.weaken subset_rfl (by omega)⟩
  split
  · refine (createDots_logs h₃ (ham₃.held hdp₂) (ham₃.held hip₂) hmap hRd hRi).seq
      (fun p hp => hstop p (by omega) hp) ?_
    rintro u - ⟨hu, hud, hui⟩
    exact hentry (by omega) hu hud hui
  · exact hentry (Nat.zero_le 4) h₃ (ham₃.held hdp₂) (ham₃.held hip₂)

theorem Walked.within {r : Option (ℕ × Buf)} (hw : Walked s.ref s (r, t)) :
    Within s.disk.lh t.disk.lh := by
  rw [hw.returned.disk]
  exact .refl _

/-- Files and descriptors do not matter for the log. -/
theorem Ready.congr (hready : Ready l s ip) (hdisk : t.disk = s.disk) (hmem : t.mem = s.mem) :
    Ready l t ip := by
  refine ⟨hready.lt, fun y => ?_, ?_⟩
  · rw [hdisk, hmem]
    exact hready.ranged y
  · rw [hdisk]
    exact hready.lh

theorem openDone_logs (hready : Ready l s ip) (omode : UInt32) (fd : ℤ) :
    Logs l (s.openDone ip omode fd) := by
  have hunlock : ∀ {u : Fs}, Within l u.disk.lh →
      Logs l (do let s ← u.iunlock ip; .ok (fd, s)) := by
    intro u hu
    refine (iunlock_post u ip).seq (fun p hp => ?_) ?_
    · rw [hp]
      exact hu
    · rintro v - rfl
      exact .ok hu
  unfold openDone
  split
  · exact (itrunc_cleared hready.ranged).seq (fun p hp => hready.within hp) fun u _ hu =>
      hunlock (hready.within hu.lh)
  · exact hunlock (hready.within (.refl _ _ _))

theorem openFile_logs (hready : Ready l s ip) (omode : UInt32) : Logs l (s.openFile ip omode) := by
  unfold openFile
  cases hfile : s.filealloc with
  | none => exact hready.unlockput.bind fun u hu => .ok hu
  | some r =>
    obtain ⟨f, t⟩ := r
    have ht : Ready l t ip := by
      rw [filealloc] at hfile
      split at hfile
      · cases hfile
      · cases hfile
        exact hready.congr rfl rfl
    simp only
    cases hfd : t.fdalloc f with
    | none => exact (ht.congr (t := t.unalloc f) rfl rfl).unlockput.bind fun u hu => .ok hu
    | some r =>
      obtain ⟨fd, u⟩ := r
      have hu : Ready l u ip := by
        rw [fdalloc] at hfd
        split at hfd
        · cases hfd
        · cases hfd
          exact ht.congr rfl rfl
      refine openDone_logs ?_ omode _
      exact hu.congr rfl rfl

theorem unlinkDone_logs (hs : Grew R k l s.disk.lh) (hdp : s.Ranged dp) (hip : s.Ranged ip)
    (hdlt : dp < NINODES) (hilt : ip < NINODES) (hne : ip ≠ dp) (hmap : bmapstart ∈ R)
    (hRd : IBLOCK dp ∈ R) (hRi : IBLOCK ip ∈ R) :
    Post (fun p => Grew R k l p.lh) (fun r => Grew R k l r.2.disk.lh) (s.unlinkDone dp ip) := by
  refine (iunlockput_grew hs hdp hmap hRd).seq (fun _ => id) ?_
  rintro t - ⟨hgrew, hclear⟩
  have hip' := hclear.ranged hdlt hip hne
  refine (iupdate_cleared t ip _).seq (fun p hp => ?_) ?_
  · rw [hp]
    exact hgrew
  rintro u - ⟨hu, hmem, -⟩
  have haddrs : (u.mem ip).addrs = (t.mem ip).addrs := by rw [hmem]
  refine (iunlockput_grew (hu.grew hgrew hmap hRi) (hip'.of_addrs hu hilt haddrs) hmap hRi).seq
    (fun _ => id) ?_
  rintro v - ⟨hv, -⟩
  exact .ok hv

/-- The entry is overwritten: one block, and the indirect one if it is there. -/
theorem unlinkEntry_logs (h : During R k l s) (hdp : s.Held dp) (hip : s.Held ip) (hne : ip ≠ dp)
    (hmap : bmapstart ∈ R) (hRd : IBLOCK dp ∈ R) (hRi : IBLOCK ip ∈ R) {off : ℕ}
    (hoff : off % DIRENT = 0) :
    Post (fun p => Grew R (k + 2) l p.lh) (fun r => Grew R (k + 2) l r.2.disk.lh)
      (s.unlinkEntry dp ip off) := by
  have hmod : (UInt32.ofNat off).toNat % DIRENT = 0 := by
    rw [UInt32.toNat_ofNat']
    simp only [DIRENT] at *
    omega
  have hwrite := writei_during h hdp hmap hRd (.kernel fun _ => 0) (.ofNat off) 16
  rw [show (16 : UInt32).toNat = DIRENT from rfl, touched_dirent hmod] at hwrite
  refine hwrite.seq (fun p hp => hp.grew) ?_
  rintro ⟨r, t⟩ - ⟨ht, ham, -⟩
  have hdone : ∀ {u : Fs}, During R (k + 2) l u → u.Held dp → u.Held ip →
      Post (fun p => Grew R (k + 2) l p.lh) (fun r => Grew R (k + 2) l r.2.disk.lh)
        (u.unlinkDone dp ip) := fun hu hud hui =>
    unlinkDone_logs hu.lh (hu.ranged hud) (hu.ranged hui) hud.lt hui.lt hne hmap hRd hRi
  simp only
  split
  · exact .error ht.lh
  split
  · refine Post.seq (iupdate_during ht (ham.held hdp) hRd ?_) (fun _ => id) ?_
    · exact fun _ => ⟨rfl, rfl, rfl⟩
    rintro u - ⟨hu, ham', -⟩
    exact hdone hu (ham'.held (ham.held hdp)) (ham'.held (ham.held hip))
  · exact hdone ht (ham.held hdp) (ham.held hip)

theorem unlinkable_post (hwhole : Whole s.disk.sect (s.mem ip)) :
    Post (fun p => p.lh = s.disk.lh) (fun r => r.2 = s) (s.unlinkable ip) := by
  unfold unlinkable
  split
  · exact .error rfl
  split
  · unfold isdirempty
    have hturns : (s.mem ip).size.toNat ≤ 2 * DIRENT + DIRENT * s.turns ip := by
      simp only [turns, DIRENT]
      omega
    refine (scan_post hwhole (fun e => decide (e.1 ≠ 0)) (fun _ _ => rfl) _ hturns).seq
      (fun _ hp => hp.1) ?_
    rintro ⟨r, off, t⟩ - ⟨rfl, -⟩
    exact .ok rfl
  · exact .ok rfl

/-! ## The calls -/

section Calls

variable (h : s.Consistent) {path : List UInt8} (hnul : 0 ∉ path)
include h

/-- The inode that a lookup has found is locked. -/
theorem Walking.ilock (hw : Walking s.ref s t ip) :
    Post (fun p => Within s.disk.lh p.lh) (Locked t ip) (t.ilock ip) := by
  refine (ilock_post hw.kept.1 (hw.peek.coherent h.coherent)).mono (fun p hp => ?_) fun _ => id
  rw [hw.lh hp.1]
  exact .refl _

theorem Walking.ready (hw : Walking s.ref s t ip) (hl : Locked t ip u) : Ready s.disk.lh u ip := by
  obtain ⟨hduring, hheld⟩ := hw.during (R := {bmapstart, IBLOCK ip}) (k := 6) hl h.coherent h.intact
  refine ⟨hheld.lt, hduring.ranged hheld, _, ?_, by simp, by simp, hduring.lh⟩
  exact Finset.card_le_two.trans (by omega)

include hnul

theorem namex_logs (parent : Bool) (name : Buf) :
    Post (fun p => Within s.disk.lh p.lh) (Walked s.ref s) (s.namex path parent name) :=
  (namex_post h.coherent h.intact h.rooted h.cwd_pos h.cwd_lt hnul parent name).mono
    (fun _ hp => hp.1 ▸ .refl _) fun _ hr => hr.1

theorem namei_logs :
    Post (fun p => Within s.disk.lh p.lh)
      (fun r => Walked s.ref s (r.1.map fun ip => (ip, fun _ => 0), r.2)) (s.namei path) := by
  refine (namex_logs h hnul false _).bind ?_
  rintro ⟨r, t⟩ hw
  cases r with
  | none => exact .ok hw
  | some r => exact .ok hw

/-- What `create` returns: nothing, with no block logged, or an inode. -/
def Created (l : List ℕ) : Option ℕ × Fs → Prop
  | (none, s) => Within l s.disk.lh
  | (some ip, s) => Ready l s ip

theorem create_logs (type major minor : UInt16) :
    Post (fun p => Within s.disk.lh p.lh) (Created s.disk.lh)
      (s.create path type major minor) := by
  refine (namex_logs h hnul true _).seq (fun _ => id) ?_
  rintro ⟨r, t⟩ - hw
  cases r with
  | none => exact .ok (Walked.within hw)
  | some r =>
    obtain ⟨dp, name⟩ := r
    have hw : Walking s.ref s t dp := hw
    refine (hw.ilock h).seq (fun _ => id) fun u _ hl => ?_
    obtain ⟨hduring, hheld⟩ := hw.during (R := {bmapstart, IBLOCK dp}) (k := 0) hl h.coherent
      h.intact
    refine (dirlookup_post (hduring.whole hheld) name).seq (fun p hp => ?_) ?_
    · rw [hw.lh_locked hl hp.1]
      exact .refl _
    rintro ⟨r, v⟩ hlook hfound
    cases hfound with
    | none _ =>
      refine (createNew_logs hduring hheld name type major minor).seq (fun _ => id) ?_
      rintro ⟨ip, v⟩ - hready
      exact .ok hready
    | @some ip off v hat hgot =>
      have hkept := hw.kept_entry hl h.rooted (type_of_dirlookup hlook) hat
      obtain ⟨v', hnext, hw'⟩ := hw.next h.coherent hl hgot hkept
      simp only [hnext, bind, Except.bind]
      refine (hw'.ilock h).seq (fun _ => id) fun x _ hlx => ?_
      split
      · exact .ok (hw'.ready h hlx)
      · obtain ⟨y, hput, hwalked⟩ := hw'.unlockput h.coherent hlx (.refl x) rfl rfl
        rw [hput]
        exact .ok (hwalked.within)

theorem mknod_logs (type major minor : UInt16) :
    Logs s.disk.lh (s.mknod (some path) type major minor) := by
  refine (create_logs h hnul type major minor).seq (fun _ => id) ?_
  rintro ⟨r, t⟩ - hcreated
  cases r with
  | none => exact .ok hcreated
  | some ip =>
    have hready : Ready s.disk.lh t ip := hcreated
    exact hready.unlockput.bind fun u hu => .ok hu

theorem openInode_logs (omode : UInt32) :
    Post (fun p => Within s.disk.lh p.lh) (Created s.disk.lh) (s.openInode path omode) := by
  unfold openInode
  split
  · exact create_logs h hnul _ _ _
  refine (namei_logs h hnul).seq (fun _ => id) ?_
  rintro ⟨r, t⟩ - hw
  cases r with
  | none => exact .ok (Walked.within hw)
  | some ip =>
    have hw : Walking s.ref s t ip := hw
    refine (hw.ilock h).seq (fun _ => id) fun u _ hl => ?_
    split
    · obtain ⟨v, hput, hwalked⟩ := hw.unlockput h.coherent hl (.refl u) rfl rfl
      simp only [hput, bind, Except.bind]
      exact .ok (hwalked.within)
    · exact .ok (hw.ready h hl)

theorem sysOpen_logs (omode : UInt32) : Logs s.disk.lh (s.sysOpen path omode) := by
  refine (openInode_logs h hnul omode).seq (fun _ => id) ?_
  rintro ⟨r, t⟩ - hcreated
  cases r with
  | none => exact .ok hcreated
  | some ip =>
    have hready : Ready s.disk.lh t ip := hcreated
    simp only
    split
    · exact hready.unlockput.bind fun u hu => .ok hu
    · exact openFile_logs hready omode

theorem sysUnlink_logs : Logs s.disk.lh (s.sysUnlink path) := by
  refine (namex_logs h hnul true _).seq (fun _ => id) ?_
  rintro ⟨r, t⟩ - hw
  cases r with
  | none => exact .ok (Walked.within hw)
  | some r =>
    obtain ⟨dp, name⟩ := r
    have hw : Walking s.ref s t dp := hw
    refine (hw.ilock h).seq (fun _ => id) fun u _ hl => ?_
    obtain ⟨v, hput, hwalked⟩ := hw.unlockput h.coherent hl (.refl u) rfl rfl
    split
    · rw [hput]
      exact .ok (hwalked.within)
    refine (dirlookup_post (hw.whole hl h.intact) name).seq (fun p hp => ?_) ?_
    · rw [hw.lh_locked hl hp.1]
      exact .refl _
    rintro ⟨r, x⟩ hlook hfound
    cases hfound with
    | none _ =>
      simp only [hput, bind, Except.bind]
      exact .ok (hwalked.within)
    | @some ip off x hat hgot =>
      have hkept := hw.kept_entry hl h.rooted (type_of_dirlookup hlook) hat
      obtain ⟨hduring, hheld⟩ := hw.during (R := {bmapstart, IBLOCK dp, IBLOCK ip}) (k := 0) hl
        h.coherent h.intact
      have hcard := card_three bmapstart (IBLOCK dp) (IBLOCK ip)
      have hmap : bmapstart ∈ ({bmapstart, IBLOCK dp, IBLOCK ip} : Finset ℕ) := by simp
      have hRd : IBLOCK dp ∈ ({bmapstart, IBLOCK dp, IBLOCK ip} : Finset ℕ) := by simp
      have hRi : IBLOCK ip ∈ ({bmapstart, IBLOCK dp, IBLOCK ip} : Finset ℕ) := by simp
      have hin : ∀ {k : ℕ} {l' : List ℕ}, k ≤ 2 →
          Grew {bmapstart, IBLOCK dp, IBLOCK ip} k s.disk.lh l' → Within s.disk.lh l' :=
        fun hk hgrew => hgrew.within (by simp only [MAXOPBLOCKS]; omega)
      have hx := hduring.peek hgot.peek
      refine (ilock_post hkept.1 hx.coherent).seq (fun p hp => ?_) fun y _ hly => ?_
      · rw [hp.1]
        exact hin (Nat.zero_le 2) hx.lh
      have hxd : x.Held dp := ⟨hheld.lt, by rw [hgot.ref]; exact inc_pos_iff.mpr (.inr hheld.pos),
        by rw [hgot.valid dp hheld.pos]; exact hheld.valid⟩
      -- the directory is locked and the inode is not, so they are not the same
      have hdiff : ip ≠ dp := by
        rintro rfl
        have hlocked := hl.held.1
        rw [← hgot.lock, hly.unlocked] at hlocked
        cases hlocked
      have hy := hx.peek hly.peek
      have hyd := hly.held_other hxd hdiff.symm
      have hyi : y.Held ip := ⟨hkept.1, by rw [hly.ref]; exact hly.pos, hly.valid⟩
      refine (unlinkable_post (hy.whole hyi)).seq (fun p hp => ?_) ?_
      · rw [hp]
        exact hin (Nat.zero_le 2) hy.lh
      rintro ⟨ok, z⟩ - rfl
      cases ok with
      | false =>
        refine (iunlockput_grew hy.lh (hy.ranged hyi) hmap hRi).seq
          (fun p hp => hin (Nat.zero_le 2) hp) ?_
        rintro a - ⟨ha, hclear⟩
        refine (iunlockput_grew ha (hclear.ranged hyi.lt (hy.ranged hyd) hdiff.symm) hmap
          hRd).seq (fun p hp => hin (Nat.zero_le 2) hp) ?_
        rintro b - ⟨hb, -⟩
        exact .ok (hin (Nat.zero_le 2) hb)
      | true =>
        exact (unlinkEntry_logs hy hyd hyi hdiff hmap hRd hRi hat.mod).mono
          (fun p hp => hin le_rfl hp) fun r hr => hin le_rfl hr

end Calls

end Fs

end Xv6.Content
