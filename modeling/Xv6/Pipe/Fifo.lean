import Xv6.Pipe.Model

/-!
# A pipe is a queue

The counters of a pipe run freely, wrap at `2 ^ 32`, and are taken modulo `PIPESIZE` to address
the buffer. `PIPESIZE` divides `2 ^ 32`, so that `slot` is a homomorphism and the cells between
the two counters are a window of a ring of `PIPESIZE` cells whatever the counters have wrapped.
-/

namespace Xv6.Pipes

open Lib
open Function (update_of_ne update_self)

/-! ## Counters and cells -/

theorem slot_add (k l : UInt32) : slot (k + l) = slot k + slot l := by
  apply Fin.ext
  have hdvd : 512 ∣ 2 ^ 32 := by decide
  simp only [slot, Fin.ofNat_eq_cast, Fin.val_natCast, Fin.val_add, UInt32.toNat_add]
  rw [Nat.mod_mod_of_dvd _ hdvd, ← Nat.add_mod]

theorem slot_add_one (k : UInt32) : slot (k + 1) = slot k + 1 := slot_add k 1

theorem slot_sub (k l : UInt32) : slot (k - l) = slot k - slot l := by
  rw [eq_sub_iff_add_eq, ← slot_add, UInt32.sub_add_cancel]

theorem val_slot_of_lt {k : UInt32} (h : k.toNat < PIPESIZE) : (slot k).val = k.toNat :=
  Nat.mod_eq_of_lt h

/-- Fewer than `PIPESIZE` steps between two counters are as many steps between their cells. -/
theorem gap_slot {k l : UInt32} (h : (l - k).toNat < PIPESIZE) :
    gap (slot k) (slot l) = (l - k).toNat := by
  rw [gap, ← slot_sub, val_slot_of_lt h]

theorem toNat_add_one_sub {k l : UInt32} (h : (l - k).toNat < PIPESIZE) :
    (l + 1 - k).toNat = (l - k).toNat + 1 := by
  have hk := k.toNat_lt
  have hl := l.toNat_lt
  simp only [UInt32.toNat_sub, UInt32.toNat_add, UInt32.toNat_one, PIPESIZE] at h ⊢
  omega

theorem toNat_sub_add_one {k l : UInt32} (h : k ≠ l) : (l - (k + 1)).toNat + 1 = (l - k).toNat := by
  have hk := k.toNat_lt
  have hl := l.toNat_lt
  have hne : k.toNat ≠ l.toNat := fun heq => h (UInt32.toNat_inj.mp heq)
  simp only [UInt32.toNat_sub, UInt32.toNat_add, UInt32.toNat_one]
  omega

/-- The cells of consecutive counters are a window of the buffer. -/
theorem map_slot_eq_window (f : Fin PIPESIZE → UInt8) (k : UInt32) (m : ℕ) :
    (List.range m).map (fun j => f (slot (k + .ofNat j))) = window f (slot k) m := by
  induction m generalizing k with
  | zero => rfl
  | succ m ih =>
    have hnext : ∀ j : ℕ, k + .ofNat (j + 1) = k + 1 + .ofNat j := by
      intro j
      rw [UInt32.add_assoc, UInt32.add_comm 1, ← UInt32.ofNat_one, ← UInt32.ofNat_add]
    rw [List.range_succ_eq_map, List.map_cons, List.map_map, window, ← slot_add_one, ← ih]
    simp only [Function.comp_def, Nat.succ_eq_add_one, hnext]
    simp

namespace Pipe

/-- How many bytes are unread, `nwrite - nread`. -/
def count (p : Pipe) : ℕ := (p.nwrite - p.nread).toNat

/-- The unread bytes, in the order of their counters. -/
def contents (p : Pipe) : List UInt8 :=
  (List.range p.count).map fun j => p.data (slot (p.nread + .ofNat j))

/-- A cell that holds an unread byte. -/
def Unread (p : Pipe) (c : Fin PIPESIZE) : Prop := ∃ j < p.count, c = slot (p.nread + .ofNat j)

variable {p : Pipe}

theorem contents_eq_window (p : Pipe) : p.contents = window p.data (slot p.nread) p.count :=
  map_slot_eq_window p.data p.nread p.count

@[simp] theorem length_contents (p : Pipe) : p.contents.length = p.count := by simp [contents]

theorem count_lt_of_not_full (hle : p.count ≤ PIPESIZE) (hfull : ¬ p.full) :
    p.count < PIPESIZE := by
  refine lt_of_le_of_ne hle fun heq => hfull ?_
  have hsub : p.nwrite - p.nread = 512 := UInt32.toNat_inj.mp heq
  rw [full, ← hsub, UInt32.add_comm, UInt32.sub_add_cancel]

theorem count_put (h : p.count < PIPESIZE) (ch : UInt8) : (p.put ch).count = p.count + 1 :=
  toNat_add_one_sub h

/-- The cell that is stored into lies just past the unread ones. -/
theorem gap_nwrite (h : p.count < PIPESIZE) : gap (slot p.nread) (slot p.nwrite) = p.count :=
  gap_slot h

theorem contents_put (h : p.count < PIPESIZE) (ch : UInt8) :
    (p.put ch).contents = p.contents ++ [ch] := by
  have hgap := gap_nwrite h
  have hkeep : window (p.put ch).data (slot p.nread) p.count
      = window p.data (slot p.nread) p.count := by
    refine window_congr fun k hk => ?_
    have hne : k ≠ slot p.nwrite := by
      intro heq
      rw [heq, hgap] at hk
      exact lt_irrefl _ hk
    exact update_of_ne hne ch p.data
  have hlast : (p.put ch).data (slot p.nwrite) = ch := update_self ..
  rw [contents_eq_window, contents_eq_window, count_put h]
  calc window (p.put ch).data (slot p.nread) (p.count + 1)
      = window (p.put ch).data (slot p.nread) p.count ++ [(p.put ch).data (slot p.nwrite)] :=
        window_gap_succ _ hgap
    _ = window p.data (slot p.nread) p.count ++ [ch] := by rw [hkeep, hlast]

theorem count_drop (h : ¬ p.empty) : p.drop.count + 1 = p.count := toNat_sub_add_one h

theorem contents_drop (h : ¬ p.empty) : p.contents = p.first :: p.drop.contents := by
  rw [contents_eq_window, contents_eq_window, ← count_drop h, window, ← slot_add_one]
  rfl

/-- The cell that is stored into holds no unread byte. -/
theorem not_unread_nwrite (h : p.count < PIPESIZE) : ¬ p.Unread (slot p.nwrite) := by
  rintro ⟨j, hj, heq⟩
  have hsub : (p.nread + .ofNat j - p.nread).toNat = j := by
    have hk := p.nread.toNat_lt
    simp only [UInt32.toNat_sub, UInt32.toNat_add, UInt32.toNat_ofNat', PIPESIZE] at h ⊢
    omega
  have hgap : gap (slot p.nread) (slot (p.nread + .ofNat j)) = j := by
    rw [gap_slot (by rw [hsub]; exact hj.trans h), hsub]
  rw [← heq, gap_nwrite h] at hgap
  omega

end Pipe

/-! ## Steps of the system -/

namespace PipeSys

variable {P : Type*}

/-- What a step does to the buffer and to the two histories. -/
inductive Flow (s : PipeSys P) : PipeSys P → Prop
  | none {t : PipeSys P} (hdata : t.pipe.data = s.pipe.data) (hread : t.pipe.nread = s.pipe.nread)
      (hwrite : t.pipe.nwrite = s.pipe.nwrite) (hsent : t.sent = s.sent)
      (htaken : t.taken = s.taken) : Flow s t
  | put {t : PipeSys P} (ch : UInt8) (hfull : ¬ s.pipe.full) (hpipe : t.pipe = s.pipe.put ch)
      (hsent : t.sent = s.sent ++ [ch]) (htaken : t.taken = s.taken) : Flow s t
  | take {t : PipeSys P} (hempty : ¬ s.pipe.empty) (hpipe : t.pipe = s.pipe.drop)
      (hsent : t.sent = s.sent) (htaken : t.taken = s.taken ++ [s.pipe.first]) : Flow s t

variable {s t : PipeSys P}

theorem Flow.refl_of_eq (hpipe : t.pipe = s.pipe) (hsent : t.sent = s.sent)
    (htaken : t.taken = s.taken) : Flow s t :=
  .none (by rw [hpipe]) (by rw [hpipe]) (by rw [hpipe]) hsent htaken

/-- What has been taken, followed by what is unread, is what has been sent. -/
structure Queued (s : PipeSys P) : Prop where
  sent_eq : s.sent = s.taken ++ s.pipe.contents
  count_le : s.pipe.count ≤ PIPESIZE

theorem queued_boot (data : Fin PIPESIZE → UInt8) (killed : P → Bool) :
    (boot data killed).Queued := by
  have hcount : (boot data killed).pipe.count = 0 := by
    simp [boot, Pipe.alloc, Pipe.count]
  exact ⟨by rw [Pipe.contents, hcount]; rfl, hcount ▸ Nat.zero_le _⟩

theorem Queued.flow (hs : s.Queued) (h : Flow s t) : t.Queued := by
  cases h with
  | none hdata hread hwrite hsent htaken =>
    have hcount : t.pipe.count = s.pipe.count := by rw [Pipe.count, hread, hwrite]; rfl
    have hcontents : t.pipe.contents = s.pipe.contents := by
      rw [Pipe.contents, hcount, hdata, hread]; rfl
    exact ⟨by rw [hsent, htaken, hcontents, hs.sent_eq], hcount ▸ hs.count_le⟩
  | put ch hfull hpipe hsent htaken =>
    have hlt := Pipe.count_lt_of_not_full hs.count_le hfull
    refine ⟨?_, ?_⟩
    · rw [hsent, htaken, hpipe, Pipe.contents_put hlt, hs.sent_eq, List.append_assoc]
    · rw [hpipe, Pipe.count_put hlt]; exact hlt
  | take hempty hpipe hsent htaken =>
    refine ⟨?_, ?_⟩
    · rw [hsent, htaken, hpipe, hs.sent_eq, Pipe.contents_drop hempty, List.append_assoc]
      rfl
    · have hcount := Pipe.count_drop hempty
      have hle := hs.count_le
      rw [hpipe]
      omega

/-- A step that stores a byte stores it in a cell that holds no unread byte. -/
theorem Queued.not_unread (hs : s.Queued) (h : Flow s t)
    (hne : t.pipe.nwrite ≠ s.pipe.nwrite) : ¬ s.pipe.Unread (slot s.pipe.nwrite) := by
  cases h with
  | none hdata hread hwrite => exact absurd hwrite hne
  | put ch hfull => exact Pipe.not_unread_nwrite (Pipe.count_lt_of_not_full hs.count_le hfull)
  | take hempty hpipe => exact absurd (by rw [hpipe]; rfl) hne

/-- A step leaves the unread bytes where they are. -/
theorem Queued.data_eq (hs : s.Queued) (h : Flow s t) {c : Fin PIPESIZE}
    (hc : s.pipe.Unread c) : t.pipe.data c = s.pipe.data c := by
  cases h with
  | none hdata => rw [hdata]
  | put ch hfull hpipe =>
    have hlt := Pipe.count_lt_of_not_full hs.count_le hfull
    have hne : c ≠ slot s.pipe.nwrite := fun heq => Pipe.not_unread_nwrite hlt (heq ▸ hc)
    rw [hpipe]
    exact update_of_ne hne ch s.pipe.data
  | take hempty hpipe => rw [hpipe]; rfl

section Steps
variable [DecidableEq P]

theorem flow_pipewrite (s : PipeSys P) (pr : P) (i n : ℤ) (copyin : Option UInt8) :
    Flow s (s.pipewrite pr i n copyin) := by
  unfold pipewrite
  split
  · split
    · exact .refl_of_eq rfl rfl rfl
    · split
      · exact .refl_of_eq rfl rfl rfl
      · split
        · exact .refl_of_eq rfl rfl rfl
        · exact .put _ ‹_› rfl rfl rfl
  · exact .refl_of_eq rfl rfl rfl

theorem flow_pipereadWait (s : PipeSys P) (pr : P) (n : ℤ) : Flow s (s.pipereadWait pr n) := by
  rw [pipereadWait]
  split
  · split <;> exact .refl_of_eq rfl rfl rfl
  · exact .refl_of_eq rfl rfl rfl

theorem flow_pipereadCopy (s : PipeSys P) (pr : P) (i n : ℤ) (copyout : Bool) :
    Flow s (s.pipereadCopy pr i n copyout) := by
  rw [pipereadCopy]
  split
  · split
    · exact .refl_of_eq rfl rfl rfl
    · split <;> exact .take ‹_› rfl rfl rfl
  · exact .refl_of_eq rfl rfl rfl

theorem flow_pipeclose (s : PipeSys P) (pr : P) (writable : Bool) :
    Flow s (s.pipeclose pr writable) := by
  cases writable <;> exact .none rfl rfl rfl rfl rfl

theorem flow_run {pr : P} {copied : Option UInt8} (h : s.run pr copied = some t) : Flow s t := by
  rw [run] at h
  split at h
  · cases h
  · cases h
  · obtain ⟨-, rfl⟩ := Lib.of_guard h
    exact .refl_of_eq rfl rfl rfl
  · cases h; exact flow_pipewrite ..
  · cases h; exact .refl_of_eq rfl rfl rfl
  · cases h; exact flow_pipereadWait ..
  · cases h; exact flow_pipereadCopy ..
  · cases h; exact .refl_of_eq rfl rfl rfl

theorem flow_begin {pr : P} {call : Call} (h : s.begin pr call = some t) : Flow s t := by
  rw [begin] at h
  split at h
  · cases h; exact .refl_of_eq rfl rfl rfl
  · cases h

theorem flow_step {a : PipeAct P} (h : s.step a = some t) : Flow s t := by
  cases a with
  | write pr n => exact flow_begin h
  | read pr n => exact flow_begin h
  | run pr copied => exact flow_run h
  | close pr writable =>
    rw [step] at h
    split at h
    · obtain ⟨-, rfl⟩ := Lib.of_guard h
      exact flow_pipeclose ..
    · cases h
  | kill pid => cases h; exact .refl_of_eq rfl rfl rfl

/-- **A pipe is first in, first out.** In every state of every run of a new pipe, by any number
of processes and over any number of wraps of the counters: the bytes taken are a first part of
the bytes sent, the rest of them are the `nwrite - nread` bytes in the buffer, there are never
more than `PIPESIZE` of these, and the next step, whatever it is, overwrites none of them. -/
theorem fifo_of_visits {data : Fin PIPESIZE → UInt8} {killed : P → Bool} {as : List (PipeAct P)}
    {s : PipeSys P} (h : Visits step (boot data killed) as s) :
    s.taken <+: s.sent ∧
    s.sent.drop s.taken.length = s.pipe.contents ∧
    s.pipe.contents.length = (s.pipe.nwrite - s.pipe.nread).toNat ∧
    (s.pipe.nwrite - s.pipe.nread).toNat ≤ PIPESIZE ∧
    ∀ a t, s.step a = some t →
      (t.pipe.nwrite ≠ s.pipe.nwrite → ¬ s.pipe.Unread (slot s.pipe.nwrite)) ∧
      ∀ c, s.pipe.Unread c → t.pipe.data c = s.pipe.data c := by
  have hs : s.Queued :=
    Visits.induction (queued_boot data killed) (fun _ _ _ _ hstep hq => hq.flow (flow_step hstep)) h
  refine ⟨⟨s.pipe.contents, hs.sent_eq.symm⟩, ?_, s.pipe.length_contents, hs.count_le, ?_⟩
  · rw [hs.sent_eq, List.drop_left]
  · intro a t hstep
    exact ⟨hs.not_unread (flow_step hstep), fun c => hs.data_eq (flow_step hstep)⟩

/-- Two bytes go in and one comes out. -/
theorem fifo_of_visits_exchange :
    ∃ s, Visits step (boot (P := Fin 2) (fun _ => 0) fun _ => false)
        [.write 0 2, .run 0 none, .run 0 (some 7), .run 0 (some 8), .run 0 none, .run 0 none,
          .read 1 1, .run 1 none, .run 1 none, .run 1 (some 0)] s ∧
      s.sent = [7, 8] ∧ s.taken = [7] ∧ s.taken <+: s.sent ∧
      s.sent.drop s.taken.length = s.pipe.contents := by
  have hrun : (exec step (boot (P := Fin 2) (fun _ => 0) fun _ => false)
      [.write 0 2, .run 0 none, .run 0 (some 7), .run 0 (some 8), .run 0 none, .run 0 none,
        .read 1 1, .run 1 none, .run 1 none, .run 1 (some 0)]).any
      (fun s => s.sent = [7, 8] ∧ s.taken = [7]) = true := by decide +kernel
  obtain ⟨s, hs, hbytes⟩ := (Option.any_eq_true _ _).mp hrun
  have hvisits := Visits.last hs
  obtain ⟨hfirst, hrest, -⟩ := fifo_of_visits hvisits
  obtain ⟨hsent, htaken⟩ := of_decide_eq_true hbytes
  exact ⟨s, hvisits, hsent, htaken, hfirst, hrest⟩

end Steps

end PipeSys

end Xv6.Pipes
