import Xv6.Dispatch.View

/-!
# The code makes the moves

The view of a kernel: the mode of a stack is that of its top frame. The frames below the top one
are in no section, a stack has one frame of `fork` at most, and the frames of a scheduler are on
the stack of a hart. Then each line of the code is one of the moves of `Xv6.Dispatch.View`.
-/

namespace Xv6.Dispatch

variable {H : Type}

namespace Frame

/-- The mode of a frame on the stack of the process `p`. -/
def pmode (p : Slot) : Frame → ProcMode
  | .yield .locked => .busy p
  | .yield .marked => .leaving .runnable
  | .yield .resumed | .sleep _ .resumed | .forkret => .resumable
  | .sleep _ .locked | .sleep _ .chanSet | .sleep _ .tidied => .busy p
  | .sleep _ .marked => .leaving .sleeping
  | .fork (.used np) | .fork (.failed np) | .fork (.copied np) => .busy np
  | .exit .locked => .busy p
  | .exit .marked => .leaving .zombie
  | _ => .quiet

/-- The mode of a frame on the stack of a scheduler. -/
def hmode : Frame → HartMode
  | .scheduler p .test | .scheduler p .unlock => .busy p
  | .scheduler p .set => .setting p
  | .scheduler p .back => .backing p
  | _ => .quiet

/-- The process that a frame of `fork` makes, and whether it can be started. -/
def makes : Frame → Option (Slot × Bool)
  | .fork (.used np) => some (np, false)
  | .fork (.copied np) | .fork (.link np) | .fork (.ready np) => some (np, true)
  | _ => none

def isFork : Frame → Bool
  | .fork _ => true
  | _ => false

/-- A frame that can be on the stack of a scheduler. -/
def ofHart : Frame → Bool
  | .wakeup .. | .scheduler .. => true
  | _ => false

def isScheduler : Frame → Bool
  | .scheduler .. => true
  | _ => false

theorem makes_eq_none {f : Frame} (h : f.isFork = false) : f.makes = none := by
  cases f with
  | fork pc => cases h
  | _ => rfl

end Frame

/-- The mode of the top frame. -/
def pmodeOf (p : Slot) : List Frame → ProcMode
  | [] => .quiet
  | f :: _ => f.pmode p

def hmodeOf : List Frame → HartMode
  | [] => .quiet
  | f :: _ => f.hmode

def makingOf (fs : List Frame) : Option (Slot × Bool) := (fs.filterMap Frame.makes).head?

theorem makingOf_cons_of_none {f : Frame} {fs : List Frame} (h : f.makes = none) :
    makingOf (f :: fs) = makingOf fs := by
  rw [makingOf, List.filterMap_cons_none h, makingOf]

theorem makingOf_eq_none {fs : List Frame} (h : ∀ f ∈ fs, f.isFork = false) :
    makingOf fs = none := by
  rw [makingOf, List.head?_eq_none_iff, List.filterMap_eq_nil_iff]
  exact fun f hf => Frame.makes_eq_none (h f hf)

namespace Kernel

def view (s : Kernel H) : View H where
  lock := s.lock
  proc := s.proc
  on := s.on
  state := s.state
  pmode p := pmodeOf p (s.stack (.proc p))
  hmode h := hmodeOf (s.stack (.hart h))
  making p := makingOf (s.stack (.proc p))

/-- The frames of a stack of the process `p`. -/
structure ProcShape (p : Slot) (fs : List Frame) : Prop where
  rest : ∀ f ∈ fs.tail, f.pmode p = .quiet
  kind : ∀ f ∈ fs, f.isScheduler = false
  fork : (fs.filter Frame.isFork).length ≤ 1

/-- The frames of the stack of a scheduler. -/
structure HartShape (fs : List Frame) : Prop where
  rest : ∀ f ∈ fs.tail, f.hmode = .quiet
  kind : ∀ f ∈ fs, f.ofHart = true

/-- The shape of all stacks. -/
structure Shape (s : Kernel H) : Prop where
  procs : ∀ p, ProcShape p (s.stack (.proc p))
  harts : ∀ h, HartShape (s.stack (.hart h))

section Shapes
variable {p : Slot} {f : Frame} {fs gs : List Frame}

theorem ProcShape.pmodeOf_tail (h : ProcShape p (f :: fs)) : pmodeOf p fs = .quiet := by
  cases fs with
  | nil => rfl
  | cons g gs => exact h.rest g (by simp)

theorem HartShape.hmodeOf_tail (h : HartShape (f :: fs)) : hmodeOf fs = .quiet := by
  cases fs with
  | nil => rfl
  | cons g gs => exact h.rest g (by simp)

/-- Below a frame of `fork` there is no other. -/
theorem ProcShape.no_fork (h : ProcShape p (f :: fs)) (hf : f.isFork = true) :
    ∀ g ∈ fs, g.isFork = false := by
  have hlen := h.fork
  rw [List.filter_cons_of_pos hf, List.length_cons] at hlen
  have hnil : fs.filter Frame.isFork = [] := List.eq_nil_of_length_eq_zero (by omega)
  intro g hg
  simpa using List.filter_eq_nil_iff.mp hnil g hg

/-- The top frame is replaced by others. -/
theorem ProcShape.replace (h : ProcShape p (f :: fs)) (hrest : ∀ g ∈ gs.tail, g.pmode p = .quiet)
    (hkind : ∀ g ∈ gs, g.isScheduler = false)
    (hfork : (gs.filter Frame.isFork).length ≤ if f.isFork then 1 else 0) :
    ProcShape p (gs ++ fs) where
  rest := by
    intro g hg
    cases gs with
    | nil => exact h.rest g (List.mem_of_mem_tail hg)
    | cons g' gs =>
      rw [List.cons_append, List.tail_cons, List.mem_append] at hg
      exact hg.elim (hrest g) (h.rest g)
  kind := by
    intro g hg
    exact (List.mem_append.mp hg).elim (hkind g) fun hg => h.kind g (List.mem_cons_of_mem f hg)
  fork := by
    have hlen := h.fork
    rw [List.filter_append, List.length_append]
    by_cases hf : f.isFork = true
    · rw [List.filter_cons_of_pos hf, List.length_cons] at hlen
      rw [if_pos hf] at hfork
      omega
    · rw [List.filter_cons_of_neg hf] at hlen
      rw [if_neg hf] at hfork
      omega

theorem HartShape.replace (h : HartShape (f :: fs)) (hrest : ∀ g ∈ gs.tail, g.hmode = .quiet)
    (hkind : ∀ g ∈ gs, g.ofHart = true) : HartShape (gs ++ fs) where
  rest := by
    intro g hg
    cases gs with
    | nil => exact h.rest g (List.mem_of_mem_tail hg)
    | cons g' gs =>
      rw [List.cons_append, List.tail_cons, List.mem_append] at hg
      exact hg.elim (hrest g) (h.rest g)
  kind := by
    intro g hg
    exact (List.mem_append.mp hg).elim (hkind g) fun hg => h.kind g (List.mem_cons_of_mem f hg)

end Shapes

end Kernel

end Xv6.Dispatch
