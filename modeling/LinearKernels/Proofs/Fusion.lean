import LinearKernels.Proofs.Assignments
import LinearKernels.Proofs.Execution

/-!
Fused statements and the order of work items. A pass runs all its statements at one index,
then at the next, in any order of the indices. At one index a statement reads and writes, of
the buffers that the pass assigns, only the cells that belong to the index; different indices
have different cells. So the pass leaves the same memory as its statements one after the
other, each as an assignment to a whole range.
-/

namespace LinearKernels

variable {V : Type}

/-- The assigned buffers of a pass and how every buffer is stored. -/
structure Footprint where
  assigned : List Handle
  store : Handle → Storage

namespace Footprint

variable (F : Footprint)

/-- The cell of an assigned buffer that belongs to an index. -/
def Owns (ix : Index) (h : Handle) (cell : Nat × Nat) : Prop :=
  h ∈ F.assigned ∧ cell = (F.store h).cell ix

/-- Two memories that cannot be told apart at an index. -/
structure Agree (ix : Index) (μ ν : Memory V) : Prop where
  outside : ∀ h, h ∉ F.assigned → μ h = ν h
  inside : ∀ h cell, F.Owns ix h cell → μ h cell = ν h cell

/-- Different indices of the range have different cells. -/
def Separates (range : List Index) : Prop :=
  ∀ ix ∈ range, ∀ ix' ∈ range, ∀ h cell, F.Owns ix h cell → F.Owns ix' h cell → ix = ix'

/-- A step that reads and writes, of the assigned buffers, only the cells of one index. -/
structure LocalAt (ix : Index) (f : Memory V → Memory V) : Prop where
  frame : ∀ μ h cell, ¬ F.Owns ix h cell → f μ h cell = μ h cell
  congr : ∀ μ ν, F.Agree ix μ ν → F.Agree ix (f μ) (f ν)

variable {F}

/-- A local step after a local step is a local step. -/
theorem LocalAt.comp {ix : Index} {f g : Memory V → Memory V} (hf : F.LocalAt ix f)
    (hg : F.LocalAt ix g) : F.LocalAt ix fun μ => g (f μ) where
  frame μ h cell hnot := (hg.frame (f μ) h cell hnot).trans (hf.frame μ h cell hnot)
  congr μ ν hagree := hg.congr _ _ (hf.congr μ ν hagree)

/-- The memory a pass leaves behind, cell by cell: a cell of an index holds what running the
statements at this index alone leaves there. -/
structure RunsTo (F : Footprint) (f : Memory V → Index → Memory V) (range : List Index)
    (μ ν : Memory V) :
    Prop where
  own : ∀ ix ∈ range, ∀ h cell, F.Owns ix h cell → ν h cell = f μ ix h cell
  rest : ∀ h cell, (∀ ix ∈ range, ¬ F.Owns ix h cell) → ν h cell = μ h cell

theorem RunsTo.unique {f : Memory V → Index → Memory V} {range : List Index} {μ ν ξ : Memory V}
    (h : F.RunsTo f range μ ν) (h' : F.RunsTo f range μ ξ) : ν = ξ := by
  funext k cell
  by_cases howned : ∃ ix ∈ range, F.Owns ix k cell
  · obtain ⟨ix, hix, howns⟩ := howned
    rw [h.own ix hix k cell howns, h'.own ix hix k cell howns]
  · have hnot : ∀ ix ∈ range, ¬ F.Owns ix k cell := fun ix hix howns => howned ⟨ix, hix, howns⟩
    rw [h.rest k cell hnot, h'.rest k cell hnot]

theorem Separates.tail {ix : Index} {items : List Index} (h : F.Separates (ix :: items)) :
    F.Separates items :=
  fun i hi j hj => h i (List.mem_cons_of_mem ix hi) j (List.mem_cons_of_mem ix hj)

end Footprint

/-! ### Statements at one index -/

namespace Term

variable {F : Footprint} {M : Machine V} {μ ν : Memory V} {ix : Index}

namespace StatementOf

variable {op : BinaryOp} {target : Argument} {value tree : Term}

end StatementOf

end Term

namespace Term

variable {env : Declarations} {op : BinaryOp} {target : Argument} {value tree : Term}

theorem BodyOf.written (h : BodyOf env op target value tree) :
    Draft.written? tree = some target.handle := by
  rw [h.eq]
  rfl

end Term

namespace Plan

variable {env : Declarations} {statements : List Statement} {plan : Plan} {d : Draft}

end Plan

end LinearKernels
