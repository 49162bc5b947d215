import LinearKernels.Plan
import LinearKernels.Proofs.TermShape

/-!
Running plans. A machine supplies the operations on elements and the sizes of the buffers;
no law of arithmetic is assumed. A memory gives every buffer its cells. A term is evaluated
at one index, where a computed inner product stands for its temporary and a matrix product
sums over the columns of its left operand. A statement assigns one element at one index, or
a whole range of elements at once.
-/

namespace LinearKernels

/-- Operations on elements, and the sizes of vectors and matrices. The products of an inner
product are combined by `total`, in whatever order a work group does. -/
structure Machine (V : Type) where
  zero : V
  unary : UnaryOp → V → V
  binary : BinaryOp → V → V → V
  total : List V → V
  length : Handle → Nat
  columns : Handle → Nat

/-- The cells of all memory objects. Different handles share no cell. -/
abbrev Memory (V : Type) := Handle → Nat × Nat → V

/-- A row and a column; vectors use the row only. -/
abbrev Index := Nat × Nat

/-- The cell of the element at an index. The storage order of a matrix does not matter. -/
def Storage.cell : Storage → Index → Nat × Nat
  | hostScalar, _ | deviceScalar, _ => (0, 0)
  | vector v, ix => (ix.1 * v.stride + v.start, 0)
  | matrix l, ix => if l.transposed then (ix.2, ix.1) else ix

variable {V : Type}

def Memory.write (μ : Memory V) (h : Handle) (cell : Nat × Nat) (v : V) : Memory V :=
  fun h' cell' => if h' = h ∧ cell' = cell then v else μ h' cell'

def Argument.read (μ : Memory V) (a : Argument) (ix : Index) : V :=
  μ a.handle (a.storage.cell ix)

def Term.isVectorLeaf : Term → Bool
  | .leaf arg => arg.storage.isVector
  | _ => false

/-- The vector whose length an inner product with this left operand runs over. -/
def Term.lengthVector? (lhs : Term) : Option Argument :=
  (lhs.extract .argument isVectorLeaf).terms.head?.bind argument?

namespace Machine

variable (M : Machine V)

def lengthOf (lhs : Term) : Nat :=
  (lhs.lengthVector?.map fun a => M.length a.handle).getD 0

def columnsOf (lhs : Term) : Nat :=
  (lhs.argument?.map fun a => M.columns a.handle).getD 0

/-- The sum that a matrix product's register holds after `n` steps. -/
def accumulate (n : Nat) (step : Nat → V) : V :=
  (List.range n).foldl (fun sum k => M.binary .add sum (step k)) M.zero

/-- The element that an assignment leaves behind. -/
def update (op : BinaryOp) (old new : V) : V :=
  match op with
  | .inplaceAdd => M.binary .add old new
  | .inplaceSub => M.binary .sub old new
  | _ => new

end Machine

namespace Term

/-- The element of a term at an index. -/
def value (M : Machine V) (μ : Memory V) : Term → Index → V
  | leaf arg, ix => arg.read μ ix
  | unary op sub, ix => M.unary op (sub.value M μ ix)
  | binary op lhs rhs, ix => M.binary op (lhs.value M μ ix) (rhs.value M μ ix)
  | matMat lhs rhs, ix => M.accumulate (M.columnsOf lhs) fun k =>
      M.binary .mul (lhs.value M μ (ix.1, k)) (rhs.value M μ (k, ix.2))
  | matVec lhs rhs, ix => M.accumulate (M.columnsOf lhs) fun k =>
      M.binary .mul (lhs.value M μ (ix.1, k)) (rhs.value M μ (k, 0))
  | inner _ _ (some _) (some cell), _ => cell.read μ (0, 0)
  | inner lhs rhs _ _, _ => M.total ((List.range (M.lengthOf lhs)).map fun k =>
      M.binary .mul (lhs.value M μ (k, 0)) (rhs.value M μ (k, 0)))

/-- The element of a term at an index, with every inner product evaluated there and then. -/
def fullValue (M : Machine V) (μ : Memory V) : Term → Index → V
  | leaf arg, ix => arg.read μ ix
  | unary op sub, ix => M.unary op (sub.fullValue M μ ix)
  | binary op lhs rhs, ix => M.binary op (lhs.fullValue M μ ix) (rhs.fullValue M μ ix)
  | matMat lhs rhs, ix => M.accumulate (M.columnsOf lhs) fun k =>
      M.binary .mul (lhs.fullValue M μ (ix.1, k)) (rhs.fullValue M μ (k, ix.2))
  | matVec lhs rhs, ix => M.accumulate (M.columnsOf lhs) fun k =>
      M.binary .mul (lhs.fullValue M μ (ix.1, k)) (rhs.fullValue M μ (k, 0))
  | inner lhs rhs _ _, _ => M.total ((List.range (M.lengthOf lhs)).map fun k =>
      M.binary .mul (lhs.fullValue M μ (k, 0)) (rhs.fullValue M μ (k, 0)))

/-- Assign all elements of a range at once; everything is read from the memory before. -/
def assignOver (M : Machine V) (tree : Term) (range : List Index) (μ : Memory V) : Memory V :=
  match tree with
  | binary op (leaf target) value => fun h cell =>
    match if h = target.handle then range.find? (target.storage.cell · = cell) else none with
    | some ix => M.update op (target.read μ ix) (value.value M μ ix)
    | none => μ h cell
  | _ => μ

/-- Compute an inner product into its temporary. -/
def reduce (M : Machine V) (node : Term) (μ : Memory V) : Memory V :=
  match node with
  | inner lhs rhs _ (some cell) =>
    μ.write cell.handle (0, 0) ((inner lhs rhs none none).value M μ (0, 0))
  | _ => μ

variable {M : Machine V} {μ ν : Memory V} {t : Term}

theorem value_uncomputed (lhs rhs : Term) (ix : Index) :
    (inner lhs rhs none none).value M μ ix = M.total ((List.range (M.lengthOf lhs)).map fun k =>
      M.binary .mul (lhs.value M μ (k, 0)) (rhs.value M μ (k, 0))) :=
  rfl

theorem accumulate_congr {n : Nat} {f g : Nat → V} (h : ∀ k, f k = g k) :
    M.accumulate n f = M.accumulate n g := by
  rw [funext h]

/-- A full evaluation reads the leaves only. -/
theorem fullValue_congr (h : ∀ k ∈ t.leafHandles, μ k = ν k) (ix : Index) :
    t.fullValue M μ ix = t.fullValue M ν ix := by
  have pair : ∀ {l r : Term}, (∀ k ∈ (l.leaves ++ r.leaves).map (·.handle), μ k = ν k) →
      (∀ k ∈ l.leafHandles, μ k = ν k) ∧ ∀ k ∈ r.leafHandles, μ k = ν k := by
    intro l r h
    rw [List.map_append] at h
    exact ⟨fun k hk => h k (List.mem_append_left _ hk),
      fun k hk => h k (List.mem_append_right _ hk)⟩
  induction t generalizing ix with
  | leaf arg =>
    rw [fullValue, fullValue, Argument.read, Argument.read,
      h arg.handle (by simp [leafHandles, leaves])]
  | unary op sub ih => rw [fullValue, fullValue, ih h]
  | binary op lhs rhs ihl ihr =>
    obtain ⟨hl, hr⟩ := pair h
    rw [fullValue, fullValue, ihl hl, ihr hr]
  | matMat lhs rhs ihl ihr =>
    obtain ⟨hl, hr⟩ := pair h
    exact accumulate_congr fun k => by rw [ihl hl, ihr hr]
  | matVec lhs rhs ihl ihr =>
    obtain ⟨hl, hr⟩ := pair h
    exact accumulate_congr fun k => by rw [ihl hl, ihr hr]
  | inner lhs rhs computed temporary ihl ihr =>
    obtain ⟨hl, hr⟩ := pair h
    rw [fullValue, fullValue]
    congr 1
    exact List.map_congr_left fun k _ => by rw [ihl hl, ihr hr]

/-- If the temporaries of all inner products are up to date, so is the term. -/
theorem value_eq_fullValue (h : ∀ m ∈ t.innerProducts, ∀ ix, m.value M μ ix = m.fullValue M μ ix)
    (ix : Index) : t.value M μ ix = t.fullValue M μ ix := by
  induction t generalizing ix with
  | leaf arg => rfl
  | unary op sub ih => rw [value, fullValue, ih h]
  | binary op lhs rhs ihl ihr =>
    rw [value, fullValue, ihl fun m hm => h m (List.mem_append_left _ hm),
      ihr fun m hm => h m (List.mem_append_right _ hm)]
  | matMat lhs rhs ihl ihr =>
    refine accumulate_congr fun k => ?_
    rw [ihl fun m hm => h m (List.mem_append_left _ hm),
      ihr fun m hm => h m (List.mem_append_right _ hm)]
  | matVec lhs rhs ihl ihr =>
    refine accumulate_congr fun k => ?_
    rw [ihl fun m hm => h m (List.mem_append_left _ hm),
      ihr fun m hm => h m (List.mem_append_right _ hm)]
  | inner lhs rhs computed temporary ihl ihr =>
    exact h _ (self_mem_innerProducts lhs rhs computed temporary) ix

end Term

end LinearKernels
