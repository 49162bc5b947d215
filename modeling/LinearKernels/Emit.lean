import LinearKernels.Code
import LinearKernels.Schedule

/-!
The program text of a plan. Each pass becomes one kernel, whose parameters are the pass's
arguments. Elementwise kernels loop over the index range of their first target, a matrix
product sums over the columns of its left operand, and a reduction combines the partial
sums of one work group.
-/

namespace LinearKernels

/-- What is needed to launch a kernel. Only reductions fix their work-group size. -/
structure Kernel where
  name : String
  kind : PassKind
  arguments : List String
  dimensions : Nat
  localSize : Option Nat
deriving DecidableEq

structure Listing where
  source : String
  kernels : List Kernel
deriving DecidableEq

/-- The index of a sum over a matrix's columns. -/
def innerIndex : String := "k"

def laneName : String := "lid"

def totalName : String := "acc"

def bufferName : String := "buf"

namespace Plan

def orUnbound {α : Type} : Option α → Except Fault α
  | some a => .ok a
  | none => .error .unbound

def firstStatement (pass : Pass) : Except Fault Nat :=
  orUnbound pass.statements.head?

/-- The argument that statement `s` assigns. -/
def target (plan : Plan) (s : Nat) : Except Fault Argument := do
  match (← plan.tree s).operands? with
  | some (op, lhs, _) => if op.isAssignment then orUnbound lhs.argument? else throw .unbound
  | none => throw .unbound

def product (plan : Plan) (s : Nat) : Except Fault Term := do
  orUnbound ((← plan.tree s).walk.find? (·.product?.isSome))

def bodies (plan : Plan) (pass : Pass) : Except Fault Code := do
  let texts ← pass.statements.mapM fun s => do (← plan.tree s).code plan.registry pass.index
  return .ofList (texts.map .eval)

def layoutOf (a : Argument) : Except Fault Layout :=
  match a.storage with
  | .matrix l => .ok l
  | _ => .error (.typeMismatch "matrix loop" a.shape.name Shape.matrix.name)

def vectorBound (plan : Plan) (a : Argument) : Except Fault String := do
  return rowIndex ++ " < " ++ vectorSize (← a.name plan.registry)

def matrixBounds (plan : Plan) (a : Argument) : Except Fault (String × String) := do
  let layout ← layoutOf a
  let name ← a.name plan.registry
  return (layout.rowsBound name rowIndex, layout.colsBound name colIndex)

/-- The loop condition for a sum over the columns of the matrix `a`. -/
def innerBound (plan : Plan) (a : Argument) : Except Fault String := do
  let name ← a.name plan.registry
  let layout ← layoutOf a
  return layout.colsBound name innerIndex

def vectorLoop (bound : String) (body : Code) : Code :=
  .gridLoop 0 rowIndex bound body

def matrixLoops (bounds : String × String) (body : Code) : Code :=
  .gridLoop 0 rowIndex bounds.1 (.gridLoop 1 colIndex bounds.2 body)

/-! ### Bodies by kind -/

def vectorBody (plan : Plan) (pass : Pass) : Except Fault Code := do
  let target ← plan.target (← firstStatement pass)
  let bound ← plan.vectorBound target
  return vectorLoop bound (← plan.bodies pass)

def matrixBody (plan : Plan) (pass : Pass) : Except Fault Code := do
  let target ← plan.target (← firstStatement pass)
  let bounds ← plan.matrixBounds target
  return matrixLoops bounds (← plan.bodies pass)

/-- Scalar statements are run by one item. -/
def scalarBody (plan : Plan) (pass : Pass) : Except Fault Code := do
  return .guard "get_global_id(0) == 0" (← plan.bodies pass)

/-- Each item sums its share of the terms, and the work group combines the sums. The length
is that of the first vector of the left operand. -/
def reductionBody (plan : Plan) (localSize : Nat) (pass : Pass) : Except Fault Code := do
  match ← orUnbound (plan.reduced? pass) with
  | .inner lhs rhs _ temporary =>
    let vectors := lhs.extract .argument fun
      | .leaf arg => arg.storage.isVector
      | _ => false
    let length ← orUnbound (vectors.terms.head?.bind Term.argument?)
    let temporary ← orUnbound temporary
    let buffer : LocalArray := ⟨bufferName, localSize, lhs.element⟩
    let bound ← plan.vectorBound length
    let term ← Term.pairCode plan.registry pass.index .mul lhs rhs
    let result ← temporary.accessName plan.registry pass.index
    return .ofList [
      .declareLocal buffer,
      .declareLane laneName,
      .declare lhs.element totalName "0",
      vectorLoop bound (.assign totalName (Term.reduceOp.code totalName term)),
      .assign (buffer.access laneName) totalName,
      .combine buffer Term.reduceOp laneName,
      .guard (laneName ++ " == 0") (.assign result (buffer.access "0"))]
  | _ => throw .unbound

def productOperands (product : Term) : Except Fault (Argument × Argument) := do
  let (lhs, rhs) ← orUnbound product.product?
  match lhs.argument?, rhs.argument? with
  | some l, some r => return (l, r)
  | _, _ => throw .unbound

/-- The sum that a product's accumulator holds when the statement's body is run. -/
def productSum (element : ElementType) (total bound lhs rhs : String) : List Code :=
  [.declare element total "0",
    .countLoop innerIndex bound (.assign total (Term.accumulated total lhs rhs))]

def matVecBody (plan : Plan) (pass : Pass) : Except Fault Code := do
  let s ← firstStatement pass
  let target ← plan.target s
  let product ← plan.product s
  let (matrix, vector) ← productOperands product
  let total := Term.accumulator (← product.key plan.registry) 0 0
  let bound ← plan.vectorBound target
  let sumBound ← plan.innerBound matrix
  let l ← matrix.matrixElement plan.registry rowIndex innerIndex
  let r ← vector.vectorElement plan.registry innerIndex
  let bodies ← plan.bodies pass
  return vectorLoop bound (.ofList (productSum product.element total sumBound l r ++ [bodies]))

def matMatBody (plan : Plan) (pass : Pass) : Except Fault Code := do
  let s ← firstStatement pass
  let target ← plan.target s
  let product ← plan.product s
  let (lhs, rhs) ← productOperands product
  let total := Term.accumulator (← product.key plan.registry) 0 0
  let bounds ← plan.matrixBounds target
  let sumBound ← plan.innerBound lhs
  let l ← lhs.matrixElement plan.registry rowIndex innerIndex
  let r ← rhs.matrixElement plan.registry innerIndex colIndex
  let bodies ← plan.bodies pass
  return matrixLoops bounds (.ofList (productSum product.element total sumBound l r ++ [bodies]))

def body (plan : Plan) (localSize : Nat) (pass : Pass) : Except Fault Code :=
  match pass.kind with
  | .vector => plan.vectorBody pass
  | .matrix => plan.matrixBody pass
  | .scalar => plan.scalarBody pass
  | .reduction => plan.reductionBody localSize pass
  | .matVec => plan.matVecBody pass
  | .matMat => plan.matMatBody pass

/-! ### The whole program -/

def parameters (plan : Plan) (pass : Pass) : Except Fault (List String) := do
  let set ← plan.arguments pass
  set.terms.mapM fun t => do (← orUnbound t.argument?).declaration plan.registry

def kernelName (program : String) (pass : Pass) : String :=
  program ++ "_k" ++ decimal pass.index

def kernelLines (name : String) (parameters : List String) (body : Code) : List String :=
  "" :: Code.block 0 ("__kernel void " ++ name ++ "(" ++ ", ".intercalate parameters ++ ")")
    (body.lines 1)

def kernel (plan : Plan) (program : String) (localSize : Nat) (pass : Pass) :
    Except Fault (Kernel × List String) := do
  let name := kernelName program pass
  let parameters ← plan.parameters pass
  let body ← plan.body localSize pass
  return (⟨name, pass.kind, parameters, pass.kind.dimensions,
      if pass.kind = .reduction then some localSize else none⟩,
    kernelLines name parameters body)

def preamble (plan : Plan) (program : String) : List String :=
  ("// " ++ program ++ ": " ++ decimal plan.passes.length ++ " kernel(s)") ::
    if plan.usesDouble then ["#pragma OPENCL EXTENSION cl_khr_fp64 : enable"] else []

def emit (plan : Plan) (program : String) (settings : Settings) : Except Fault Listing := do
  settings.checkLocalSize
  let kernels ← plan.passes.mapM (plan.kernel program settings.localSize)
  let lines := plan.preamble program ++ kernels.flatMap (·.2)
  return ⟨String.join (lines.map (· ++ "\n")), kernels.map (·.1)⟩

end Plan

end LinearKernels
