import LinearKernels.Lowering
import LinearKernels.TermBind
import LinearKernels.TermOrder

/-!
Plans: bound statements and the kernels that run them. A pass is one kernel. A reduction
pass computes one inner product of a statement into its temporary; every other pass runs
the bodies of its statements in order.
-/

namespace LinearKernels

inductive PassKind where
  | vector
  | matrix
  | scalar
  | reduction
  | matVec
  | matMat
deriving DecidableEq

namespace PassKind

def name : PassKind → String
  | vector => "vector"
  | matrix => "matrix"
  | scalar => "scalar"
  | reduction => "reduction"
  | matVec => "matvec"
  | matMat => "matmat"

def ofName? (text : String) : Option PassKind :=
  [vector, matrix, scalar, reduction, matVec, matMat].find? (·.name = text)

def isFusable : PassKind → Bool
  | vector | matrix | scalar => true
  | reduction | matVec | matMat => false

/-- The number of index ranges a kernel runs over. -/
def dimensions : PassKind → Nat
  | matrix | matMat => 2
  | vector | scalar | reduction | matVec => 1

def ofTree (tree : Term) : PassKind :=
  if tree.count .matVec > 0 then matVec
  else if tree.count .matMat > 0 then matMat
  else
    match tree.shape with
    | .vector => vector
    | .matrix => matrix
    | .scalar => scalar

end PassKind

/-- One kernel. `statements` are the numbers of the statements it runs; a reduction names
the statement that holds its inner product, and the position of the inner product among all
inner products of that statement. -/
structure Pass where
  index : Nat
  kind : PassKind
  statements : List Nat
  reduction : Option Nat
deriving DecidableEq

structure Plan where
  statements : List Statement
  passes : List Pass
  context : Context
deriving DecidableEq

namespace Plan

def registry (plan : Plan) : Registry :=
  plan.context.registry

def tree (plan : Plan) (s : Nat) : Except Fault Term :=
  match plan.statements[s]? with
  | some statement => .ok statement.tree
  | none => .error .unbound

/-- The inner product that a reduction pass computes. -/
def reduced? (plan : Plan) (pass : Pass) : Option Term := do
  let s ← pass.statements.head?
  let statement ← plan.statements[s]?
  let n ← pass.reduction
  statement.tree.innerProducts[n]?

def keys (plan : Plan) : Except Fault (List String) :=
  plan.statements.mapM (·.tree.key plan.registry)

def shortKeys (plan : Plan) : Except Fault (List String) :=
  plan.statements.mapM (·.tree.shortKey plan.registry)

def usesDouble (plan : Plan) : Bool :=
  plan.registry.usesDouble

/-- The arguments of a pass in the order of its parameters. A reduction takes the arguments
of the two operands and the temporary; every other pass takes those of its statements. -/
def arguments (plan : Plan) (pass : Pass) : Except Fault TermSet := do
  if pass.kind = .reduction then
    let some node := plan.reduced? pass | throw .unbound
    let some (_, lhs, rhs) := node.operands? | throw .unbound
    let operands := (TermSet.empty.insertAll lhs.argumentSet.terms).insertAll
      rhs.argumentSet.terms
    return operands.insert node
  else
    let trees ← pass.statements.mapM plan.tree
    return trees.foldl (fun set tree => set.insertAll tree.argumentSet.terms) .empty

end Plan

end LinearKernels
