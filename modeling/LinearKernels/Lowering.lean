import LinearKernels.Scope
import LinearKernels.TermWalk

/-!
From parsed files to statements. Each assignment becomes one term over the declared
buffers. A statement holds at most one matrix product, whose operands are declared names
other than the target, and no product stands inside an inner product. All complaints about
a file are collected.
-/

namespace LinearKernels

/-- Ways in which an assignment can be wrong, besides a mismatch of types. -/
inductive StatementFault where
  | undeclared (name : String)
  | unknownFunction (name : String)
  | wrongArity (name : String) (expected found : Nat)
  | productInsideDot
  | prodWithoutMatrix (found : Shape)
  | compositeProduct
  | severalProducts
  | targetInProduct (name : String)
  | noStatements
deriving DecidableEq

namespace StatementFault

def message : StatementFault → String
  | undeclared name => "undeclared name '" ++ name ++ "'"
  | unknownFunction name => "unknown function '" ++ name ++ "'"
  | wrongArity name expected found =>
      "'" ++ name ++ "' takes " ++ decimal expected ++ " argument" ++
        (if expected = 1 then "" else "s") ++ ", found " ++ decimal found
  | productInsideDot => "matrix products cannot appear inside dot()"
  | prodWithoutMatrix found => "prod() expects a matrix first, found a " ++ found.name
  | compositeProduct => "matrix product operands must be declared names"
  | severalProducts => "more than one matrix product in a statement"
  | targetInProduct name =>
      "'" ++ name ++ "' is both the target and an operand of a matrix product"
  | noStatements => "no statements to compile"

def help? : StatementFault → Option String
  | undeclared name => some ("declare it first, e.g. `vector<float> " ++ name ++ ";`")
  | unknownFunction _ =>
      some "available: dot, prod, pow, max, min, exp, log, sqrt, sin, cos, tan, tanh, fabs"
  | wrongArity _ _ _ | prodWithoutMatrix _ => none
  | productInsideDot => some "compute the product into a vector first"
  | compositeProduct => some "assign the operand expression to a variable first"
  | severalProducts => some "compute each product into its own vector or matrix first"
  | targetInProduct _ => some "write the product into a separate variable"
  | noStatements => some "add an assignment such as `y = x + y;`"

def diagnostic (fault : StatementFault) (span : Span) : Diagnostic :=
  { Diagnostic.error fault.message span with help := fault.help? }

end StatementFault

structure Statement where
  tree : Term
  span : Span
deriving DecidableEq

inductive Function where
  | dot
  | prod
  | pow
  | max
  | min
  | unary (op : UnaryOp)
deriving DecidableEq

namespace Function

def ofName? (name : String) : Option Function :=
  match name with
  | "dot" => some dot
  | "prod" => some prod
  | "pow" => some pow
  | "max" => some max
  | "min" => some min
  | _ => (UnaryOp.ofFunction? name).map unary

def arity : Function → Nat
  | unary _ => 1
  | _ => 2

end Function

namespace Checked

def fail {α : Type} (fault : StatementFault) (span : Span) : Checked α :=
  .error [fault.diagnostic span]

/-- A built term, or its fault as a complaint at `span`. -/
def ofTerm (span : Span) : Except Fault Term → Checked Term
  | .ok t => .ok t
  | .error fault => .error [fault.diagnostic span]

end Checked

namespace Term

/-- A matrix product; its operands have to stand for arguments. -/
def lowerProduct (lhs rhs : Term) (span : Span) : Checked Term :=
  if lhs.argument?.isNone || rhs.argument?.isNone then Checked.fail .compositeProduct span
  else if rhs.shape = .matrix then Checked.ofTerm span (mkMatMat lhs rhs)
  else Checked.ofTerm span (mkMatVec lhs rhs)

/-- An operator of the language. A star is a matrix product when the left operand is a
matrix and the right one is not a scalar, and a scaling otherwise. -/
def lowerOperator (op : Operator) (lhs rhs : Term) (span : Span) : Checked Term :=
  match op with
  | .add => Checked.ofTerm span (mkBinary .add lhs rhs)
  | .sub => Checked.ofTerm span (mkBinary .sub lhs rhs)
  | .div => Checked.ofTerm span (mkBinary .div lhs rhs)
  | .elemMul => Checked.ofTerm span (mkBinary .elementProd lhs rhs)
  | .elemDiv => Checked.ofTerm span (mkBinary .elementDiv lhs rhs)
  | .mul =>
    if lhs.shape = .matrix ∧ rhs.shape ≠ .scalar then lowerProduct lhs rhs span
    else Checked.ofTerm span (mkBinary .mul lhs rhs)

def lowerCall (f : Function) (args : List Term) (span : Span) : Checked Term :=
  match f, args with
  | .unary op, [t] => Checked.ofTerm span (mkUnary op t)
  | .dot, [lhs, rhs] =>
    if lhs.productCount + rhs.productCount > 0 then Checked.fail .productInsideDot span
    else Checked.ofTerm span (mkInner lhs rhs)
  | .prod, [lhs, rhs] =>
    if lhs.shape = .matrix then lowerProduct lhs rhs span
    else Checked.fail (.prodWithoutMatrix lhs.shape) span
  | .pow, [lhs, rhs] => Checked.ofTerm span (mkBinary .pow lhs rhs)
  | .max, [lhs, rhs] => Checked.ofTerm span (mkBinary .max lhs rhs)
  | .min, [lhs, rhs] => Checked.ofTerm span (mkBinary .min lhs rhs)
  | _, _ => .error []

/-- Whether an operand of a matrix product in the term has the handle `h`. -/
def productReads (h : Option Handle) (t : Term) : Bool :=
  t.walk.any fun s => s.product?.any fun (lhs, rhs) => lhs.handle? = h || rhs.handle? = h

end Term

def AssignOp.operation : AssignOp → BinaryOp
  | assign => .assign
  | addAssign => .inplaceAdd
  | subAssign => .inplaceSub

namespace Scope

def lowerName (scope : Scope) (name : String) (span : Span) : Checked Term :=
  match scope.find? name with
  | some symbol => .ok (.leaf symbol.argument)
  | none => Checked.fail (.undeclared name) span

mutual

/-- The term of an expression. An expression that could not be read has none, and was
complained about before. -/
def lowerExpr (scope : Scope) : Expr → Checked Term
  | .var span name => scope.lowerName name span
  | .neg span operand => do
    let t ← scope.lowerExpr operand
    Checked.ofTerm span (Term.mkUnary .neg t)
  | .binary span op lhs rhs => do
    let (l, r) ← Checked.both (scope.lowerExpr lhs) (scope.lowerExpr rhs)
    Term.lowerOperator op l r span
  | .call span name args =>
    match Function.ofName? name.value with
    | none => Checked.fail (.unknownFunction name.value) name.span
    | some f =>
      if args.length ≠ f.arity then
        Checked.fail (.wrongArity name.value f.arity args.length) span
      else do
        let ts ← scope.lowerExprs args
        Term.lowerCall f ts span
  | .missing _ => .error []

def lowerExprs (scope : Scope) : List Expr → Checked (List Term)
  | [] => .ok []
  | e :: es => do
    let (t, ts) ← Checked.both (scope.lowerExpr e) (scope.lowerExprs es)
    return t :: ts

end

def lowerAssignment (scope : Scope) (a : Assignment) : Checked Statement := do
  let span := a.target.span.merge a.value.span
  let (target, value) ←
    Checked.both (scope.lowerName a.target.value a.target.span) (scope.lowerExpr a.value)
  if value.productCount > 1 then
    Checked.fail .severalProducts a.value.span
  else if value.productReads target.handle? then
    Checked.fail (.targetInProduct a.target.value) span
  else do
    let tree ← Checked.ofTerm span (Term.mkBinary a.op.value.operation target value)
    return ⟨tree, span⟩

end Scope

structure Lowered where
  scope : Scope
  statements : List Statement
  diagnostics : List Diagnostic
deriving DecidableEq

namespace Lowered

def empty : Lowered := ⟨.empty, [], []⟩

def addItem (settings : Settings) (l : Lowered) : Item → Lowered
  | .declaration d =>
    let (scope, ds) := l.scope.declare settings d
    { l with scope := scope, diagnostics := l.diagnostics ++ ds }
  | .assignment a =>
    match l.scope.lowerAssignment a with
    | .ok s => { l with statements := l.statements ++ [s] }
    | .error ds => { l with diagnostics := l.diagnostics ++ ds }

end Lowered

/-- The statements of a file. A file without any is complained about, unless there is
something else to complain about. -/
def SourceFile.lower (settings : Settings) (f : SourceFile) : Checked (List Statement) :=
  let l := f.items.foldl (Lowered.addItem settings) .empty
  if !l.diagnostics.isEmpty then .error l.diagnostics
  else if l.statements.isEmpty then .error [StatementFault.noStatements.diagnostic .origin]
  else .ok l.statements

end LinearKernels
