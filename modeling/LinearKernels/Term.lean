import LinearKernels.Argument

/-!
Expression terms over arguments. Terms are built by checked constructors, which compare
the element types and shapes of the operands. An inner product also records the reduction
kernel that computes it and the temporary that holds its value, once there are such.
-/

namespace LinearKernels

inductive Term where
  | leaf (arg : Argument)
  | unary (op : UnaryOp) (sub : Term)
  | binary (op : BinaryOp) (lhs rhs : Term)
  | matMat (lhs rhs : Term)
  | matVec (lhs rhs : Term)
  | inner (lhs rhs : Term) (computed : Option Nat) (temporary : Option Argument)
deriving DecidableEq

namespace Term

/-- The kind of value of a term. A scaling has the shape of the operand that is scaled;
every other operation has the shape of its left operand. -/
def shape : Term → Shape
  | leaf arg => arg.shape
  | unary _ sub => sub.shape
  | binary .mul lhs rhs => if lhs.shape = .scalar then rhs.shape else lhs.shape
  | binary _ lhs _ => lhs.shape
  | matMat _ _ => .matrix
  | matVec _ _ => .vector
  | inner _ _ _ _ => .scalar

/-- The element type, which is that of the leftmost leaf. -/
def element : Term → ElementType
  | leaf arg => arg.element
  | unary _ sub => sub.element
  | binary _ lhs _ => lhs.element
  | matMat lhs _ => lhs.element
  | matVec lhs _ => lhs.element
  | inner lhs _ _ _ => lhs.element

/-- Element type and shape, for messages. -/
def typeText (t : Term) : String :=
  t.element.name ++ " " ++ t.shape.name

def mismatch (op : String) (lhs rhs : Term) : Fault :=
  .typeMismatch op lhs.typeText rhs.typeText

def isWriteable : Term → Bool
  | leaf arg => arg.storage.isWriteable
  | _ => false

/-- Whether the shapes and the element type allow the operation. The element types of the
two operands are compared beforehand. -/
def accepts (op : BinaryOp) (lhs rhs : Term) : Bool :=
  match op with
  | .assign | .inplaceAdd | .inplaceSub => lhs.isWriteable && lhs.shape = rhs.shape
  | .add | .sub | .elementProd | .elementDiv => lhs.shape = rhs.shape
  | .pow | .max | .min => lhs.shape = rhs.shape && lhs.element.isFloat
  | .mul => lhs.shape = .scalar || rhs.shape = .scalar
  | .div => rhs.shape = .scalar
  | .prod => false

/-! ### Checked constructors -/

def mkBinary (op : BinaryOp) (lhs rhs : Term) : Except Fault Term :=
  if lhs.element = rhs.element ∧ accepts op lhs rhs then .ok (binary op lhs rhs)
  else .error (mismatch op.symbol lhs rhs)

def mkUnary (op : UnaryOp) (sub : Term) : Except Fault Term :=
  if op.requiresFloat && !sub.element.isFloat then
    .error (.typeMismatch op.name sub.typeText "nothing")
  else .ok (unary op sub)

def mkMatMat (lhs rhs : Term) : Except Fault Term :=
  if lhs.shape = .matrix ∧ rhs.shape = .matrix ∧
    lhs.element = rhs.element then .ok (matMat lhs rhs)
  else .error (mismatch "prod" lhs rhs)

def mkMatVec (lhs rhs : Term) : Except Fault Term :=
  if lhs.shape = .matrix ∧ rhs.shape = .vector ∧
    lhs.element = rhs.element then .ok (matVec lhs rhs)
  else .error (mismatch "prod" lhs rhs)

def mkInner (lhs rhs : Term) : Except Fault Term :=
  if lhs.shape = .vector ∧ rhs.shape = .vector ∧ lhs.element = rhs.element then
    .ok (inner lhs rhs none none)
  else .error (mismatch "dot" lhs rhs)

/-! ### Views -/

/-- The operation that combines the terms of an inner product. -/
def reduceOp : BinaryOp := .add

/-- The operation and the operands of a term with two operands. An inner product multiplies
them, a matrix product accumulates them. -/
def operands? : Term → Option (BinaryOp × Term × Term)
  | binary op lhs rhs => some (op, lhs, rhs)
  | matMat lhs rhs | matVec lhs rhs => some (.prod, lhs, rhs)
  | inner lhs rhs _ _ => some (.mul, lhs, rhs)
  | leaf _ | unary _ _ => none

def product? : Term → Option (Term × Term)
  | matMat lhs rhs | matVec lhs rhs => some (lhs, rhs)
  | _ => none

/-- The argument a term stands for: a leaf stands for its buffer, and an inner product that
has been computed stands for its temporary. -/
def argument? : Term → Option Argument
  | leaf arg => some arg
  | inner _ _ (some _) temporary => temporary
  | _ => none

def handle? (t : Term) : Option Handle :=
  t.argument?.map (·.handle)

def isInner : Term → Bool
  | inner _ _ _ _ => true
  | _ => false

def isExpression : Term → Bool
  | leaf _ => false
  | _ => true

def canBeArgument : Term → Bool
  | leaf _ | inner _ _ _ _ => true
  | _ => false

/-- Note that the reduction in kernel `pass` computes an inner product. -/
def markComputed (pass : Nat) : Term → Term
  | inner lhs rhs _ temporary => inner lhs rhs (some pass) temporary
  | t => t

/-! ### Subterms by position -/

def children : Term → List Term
  | leaf _ => []
  | unary _ sub => [sub]
  | binary _ lhs rhs | matMat lhs rhs | matVec lhs rhs | inner lhs rhs _ _ => [lhs, rhs]

/-- The subterm reached by a list of child numbers. -/
def subterm? : List Nat → Term → Option Term
  | [], t => some t
  | n :: path, t => t.children[n]?.bind (subterm? path)

/-- The term with the subterm at `path` replaced by `new`. A path that leads nowhere changes
nothing. -/
def replaceAt (new : Term) : List Nat → Term → Term
  | [], _ => new
  | n :: path, t =>
    match n, t with
    | 0, unary op sub => unary op (replaceAt new path sub)
    | 0, binary op lhs rhs => binary op (replaceAt new path lhs) rhs
    | 1, binary op lhs rhs => binary op lhs (replaceAt new path rhs)
    | 0, matMat lhs rhs => matMat (replaceAt new path lhs) rhs
    | 1, matMat lhs rhs => matMat lhs (replaceAt new path rhs)
    | 0, matVec lhs rhs => matVec (replaceAt new path lhs) rhs
    | 1, matVec lhs rhs => matVec lhs (replaceAt new path rhs)
    | 0, inner lhs rhs computed temporary => inner (replaceAt new path lhs) rhs computed temporary
    | 1, inner lhs rhs computed temporary => inner lhs (replaceAt new path rhs) computed temporary
    | _, t => t

end Term

end LinearKernels
