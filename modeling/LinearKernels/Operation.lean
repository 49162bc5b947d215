/-!
Operations on operands. An operation has a name, which enters the keys of terms, a symbol
for messages, and a way to be written over the texts of its operands. Brackets around an
operation are put by the term it stands in.
-/

namespace LinearKernels

inductive Shape where
  | scalar
  | vector
  | matrix
deriving DecidableEq

def Shape.name : Shape → String
  | scalar => "scalar"
  | vector => "vector"
  | matrix => "matrix"

inductive BinaryOp where
  | assign
  | inplaceAdd
  | inplaceSub
  | add
  | sub
  /-- Scaling: at least one operand is a scalar. -/
  | mul
  /-- Division by a scalar. -/
  | div
  | elementProd
  | elementDiv
  | pow
  | max
  | min
  /-- The accumulation step of a matrix product. -/
  | prod
deriving DecidableEq

namespace BinaryOp

def all : List BinaryOp :=
  [assign, inplaceAdd, inplaceSub, add, sub, mul, div, elementProd, elementDiv,
    pow, max, min, prod]

def name : BinaryOp → String
  | assign => "assign"
  | inplaceAdd => "iadd"
  | inplaceSub => "isub"
  | add => "add"
  | sub => "sub"
  | mul => "mul"
  | div => "div"
  | elementProd => "emul"
  | elementDiv => "ediv"
  | pow => "pow"
  | max => "max"
  | min => "min"
  | prod => "prod"

def ofName? (text : String) : Option BinaryOp :=
  all.find? (·.name = text)

/-- How the operation is written in the statement language. -/
def symbol : BinaryOp → String
  | assign => "="
  | inplaceAdd => "+="
  | inplaceSub => "-="
  | add => "+"
  | sub => "-"
  | mul => "*"
  | div => "/"
  | elementProd => ".*"
  | elementDiv => "./"
  | pow => "pow"
  | max => "max"
  | min => "min"
  | prod => "prod"

def isAssignment (op : BinaryOp) : Bool :=
  op = assign || op = inplaceAdd || op = inplaceSub

def code (op : BinaryOp) (lhs rhs : String) : String :=
  match op with
  | assign => lhs ++ " = " ++ rhs
  | inplaceAdd => lhs ++ " += " ++ rhs
  | inplaceSub => lhs ++ " -= " ++ rhs
  | add | prod => lhs ++ " + " ++ rhs
  | sub => lhs ++ " - " ++ rhs
  | mul | elementProd => lhs ++ " * " ++ rhs
  | div | elementDiv => lhs ++ " / " ++ rhs
  | pow => "pow(" ++ lhs ++ ", " ++ rhs ++ ")"
  | max => "fmax(" ++ lhs ++ ", " ++ rhs ++ ")"
  | min => "fmin(" ++ lhs ++ ", " ++ rhs ++ ")"

end BinaryOp

inductive UnaryOp where
  | neg
  | exp
  | log
  | sqrt
  | sin
  | cos
  | tan
  | tanh
  | fabs
deriving DecidableEq

namespace UnaryOp

def functions : List UnaryOp :=
  [exp, log, sqrt, sin, cos, tan, tanh, fabs]

def name : UnaryOp → String
  | neg => "neg"
  | exp => "exp"
  | log => "log"
  | sqrt => "sqrt"
  | sin => "sin"
  | cos => "cos"
  | tan => "tan"
  | tanh => "tanh"
  | fabs => "fabs"

def ofName? (text : String) : Option UnaryOp :=
  (neg :: functions).find? (·.name = text)

/-- Negation is written with a sign, so it has no function name. -/
def ofFunction? (text : String) : Option UnaryOp :=
  functions.find? (·.name = text)

def requiresFloat (op : UnaryOp) : Bool :=
  op ≠ neg

def code (op : UnaryOp) (sub : String) : String :=
  match op with
  | neg => "-" ++ sub
  | _ => op.name ++ "(" ++ sub ++ ")"

end UnaryOp

end LinearKernels
