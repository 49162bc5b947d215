import LinearKernels.Term

/-!
Texts of bound terms: the key, which identifies a term up to the numbering of its buffers,
the short key, and the code of the term inside a kernel. Every text reads the records of
the leaves, so an unbound leaf is a fault; of two faults the one further left is reported.
-/

namespace LinearKernels

namespace Term

def joinKeys (op : BinaryOp) (lhs rhs : String) : String :=
  "p_" ++ lhs ++ op.name ++ rhs ++ "_p"

def key (reg : Registry) : Term → Except Fault String
  | leaf arg => arg.key reg
  | unary op sub => do return "p_" ++ op.name ++ (← sub.key reg) ++ "_p"
  | binary op lhs rhs => do return joinKeys op (← lhs.key reg) (← rhs.key reg)
  | matMat lhs rhs => do return joinKeys .prod (← lhs.key reg) (← rhs.key reg)
  | matVec lhs rhs => do return joinKeys .prod (← lhs.key reg) (← rhs.key reg)
  | inner lhs rhs _ _ => do return joinKeys .mul (← lhs.key reg) (← rhs.key reg)

/-- The short key keeps assignments, functions and products, and reduces all other
operations to the key of their left operand. -/
def shortKey (reg : Registry) : Term → Except Fault String
  | leaf arg => arg.key reg
  | unary op sub => do return "p_" ++ op.name ++ (← sub.shortKey reg) ++ "_p"
  | binary op lhs rhs =>
    if op.isAssignment then do return joinKeys op (← lhs.shortKey reg) (← rhs.shortKey reg)
    else lhs.key reg
  | matMat lhs rhs => do return joinKeys .prod (← lhs.shortKey reg) (← rhs.shortKey reg)
  | matVec lhs rhs => do return joinKeys .prod (← lhs.shortKey reg) (← rhs.shortKey reg)
  | inner lhs _ _ _ => lhs.key reg

/-- The register that accumulates entry `(m, n)` of a product with the given key. -/
def accumulator (key : String) (m n : Nat) : String :=
  key ++ "_val_" ++ decimal m ++ "_" ++ decimal n

/-- The value of a product's register after one more step: `total + lhs * rhs`. -/
def accumulated (total lhs rhs : String) : String :=
  BinaryOp.prod.code total (lhs ++ " * " ++ rhs)

def accumulation (total lhs rhs : String) : String :=
  total ++ " = " ++ accumulated total lhs rhs ++ ";"

def joinCode (op : BinaryOp) (lhs rhs : String) : String :=
  "(" ++ op.code lhs rhs ++ ")"

/-- The code of a term in kernel `pass`. A matrix product stands for its accumulator, and a
computed inner product for its temporary. -/
def code (reg : Registry) (pass : Nat) : Term → Except Fault String
  | leaf arg => arg.accessName reg pass
  | unary op sub => do return "(" ++ op.code (← sub.code reg pass) ++ ")"
  | binary op lhs rhs => do return joinCode op (← lhs.code reg pass) (← rhs.code reg pass)
  | matMat lhs rhs => do return accumulator (joinKeys .prod (← lhs.key reg) (← rhs.key reg)) 0 0
  | matVec lhs rhs => do return accumulator (joinKeys .prod (← lhs.key reg) (← rhs.key reg)) 0 0
  | inner _ _ (some _) (some temporary) => temporary.accessName reg pass
  | inner _ _ (some _) none => throw .unbound
  | inner lhs rhs none _ => do return joinCode .mul (← lhs.code reg pass) (← rhs.code reg pass)

/-! ### Texts of an operation on two terms, whatever it is the operation of -/

def pairKey (reg : Registry) (op : BinaryOp) (lhs rhs : Term) : Except Fault String := do
  return joinKeys op (← lhs.key reg) (← rhs.key reg)

def pairTree (reg : Registry) (op : BinaryOp) (lhs rhs : Term) : Except Fault String := do
  return joinKeys op (← lhs.shortKey reg) (← rhs.shortKey reg)

/-- An assignment is kept, and any other operation reduced to its left operand. -/
def pairShortKey (reg : Registry) (op : BinaryOp) (lhs rhs : Term) : Except Fault String :=
  if op.isAssignment then pairTree reg op lhs rhs else lhs.key reg

def pairCode (reg : Registry) (pass : Nat) (op : BinaryOp) (lhs rhs : Term) :
    Except Fault String := do
  return joinCode op (← lhs.code reg pass) (← rhs.code reg pass)

end Term

end LinearKernels
