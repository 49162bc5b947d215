import LinearKernels.Term

/-!
Walks through terms. A walk lists the subterms with operands before the terms they belong
to. A term that stands for an argument is not entered, so the operands of a computed inner
product are not listed.
-/

namespace LinearKernels

namespace Term

@[simp] def walk : Term → List Term
  | leaf arg => [leaf arg]
  | unary op sub => sub.walk ++ [unary op sub]
  | binary op lhs rhs => lhs.walk ++ rhs.walk ++ [binary op lhs rhs]
  | matMat lhs rhs => lhs.walk ++ rhs.walk ++ [matMat lhs rhs]
  | matVec lhs rhs => lhs.walk ++ rhs.walk ++ [matVec lhs rhs]
  | inner lhs rhs (some pass) (some temporary) => [inner lhs rhs (some pass) (some temporary)]
  | inner lhs rhs computed temporary => lhs.walk ++ rhs.walk ++ [inner lhs rhs computed temporary]

/-- All inner products, the computed ones and those inside them included, operands first. -/
def innerProducts : Term → List Term
  | leaf _ => []
  | unary _ sub => sub.innerProducts
  | binary _ lhs rhs | matMat lhs rhs | matVec lhs rhs => lhs.innerProducts ++ rhs.innerProducts
  | inner lhs rhs computed temporary =>
    lhs.innerProducts ++ rhs.innerProducts ++ [inner lhs rhs computed temporary]

def arguments (t : Term) : List Argument :=
  t.walk.filterMap argument?

def handles (t : Term) : List Handle :=
  t.walk.filterMap handle?

end Term

inductive TermKind where
  | any
  | argument
  | binary
  | unary
  | matMat
  | matVec
  | inner
deriving DecidableEq

namespace TermKind

def admits : TermKind → Term → Bool
  | any, _ => true
  | argument, t => t.argument?.isSome
  | binary, .binary _ _ _ => true
  | unary, .unary _ _ => true
  | matMat, .matMat _ _ => true
  | matVec, .matVec _ _ => true
  | inner, .inner _ _ _ _ => true
  | _, _ => false

end TermKind

namespace Term

def count (kind : TermKind) (t : Term) : Nat :=
  t.walk.countP kind.admits

def productCount (t : Term) : Nat :=
  t.count .matMat + t.count .matVec

end Term

end LinearKernels
