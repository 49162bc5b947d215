import LinearKernels.Numeral

/-!
Element types of operands and the vector widths a buffer can be declared with. Only the
five widths that have a vector type are representable.
-/

namespace LinearKernels

inductive ElementType where
  | float
  | double
  | int
  | uint
deriving DecidableEq

namespace ElementType

def name : ElementType → String
  | float => "float"
  | double => "double"
  | int => "int"
  | uint => "uint"

def ofName? (text : String) : Option ElementType :=
  [float, double, int, uint].find? (·.name = text)

/-- The size of one element in bytes. -/
def size : ElementType → Nat
  | double => 8
  | float | int | uint => 4

def needsDouble (e : ElementType) : Bool :=
  e = double

def isFloat (e : ElementType) : Bool :=
  e = float || e = double

end ElementType

/-- The number of elements that are loaded at once. -/
inductive Alignment where
  | one
  | two
  | four
  | eight
  | sixteen
deriving DecidableEq

namespace Alignment

def width : Alignment → Nat
  | one => 1
  | two => 2
  | four => 4
  | eight => 8
  | sixteen => 16

def ofWidth? (n : Nat) : Option Alignment :=
  [one, two, four, eight, sixteen].find? (·.width = n)

/-- The declared element type at this width: `float` at 1, `float4` at 4. -/
def vectorType (a : Alignment) (e : ElementType) : String :=
  if a = one then e.name else e.name ++ decimal a.width

def raise (a b : Alignment) : Alignment :=
  if a.width < b.width then b else a

end Alignment

end LinearKernels
