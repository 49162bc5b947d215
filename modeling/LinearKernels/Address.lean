import LinearKernels.Numeral
import LinearKernels.Operation

/-!
Where the elements of an operand lie in its buffer. A vector view has a start and a
stride; a matrix has a storage order and may be transposed. Positions are texts over the
texts of the logical indices and the names of the size parameters.
-/

namespace LinearKernels

def rowIndex : String := "i"

def colIndex : String := "j"

/-- A vector view into a buffer: element `i` lies at `i * stride + start`. -/
structure View where
  start : Nat
  stride : Nat
deriving DecidableEq

namespace View

def whole : View := ⟨0, 1⟩

def isContiguous (v : View) : Bool :=
  v.start = 0 && v.stride = 1

/-- The buffer index of the logical element `i`. A stride of one and a start of zero are
not written. -/
def index (v : View) (i : String) : String :=
  match v.stride, v.start with
  | 1, 0 => i
  | 1, start => i ++ "+" ++ decimal start
  | stride, 0 => i ++ "*" ++ decimal stride
  | stride, start => i ++ "*" ++ decimal stride ++ "+" ++ decimal start

end View

/-- Storage order and transposition of a matrix; the two are independent. -/
structure Layout where
  rowMajor : Bool
  transposed : Bool
deriving DecidableEq

def vectorSize (name : String) : String := name ++ "_size"

/-! The size parameters of the matrix parameter `name`. -/

def rowStart (name : String) : String := name ++ "_row_start"

def colStart (name : String) : String := name ++ "_col_start"

def rowInc (name : String) : String := name ++ "_row_inc"

def colInc (name : String) : String := name ++ "_col_inc"

def internalSize1 (name : String) : String := name ++ "_internal_size1"

def internalSize2 (name : String) : String := name ++ "_internal_size2"

/-- The size parameters in the order of a kernel signature. -/
def matrixParameters (name : String) : List String :=
  [rowStart name, colStart name, rowInc name, colInc name, internalSize1 name, internalSize2 name]

namespace Layout

/-- Rows are stored one after the other, and rows are rows. -/
def standard : Layout := ⟨true, false⟩

def rowPosition (name i : String) : String :=
  "(" ++ i ++ ")*" ++ rowInc name ++ "+" ++ rowStart name

def colPosition (name j : String) : String :=
  "(" ++ j ++ ")*" ++ colInc name ++ "+" ++ colStart name

/-- The buffer index of the logical element `(i, j)`. Transposition swaps the two indices;
the storage order decides which of the two positions is multiplied by a size. -/
def offset (l : Layout) (name i j : String) : String :=
  let row := rowPosition name (if l.transposed then j else i)
  let col := colPosition name (if l.transposed then i else j)
  if l.rowMajor then
    "(" ++ row ++ ")*" ++ internalSize2 name ++ "+(" ++ col ++ ")"
  else
    "(" ++ row ++ ")+(" ++ col ++ ")*" ++ internalSize1 name

def rowBound (name i : String) : String :=
  i ++ "*" ++ rowInc name ++ "+" ++ rowStart name ++ " < " ++ internalSize1 name

def colBound (name j : String) : String :=
  j ++ "*" ++ colInc name ++ "+" ++ colStart name ++ " < " ++ internalSize2 name

/-- The condition that the logical row `i` lies in the buffer. -/
def rowsBound (l : Layout) (name i : String) : String :=
  if l.transposed then colBound name i else rowBound name i

def colsBound (l : Layout) (name j : String) : String :=
  if l.transposed then rowBound name j else colBound name j

end Layout

inductive Storage where
  | hostScalar
  | deviceScalar
  | vector (view : View)
  | matrix (layout : Layout)
deriving DecidableEq

namespace Storage

def shape : Storage → Shape
  | hostScalar | deviceScalar => .scalar
  | vector _ => .vector
  | matrix _ => .matrix

/-- Host scalars are passed by value and cannot be assigned. -/
def isWriteable (s : Storage) : Bool :=
  s ≠ hostScalar

def isVector : Storage → Bool
  | vector _ => true
  | _ => false

/-- What all references to one buffer have to agree on. -/
def signature : Storage → String
  | hostScalar => "hscal"
  | deviceScalar => "gscal"
  | vector v => "vec s" ++ decimal v.stride ++ "o" ++ decimal v.start
  | matrix l =>
    "mat " ++ (if l.rowMajor then "row" else "col") ++ (if l.transposed then " trans" else "")

/-- How the current element of the parameter `name` is reached. -/
def access (s : Storage) (name : String) : String :=
  match s with
  | hostScalar => name
  | deviceScalar => name ++ "[0]"
  | vector v => name ++ "[" ++ v.index rowIndex ++ "]"
  | matrix l => name ++ "[" ++ l.offset name rowIndex colIndex ++ "]"

end Storage

end LinearKernels
