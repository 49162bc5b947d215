import LinearKernels.ElementType
import LinearKernels.Operation

/-!
Arrays shared by the items of a work group: flat arrays, which can be reduced to their
first element, and two-dimensional tiles stored row by row in a flat array.
-/

namespace LinearKernels

structure LocalArray where
  name : String
  size : Nat
  element : ElementType
deriving DecidableEq

namespace LocalArray

def declaration (a : LocalArray) : String :=
  "__local " ++ a.element.name ++ " " ++ a.name ++ "[" ++ decimal a.size ++ "];"

def access (a : LocalArray) (index : String) : String :=
  a.name ++ "[" ++ index ++ "]"

/-- The lines that combine all elements into element 0 by halving strides. `lane` is the
item's own index; the size has to be a power of two. -/
def reduction (a : LocalArray) (op : BinaryOp) (lane : String) : List String :=
  let own := a.access lane
  let partner := a.access (lane ++ "+stride")
  [ "for (unsigned int stride = " ++ decimal a.size ++ "/2; stride > 0; stride /= 2) \x7b",
    "    barrier(CLK_LOCAL_MEM_FENCE);",
    "    if (" ++ lane ++ " < stride)",
    "        " ++ own ++ " = " ++ op.code own partner ++ ";",
    "\x7d" ]

end LocalArray

structure LocalTile where
  name : String
  rows : Nat
  cols : Nat
  element : ElementType
deriving DecidableEq

namespace LocalTile

/-- Sizes have 32 bits, and so has their product. -/
def flat (t : LocalTile) : LocalArray :=
  ⟨t.name, t.rows * t.cols % UInt32.size, t.element⟩

def declaration (t : LocalTile) : String :=
  t.flat.declaration

def access (t : LocalTile) (i j : String) : String :=
  t.flat.access ("(" ++ i ++ ")*" ++ decimal t.cols ++ "+(" ++ j ++ ")")

end LocalTile

end LinearKernels
