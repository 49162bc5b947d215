import LinearKernels.Fault

/-!
What shapes the generated kernels besides the source: the beginning of all names, the size
of the work group of a reduction, the element type of declarations that name none, and the
vector width of elementwise programs.
-/

namespace LinearKernels

structure Settings where
  stem : String
  localSize : Nat
  defaultType : ElementType
  alignment : Alignment
deriving DecidableEq

def maxLocalSize : Nat := 1024

/-- A reduction halves its work group down to one item, so the size is a power of two. -/
def isLocalSize (n : Nat) : Bool :=
  n.isPowerOfTwo && n ≤ maxLocalSize

namespace Settings

def standard : Settings :=
  ⟨"symcl", 128, .float, .one⟩

def checkLocalSize (s : Settings) : Except Fault Unit :=
  if isLocalSize s.localSize then .ok () else .error (.invalidLocalSize s.localSize)

end Settings

end LinearKernels
