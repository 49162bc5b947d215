/-!
Byte ranges of source files. A span names its file by number and covers the bytes
from `start` up to but excluding `stop`. Merging two spans gives the smallest range
that covers both.
-/

namespace LinearKernels

structure Span where
  file : Nat
  start : Nat
  stop : Nat
deriving DecidableEq

namespace Span

/-- The empty range at the beginning of file 0, for complaints about no place in particular. -/
def origin : Span := ⟨0, 0, 0⟩

instance : Inhabited Span := ⟨origin⟩

def merge (s t : Span) : Span :=
  ⟨s.file, min s.start t.start, max s.stop t.stop⟩

end Span

/-- A value together with the place it was read from. -/
structure Spanned (α : Type) where
  value : α
  span : Span
deriving DecidableEq

def Spanned.map {α β : Type} (f : α → β) (x : Spanned α) : Spanned β :=
  ⟨f x.value, x.span⟩

end LinearKernels
