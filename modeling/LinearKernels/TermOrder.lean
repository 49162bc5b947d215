import LinearKernels.TermWalk

/-!
The order of terms in an argument list, and sets of terms kept in that order. Arguments
compare by their handles. A composite term is less than another if one of its operands is,
and another is less than a composite if it is less than one of the operands.
-/

namespace LinearKernels

namespace Term

def handleLess (h : Handle) : Term → Bool
  | leaf arg => h.less arg.handle
  | unary _ sub => handleLess h sub
  | binary _ lhs rhs | matMat lhs rhs | matVec lhs rhs => handleLess h lhs || handleLess h rhs
  | inner _ _ (some _) (some temporary) => h.less temporary.handle
  | inner lhs rhs _ _ => handleLess h lhs || handleLess h rhs

def less : Term → Term → Bool
  | leaf arg, other => handleLess arg.handle other
  | unary _ sub, other => less sub other
  | binary _ lhs rhs, other => less lhs other || less rhs other
  | matMat lhs rhs, other => less lhs other || less rhs other
  | matVec lhs rhs, other => less lhs other || less rhs other
  | inner _ _ (some _) (some temporary), other => handleLess temporary.handle other
  | inner lhs rhs _ _, other => less lhs other || less rhs other

/-- The first term is looked at first: it is `lt` whenever it is less. -/
def compare (a b : Term) : Ordering :=
  if a.less b then .lt else if b.less a then .gt else .eq

end Term

/-! ### Bisection -/

/-- What a bisection still looks at: `size` places from `base` on. -/
structure Window where
  base : Nat
  size : Nat

/-- One round of a bisection. The upper part stays if the place in the middle holds, and else the
lower part, which has the middle in it if the number of places is odd. -/
def Window.narrow (holds : Nat → Bool) (w : Window) : Window :=
  if w.size ≤ 1 then w
  else
    let half := w.size / 2
    ⟨if holds (w.base + half) then w.base + half else w.base, w.size - half⟩

/-- How many elements of a list satisfy a condition, if those that do come first. There are as
many rounds as elements: a window of one place stays as it is. -/
def bisect (p : α → Bool) (xs : List α) : Nat :=
  let holds := fun i => (xs[i]?).any p
  let last := Nat.repeat (Window.narrow holds) xs.length ⟨0, xs.length⟩
  if holds last.base then last.base + 1 else last.base

/-! ### Sets -/

/-- Terms in the order in which insertions by `less` leave them. -/
structure TermSet where
  terms : List Term
deriving DecidableEq

namespace TermSet

def empty : TermSet := ⟨[]⟩

/-- The place of a term, behind the terms that are less. -/
def place (s : TermSet) (t : Term) : Nat :=
  bisect (·.less t) s.terms

/-- Whether an insertion adds the term. It does not if the term at its place is not greater. -/
def adds (s : TermSet) (t : Term) : Bool :=
  (s.terms[s.place t]?).all t.less

def insert (s : TermSet) (t : Term) : TermSet :=
  if s.adds t then ⟨s.terms.take (s.place t) ++ t :: s.terms.drop (s.place t)⟩ else s

def insertAll (s : TermSet) (ts : List Term) : TermSet :=
  ts.foldl insert s

def size (s : TermSet) : Nat :=
  s.terms.length

end TermSet

def Term.extract (kind : TermKind) (condition : Term → Bool) (t : Term) : TermSet :=
  TermSet.empty.insertAll (t.walk.filter fun s => kind.admits s && condition s)

def Term.argumentSet (t : Term) : TermSet :=
  t.extract .argument fun _ => true

end LinearKernels
