import LinearKernels.TermText

/-!
Binding of terms. Operands are bound from left to right, then the term itself: a leaf finds
or adds its record, an inner product claims the temporary of its key. Binding stops at the
first fault and keeps what was bound before it.
-/

namespace LinearKernels

/-- What binding leaves behind: the term and the context as far as they came, and the fault
that stopped it. -/
structure Bound where
  term : Term
  context : Context
  fault : Option Fault

namespace Bound

/-- Go on with the second operand if the first was bound. -/
def andThen (b : Bound) (next : Context → Bound) (join : Term → Term → Term)
    (rhs : Term) : Bound :=
  match b.fault with
  | some f => ⟨join b.term rhs, b.context, some f⟩
  | none =>
    let r := next b.context
    ⟨join b.term r.term, r.context, r.fault⟩

end Bound

namespace Term

/-- Bind the temporary of an inner product whose operands are bound. A temporary that is
there already is kept. -/
def bindTemporary (lhs rhs : Term) (computed : Option Nat) (temporary : Option Argument)
    (ctx : Context) : Bound :=
  match (inner lhs rhs computed temporary).key ctx.registry with
  | .error f => ⟨inner lhs rhs computed temporary, ctx, some f⟩
  | .ok key =>
    let (handle, temporaries) := ctx.temporaries.claim key
    let ctx := { ctx with temporaries := temporaries }
    let cell := temporary.getD (.ofHandle handle lhs.element .deviceScalar)
    match cell.bind ctx with
    | .error f => ⟨inner lhs rhs computed (some cell), ctx, some f⟩
    | .ok (cell, ctx) => ⟨inner lhs rhs computed (some cell), ctx, none⟩

def bind : Term → Context → Bound
  | leaf arg, ctx =>
    match arg.bind ctx with
    | .error f => ⟨leaf arg, ctx, some f⟩
    | .ok (arg, ctx) => ⟨leaf arg, ctx, none⟩
  | unary op sub, ctx =>
    let b := sub.bind ctx
    ⟨unary op b.term, b.context, b.fault⟩
  | binary op lhs rhs, ctx => (lhs.bind ctx).andThen rhs.bind (binary op) rhs
  | matMat lhs rhs, ctx => (lhs.bind ctx).andThen rhs.bind matMat rhs
  | matVec lhs rhs, ctx => (lhs.bind ctx).andThen rhs.bind matVec rhs
  | inner lhs rhs computed temporary, ctx =>
    let l := lhs.bind ctx
    match l.fault with
    | some f => ⟨inner l.term rhs computed temporary, l.context, some f⟩
    | none =>
      let r := rhs.bind l.context
      match r.fault with
      | some f => ⟨inner l.term r.term computed temporary, r.context, some f⟩
      | none => bindTemporary l.term r.term computed temporary r.context

def bindAll (t : Term) (ctx : Context) : Except Fault (Term × Context) :=
  let b := t.bind ctx
  match b.fault with
  | some f => .error f
  | none => .ok (b.term, b.context)

end Term

end LinearKernels
