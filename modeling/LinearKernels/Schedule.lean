import LinearKernels.Plan

/-!
Planning. Statements are taken in order. Every inner product of a statement is computed by
a reduction pass ahead of the statement, unless a reduction of the same key is still valid:
it is, until one of the buffers it reads is assigned. The statement itself joins the last
pass if that is of the same fusable kind, and opens a pass otherwise.
-/

namespace LinearKernels

/-- A reduction that can be used again: its key, its pass and the buffers it reads. -/
structure Reduction where
  key : String
  pass : Nat
  reads : List Handle
deriving DecidableEq

/-- A plan in the making. `opened` is the pass that the next statement may join. -/
structure Draft where
  passes : List Pass
  context : Context
  reductions : List Reduction
  opened : Option Nat
deriving DecidableEq

namespace Draft

def empty : Draft := ⟨[], .empty, [], none⟩

/-- Compute the inner product `t`, the `n`th of statement `s`. Its operands are bound for
the pass that comes next, also if that pass turns out not to be needed. -/
def addInner (s n : Nat) (t : Term) (d : Draft) : Except Fault (Term × Draft) := do
  let next := d.passes.length
  let (t, ctx) ← t.bindAll (d.context.withPass next)
  let key ← t.key ctx.registry
  match d.reductions.find? (·.key = key) with
  | some r => return (t.markComputed r.pass, { d with context := ctx })
  | none =>
    let reads := match t.operands? with
      | some (_, lhs, rhs) => lhs.handles ++ rhs.handles
      | none => []
    return (t.markComputed next,
      { d with
        passes := d.passes ++ [⟨next, .reduction, [s], some n⟩]
        context := ctx
        reductions := d.reductions ++ [⟨key, next, reads⟩] })

/-- Compute all inner products of a term of statement `s`, operands first. `n` counts those
met so far. -/
def addInners (s : Nat) : Term → Nat → Draft → Except Fault (Term × Nat × Draft)
  | .leaf arg, n, d => .ok (.leaf arg, n, d)
  | .unary op sub, n, d => do
    let (sub, n, d) ← addInners s sub n d
    return (.unary op sub, n, d)
  | .binary op lhs rhs, n, d => do
    let (lhs, n, d) ← addInners s lhs n d
    let (rhs, n, d) ← addInners s rhs n d
    return (.binary op lhs rhs, n, d)
  | .matMat lhs rhs, n, d => do
    let (lhs, n, d) ← addInners s lhs n d
    let (rhs, n, d) ← addInners s rhs n d
    return (.matMat lhs rhs, n, d)
  | .matVec lhs rhs, n, d => do
    let (lhs, n, d) ← addInners s lhs n d
    let (rhs, n, d) ← addInners s rhs n d
    return (.matVec lhs rhs, n, d)
  | .inner lhs rhs computed temporary, n, d => do
    let (lhs, n, d) ← addInners s lhs n d
    let (rhs, n, d) ← addInners s rhs n d
    let (t, d) ← d.addInner s n (.inner lhs rhs computed temporary)
    return (t, n + 1, d)

/-- Whether a statement of the given kind can join pass `p`: it is the last one and of the
same kind. -/
def canJoin (d : Draft) (kind : PassKind) (p : Nat) : Bool :=
  p + 1 = d.passes.length && d.passes[p]?.any (·.kind = kind)

/-- Put statement `s` into a pass of the given kind, and say which. -/
def place (s : Nat) (kind : PassKind) (d : Draft) : Nat × Draft :=
  match d.opened.filter (d.canJoin kind) with
  | some p =>
    (p, { d with
      passes := d.passes.modify p fun q => { q with statements := q.statements ++ [s] }
      opened := if kind.isFusable then some p else none })
  | none =>
    let p := d.passes.length
    (p, { d with
      passes := d.passes ++ [⟨p, kind, [s], none⟩]
      opened := if kind.isFusable then some p else none })

/-- The buffer that a statement assigns. -/
def written? (tree : Term) : Option Handle :=
  tree.operands?.bind fun (_, lhs, _) => lhs.handle?

/-- Forget the reductions that read what a statement assigns. -/
def invalidate (tree : Term) (d : Draft) : Draft :=
  match written? tree with
  | some h => { d with reductions := d.reductions.filter (!·.reads.contains h) }
  | none => d

def addStatement (s : Nat) (statement : Statement) (d : Draft) :
    Except Fault (Statement × Draft) := do
  let (tree, _, d) ← addInners s statement.tree 0 d
  let (p, d) := d.place s (.ofTree tree)
  let (tree, ctx) ← tree.bindAll (d.context.withPass p)
  return ({ statement with tree := tree }, { d with context := ctx }.invalidate tree)

def addStatements : Nat → List Statement → Draft → Except Fault (List Statement × Draft)
  | _, [], d => .ok ([], d)
  | s, statement :: rest, d => do
    let (statement, d) ← d.addStatement s statement
    let (rest, d) ← addStatements (s + 1) rest d
    return (statement :: rest, d)

end Draft

namespace Plan

def vectorLeaves (plan : Plan) : List Argument :=
  plan.statements.flatMap fun s => s.tree.arguments.filter (·.storage.isVector)

/-- Whether vectors can be widened: all passes are elementwise over vectors, and all vectors
are whole buffers. -/
def isWidenable (plan : Plan) : Bool :=
  plan.passes.all (·.kind = .vector) &&
    plan.vectorLeaves.all fun a =>
      match a.storage with
      | .vector v => v.isContiguous
      | _ => true

/-- Widen all vectors, if they can be and if the width is more than one. -/
def widen (alignment : Alignment) (plan : Plan) : Except Fault Plan :=
  if alignment = .one || !plan.isWidenable then .ok plan
  else do
    let reg ← plan.vectorLeaves.foldlM (fun reg a => a.setAlignment reg alignment.width)
      plan.registry
    return { plan with context := { plan.context with registry := reg } }

end Plan

def schedule (settings : Settings) (statements : List Statement) : Except Fault Plan := do
  settings.checkLocalSize
  let (statements, d) ← Draft.addStatements 0 statements .empty
  Plan.widen settings.alignment ⟨statements, d.passes, d.context⟩

end LinearKernels
