import LinearKernels.Registry

/-!
References to memory objects. An argument names a buffer by its handle and says how the
buffer is stored; once bound it also knows the number of its record.
-/

namespace LinearKernels

structure Argument where
  handle : Handle
  element : ElementType
  storage : Storage
  record : Option Nat
deriving DecidableEq

/-- The stride and the start of a view, unless it is the whole buffer. -/
def View.keyText (v : View) : String :=
  if v.isContiguous then "" else "_s" ++ decimal v.stride ++ "o" ++ decimal v.start

/-- The key of a buffer: kind of storage, element type and record number. Views and layouts are
written too. -/
def Storage.keyText (s : Storage) (r : Record) : String :=
  match s with
  | .hostScalar => "hscal_" ++ r.element.name ++ "_" ++ decimal r.id
  | .deviceScalar => "gscal_" ++ r.element.name ++ "_" ++ decimal r.id
  | .vector v => "vec_" ++ r.elementText ++ "_" ++ decimal r.id ++ v.keyText
  | .matrix l =>
    "mat_" ++ (if l.rowMajor then "row" else "col") ++ (if l.transposed then "_t" else "") ++
      "_" ++ r.elementText ++ "_" ++ decimal r.id

namespace Argument

def ofHandle (handle : Handle) (element : ElementType) (storage : Storage) : Argument :=
  ⟨handle, element, storage, none⟩

def shape (a : Argument) : Shape :=
  a.storage.shape

def isBound (a : Argument) : Bool :=
  a.record.isSome

def id (a : Argument) : Except Fault Nat :=
  match a.record with
  | some n => .ok n
  | none => .error .unbound

def info (a : Argument) (reg : Registry) : Except Fault Record := do
  reg.get (← a.id)

def name (a : Argument) (reg : Registry) : Except Fault String := do
  return (← a.info reg).name

def alignment (a : Argument) (reg : Registry) : Except Fault Alignment := do
  return (← a.info reg).alignment

def elementText (a : Argument) (reg : Registry) : Except Fault String := do
  return (← a.info reg).elementText

def accessName (a : Argument) (reg : Registry) (pass : Nat) : Except Fault String := do
  (← a.info reg).accessName pass

/-- Widen the buffer. The width is checked before the binding. -/
def setAlignment (a : Argument) (reg : Registry) (width : Nat) : Except Fault Registry := do
  let alignment ← Alignment.ofWidth width
  let id ← a.id
  let _ ← reg.get id
  return reg.modify id (·.raiseAlignment alignment)

def setAccessName (a : Argument) (reg : Registry) (pass : Nat) (text : String) :
    Except Fault Registry := do
  let id ← a.id
  let _ ← reg.get id
  return reg.modify id (·.setAccessName pass text)

/-- The argument in a kernel signature: its own parameter, then its size parameters. -/
def declaration (a : Argument) (reg : Registry) : Except Fault String := do
  let r ← a.info reg
  return match a.storage with
    | .hostScalar => a.element.name ++ " " ++ r.name
    | .deviceScalar => "__global " ++ a.element.name ++ "* " ++ r.name
    | .vector _ =>
      "__global " ++ r.elementText ++ "* " ++ r.name ++ ", unsigned int " ++ vectorSize r.name
    | .matrix _ =>
      "__global " ++ r.elementText ++ "* " ++ r.name ++
        String.join ((matrixParameters r.name).map (", unsigned int " ++ ·))

def elementFault (a : Argument) (expected : Shape) : Fault :=
  .typeMismatch "element access" a.shape.name expected.name

def vectorElement (a : Argument) (reg : Registry) (i : String) : Except Fault String := do
  let name ← a.name reg
  match a.storage with
  | .vector v => return name ++ "[" ++ v.index i ++ "]"
  | _ => throw (a.elementFault .vector)

def matrixElement (a : Argument) (reg : Registry) (i j : String) : Except Fault String := do
  let name ← a.name reg
  match a.storage with
  | .matrix l => return name ++ "[" ++ l.offset name i j ++ "]"
  | _ => throw (a.elementFault .matrix)

def key (a : Argument) (reg : Registry) : Except Fault String := do
  return a.storage.keyText (← a.info reg)

/-- Find or add the record of the buffer, and give the current kernel the usual access text
unless it has one already. A conflict changes nothing. -/
def bind (a : Argument) (ctx : Context) : Except Fault (Argument × Context) := do
  let (id, reg) ← ctx.registry.register a.handle a.element a.storage.signature
  let reg := reg.modify id fun r => r.ensureAccessName ctx.pass (a.storage.access r.name)
  return ({ a with record := some id }, { ctx with registry := reg })

end Argument

end LinearKernels
