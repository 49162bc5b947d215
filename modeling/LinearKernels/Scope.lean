import LinearKernels.Argument
import LinearKernels.Expr
import LinearKernels.Settings

/-!
Declared names. A declaration gives each of its names a buffer of its own, stored as the
declared type says. A name keeps its first declaration; a type with a fault in it declares
nothing.
-/

namespace LinearKernels

/-- A value, or all complaints about the source it was to be made from. -/
abbrev Checked (α : Type) := Except (List Diagnostic) α

/-- Two values; if both fail, all complaints of the first come first. -/
def Checked.both {α β : Type} : Checked α → Checked β → Checked (α × β)
  | .ok a, .ok b => .ok (a, b)
  | .ok _, .error e => .error e
  | .error d, .ok _ => .error d
  | .error d, .error e => .error (d ++ e)

inductive DeclarationFault where
  | elementTwice
  | unknownMatrixFlag (flag : String)
  | outOfRange (key : String)
  | strideNotPositive
  | unknownVectorParameter (key : String)
  | notValidFor (name : String) (kind : DeclKind)
  | declaredTwice (name : String) (first : Span)
deriving DecidableEq

namespace DeclarationFault

def message : DeclarationFault → String
  | elementTwice => "element type given twice"
  | unknownMatrixFlag flag => "unknown matrix flag '" ++ flag ++ "'"
  | outOfRange key => key ++ " is out of range"
  | strideNotPositive => "stride must be positive"
  | unknownVectorParameter key => "unknown vector parameter '" ++ key ++ "'"
  | notValidFor name kind => "'" ++ name ++ "' is not valid for " ++ kind.keyword
  | declaredTwice name _ => "'" ++ name ++ "' is declared twice"

def diagnostic (fault : DeclarationFault) (span : Span) : Diagnostic :=
  let d := Diagnostic.error fault.message span
  match fault with
  | elementTwice | outOfRange _ | strideNotPositive => d
  | unknownMatrixFlag _ => d.withHelp "matrix flags are `row`, `col` and `trans`"
  | unknownVectorParameter _ => d.withHelp "vector parameters are `start` and `stride`"
  | notValidFor _ _ => d.withHelp "element types are float, double, int and uint"
  | declaredTwice name first =>
      d.withNote ("'" ++ name ++ "' was first declared at bytes " ++ decimal first.start ++
        ".." ++ decimal first.stop)

end DeclarationFault

/-- A declared type as far as its arguments have been read. -/
structure TypeSpec where
  element : Option ElementType
  layout : Layout
  view : View
deriving DecidableEq

namespace TypeSpec

def plain : TypeSpec := ⟨none, .standard, .whole⟩

/-- The largest start or stride of a view: the largest number of 32 bits. -/
def maxParameter : Nat := 4294967295

def setParameter (spec : TypeSpec) (key : String) (value : Nat) :
    Except DeclarationFault TypeSpec :=
  if maxParameter < value then .error (.outOfRange key)
  else if key = "start" then .ok { spec with view := { spec.view with start := value } }
  else if key = "stride" then
    if value = 0 then .error .strideNotPositive
    else .ok { spec with view := { spec.view with stride := value } }
  else .error (.unknownVectorParameter key)

def setFlag (spec : TypeSpec) (flag : String) : Except DeclarationFault TypeSpec :=
  if flag = "row" then .ok { spec with layout := { spec.layout with rowMajor := true } }
  else if flag = "col" then .ok { spec with layout := { spec.layout with rowMajor := false } }
  else if flag = "trans" then .ok { spec with layout := { spec.layout with transposed := true } }
  else .error (.unknownMatrixFlag flag)

def apply (kind : DeclKind) (spec : TypeSpec) (arg : TypeArg) :
    Except DeclarationFault TypeSpec :=
  match arg with
  | .flag name =>
    match ElementType.ofName? name with
    | some e =>
      if spec.element.isSome then .error .elementTwice else .ok { spec with element := some e }
    | none =>
      match kind with
      | .matrix => spec.setFlag name
      | _ => .error (.notValidFor name kind)
  | .param key value =>
    match kind with
    | .vector => spec.setParameter key value
    | _ => .error (.notValidFor key kind)

/-- Read all arguments; a faulty one is passed over. -/
def applyAll (kind : DeclKind) : TypeSpec → List (Spanned TypeArg) → TypeSpec × List Diagnostic
  | spec, [] => (spec, [])
  | spec, arg :: args =>
    match spec.apply kind arg.value with
    | .ok spec => applyAll kind spec args
    | .error fault =>
      let (spec, ds) := applyAll kind spec args
      (spec, fault.diagnostic arg.span :: ds)

def storage (spec : TypeSpec) : DeclKind → Storage
  | .vector => .vector spec.view
  | .matrix => .matrix spec.layout
  | .scalar => .deviceScalar
  | .host => .hostScalar

end TypeSpec

def TypeExpr.resolve (settings : Settings) (ty : TypeExpr) : Checked (ElementType × Storage) :=
  let (spec, ds) := TypeSpec.plain.applyAll ty.kind ty.args
  if ds.isEmpty then .ok (spec.element.getD settings.defaultType, spec.storage ty.kind)
  else .error ds

structure Symbol where
  argument : Argument
  span : Span
deriving DecidableEq

/-- The declared names, and the key of the next buffer. -/
structure Scope where
  symbols : List (String × Symbol)
  nextKey : Nat
deriving DecidableEq

namespace Scope

/-- Buffers are numbered from one. -/
def empty : Scope := ⟨[], 1⟩

def find? (scope : Scope) (name : String) : Option Symbol :=
  scope.symbols.lookup name

def declareName (scope : Scope) (element : ElementType) (storage : Storage)
    (name : Spanned String) :
    Scope × List Diagnostic :=
  match scope.find? name.value with
  | some first =>
    (scope, [(DeclarationFault.declaredTwice name.value first.span).diagnostic name.span])
  | none =>
    let argument := Argument.ofHandle (.buffer scope.nextKey) element storage
    (⟨scope.symbols ++ [(name.value, ⟨argument, name.span⟩)], scope.nextKey + 1⟩, [])

def declareNames (element : ElementType) (storage : Storage) :
    Scope → List (Spanned String) → Scope × List Diagnostic
  | scope, [] => (scope, [])
  | scope, name :: names =>
    let (scope, ds) := scope.declareName element storage name
    let (scope, es) := declareNames element storage scope names
    (scope, ds ++ es)

def declare (settings : Settings) (scope : Scope) (d : Declaration) : Scope × List Diagnostic :=
  match d.ty.value.resolve settings with
  | .error ds => (scope, ds)
  | .ok (element, storage) => scope.declareNames element storage d.names

end Scope

end LinearKernels
