import LinearKernels.Expr

/-!
Files apart from their spans and spellings. Respelling replaces the variable names of a file
and forgets where everything stood; function names and type arguments stay. A file is
complete if no expression in it is missing.
-/

namespace LinearKernels

/-- The same value, at no place in particular. -/
def Spanned.bare {α : Type} (x : Spanned α) : Spanned α :=
  ⟨x.value, .origin⟩

namespace Expr

mutual

/-- The expression with its variables respelled and without its spans. -/
def respell (f : String → String) : Expr → Expr
  | var _ name => var .origin (f name)
  | neg _ operand => neg .origin (operand.respell f)
  | binary _ op lhs rhs => binary .origin op (lhs.respell f) (rhs.respell f)
  | call _ name args => call .origin name.bare (respellAll f args)
  | missing _ => missing .origin

def respellAll (f : String → String) : List Expr → List Expr
  | [] => []
  | e :: es => e.respell f :: respellAll f es

end

mutual

/-- The occurrences of variables, from left to right. -/
def varNames : Expr → List String
  | var _ name => [name]
  | neg _ operand => operand.varNames
  | binary _ _ lhs rhs => lhs.varNames ++ rhs.varNames
  | call _ _ args => varNamesAll args
  | missing _ => []

def varNamesAll : List Expr → List String
  | [] => []
  | e :: es => e.varNames ++ varNamesAll es

end

mutual

/-- Nothing is missing in the expression. -/
def Complete : Expr → Prop
  | var _ _ => True
  | neg _ operand => operand.Complete
  | binary _ _ lhs rhs => lhs.Complete ∧ rhs.Complete
  | call _ _ args => CompleteAll args
  | missing _ => False

def CompleteAll : List Expr → Prop
  | [] => True
  | e :: es => e.Complete ∧ CompleteAll es

end

/-- The expression without its spans. -/
def bare (e : Expr) : Expr :=
  e.respell id

theorem respellAll_eq_map (f : String → String) (es : List Expr) :
    respellAll f es = es.map (·.respell f) := by
  induction es with
  | nil => rfl
  | cons e es ih => rw [respellAll, ih, List.map_cons]

mutual

theorem complete_respell (f : String → String) : ∀ e : Expr, (e.respell f).Complete ↔ e.Complete
  | var _ _ | missing _ => Iff.rfl
  | neg _ operand => complete_respell f operand
  | binary _ _ lhs rhs => and_congr (complete_respell f lhs) (complete_respell f rhs)
  | call _ _ args => completeAll_respell f args

theorem completeAll_respell (f : String → String) :
    ∀ es : List Expr, CompleteAll (respellAll f es) ↔ CompleteAll es
  | [] => Iff.rfl
  | e :: es => and_congr (complete_respell f e) (completeAll_respell f es)

end

/-- Which span an expression has does not matter once spans are forgotten. -/
theorem bare_withSpan (s : Span) (e : Expr) : (e.withSpan s).bare = e.bare := by
  cases e <;> simp only [withSpan, bare, respell]

end Expr

/-! ### Files -/

namespace Declaration

def respell (f : String → String) (d : Declaration) : Declaration :=
  ⟨⟨⟨d.ty.value.kind, d.ty.value.args.map (·.bare)⟩, .origin⟩,
    d.names.map fun x => ⟨f x.value, .origin⟩⟩

end Declaration

namespace Assignment

def respell (f : String → String) (a : Assignment) : Assignment :=
  ⟨⟨f a.target.value, .origin⟩, a.op.bare, a.value.respell f⟩

/-- The target and the variables of the value. -/
def varNames (a : Assignment) : List String :=
  a.target.value :: a.value.varNames

end Assignment

namespace Item

def respell (f : String → String) : Item → Item
  | declaration d => declaration (d.respell f)
  | assignment a => assignment (a.respell f)

/-- The names an item declares, assigns or reads. -/
def varNames : Item → List String
  | declaration d => d.names.map (·.value)
  | assignment a => a.varNames

def Complete : Item → Prop
  | declaration _ => True
  | assignment a => a.value.Complete

theorem complete_respell (f : String → String) (item : Item) :
    (item.respell f).Complete ↔ item.Complete := by
  cases item with
  | declaration d => exact Iff.rfl
  | assignment a => exact a.value.complete_respell f

end Item

namespace SourceFile

def respell (f : String → String) (file : SourceFile) : SourceFile :=
  ⟨file.items.map (·.respell f)⟩

/-- The file without its spans. -/
def bare (file : SourceFile) : SourceFile :=
  file.respell id

def varNames (file : SourceFile) : List String :=
  file.items.flatMap (·.varNames)

def Complete (file : SourceFile) : Prop :=
  ∀ item ∈ file.items, item.Complete

theorem complete_respell {f : String → String} {file : SourceFile} :
    (file.respell f).Complete ↔ file.Complete := by
  unfold Complete respell
  rw [List.forall_mem_map]
  exact forall₂_congr fun item _ => item.complete_respell f

end SourceFile

end LinearKernels
