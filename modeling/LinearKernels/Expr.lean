import LinearKernels.Token

/-!
Parsed source files. A file is a list of declarations and assignments; the value of an
assignment is an expression whose nodes carry their spans. `Expr.missing` stands where
an expression could not be read.
-/

namespace LinearKernels

inductive Operator where
  | add
  | sub
  | mul
  | div
  | elemMul
  | elemDiv
deriving DecidableEq

namespace Operator

def symbol : Operator → String
  | add => "+"
  | sub => "-"
  | mul => "*"
  | div => "/"
  | elemMul => ".*"
  | elemDiv => "./"

def ofSymbol? (text : String) : Option Operator :=
  [add, sub, mul, div, elemMul, elemDiv].find? (·.symbol = text)

def ofLexeme? : Lexeme → Option Operator
  | .plus => some add
  | .minus => some sub
  | .star => some mul
  | .slash => some div
  | .dotStar => some elemMul
  | .dotSlash => some elemDiv
  | _ => none

/-- How strongly the operator holds the operand on its left. -/
def leftPower : Operator → Nat
  | add | sub => 2
  | mul | div | elemMul | elemDiv => 4

/-- How strongly it holds the operand on its right; one more than on the left, so that
chains group to the left. -/
def rightPower (op : Operator) : Nat :=
  op.leftPower + 1

/-- A leading minus holds its operand more strongly than every binary operator. -/
def negPower : Nat := 6

end Operator

inductive AssignOp where
  | assign
  | addAssign
  | subAssign
deriving DecidableEq

namespace AssignOp

def symbol : AssignOp → String
  | assign => "="
  | addAssign => "+="
  | subAssign => "-="

def ofLexeme? : Lexeme → Option AssignOp
  | .eq => some assign
  | .plusEq => some addAssign
  | .minusEq => some subAssign
  | _ => none

end AssignOp

inductive Expr where
  | var (span : Span) (name : String)
  | neg (span : Span) (operand : Expr)
  | binary (span : Span) (op : Operator) (lhs rhs : Expr)
  | call (span : Span) (name : Spanned String) (args : List Expr)
  | missing (span : Span)

namespace Expr

def span : Expr → Span
  | var s _ | neg s _ | binary s _ _ _ | call s _ _ | missing s => s

/-- The same expression, taken to cover `s`. -/
def withSpan (s : Span) : Expr → Expr
  | var _ name => var s name
  | neg _ operand => neg s operand
  | binary _ op lhs rhs => binary s op lhs rhs
  | call _ name args => call s name args
  | missing _ => missing s

mutual

/-- Written out, since a derived instance does not reach into the argument lists. -/
def decEq : ∀ e e' : Expr, Decidable (e = e')
  | var s name, e' => match e' with
    | var s' name' => decidable_of_iff (s = s' ∧ name = name') (by simp)
    | neg .. | binary .. | call .. | missing .. => isFalse nofun
  | neg s operand, e' => match e' with
    | neg s' operand' =>
      have := decEq operand operand'
      decidable_of_iff (s = s' ∧ operand = operand') (by simp)
    | var .. | binary .. | call .. | missing .. => isFalse nofun
  | binary s op lhs rhs, e' => match e' with
    | binary s' op' lhs' rhs' =>
      have := decEq lhs lhs'
      have := decEq rhs rhs'
      decidable_of_iff (s = s' ∧ op = op' ∧ lhs = lhs' ∧ rhs = rhs') (by simp)
    | var .. | neg .. | call .. | missing .. => isFalse nofun
  | call s name args, e' => match e' with
    | call s' name' args' =>
      have := decEqAll args args'
      decidable_of_iff (s = s' ∧ name = name' ∧ args = args') (by simp)
    | var .. | neg .. | binary .. | missing .. => isFalse nofun
  | missing s, e' => match e' with
    | missing s' => decidable_of_iff (s = s') (by simp)
    | var .. | neg .. | binary .. | call .. => isFalse nofun

def decEqAll : ∀ es es' : List Expr, Decidable (es = es')
  | [], [] => isTrue rfl
  | [], _ :: _ | _ :: _, [] => isFalse nofun
  | e :: es, e' :: es' =>
    have := decEq e e'
    have := decEqAll es es'
    decidable_of_iff (e = e' ∧ es = es') (by simp)

end

instance : DecidableEq Expr := decEq

end Expr

/-- An argument of a declared type: a bare word, or a parameter with an integer value. -/
inductive TypeArg where
  | flag (name : String)
  | param (key : String) (value : Nat)
deriving DecidableEq

structure TypeExpr where
  kind : DeclKind
  args : List (Spanned TypeArg)
deriving DecidableEq

structure Declaration where
  ty : Spanned TypeExpr
  names : List (Spanned String)
deriving DecidableEq

structure Assignment where
  target : Spanned String
  op : Spanned AssignOp
  value : Expr
deriving DecidableEq

inductive Item where
  | declaration (d : Declaration)
  | assignment (a : Assignment)
deriving DecidableEq

structure SourceFile where
  items : List Item
deriving DecidableEq

namespace SourceFile

def declarations (f : SourceFile) : List Declaration :=
  f.items.filterMap fun
    | .declaration d => some d
    | .assignment _ => none

def assignments (f : SourceFile) : List Assignment :=
  f.items.filterMap fun
    | .declaration _ => none
    | .assignment a => some a

end SourceFile

end LinearKernels
