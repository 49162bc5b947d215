import LinearKernels.Diagnostic
import LinearKernels.Token

/-!
A place in a token list while it is read. The cursor holds the tokens still to come, the
last one taken and the complaints so far. Taking a token that is not there leaves the
cursor where it is and adds a complaint at the current token.
-/

namespace LinearKernels

/-- Ways in which a token list can fail to be a file. `found` is the current lexeme, or
`none` at the end. -/
inductive SyntaxFault where
  | expectedLexeme (l : Lexeme) (found : Option Lexeme)
  | expectedIdentifier (found : Option Lexeme)
  | expectedInteger (found : Option Lexeme)
  | expectedAssignment (found : Option Lexeme)
  | expectedExpression (found : Option Lexeme)
  | numericConstant
  | nestingTooDeep
deriving DecidableEq

namespace SyntaxFault

def describe : Option Lexeme → String
  | some l => l.description
  | none => "end of file"

def expected (what : String) (found : Option Lexeme) : String :=
  "expected " ++ what ++ ", found " ++ describe found

def message : SyntaxFault → String
  | expectedLexeme l found => expected l.description found
  | expectedIdentifier found => expected "identifier" found
  | expectedInteger found => expected "integer" found
  | expectedAssignment found => expected "assignment" found
  | expectedExpression found => expected "expression" found
  | numericConstant => "numeric constants are not supported in expressions"
  | nestingTooDeep => "nesting depth exceeded (maximum 256 levels)"

def help? : SyntaxFault → Option String
  | expectedLexeme _ _ | expectedIdentifier _ => none
  | expectedInteger _ => some "view parameters take integer values, e.g. `stride=2`"
  | expectedAssignment _ =>
      some "statements have the form `x = expr;`, `x += expr;` or `x -= expr;`"
  | expectedExpression _ =>
      some "expressions are built from declared names, operators and function calls"
  | numericConstant =>
      some "declare a host scalar (`host<float> c;`) and pass the value at launch"
  | nestingTooDeep => some "split the expression into several statements"

def diagnostic (fault : SyntaxFault) (span : Span) : Diagnostic :=
  { Diagnostic.error fault.message span with help := fault.help? }

end SyntaxFault

structure Cursor where
  tokens : List Token
  previous : Option Token
  finish : Span
  diagnostics : List Diagnostic

namespace Cursor

def ofTokens (tokens : List Token) (finish : Span) : Cursor :=
  ⟨tokens, none, finish, []⟩

def peek? (c : Cursor) : Option Lexeme :=
  c.tokens.head?.map (·.value)

/-- The span of the current token, or the end of the file. -/
def span (c : Cursor) : Span :=
  match c.tokens with
  | t :: _ => t.span
  | [] => c.finish

def previousSpan (c : Cursor) : Span :=
  match c.previous with
  | some t => t.span
  | none => c.span

def isAtEnd (c : Cursor) : Bool :=
  c.tokens.isEmpty

def isAt (c : Cursor) (l : Lexeme) : Bool :=
  c.peek? = some l

def advance (c : Cursor) : Cursor :=
  match c.tokens with
  | t :: rest => { c with tokens := rest, previous := some t }
  | [] => c

def eat? (c : Cursor) (l : Lexeme) : Option Cursor :=
  if c.isAt l then some c.advance else none

def report (c : Cursor) (fault : SyntaxFault) : Cursor :=
  { c with diagnostics := c.diagnostics ++ [fault.diagnostic c.span] }

def expect (c : Cursor) (l : Lexeme) : Cursor :=
  if c.isAt l then c.advance else c.report (.expectedLexeme l c.peek?)

/-- The identifier at the cursor; a placeholder name where there is none. -/
def identifier (c : Cursor) : Spanned String × Cursor :=
  match c.peek? with
  | some (.ident name) => (⟨name, c.span⟩, c.advance)
  | found => (⟨"_error_", c.span⟩, c.report (.expectedIdentifier found))

/-- Up to `bound` entries separated by commas, up to the lexeme `stop`. A comma may follow
the last entry. Every entry after the first costs a comma, so the number of tokens left is
bound enough. -/
def commaList {α : Type} (stop : Lexeme) (entry : Cursor → α × Cursor) :
    Nat → Cursor → List α × Cursor
  | 0, c => ([], c)
  | bound + 1, c =>
    if c.isAtEnd || c.isAt stop then ([], c)
    else
      let (x, c) := entry c
      match c.eat? .comma with
      | none => ([x], c)
      | some c =>
        let (xs, c) := commaList stop entry bound c
        (x :: xs, c)

def moreIdentifiers : Nat → Cursor → List (Spanned String) × Cursor
  | 0, c => ([], c)
  | bound + 1, c =>
    match c.eat? .comma with
    | none => ([], c)
    | some c =>
      let (x, c) := c.identifier
      let (xs, c) := moreIdentifiers bound c
      (x :: xs, c)

/-- Drop tokens up to and including the next semicolon. -/
def skipStatement (c : Cursor) : Cursor :=
  go c.tokens c
where
  go : List Token → Cursor → Cursor
    | [], c => c
    | t :: rest, c => if t.value = .semicolon then c.advance else go rest c.advance

end Cursor

end LinearKernels
