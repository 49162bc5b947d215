import LinearKernels.Numeral
import LinearKernels.Span

/-!
The words of the statement language. A lexeme is a declaration keyword, a symbol, an
integer or an identifier; a token is a lexeme with its span.
-/

namespace LinearKernels

inductive DeclKind where
  | vector
  | matrix
  | scalar
  | host
deriving DecidableEq

namespace DeclKind

def keyword : DeclKind → String
  | vector => "vector"
  | matrix => "matrix"
  | scalar => "scalar"
  | host => "host"

def ofKeyword? (word : String) : Option DeclKind :=
  [vector, matrix, scalar, host].find? (·.keyword = word)

end DeclKind

inductive Lexeme where
  | keyword (kind : DeclKind)
  | lparen
  | rparen
  | comma
  | semicolon
  | lt
  | gt
  | eq
  | plusEq
  | minusEq
  | plus
  | minus
  | star
  | slash
  | dotStar
  | dotSlash
  | integer (value : Nat)
  | ident (name : String)
deriving DecidableEq

namespace Lexeme

def spelling : Lexeme → String
  | keyword kind => kind.keyword
  | lparen => "("
  | rparen => ")"
  | comma => ","
  | semicolon => ";"
  | lt => "<"
  | gt => ">"
  | eq => "="
  | plusEq => "+="
  | minusEq => "-="
  | plus => "+"
  | minus => "-"
  | star => "*"
  | slash => "/"
  | dotStar => ".*"
  | dotSlash => "./"
  | integer value => decimal value
  | ident name => name

/-- How a lexeme is named in a message: keywords and symbols by their spelling,
integers and identifiers by their class. -/
def description : Lexeme → String
  | integer _ => "integer literal"
  | ident _ => "identifier"
  | l => "'" ++ l.spelling ++ "'"

def isKeyword : Lexeme → Bool
  | keyword _ => true
  | _ => false

/-- A word is a keyword if it is reserved, and an identifier otherwise. -/
def ofWord (word : String) : Lexeme :=
  match DeclKind.ofKeyword? word with
  | some kind => keyword kind
  | none => ident word

end Lexeme

abbrev Token := Spanned Lexeme

end LinearKernels
