import LinearKernels.Diagnostic
import LinearKernels.Token

/-!
Source text as a sequence of pieces. The scanner works on the UTF-8 bytes of the text
and cuts them into pieces that tile the source: blanks and comments, lexemes, integers
that do not fit, and bytes outside the language. Tokens and complaints are two views of
the pieces.
-/

namespace LinearKernels

def utf8 (text : String) : List UInt8 :=
  text.toList.flatMap String.utf8EncodeChar

/-- The character whose code point is the byte. -/
def byteChar (b : UInt8) : Char :=
  Char.ofNat b.toNat

def byteText (bytes : List UInt8) : String :=
  String.ofList (bytes.map byteChar)

/-- Space, tab, line feed, form feed and carriage return. -/
def isBlankByte (b : UInt8) : Bool :=
  b = 32 || b = 9 || b = 10 || b = 12 || b = 13

def isDigitByte (b : UInt8) : Bool :=
  (byteChar b).isDigit

def isWordStart (b : UInt8) : Bool :=
  (byteChar b).isAlpha || byteChar b = '_'

def isWordByte (b : UInt8) : Bool :=
  isWordChar (byteChar b)

/-- The largest integer the language can write: the largest number of 64 bits. -/
def maxInteger : Nat :=
  18446744073709551615

inductive Piece where
  | blank
  | lexeme (l : Lexeme)
  | oversized (digits : String)
  | strayDot
  | strayByte (byte : UInt8)
deriving DecidableEq

namespace Piece

def ofDigits (digits : List UInt8) : Piece :=
  let value := decimalValue (digits.map byteChar)
  if value ≤ maxInteger then .lexeme (.integer value) else .oversized (byteText digits)

/-- The symbol that starts with byte `b`, and how many of the bytes after it belong to it. -/
def ofSymbol (b : UInt8) (next : Option UInt8) : Piece × Nat :=
  match byteChar b, next.map byteChar with
  | '(', _ => (.lexeme .lparen, 0)
  | ')', _ => (.lexeme .rparen, 0)
  | ',', _ => (.lexeme .comma, 0)
  | ';', _ => (.lexeme .semicolon, 0)
  | '<', _ => (.lexeme .lt, 0)
  | '>', _ => (.lexeme .gt, 0)
  | '=', _ => (.lexeme .eq, 0)
  | '*', _ => (.lexeme .star, 0)
  | '/', _ => (.lexeme .slash, 0)
  | '+', some '=' => (.lexeme .plusEq, 1)
  | '+', _ => (.lexeme .plus, 0)
  | '-', some '=' => (.lexeme .minusEq, 1)
  | '-', _ => (.lexeme .minus, 0)
  | '.', some '*' => (.lexeme .dotStar, 1)
  | '.', some '/' => (.lexeme .dotSlash, 1)
  | '.', _ => (.strayDot, 0)
  | _, _ => (.strayByte b, 0)

/-- The piece that starts with byte `b`, and how many bytes of `rest` belong to it.
Words, integers and comments are as long as possible. -/
def read (b : UInt8) (rest : List UInt8) : Piece × Nat :=
  if isBlankByte b then
    (.blank, 0)
  else if byteChar b = '/' && rest.head?.map byteChar = some '/' then
    (.blank, (rest.takeWhile (byteChar · ≠ '\n')).length)
  else if isWordStart b then
    let tail := rest.takeWhile isWordByte
    (.lexeme (.ofWord (byteText (b :: tail))), tail.length)
  else if isDigitByte b then
    let tail := rest.takeWhile isDigitByte
    (ofDigits (b :: tail), tail.length)
  else
    ofSymbol b rest.head?

/-- An integer that does not fit still stands for a token, with value zero. -/
def lexeme? : Piece → Option Lexeme
  | .lexeme l => some l
  | .oversized _ => some (.integer 0)
  | _ => none

def diagnostic? (span : Span) : Piece → Option Diagnostic
  | .oversized digits => some <|
      (Diagnostic.error ("integer literal '" ++ digits ++ "' is too large") span).withHelp
        ("maximum integer value is " ++ decimal maxInteger)
  | .strayDot => some <|
      (Diagnostic.error "unexpected '.'" span).withHelp
        ("elementwise operators are written `.*` and `./`; " ++
          "numeric constants must be declared as `host` scalars")
  | .strayByte b => some <|
      (Diagnostic.error ("unexpected character '" ++ String.singleton (byteChar b) ++ "' (U+" ++
        hexadecimal4Upper b.toNat ++ ")") span).withHelp
        "this character is not part of the expression language"
  | _ => none

end Piece

/-- The pieces of `bytes`, which begin at offset `start` of file `file`. -/
def pieces (file start : Nat) : List UInt8 → List (Spanned Piece)
  | [] => []
  | b :: rest =>
    let (piece, extra) := Piece.read b rest
    ⟨piece, ⟨file, start, start + 1 + extra⟩⟩ ::
      pieces file (start + 1 + extra) (rest.drop extra)
termination_by bytes => bytes.length
decreasing_by simp only [List.length_drop, List.length_cons]; omega

/-- A scanned file: its tokens, its complaints, and the empty span at its end. -/
structure Scan where
  tokens : List Token
  diagnostics : List Diagnostic
  finish : Span

def scan (file : Nat) (source : String) : Scan :=
  let bytes := utf8 source
  let cut := pieces file 0 bytes
  { tokens := cut.filterMap fun p => p.value.lexeme?.map (⟨·, p.span⟩)
    diagnostics := cut.filterMap fun p => p.value.diagnostic? p.span
    finish := ⟨file, bytes.length, bytes.length⟩ }

end LinearKernels
