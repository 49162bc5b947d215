import LinearKernels.Cursor
import LinearKernels.Expr
import LinearKernels.Scan

/-!
From tokens to files. Expressions are read by operator strength, within a budget of
nesting levels: an expression costs one level for as long as it is read, and every
operator of a chain costs one more. An item that could not be read is skipped up to its
semicolon, so that the items after it are read as if it were not there.
-/

namespace LinearKernels

def maxNesting : Nat := 256

namespace Cursor

def operator? (c : Cursor) : Option Operator :=
  c.peek?.bind Operator.ofLexeme?

/-- An operand of a chain: a negation, a parenthesised expression, a call or a name.
`parse` reads an expression whose operators hold at least as strongly as its first
argument. -/
def operand (parse : Nat → Cursor → Expr × Cursor) (c : Cursor) : Expr × Cursor :=
  let start := c.span
  match c.peek? with
  | some .minus =>
    let (e, c) := parse Operator.negPower c.advance
    (.neg (start.merge e.span) e, c)
  | some .lparen =>
    let (e, c) := parse 0 c.advance
    let c := c.expect .rparen
    (e.withSpan (start.merge c.previousSpan), c)
  | some (.ident name) =>
    match c.advance.eat? .lparen with
    | none => (.var start name, c.advance)
    | some c =>
      let (args, c) := c.commaList .rparen (parse 0) c.tokens.length
      let c := c.expect .rparen
      (.call (start.merge c.previousSpan) ⟨name, start⟩ args, c)
  | some (.integer _) => (.missing start, (c.report .numericConstant).advance)
  | found => (.missing start, c.report (.expectedExpression found))

mutual

/-- An expression whose operators hold at least as strongly as `power`, within `budget`
nesting levels. -/
def expression : (budget : Nat) → (power : Nat) → Cursor → Expr × Cursor
  | 0, _, c => (.missing c.span, c.report .nestingTooDeep)
  | budget + 1, power, c =>
    let (lhs, c) := operand (expression budget) c
    chain budget power lhs c

/-- The operators that follow `lhs` and hold at least as strongly as `power`. -/
def chain : (budget : Nat) → (power : Nat) → Expr → Cursor → Expr × Cursor
  | budget, power, lhs, c =>
    match c.operator? with
    | none => (lhs, c)
    | some op =>
      if op.leftPower < power then (lhs, c)
      else
        match budget with
        | 0 => (.missing lhs.span, c.report .nestingTooDeep)
        | budget + 1 =>
          let (rhs, c) := expression budget op.rightPower c.advance
          chain budget power (.binary (lhs.span.merge rhs.span) op lhs rhs) c

end

def typeArg (c : Cursor) : Spanned TypeArg × Cursor :=
  let (key, c) := c.identifier
  match c.eat? .eq with
  | none => (key.map .flag, c)
  | some c =>
    let (value, c) :=
      match c.peek? with
      | some (.integer n) => (n, c.advance)
      | found => (0, c.report (.expectedInteger found))
    (⟨.param key.value value, key.span.merge c.previousSpan⟩, c)

/-- A declaration, whose keyword `kind` is the current token. -/
def declaration (kind : DeclKind) (c : Cursor) : Declaration × Cursor :=
  let start := c.span
  let c := c.advance
  let (args, c) :=
    match c.eat? .lt with
    | none => ([], c)
    | some c =>
      let (args, c) := c.commaList .gt typeArg c.tokens.length
      (args, c.expect .gt)
  let ty : Spanned TypeExpr := ⟨⟨kind, args⟩, start.merge c.previousSpan⟩
  let (first, c) := c.identifier
  let (more, c) := c.moreIdentifiers c.tokens.length
  (⟨ty, first :: more⟩, c.expect .semicolon)

/-- An assignment. Without an assignment sign the rest is left unread. -/
def assignment (c : Cursor) : Assignment × Cursor :=
  let (target, c) := c.identifier
  let opSpan := c.span
  match c.peek?.bind AssignOp.ofLexeme? with
  | none =>
    (⟨target, ⟨.assign, opSpan⟩, .missing target.span⟩, c.report (.expectedAssignment c.peek?))
  | some op =>
    let (value, c) := expression maxNesting 0 c.advance
    (⟨target, ⟨op, opSpan⟩, value⟩, c.expect .semicolon)

def item (c : Cursor) : Item × Cursor :=
  match c.peek? with
  | some (.keyword kind) =>
    let (d, c) := c.declaration kind
    (.declaration d, c)
  | _ =>
    let (a, c) := c.assignment
    (.assignment a, c)

/-- Whether the reading from `start` to `c` took a token, and a semicolon last. -/
def endedStatement (start c : Cursor) : Bool :=
  c.tokens.length < start.tokens.length && c.previous.any (·.value = .semicolon)

/-- The cursor after an item was read from `start` to `c`: an item with a complaint that
has not taken its semicolon is skipped. -/
def recover (start c : Cursor) : Cursor :=
  if c.diagnostics.length ≤ start.diagnostics.length then c
  else if start.endedStatement c then c
  else c.skipStatement

/-- Up to `bound` items. Every item takes a token, so the number of tokens is bound
enough. -/
def itemList : Nat → Cursor → List Item × Cursor
  | 0, c => ([], c)
  | bound + 1, c =>
    if c.isAtEnd then ([], c)
    else
      let (x, next) := c.item
      let (xs, c) := itemList bound (c.recover next)
      (x :: xs, c)

end Cursor

/-- The file written by a token list that ends at `finish`, or all complaints about it. -/
def parseTokens (tokens : List Token) (finish : Span) : Except (List Diagnostic) SourceFile :=
  let (items, c) := (Cursor.ofTokens tokens finish).itemList tokens.length
  if c.diagnostics.isEmpty then .ok ⟨items⟩ else .error c.diagnostics

/-- The file written by a source text. A text with bytes outside the language is not
parsed. -/
def parseSource (file : Nat) (source : String) : Except (List Diagnostic) SourceFile :=
  let s := scan file source
  if s.diagnostics.isEmpty then parseTokens s.tokens s.finish else .error s.diagnostics

end LinearKernels
