import LinearKernels.Proofs.Spelling
import Mathlib.Data.List.Forall2

/-!
The grammar of the statement language, as a relation between trees without spans and the
words they are written with:

    file    = item*
    item    = kind ['<' [arg {',' arg} [',']] '>'] ident {',' ident} ';'
            | ident ('=' | '+=' | '-=') sum ';'
    arg     = ident ['=' integer]
    sum     = sum ('+' | '-') term | term
    term    = term ('*' | '/' | '.*' | './') unary | unary
    unary   = '-' unary | primary
    primary = ident | ident '(' [sum {',' sum} [',']] ')' | '(' sum ')'

Nothing is missing in a tree of the grammar.
-/

namespace LinearKernels

/-- How an operator is written. -/
def Operator.word : Operator → Lexeme
  | add => .plus
  | sub => .minus
  | mul => .star
  | div => .slash
  | elemMul => .dotStar
  | elemDiv => .dotSlash

/-- Plus and minus. -/
def Operator.isAdditive (op : Operator) : Bool :=
  op = .add || op = .sub

/-- How an assignment sign is written. -/
def AssignOp.word : AssignOp → Lexeme
  | assign => .eq
  | addAssign => .plusEq
  | subAssign => .minusEq

/-- How a type argument is written. -/
def TypeArg.words : TypeArg → List Lexeme
  | flag name => [.ident name]
  | param key value => [.ident key, .eq, .integer value]

namespace Grammar

/-- A tree together with the rule of the grammar it is derived from. -/
inductive Phrase where
  | sum (e : Expr)
  | term (e : Expr)
  | unary (e : Expr)
  | primary (e : Expr)
  | arguments (es : List Expr)

/-- The words that a phrase derives. -/
inductive Derives : Phrase → List Lexeme → Prop
  | additive {op : Operator} {l r : Expr} {us vs : List Lexeme} (hop : op.isAdditive = true) :
      Derives (.sum l) us → Derives (.term r) vs →
      Derives (.sum (.binary .origin op l r)) (us ++ op.word :: vs)
  | sum {e : Expr} {ws : List Lexeme} : Derives (.term e) ws → Derives (.sum e) ws
  | multiplicative {op : Operator} {l r : Expr} {us vs : List Lexeme}
      (hop : op.isAdditive = false) :
      Derives (.term l) us → Derives (.unary r) vs →
      Derives (.term (.binary .origin op l r)) (us ++ op.word :: vs)
  | term {e : Expr} {ws : List Lexeme} : Derives (.unary e) ws → Derives (.term e) ws
  | neg {e : Expr} {ws : List Lexeme} : Derives (.unary e) ws →
      Derives (.unary (.neg .origin e)) (.minus :: ws)
  | unary {e : Expr} {ws : List Lexeme} : Derives (.primary e) ws → Derives (.unary e) ws
  | var (name : String) : Derives (.primary (.var .origin name)) [.ident name]
  | call (name : String) {es : List Expr} {ws : List Lexeme} : Derives (.arguments es) ws →
      Derives (.primary (.call .origin ⟨name, .origin⟩ es))
        (.ident name :: .lparen :: ws ++ [.rparen])
  | paren {e : Expr} {ws : List Lexeme} : Derives (.sum e) ws →
      Derives (.primary e) (.lparen :: ws ++ [.rparen])
  | noArguments : Derives (.arguments []) []
  | lastArgument {e : Expr} {ws : List Lexeme} : Derives (.sum e) ws → Derives (.arguments [e]) ws
  | argument {e : Expr} {es : List Expr} {us vs : List Lexeme} : Derives (.sum e) us →
      Derives (.arguments es) vs → Derives (.arguments (e :: es)) (us ++ .comma :: vs)

/-- Entries separated by commas; a comma may follow the last one. -/
inductive Listed {α : Type} (P : α → List Lexeme → Prop) : List α → List Lexeme → Prop
  | nil : Listed P [] []
  | last {x : α} {ws : List Lexeme} : P x ws → Listed P [x] ws
  | cons {x : α} {xs : List α} {us vs : List Lexeme} : P x us → Listed P xs vs →
      Listed P (x :: xs) (us ++ .comma :: vs)

/-- The words of a declared type. -/
inductive TypeDerives : TypeExpr → List Lexeme → Prop
  | plain (kind : DeclKind) : TypeDerives ⟨kind, []⟩ [.keyword kind]
  | applied (kind : DeclKind) {args : List TypeArg} {ws : List Lexeme} :
      Listed (fun arg us => us = arg.words) args ws →
      TypeDerives ⟨kind, args.map (⟨·, .origin⟩)⟩ (.keyword kind :: .lt :: ws ++ [.gt])

/-- The words of an item. -/
inductive ItemDerives : Item → List Lexeme → Prop
  | declaration {ty : TypeExpr} {names : List String} {us : List Lexeme} : TypeDerives ty us →
      names ≠ [] →
      ItemDerives (.declaration ⟨⟨ty, .origin⟩, names.map (⟨·, .origin⟩)⟩)
        (us ++ (names.map Lexeme.ident).intersperse .comma ++ [.semicolon])
  | assignment (target : String) (op : AssignOp) {e : Expr} {ws : List Lexeme} :
      Derives (.sum e) ws → ItemDerives (.assignment ⟨⟨target, .origin⟩, ⟨op, .origin⟩, e⟩)
        (.ident target :: op.word :: ws ++ [.semicolon])

/-- The words of a file, item by item. -/
def FileDerives (file : SourceFile) (parts : List (List Lexeme)) : Prop :=
  List.Forall₂ ItemDerives file.items parts

/-- Nothing is missing in the tree of a phrase. -/
def Phrase.Complete : Phrase → Prop
  | sum e | term e | unary e | primary e => e.Complete
  | arguments es => Expr.CompleteAll es

theorem Derives.complete {phrase : Phrase} {ws : List Lexeme} (h : Derives phrase ws) :
    phrase.Complete := by
  induction h with
  | additive _ _ _ ihl ihr | multiplicative _ _ _ ihl ihr => exact ⟨ihl, ihr⟩
  | sum _ ih | term _ ih | unary _ ih | neg _ ih | call _ _ ih | paren _ ih => exact ih
  | var _ | noArguments => exact trivial
  | lastArgument _ ih => exact ⟨ih, trivial⟩
  | argument _ _ ih ihs => exact ⟨ih, ihs⟩

theorem ItemDerives.complete {item : Item} {ws : List Lexeme} (h : ItemDerives item ws) :
    item.Complete := by
  cases h with
  | declaration _ _ => exact trivial
  | assignment _ _ h => exact h.complete

theorem FileDerives.complete {file : SourceFile} {parts : List (List Lexeme)}
    (h : FileDerives file parts) :
    file.Complete := by
  unfold FileDerives at h
  unfold SourceFile.Complete
  generalize file.items = items at h ⊢
  induction h with
  | nil => simp
  | cons hitem _ ih => exact List.forall_mem_cons.mpr ⟨hitem.complete, ih⟩

end Grammar

end LinearKernels
