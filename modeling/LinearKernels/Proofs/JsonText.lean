import LinearKernels.Numeral

/-!
JSON texts. The grammar is a relation between values and the texts they are written with:

    text   = ws value ws
    value  = null | true | false | number | string
           | '[' ws ']' | '[' text {',' text} ']'
           | object with the members  ws string ws ':' text  in the same way
    number = ['-'] int ['.' digits] [('e' | 'E') ['+' | '-'] digits]
    string = '"' {char} '"'

where `int` has no leading zeros, and a `char` is any character but quotes, backslashes and the
characters below the blank, or a backslash with what follows it. The reader goes through a text
from left to right.
-/

namespace LinearKernels

/-- A JSON value. A number is its mantissa times ten to the power of its exponent; the members
of an object come as they are written. -/
inductive Json where
  | null
  | bool (b : Bool)
  | number (mantissa exponent : Int)
  | string (text : String)
  | array (items : List Json)
  | object (members : List (String × Json))

namespace Json

/-! ### Characters and strings -/

def isBlank (c : Char) : Bool :=
  c = ' ' || c = '\t' || c = '\n' || c = '\r'

def hexDigit? (c : Char) : Option Nat :=
  if c.isDigit then some (c.toNat - 48)
  else if 97 ≤ c.toNat ∧ c.toNat ≤ 102 then some (c.toNat - 87)
  else if 65 ≤ c.toNat ∧ c.toNat ≤ 70 then some (c.toNat - 55)
  else none

/-- The number written by four hexadecimal digits. -/
def codeUnit? (a b c d : Char) : Option Nat :=
  (hexDigit? a).bind fun a => (hexDigit? b).bind fun b => (hexDigit? c).bind fun c =>
    (hexDigit? d).map fun d => ((a * 16 + b) * 16 + c) * 16 + d

/-- The character meant by the one behind a backslash. -/
def shortEscape? : Char → Option Char
  | '"' => some '"'
  | '\\' => some '\\'
  | '/' => some '/'
  | 'b' => some '\x08'
  | 'f' => some '\x0c'
  | 'n' => some '\n'
  | 'r' => some '\r'
  | 't' => some '\t'
  | _ => none

def isHighSurrogate (n : Nat) : Bool :=
  0xD800 ≤ n && n < 0xDC00

def isLowSurrogate (n : Nat) : Bool :=
  0xDC00 ≤ n && n < 0xE000

/-- The code point that two surrogates stand for. -/
def joinSurrogates (high low : Nat) : Nat :=
  0x10000 + (high - 0xD800) * 0x400 + (low - 0xDC00)

/-- How a character is written inside quotes. -/
inductive Letter : Char → List Char → Prop
  | plain {x : Char} (h : 0x20 ≤ x.toNat) (hquote : x ≠ '"') (hback : x ≠ '\\') : Letter x [x]
  | short {x e : Char} (h : shortEscape? e = some x) : Letter x ['\\', e]
  | unit {x a b c d : Char} (h : codeUnit? a b c d = some x.toNat) :
      Letter x ['\\', 'u', a, b, c, d]
  | pair {x a b c d a' b' c' d' : Char} {high low : Nat} (h : codeUnit? a b c d = some high)
      (h' : codeUnit? a' b' c' d' = some low) (hhigh : isHighSurrogate high = true)
      (hlow : isLowSurrogate low = true) (hx : x.toNat = joinSurrogates high low) :
      Letter x ['\\', 'u', a, b, c, d, '\\', 'u', a', b', c', d']

inductive Letters : List Char → List Char → Prop
  | nil : Letters [] []
  | cons {x : Char} {xs us vs : List Char} :
      Letter x us → Letters xs vs → Letters (x :: xs) (us ++ vs)

/-! ### Numbers -/

def Digits (ds : List Char) : Prop :=
  ds ≠ [] ∧ ∀ c ∈ ds, c.isDigit = true

/-- Digits without a leading zero. -/
def IntegerDigits (ds : List Char) : Prop :=
  Digits ds ∧ (ds.head? = some '0' → ds = ['0'])

inductive Fraction : List Char → List Char → Prop
  | none : Fraction [] []
  | some {ds : List Char} (h : Digits ds) : Fraction ds ('.' :: ds)

inductive Exponent : Int → List Char → Prop
  | none : Exponent 0 []
  | plain {e : Char} {ds : List Char} (he : e = 'e' ∨ e = 'E') (h : Digits ds) :
      Exponent (decimalValue ds) (e :: ds)
  | plus {e : Char} {ds : List Char} (he : e = 'e' ∨ e = 'E') (h : Digits ds) :
      Exponent (decimalValue ds) (e :: '+' :: ds)
  | minus {e : Char} {ds : List Char} (he : e = 'e' ∨ e = 'E') (h : Digits ds) :
      Exponent (-decimalValue ds) (e :: '-' :: ds)

/-- A number without its sign. -/
inductive Unsigned : Nat → Int → List Char → Prop
  | mk {ds fs us vs : List Char} {x : Int} : IntegerDigits ds → Fraction fs us → Exponent x vs →
      Unsigned (decimalValue (ds ++ fs)) (x - fs.length) (ds ++ (us ++ vs))

/-! ### Values -/

/-- What a text stands for: a value, a value with blanks around it, or what is between the
brackets of an array or an object that is not empty. -/
inductive Part where
  | value (v : Json)
  | padded (v : Json)
  | items (vs : List Json)
  | members (ms : List (String × Json))

/-- How it is written. -/
inductive Written : Part → List Char → Prop
  | null : Written (.value .null) ['n', 'u', 'l', 'l']
  | true : Written (.value (.bool .true)) ['t', 'r', 'u', 'e']
  | false : Written (.value (.bool .false)) ['f', 'a', 'l', 's', 'e']
  | positive {m : Nat} {x : Int} {ts : List Char} (h : Unsigned m x ts) :
      Written (.value (.number m x)) ts
  | negative {m : Nat} {x : Int} {ts : List Char} (h : Unsigned m x ts) :
      Written (.value (.number (-m) x)) ('-' :: ts)
  | string {xs ts : List Char} (h : Letters xs ts) :
      Written (.value (.string (String.ofList xs))) ('"' :: (ts ++ ['"']))
  | noItems {ws : List Char} (h : ∀ c ∈ ws, isBlank c = .true) :
      Written (.value (.array [])) ('[' :: (ws ++ [']']))
  | array {vs : List Json} {ts : List Char} : Written (.items vs) ts →
      Written (.value (.array vs)) ('[' :: (ts ++ [']']))
  | noMembers {ws : List Char} (h : ∀ c ∈ ws, isBlank c = .true) :
      Written (.value (.object [])) ('\x7b' :: (ws ++ ['\x7d']))
  | object {ms : List (String × Json)} {ts : List Char} : Written (.members ms) ts →
      Written (.value (.object ms)) ('\x7b' :: (ts ++ ['\x7d']))
  | padded {v : Json} {us ts ws : List Char} (hus : ∀ c ∈ us, isBlank c = .true)
      (hws : ∀ c ∈ ws, isBlank c = .true) :
      Written (.value v) ts → Written (.padded v) (us ++ (ts ++ ws))
  | lastItem {v : Json} {ts : List Char} : Written (.padded v) ts → Written (.items [v]) ts
  | item {v : Json} {vs : List Json} {ts us : List Char} :
      Written (.padded v) ts → Written (.items vs) us →
      Written (.items (v :: vs)) (ts ++ ',' :: us)
  | lastMember {key : String} {v : Json} {ks ts : List Char} :
      Written (.padded (.string key)) ks → Written (.padded v) ts →
      Written (.members [(key, v)]) (ks ++ ':' :: ts)
  | member {key : String} {v : Json} {ms : List (String × Json)} {ks ts us : List Char} :
      Written (.padded (.string key)) ks → Written (.padded v) ts → Written (.members ms) us →
      Written (.members ((key, v) :: ms)) (ks ++ ':' :: (ts ++ ',' :: us))

/-- The text is a JSON text of the value. -/
def TextOf (v : Json) (text : String) : Prop :=
  Written (.padded v) text.toList

/-! ### Reader -/

/-- The character with a code point, if there is one. -/
def character? (n : Nat) : Option Char :=
  if n.isValidChar then some (Char.ofNat n) else none

/-- A character whose code unit `n` has been read; the first of two surrogates needs the other. -/
def unicode? (n : Nat) (text : List Char) : Option (Char × List Char) :=
  if isHighSurrogate n then
    match text with
    | '\\' :: 'u' :: a :: b :: c :: d :: rest =>
      (codeUnit? a b c d).bind fun low =>
        if isLowSurrogate low then (character? (joinSurrogates n low)).map (·, rest) else none
    | _ => none
  else (character? n).map (·, text)

def letter? : List Char → Option (Char × List Char)
  | '\\' :: 'u' :: a :: b :: c :: d :: rest => (codeUnit? a b c d).bind fun n => unicode? n rest
  | '\\' :: e :: rest => (shortEscape? e).map (·, rest)
  | x :: rest => if 0x20 ≤ x.toNat ∧ x ≠ '"' ∧ x ≠ '\\' then some (x, rest) else none
  | [] => none

/-- Up to `bound` characters, up to and including the closing quote. -/
def letters? : Nat → List Char → Option (List Char × List Char)
  | 0, _ => none
  | bound + 1, text =>
    if text.head? = some '"' then some ([], text.tail)
    else (letter? text).bind fun first =>
      (letters? bound first.2).map fun more => (first.1 :: more.1, more.2)

def digits? (text : List Char) : Option (List Char × List Char) :=
  if (text.takeWhile Char.isDigit).isEmpty then none
  else some (text.takeWhile Char.isDigit, text.dropWhile Char.isDigit)

def fraction? : List Char → Option (List Char × List Char)
  | '.' :: rest => digits? rest
  | text => some ([], text)

def exponent? : List Char → Option (Int × List Char)
  | [] => some (0, [])
  | c :: text =>
    if c = 'e' ∨ c = 'E' then
      match text with
      | '+' :: rest => (digits? rest).map fun r => (decimalValue r.1, r.2)
      | '-' :: rest => (digits? rest).map fun r => (-decimalValue r.1, r.2)
      | _ => (digits? text).map fun r => (decimalValue r.1, r.2)
    else some (0, c :: text)

def unsigned? (text : List Char) : Option ((Nat × Int) × List Char) :=
  (digits? text).bind fun whole =>
    if whole.1.head? = some '0' ∧ whole.1 ≠ ['0'] then none
    else (fraction? whole.2).bind fun part =>
      (exponent? part.2).map fun power =>
        ((decimalValue (whole.1 ++ part.1), power.1 - part.1.length), power.2)

def skip (text : List Char) : List Char :=
  text.dropWhile isBlank

/-- A value with the blanks around it. -/
def padded? (entry : List Char → Option (Json × List Char)) (text : List Char) :
    Option (Json × List Char) :=
  (entry (skip text)).map fun r => (r.1, skip r.2)

def member? (entry : List Char → Option (Json × List Char)) (text : List Char) :
    Option ((String × Json) × List Char) :=
  (entry text).bind fun key =>
    match key.1, key.2 with
    | .string name, ':' :: rest => (entry rest).map fun r => ((name, r.1), r.2)
    | _, _ => none

/-- Up to `bound` entries with commas between them, and the closing bracket. -/
def entries? {α : Type} (entry : List Char → Option (α × List Char)) (close : Char) :
    Nat → List Char → Option (List α × List Char)
  | 0, _ => none
  | bound + 1, text =>
    (entry text).bind fun first =>
      match first.2 with
      | [] => none
      | c :: rest =>
        if c = ',' then (entries? entry close bound rest).map fun more =>
          (first.1 :: more.1, more.2)
        else if c = close then some ([first.1], rest)
        else none

/-- What is between brackets: nothing but blanks, or entries. -/
def between? {α : Type} (entry : List Char → Option (α × List Char)) (close : Char)
    (text : List Char) :
    Option (List α × List Char) :=
  if (skip text).head? = some close then some ([], (skip text).tail)
  else entries? entry close text.length text

/-- A value that is nested in at most `depth` others. -/
def value? : (depth : Nat) → List Char → Option (Json × List Char)
  | 0, _ => none
  | depth + 1, text =>
    match text with
    | 'n' :: 'u' :: 'l' :: 'l' :: rest => some (.null, rest)
    | 't' :: 'r' :: 'u' :: 'e' :: rest => some (.bool true, rest)
    | 'f' :: 'a' :: 'l' :: 's' :: 'e' :: rest => some (.bool false, rest)
    | '"' :: rest => (letters? rest.length rest).map fun r => (.string (String.ofList r.1), r.2)
    | '[' :: rest => (between? (padded? (value? depth)) ']' rest).map fun r => (.array r.1, r.2)
    | '\x7b' :: rest =>
      (between? (member? (padded? (value? depth))) '\x7d' rest).map fun r => (.object r.1, r.2)
    | '-' :: rest => (unsigned? rest).map fun r => (.number (-r.1.1) r.1.2, r.2)
    | _ => (unsigned? text).map fun r => (.number r.1.1 r.1.2, r.2)

/-- The value of a whole text. -/
def read (text : String) : Option Json :=
  match padded? (value? text.toList.length) text.toList with
  | some (v, []) => some v
  | _ => none

end Json

end LinearKernels
