import LinearKernels.Settings

/-!
Settings as text. A settings file has sections, and under them lines `key = value`; a `#`
starts a comment. Keys that are not known in their section are passed over, a key that is
given again takes its last value, and the first faulty line ends the reading.
-/

namespace LinearKernels

/-- White space: the characters with the Unicode property `White_Space`. -/
def isWhite (c : Char) : Bool :=
  let n := c.toNat
  (9 ≤ n && n ≤ 13) || n = 0x20 || n = 0x85 || n = 0xA0 || n = 0x1680 ||
    (0x2000 ≤ n && n ≤ 0x200A) || n = 0x2028 || n = 0x2029 || n = 0x202F ||
      n = 0x205F || n = 0x3000

def trimBoth (p : Char → Bool) (text : List Char) : List Char :=
  ((text.dropWhile p).reverse.dropWhile p).reverse

def trim (text : List Char) : List Char :=
  trimBoth isWhite text

/-- The lines of a text. A line feed at the end does not begin another line. -/
def textLines : List Char → List (List Char)
  | [] => []
  | c :: cs =>
    if c = '\n' then [] :: textLines cs
    else
      match textLines cs with
      | line :: lines => (c :: line) :: lines
      | [] => [[c]]

/-- The largest number in a settings file: the largest of 32 bits. -/
def maxNumber : Nat := 4294967295

/-- The number written by an optional plus sign and decimal digits, if it is small enough. -/
def number? (text : List Char) : Option Nat :=
  let digits := match text with
    | '+' :: rest => rest
    | _ => text
  if digits.isEmpty || !digits.all Char.isDigit then none
  else
    let value := decimalValue digits
    if value ≤ maxNumber then some value else none

inductive SettingsLine where
  | blank
  | header (name : String)
  | entry (key : String) (value : List Char)
  | malformed
deriving DecidableEq

def SettingsLine.ofText (line : List Char) : SettingsLine :=
  let text := trim (line.takeWhile (· ≠ '#'))
  if text.isEmpty then .blank
  else if text.head? = some '[' && text.getLast? = some ']' then
    .header (String.ofList (trim text.tail.dropLast))
  else if text.contains '=' then
    .entry (String.ofList (trim (text.takeWhile (· ≠ '='))))
      (trim (text.dropWhile (· ≠ '=')).tail)
  else .malformed

inductive SettingsFault where
  | malformedLine (number : Nat)
  | invalidStem (value : String)
  | unreadableLocalSize (value : String)
  | invalidLocalSize (value : String)
  | unknownElementType (value : String)
  | unreadableAlignment (value : String)
  | invalidAlignment (width : Nat)
deriving DecidableEq

namespace SettingsFault

def diagnostic (path : String) (fault : SettingsFault) : Diagnostic :=
  let d (text : String) := Diagnostic.error (path ++ ": " ++ text) .origin
  match fault with
  | malformedLine number => d ("line " ++ decimal number ++ ": expected `key = value`")
  | invalidStem value =>
      (d ("invalid generator.prefix: " ++ value)).withHelp "use letters, digits and underscores"
  | unreadableLocalSize value => d ("invalid generator.local_size: " ++ value)
  | invalidLocalSize value =>
      (d ("invalid generator.local_size: " ++ value)).withHelp
        "use a power of two no larger than 1024"
  | unknownElementType value =>
      (d ("unknown element type: " ++ value)).withHelp "expected float, double, int or uint"
  | unreadableAlignment value => d ("invalid types.alignment: " ++ value)
  | invalidAlignment width => (Fault.invalidAlignment width).diagnostic .origin

end SettingsFault

namespace Settings

def setStem (s : Settings) (value : List Char) : Except SettingsFault Settings :=
  let stem := trimBoth (· = '"') value
  if stem.isEmpty || !stem.all isWordChar then .error (.invalidStem (String.ofList value))
  else .ok { s with stem := String.ofList stem }

def setLocalSize (s : Settings) (value : List Char) : Except SettingsFault Settings :=
  match number? value with
  | none => .error (.unreadableLocalSize (String.ofList value))
  | some n =>
    if isLocalSize n then .ok { s with localSize := n }
    else .error (.invalidLocalSize (String.ofList value))

def setDefaultType (s : Settings) (value : List Char) : Except SettingsFault Settings :=
  match ElementType.ofName? (String.ofList (trimBoth (· = '"') value)) with
  | none => .error (.unknownElementType (String.ofList value))
  | some e => .ok { s with defaultType := e }

def setAlignment (s : Settings) (value : List Char) : Except SettingsFault Settings :=
  match number? value with
  | none => .error (.unreadableAlignment (String.ofList value))
  | some n =>
    match Alignment.ofWidth? n with
    | none => .error (.invalidAlignment n)
    | some a => .ok { s with alignment := a }

def set (s : Settings) (header key : String) (value : List Char) :
    Except SettingsFault Settings :=
  match header, key with
  | "generator", "prefix" => s.setStem value
  | "generator", "local_size" => s.setLocalSize value
  | "types", "default" => s.setDefaultType value
  | "types", "alignment" => s.setAlignment value
  | _, _ => .ok s

/-- Read lines from number `number` on, under a section header. -/
def readLines (number : Nat) (header : String) (s : Settings) :
    List (List Char) → Except SettingsFault Settings
  | [] => .ok s
  | line :: lines =>
    match SettingsLine.ofText line with
    | .blank => readLines (number + 1) header s lines
    | .header name => readLines (number + 1) name s lines
    | .entry key value => do readLines (number + 1) header (← s.set header key value) lines
    | .malformed => .error (.malformedLine number)

/-- The settings written by a text; what the text does not set is as usual. -/
def ofText (text : String) : Except SettingsFault Settings :=
  standard.readLines 1 "" (textLines text.toList)

end Settings

end LinearKernels
