/-!
Paths as texts. Segments are separated by slashes; empty segments and single dots, except a
leading dot, do not count. Taking a path apart never changes the text of the part that is
kept.
-/

namespace LinearKernels.Path

/-- The segments of a path, empty ones included. -/
def split : List Char → List (List Char)
  | [] => [[]]
  | c :: cs =>
    if c = '/' then [] :: split cs
    else
      match split cs with
      | [] => [[c]]
      | segment :: segments => (c :: segment) :: segments

def segments (path : String) : List String :=
  (split path.toList).map String.ofList

def ofSegments (segments : List String) : String :=
  "/".intercalate segments

def isAbsolute (path : String) : Bool :=
  path.toList.head? = some '/'

/-- A slash at the end asks for a directory. -/
def endsInSlash (path : String) : Bool :=
  path.toList.getLast? = some '/'

def steps (path : String) : List String :=
  (segments path).filter (· ≠ "")

/-- Drop the segments that do not count from the end; the segments are given last first. -/
def dropVoid : List String → List String
  | [] => []
  | ["."] => ["."]
  | s :: rest => if s = "" || s = "." then dropVoid rest else s :: rest

def parent? (path : String) : Option String :=
  match dropVoid (segments path).reverse with
  | [] => none
  | _ :: rest =>
    match dropVoid rest with
    | [] => some (if isAbsolute path then "/" else "")
    | rest => some (ofSegments rest.reverse)

def fileName? (path : String) : Option String :=
  match dropVoid (segments path).reverse with
  | [] => none
  | s :: _ => if s = "." || s = ".." then none else some s

/-- What stands before and after the last dot of a name. A dot at the beginning does not
count. -/
def splitSuffix (name : String) : String × Option String :=
  let rev := name.toList.reverse
  let suffix := (rev.takeWhile (· ≠ '.')).reverse
  match rev.dropWhile (· ≠ '.') with
  | [] | [_] => (name, none)
  | _ :: before => (String.ofList before.reverse, some (String.ofList suffix))

def suffix? (path : String) : Option String :=
  (fileName? path).bind fun name => (splitSuffix name).2

/-- The path with the suffix of its last segment set; a path whose last segment is no name
stays as it is. -/
def setSuffix (path suffix : String) : String :=
  match dropVoid (segments path).reverse with
  | [] => path
  | s :: rest =>
    if s = "." || s = ".." then path
    else ofSegments (rest.reverse ++ [(splitSuffix s).1 ++ "." ++ suffix])

/-- The path with its suffix replaced. The old suffix is cut off first, which can leave a
path whose last segment is no name. -/
def withSuffix (path suffix : String) : String :=
  match suffix? path with
  | none => setSuffix path suffix
  | some old => setSuffix (String.ofList (path.toList.take (path.length - old.length))) suffix

/-- The path of `name` in a directory; the empty path is the current directory. -/
def child (directory name : String) : String :=
  if directory = "" then name
  else if endsInSlash directory then directory ++ name
  else directory ++ "/" ++ name

end LinearKernels.Path
