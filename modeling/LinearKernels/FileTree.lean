import LinearKernels.Path
import LinearKernels.Scan

/-!
Files. `FileSystem` is what a command needs of a file system; `FileTree` is a working
directory held in memory, and is one. A directory is there if it was made or if a file lies
below it. Around the tree there are the directories above it, a root directory and the null
device.
-/

namespace LinearKernels

inductive FileFault where
  | notFound
  | notDirectory
  | isDirectory
  | nameTooLong
  | invalidText
  | other (text : String)
deriving DecidableEq

def FileFault.message : FileFault → String
  | notFound => "No such file or directory (os error 2)"
  | notDirectory => "Not a directory (os error 20)"
  | isDirectory => "Is a directory (os error 21)"
  | nameTooLong => "File name too long (os error 36)"
  | invalidText => "stream did not contain valid UTF-8"
  | other text => text

/-- Reading and writing of text files, with effects in `m`. -/
structure FileSystem (m : Type → Type) where
  isFile : String → m Bool
  read : String → m (Except FileFault String)
  write : String → String → m (Except FileFault Unit)

def textOfBytes (bytes : List UInt8) : Except FileFault String :=
  match String.fromUTF8? ⟨bytes.toArray⟩ with
  | some text => .ok text
  | none => .error .invalidText

def maxPathBytes : Nat := 4095

def maxNameBytes : Nat := 255

/-- The names on the way from the working directory. The directories above it are reached by
leading `..`, and the root directory by a leading `/`. -/
abbrev Place := List String

namespace Place

def root : Place := ["/"]

/-- What is written there is gone, and nothing can be read from it. -/
def nullDevice : Place := ["/", "dev", "null"]

/-- The directory above. The root directory is above itself. -/
def up (place : Place) : Place :=
  if place = root then root
  else
    match place.getLast? with
    | none | some ".." => place ++ [".."]
    | some _ => place.dropLast

/-- One step, whether it leads anywhere or not. -/
def follow (place : Place) (step : String) : Place :=
  if step = "." then place else if step = ".." then place.up else place ++ [step]

def start (path : String) : Place :=
  if Path.isAbsolute path then root else []

/-- Where a path leads if nothing is in its way. -/
def ofPath (path : String) : Place :=
  (Path.steps path).foldl follow (start path)

/-- The places that are passed on the way along some steps. -/
def trail (place : Place) : List String → List Place
  | [] => []
  | step :: steps => place :: trail (place.follow step) steps

def isInside (place : Place) : Bool :=
  place.head? ≠ some ".." && place.head? ≠ some "/"

end Place

/-- Files by their places, with their bytes, and the directories that were made. -/
structure FileTree where
  files : List (Place × List UInt8)
  made : List Place
deriving DecidableEq

/-- What a path names: a directory by dots or by the root, or an entry of a directory. -/
inductive Target where
  | directory (place : Place)
  | entry (place : Place) (name : String)
deriving DecidableEq

namespace FileTree

def empty : FileTree := ⟨[], []⟩

def find? (tree : FileTree) (place : Place) : Option (List UInt8) :=
  if place = .nullDevice then some [] else tree.files.lookup place

def isDirectory (tree : FileTree) (place : Place) : Bool :=
  place.all (· = "..") || tree.made.contains place ||
    (Place.nullDevice :: tree.files.map (·.1)).any fun file =>
      place.isPrefixOf file && file ≠ place

def put (tree : FileTree) (place : Place) (bytes : List UInt8) : FileTree :=
  if place = .nullDevice then tree
  else { tree with files := (place, bytes) :: tree.files.filter (·.1 ≠ place) }

def makeWay (tree : FileTree) (path : String) : FileTree :=
  { tree with made := tree.made ++ (Place.start path).trail (Path.steps path) }

def ofFiles (files : List (String × List UInt8)) : FileTree :=
  files.foldl (fun tree (path, bytes) => (tree.makeWay path).put (.ofPath path) bytes) empty

def checkName (name : String) : Except FileFault Unit :=
  if maxNameBytes < name.utf8ByteSize then .error .nameTooLong else .ok ()

def enter (tree : FileTree) (place : Place) (step : String) : Except FileFault Place :=
  if step = "." || step = ".." then .ok (place.follow step)
  else do
    checkName step
    let next := place.follow step
    if (tree.find? next).isSome then throw .notDirectory
    if tree.isDirectory next then return next
    throw .notFound

/-- Follow a path up to its last step. -/
def locate (tree : FileTree) (path : String) : Except FileFault Target :=
  if maxPathBytes < path.utf8ByteSize then .error .nameTooLong
  else
    match (Path.steps path).reverse with
    | [] => if Path.isAbsolute path then .ok (.directory .root) else .error .notFound
    | last :: before => do
      let place ← before.reverse.foldlM tree.enter (.start path)
      if last = "." || last = ".." then return .directory (place.follow last)
      return .entry place last

/-- The bytes of a file. A path that ends in a slash has to name a directory, and a directory
has no bytes. -/
def readBytes (tree : FileTree) (path : String) : Except FileFault (List UInt8) := do
  match ← tree.locate path with
  | .directory _ => throw .isDirectory
  | .entry place name =>
    checkName name
    match tree.find? (place.follow name) with
    | some bytes => if Path.endsInSlash path then throw .notDirectory else return bytes
    | none => throw (if tree.isDirectory (place.follow name) then .isDirectory else .notFound)

def readText (tree : FileTree) (path : String) : Except FileFault String := do
  textOfBytes (← tree.readBytes path)

def isFile (tree : FileTree) (path : String) : Bool :=
  (tree.readBytes path).isOk

/-- Write a file. A path that ends in a slash names a directory, whether it is there or not. -/
def writeText (tree : FileTree) (path text : String) : Except FileFault FileTree := do
  match ← tree.locate path with
  | .directory _ => throw .isDirectory
  | .entry place name =>
    if Path.endsInSlash path then throw .isDirectory
    checkName name
    if tree.isDirectory (place.follow name) then throw .isDirectory
    return tree.put (place.follow name) (utf8 text)

/-- The files of `new` in the working directory that are not in `old` with the same bytes, in
the order of `new`. -/
def changes (old new : FileTree) : List (String × List UInt8) :=
  (new.files.filter fun (place, bytes) => place.isInside && old.find? place ≠ some bytes).map
    fun (place, bytes) => (Path.ofSegments place, bytes)

def fileSystem : FileSystem (StateM FileTree) where
  isFile path := do return (← get).isFile path
  read path := do return (← get).readText path
  write path text := do
    match (← get).writeText path text with
    | .ok tree => set tree; return .ok ()
    | .error fault => return .error fault

end FileTree

end LinearKernels
