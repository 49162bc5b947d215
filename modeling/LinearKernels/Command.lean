import LinearKernels.CommandLine
import LinearKernels.Compile
import LinearKernels.FileTree
import LinearKernels.SettingsFile

/-!
Running of commands. A command reads its settings, then its input, compiles, and writes the
program or shows its keys or parameters. What it does is written over an arbitrary file
system, so it can be run in memory.
-/

namespace LinearKernels

/-- What a finished command leaves: its exit code, its texts, and complaints about a source
that are still to be shown. -/
structure Outcome where
  code : Nat
  stdout : String
  stderr : String
  file : String
  diagnostics : List Diagnostic
deriving DecidableEq

namespace Outcome

def shown (stdout : String) : Outcome := ⟨0, stdout, "", "", []⟩

def noted (stderr : String) : Outcome := ⟨0, "", stderr, "", []⟩

def failed (message : String) : Outcome := ⟨1, "", "error: " ++ message ++ "\n", "", []⟩

def rejected (file : String) (ds : List Diagnostic) : Outcome := ⟨1, "", "", file, ds⟩

def badSettings (d : Diagnostic) : Outcome :=
  ⟨1, "", "error: " ++ d.message ++ "\n" ++
    (match d.help with
      | some help => "  help: " ++ help ++ "\n"
      | none => ""), "", []⟩

end Outcome

def settingsFileName : String := "symcl.toml"

namespace Settings

variable {m : Type → Type} [Monad m]

def load (fs : FileSystem m) (path : String) : m (Except Diagnostic Settings) := do
  match ← fs.read path with
  | .error fault =>
    return .error (.error ("cannot read config '" ++ path ++ "': " ++ fault.message) .origin)
  | .ok text =>
    return match ofText text with
      | .ok s => .ok s
      | .error fault => .error (fault.diagnostic path)

/-- The settings in a directory; the usual ones if it has no settings file. -/
def resolve (fs : FileSystem m) (directory : String) : m (Except Diagnostic Settings) := do
  let path := Path.child directory settingsFileName
  if ← fs.isFile path then load fs path else return .ok standard

end Settings

namespace Command

variable {m : Type → Type} [Monad m]

/-- The settings given, or those beside the input. -/
def findSettings (fs : FileSystem m) (input : String) (settings : Option String) :
    ExceptT Outcome m Settings := do
  let found ←
    match settings with
    | some path => ExceptT.lift (Settings.load fs path)
    | none => ExceptT.lift (Settings.resolve fs ((Path.parent? input).getD "."))
  match found with
  | .ok s => return s
  | .error d => throw (.badSettings d)

def readInput (fs : FileSystem m) (input : String) : ExceptT Outcome m String := do
  if Path.suffix? input ≠ some "sym" then throw (.failed "input must be a .sym file")
  match ← ExceptT.lift (fs.read input) with
  | .ok text => return text
  | .error fault => throw (.failed ("cannot read '" ++ input ++ "': " ++ fault.message))

def compileInput (fs : FileSystem m) (options : Options) (input : String) :
    ExceptT Outcome m Program := do
  let source ← readInput fs input
  match compile options source with
  | .ok program => return program
  | .error ds => throw (.rejected input ds)

def reprText (p : Program) : String :=
  let statements := p.statements.zipIdx.map fun (s, n) =>
    "statement " ++ decimal n ++ "\n  repr:       " ++ s.key ++ "\n  simplified: " ++
      s.shortKey ++ "\n"
  String.join statements ++ "program: " ++ p.name ++ "\n"

def argsText (p : Program) : String :=
  String.join <| p.kernels.map fun k =>
    k.name ++ " (" ++ k.kind.name ++ ")\n" ++
      String.join (k.arguments.map fun a => "  " ++ a ++ "\n")

def usage : String :=
  "Usage: symcl <build|repr|args|probe> [OPTIONS] [INPUT]\n"

def perform (fs : FileSystem m) : Command → ExceptT Outcome m Outcome
  | .probe => return .failed "no GPU adapter found"
  | .repr input settings => do
    let settings ← findSettings fs input settings
    let program ← compileInput fs { Options.standard with settings := settings } input
    return .shown (reprText program)
  | .args input settings => do
    let settings ← findSettings fs input settings
    let program ← compileInput fs { Options.standard with settings := settings } input
    return .shown (argsText program)
  | .build input output settings queried double json => do
    let settings ← findSettings fs input settings
    let device := Device.offline (double && !queried)
    let options := { Options.standard with settings := settings, device := device }
    let program ← compileInput fs options input
    let path := output.getD (Path.withSuffix input (if json then "json" else "cl"))
    let text := if json then program.manifest else program.source
    match ← ExceptT.lift (fs.write path text) with
    | .error fault => throw (.failed ("cannot write '" ++ path ++ "': " ++ fault.message))
    | .ok () =>
      return .noted ("Compiled " ++ input ++ " -> " ++ path ++ " (" ++ program.name ++ ", " ++
        decimal program.kernels.length ++ " kernel(s))\n")

/-- Run a command line. A misused one has exit code 2. -/
def run (fs : FileSystem m) (arguments : List String) : m Outcome := do
  match CommandLine.read arguments with
  | .error .help => return .shown usage
  | .error .version => return .shown "symcl 0.1.0\n"
  | .error .misuse => return ⟨2, "", usage, "", []⟩
  | .ok command =>
    match ← (perform fs command).run with
    | .ok outcome => return outcome
    | .error outcome => return outcome

end Command

end LinearKernels
