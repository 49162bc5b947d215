/-!
Command lines. A command line names a command and gives it one input and options. Options
may stand before or after the input, and each at most once; their values follow them or are
joined to them. Arguments are read from left to right, and the first that asks for help or
for the version, or that has no place, ends the reading.
-/

namespace LinearKernels

inductive Command where
  | probe
  | build (input : String) (output settings : Option String) (queried double json : Bool)
  | repr (input : String) (settings : Option String)
  | args (input : String) (settings : Option String)
deriving DecidableEq

namespace CommandLine

inductive Flag where
  | probe
  | double
  | json
deriving DecidableEq

inductive ValueOption where
  | output
  | settings
deriving DecidableEq

/-- Why there is no command to run. -/
inductive Stop where
  | help
  | version
  | misuse
deriving DecidableEq

structure Given where
  input : Option String
  output : Option String
  settings : Option String
  flags : List Flag
deriving DecidableEq

def Given.nothing : Given := ⟨none, none, none, []⟩

structure Accepts where
  input : Bool
  flags : List (String × Flag)
  long : List (String × ValueOption)
  short : List (Char × ValueOption)

def buildAccepts : Accepts where
  input := true
  flags := [("probe", .probe), ("double", .double), ("json", .json)]
  long := [("output", .output), ("config", .settings)]
  short := [('o', .output)]

def showAccepts : Accepts where
  input := true
  flags := []
  long := [("config", .settings)]
  short := []

def probeAccepts : Accepts where
  input := false
  flags := []
  long := []
  short := []

/-- Give something a value for the first time. Paths are not empty. -/
def once (old : Option String) (value : String) : Except Stop (Option String) :=
  if old.isSome || value = "" then .error .misuse else .ok (some value)

namespace Given

def setInput (accepts : Accepts) (g : Given) (value : String) : Except Stop Given := do
  if !accepts.input then throw .misuse
  return { g with input := ← once g.input value }

def setFlag (g : Given) (flag : Flag) : Except Stop Given :=
  if g.flags.contains flag then .error .misuse else .ok { g with flags := flag :: g.flags }

def setValue (g : Given) (name : ValueOption) (value : String) : Except Stop Given := do
  match name with
  | .output => return { g with output := ← once g.output value }
  | .settings => return { g with settings := ← once g.settings value }

/-- The input, without which there is nothing to run. -/
def need (g : Given) : Except Stop String :=
  match g.input with
  | some input => .ok input
  | none => .error .misuse

end Given

inductive Form where
  | endOfOptions
  /-- Written `--name` or `--name=value`. -/
  | long (name : String) (value : Option String)
  /-- Written `-n`, with more characters behind it or none. -/
  | short (name : Char) (rest : List Char)
  | plain (text : String)
deriving DecidableEq

def Form.ofText (text : String) : Form :=
  match text.toList with
  | ['-', '-'] => .endOfOptions
  | '-' :: '-' :: rest =>
    let name := String.ofList (rest.takeWhile (· ≠ '='))
    match rest.dropWhile (· ≠ '=') with
    | [] => .long name none
    | _ :: value => .long name (some (String.ofList value))
  | '-' :: c :: rest => .short c rest
  | _ => .plain text

/-- The value joined to a short option; an equals sign before it is dropped. -/
def joinedValue? : List Char → Option String
  | [] => none
  | '=' :: value => some (String.ofList value)
  | value => some (String.ofList value)

mutual

def readArguments (accepts : Accepts) (g : Given) : List String → Except Stop Given
  | [] => .ok g
  | text :: rest =>
    match Form.ofText text with
    | .endOfOptions => rest.foldlM (Given.setInput accepts) g
    | .plain text => do readArguments accepts (← g.setInput accepts text) rest
    | .long name value =>
      match accepts.flags.lookup name, accepts.long.lookup name with
      | some flag, _ =>
        if value.isSome then .error .misuse
        else do readArguments accepts (← g.setFlag flag) rest
      | none, some option =>
        match value with
        | some value => do readArguments accepts (← g.setValue option value) rest
        | none => readValue accepts g option rest
      | none, none => .error (if name = "help" && value.isNone then .help else .misuse)
    | .short name joined =>
      match accepts.short.lookup name with
      | none => .error (if name = 'h' then .help else .misuse)
      | some option =>
        match joinedValue? joined with
        | some value => do readArguments accepts (← g.setValue option value) rest
        | none => readValue accepts g option rest

/-- Read the value of an option, then further arguments. A value does not look like an
option. -/
def readValue (accepts : Accepts) (g : Given) (option : ValueOption) :
    List String → Except Stop Given
  | [] => .error .misuse
  | text :: rest =>
    match Form.ofText text with
    | .plain text => do readArguments accepts (← g.setValue option text) rest
    | _ => .error .misuse

end

inductive Verb where
  | build
  | repr
  | args
  | probe
  | help
deriving DecidableEq

namespace Verb

def name : Verb → String
  | build => "build"
  | repr => "repr"
  | args => "args"
  | probe => "probe"
  | help => "help"

def ofName? (text : String) : Option Verb :=
  [build, repr, args, probe, help].find? (·.name = text)

/-- The command of a verb with its arguments. Help can be asked about one verb. -/
def read (arguments : List String) : Verb → Except Stop Command
  | build => do
    let g ← readArguments buildAccepts .nothing arguments
    return .build (← g.need) g.output g.settings (g.flags.contains .probe)
      (g.flags.contains .double) (g.flags.contains .json)
  | repr => do
    let g ← readArguments showAccepts .nothing arguments
    return .repr (← g.need) g.settings
  | args => do
    let g ← readArguments showAccepts .nothing arguments
    return .args (← g.need) g.settings
  | probe => do
    let _ ← readArguments probeAccepts .nothing arguments
    return .probe
  | help =>
    match arguments with
    | [] => .error .help
    | [topic] => .error (if (ofName? topic).isSome then .help else .misuse)
    | _ => .error .misuse

end Verb

/-- The command of a command line. Its first argument is a verb, or asks for help or for
the version. -/
def read : List String → Except Stop Command
  | [] => .error .misuse
  | text :: rest =>
    match Form.ofText text with
    | .plain name =>
      match Verb.ofName? name with
      | some verb => verb.read rest
      | none => .error .misuse
    | .long "help" none => .error .help
    | .long "version" none => .error .version
    | .short 'h' _ => .error .help
    | .short 'V' _ => .error .version
    | _ => .error .misuse

end CommandLine

end LinearKernels
