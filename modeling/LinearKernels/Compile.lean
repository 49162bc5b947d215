import LinearKernels.Parse
import LinearKernels.Program

/-!
From source text to program: parse, lower, check the device, plan, name, emit. A cache keeps
compiled programs by context and name and counts how often it was asked with and without
success.
-/

namespace LinearKernels

/-- What is known of the device a program is made for. -/
structure Device where
  name : String
  supportsDouble : Bool
deriving DecidableEq

namespace Device

def offline (supportsDouble : Bool) : Device :=
  ⟨"offline", supportsDouble⟩

def supports (d : Device) (e : ElementType) : Bool :=
  !e.needsDouble || d.supportsDouble

/-- A complaint about a statement with an element type the device does not support; the
first such type is named. -/
def complaint? (d : Device) (s : Statement) : Option Diagnostic :=
  (s.tree.arguments.find? fun a => !d.supports a.element).map fun a =>
    let message := "device '" ++ d.name ++ "' does not support " ++ a.element.name
    (Diagnostic.error message s.span).withHelp "use float, or target a device with cl_khr_fp64"

def check (d : Device) (statements : List Statement) : Checked Unit :=
  match statements.filterMap d.complaint? with
  | [] => .ok ()
  | ds => .error ds

end Device

/-- Everything that shapes a compilation besides the source. Programs are used again within
one context only. -/
structure Options where
  settings : Settings
  device : Device
  context : String
deriving DecidableEq

def Options.standard : Options :=
  ⟨.standard, .offline true, "default"⟩

/-- A result of planning or emission, with a fault as a complaint about the first
statement. -/
def Checked.ofFault {α : Type} (statements : List Statement) : Except Fault α → Checked α
  | .ok a => .ok a
  | .error f => .error [f.diagnostic ((statements.head?.map (·.span)).getD .origin)]

def planSource (options : Options) (source : String) : Checked Plan := do
  let file ← parseSource 0 source
  let statements ← file.lower options.settings
  options.device.check statements
  Checked.ofFault statements (schedule options.settings statements)

namespace Plan

def programName (settings : Settings) (plan : Plan) : Checked String := do
  let keys ← Checked.ofFault plan.statements plan.keys
  return LinearKernels.programName settings.stem (";".intercalate keys) settings.localSize

def toProgram (settings : Settings) (name : String) (plan : Plan) : Checked Program :=
  Checked.ofFault plan.statements do
    let listing ← plan.emit name settings
    let keys ← plan.keys
    let shortKeys ← plan.shortKeys
    return {
      name := name
      key := ";".intercalate keys
      shortKey := ";".intercalate shortKeys
      source := listing.source
      kernels := listing.kernels
      statements := (plan.statements.zip (keys.zip shortKeys)).map fun (s, key, shortKey) =>
        ⟨key, shortKey, s.span⟩ }

end Plan

def compile (options : Options) (source : String) : Checked Program := do
  let plan ← planSource options source
  let name ← plan.programName options.settings
  plan.toProgram options.settings name

def compileAll (options : Options) (sources : List String) : List (Checked Program) :=
  sources.map (compile options)

/-! ### Cache -/

structure Cache (α : Type) where
  entries : List ((String × String) × α)
  hits : Nat
  misses : Nat

namespace Cache

variable {α : Type}

def empty : Cache α := ⟨[], 0, 0⟩

def size (c : Cache α) : Nat :=
  c.entries.length

def find? (c : Cache α) (context program : String) : Option α :=
  c.entries.lookup (context, program)

/-- Look a program up, and count the hit or the miss. -/
def get (c : Cache α) (context program : String) : Option α × Cache α :=
  match c.find? context program with
  | some a => (some a, { c with hits := c.hits + 1 })
  | none => (none, { c with misses := c.misses + 1 })

def contains (c : Cache α) (context program : String) : Bool :=
  (c.find? context program).isSome

/-- A program takes the place of an earlier one of the same context and name. -/
def insert (c : Cache α) (context program : String) (a : α) : Cache α :=
  { c with entries := ((context, program), a) :: c.entries.filter (·.1 ≠ (context, program)) }

/-- Drop all programs of a context, and say how many there were. -/
def invalidate (c : Cache α) (context : String) : Nat × Cache α :=
  let kept := c.entries.filter (·.1.1 ≠ context)
  (c.size - kept.length, { c with entries := kept })

end Cache

/-- Compile, or take the program of the same name from the cache. -/
def compileCached (options : Options) (source : String) (cache : Cache Program) :
    Checked Program × Cache Program :=
  match planSource options source with
  | .error ds => (.error ds, cache)
  | .ok plan =>
    match plan.programName options.settings with
    | .error ds => (.error ds, cache)
    | .ok name =>
      match cache.get options.context name with
      | (some program, cache) => (.ok program, cache)
      | (none, cache) =>
        match plan.toProgram options.settings name with
        | .error ds => (.error ds, cache)
        | .ok program => (.ok program, cache.insert options.context program.name program)

end LinearKernels
