import LinearKernels.Command

/-!
The command-line program: the commands over the files of the machine.
-/

namespace LinearKernels

def FileFault.ofError : IO.Error → FileFault
  | .noFileOrDirectory _ _ _ => .notFound
  | .inappropriateType _ 20 _ => .notDirectory
  | .inappropriateType _ 21 _ => .isDirectory
  | .invalidArgument _ 36 _ => .nameTooLong
  | e => .other (toString e)

def machineFiles : FileSystem IO where
  isFile path := do
    try return (← ((← IO.currentDir) / path).metadata).type matches .file
    catch _ => return false
  read path := do
    try
      let bytes ← IO.FS.readBinFile path
      return textOfBytes bytes.toList
    catch e => return .error (.ofError e)
  write path text := do
    try
      IO.FS.writeFile path text
      return .ok ()
    catch e => return .error (.ofError e)

/-- A complaint on one line, with its notes and help below. -/
def Diagnostic.render (file : String) (d : Diagnostic) : String :=
  file ++ ":" ++ decimal d.span.start ++ ".." ++ decimal d.span.stop ++ ": " ++
    (if d.isError then "error" else "warning") ++ ": " ++ d.message ++ "\n" ++
    String.join (d.notes.map fun note => "  note: " ++ note ++ "\n") ++
    (match d.help with
      | some help => "  help: " ++ help ++ "\n"
      | none => "")

end LinearKernels

open LinearKernels in
def main (arguments : List String) : IO UInt32 := do
  let outcome ← Command.run machineFiles arguments
  IO.print outcome.stdout
  IO.eprint outcome.stderr
  for d in outcome.diagnostics do
    IO.eprint (d.render outcome.file)
  return outcome.code.toUInt32
