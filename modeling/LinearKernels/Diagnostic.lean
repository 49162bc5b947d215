import LinearKernels.Span

/-!
Complaints about a source text: a message at a span, with notes in the order they
were added and at most one line of help.
-/

namespace LinearKernels

inductive Severity where
  | error
  | warning
deriving DecidableEq

structure Diagnostic where
  severity : Severity
  message : String
  span : Span
  notes : List String
  help : Option String
deriving DecidableEq

namespace Diagnostic

def error (message : String) (span : Span) : Diagnostic :=
  ⟨.error, message, span, [], none⟩

def warning (message : String) (span : Span) : Diagnostic :=
  ⟨.warning, message, span, [], none⟩

/-- Notes keep the order in which they were added. -/
def withNote (d : Diagnostic) (note : String) : Diagnostic :=
  { d with notes := d.notes ++ [note] }

/-- A later help line replaces an earlier one. -/
def withHelp (d : Diagnostic) (help : String) : Diagnostic :=
  { d with help := some help }

def isError (d : Diagnostic) : Bool :=
  d.severity = .error

end Diagnostic

end LinearKernels
