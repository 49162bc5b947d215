import LinearKernels.Diagnostic
import LinearKernels.ElementType
import LinearKernels.Handle

/-!
Ways in which terms and plans can be misused. None of them depends on the machine: each is
a malformed term, a term that was not bound, or a setting out of range.
-/

namespace LinearKernels

inductive Fault where
  | unbound
  | invalidAlignment (width : Nat)
  | invalidLocalSize (size : Nat)
  | unsetAccessName (name : String) (pass : Nat)
  | typeMismatch (op lhs rhs : String)
  | layoutConflict (handle : Handle) (existing requested : String)
deriving DecidableEq

namespace Fault

def message : Fault → String
  | unbound => "unbound argument: kernel argument used before bind"
  | invalidAlignment width =>
      "invalid alignment " ++ decimal width ++ " (expected 1, 2, 4, 8 or 16)"
  | invalidLocalSize size =>
      "invalid work-group size " ++ decimal size ++
        " (expected a power of two no larger than 1024)"
  | unsetAccessName name pass =>
      "unset access name for '" ++ name ++ "' in kernel " ++ decimal pass
  | typeMismatch op lhs rhs =>
      "type mismatch: cannot apply '" ++ op ++ "' to " ++ lhs ++ " and " ++ rhs
  | layoutConflict handle existing requested =>
      "buffer " ++ handle.text ++ " is bound as " ++ existing ++ " but used as " ++ requested

def diagnostic (fault : Fault) (span : Span) : Diagnostic :=
  let d := Diagnostic.error fault.message span
  match fault with
  | typeMismatch _ _ _ => d.withHelp
      ("`*` needs a scalar operand unless it is a matrix product, " ++
        "`/` needs a scalar divisor, other operators need matching shapes")
  | layoutConflict _ _ _ =>
      d.withNote "every reference to one buffer must use the same element type and view"
  | invalidAlignment _ => d.withHelp "alignment must be one of 1, 2, 4, 8 or 16"
  | invalidLocalSize _ =>
      d.withHelp "set `generator.local_size` to a power of two no larger than 1024"
  | unbound | unsetAccessName _ _ =>
      d.withNote "this is an internal error in kernel generation"

end Fault

def Alignment.ofWidth (n : Nat) : Except Fault Alignment :=
  match Alignment.ofWidth? n with
  | some a => .ok a
  | none => .error (.invalidAlignment n)

end LinearKernels
