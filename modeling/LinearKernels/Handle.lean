import LinearKernels.Numeral

/-!
Identities of memory objects. Buffers of the caller and temporaries of a plan are numbered
apart, so no buffer is ever a temporary. All buffers come before all temporaries.
-/

namespace LinearKernels

inductive Handle where
  | buffer (key : Nat)
  | temporary (index : Nat)
deriving DecidableEq

namespace Handle

def isTemporary : Handle → Bool
  | buffer _ => false
  | temporary _ => true

def text : Handle → String
  | buffer key => "0x" ++ hexadecimal key
  | temporary index => "tmp" ++ decimal index

/-- The order of kernel parameters. -/
def less : Handle → Handle → Bool
  | buffer a, buffer b => a < b
  | buffer _, temporary _ => true
  | temporary _, buffer _ => false
  | temporary a, temporary b => a < b

end Handle

end LinearKernels
