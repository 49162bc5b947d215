import LinearKernels.Address
import LinearKernels.Fault

/-!
Records of the buffers of one compilation. A registry holds one record for each handle, in
the order in which the handles were first seen; the record's number gives the parameter its
name. A context adds the temporaries handed out so far and the kernel being bound.
-/

namespace LinearKernels

/-- What is known about one buffer. `access` gives, for a kernel number, the text by which
the buffer is reached in that kernel. -/
structure Record where
  id : Nat
  handle : Handle
  element : ElementType
  signature : String
  alignment : Alignment
  access : List (Nat × String)
deriving DecidableEq

namespace Record

def name (r : Record) : String :=
  "arg" ++ decimal r.id

def accessName? (r : Record) (pass : Nat) : Option String :=
  r.access.lookup pass

def accessName (r : Record) (pass : Nat) : Except Fault String :=
  match r.accessName? pass with
  | some text => .ok text
  | none => .error (.unsetAccessName r.name pass)

/-- The latest text given for a kernel is the one in force. -/
def setAccessName (r : Record) (pass : Nat) (text : String) : Record :=
  { r with access := (pass, text) :: r.access.filter (·.1 ≠ pass) }

/-- Give the kernel `pass` a text unless it has one. -/
def ensureAccessName (r : Record) (pass : Nat) (text : String) : Record :=
  match r.accessName? pass with
  | some _ => r
  | none => r.setAccessName pass text

/-- Widths only grow. -/
def raiseAlignment (r : Record) (a : Alignment) : Record :=
  { r with alignment := r.alignment.raise a }

def elementText (r : Record) : String :=
  r.alignment.vectorType r.element

end Record

structure Registry where
  records : List Record
deriving DecidableEq

namespace Registry

def empty : Registry := ⟨[]⟩

def size (reg : Registry) : Nat :=
  reg.records.length

/-- The record with number `id`. A number the registry has not given out is unbound. -/
def get (reg : Registry) (id : Nat) : Except Fault Record :=
  match reg.records[id]? with
  | some r => .ok r
  | none => .error .unbound

def find? (reg : Registry) (h : Handle) : Option Record :=
  reg.records.find? (·.handle = h)

def lookup (reg : Registry) (h : Handle) : Option Nat :=
  (reg.find? h).map (·.id)

def modify (reg : Registry) (id : Nat) (f : Record → Record) : Registry :=
  ⟨reg.records.modify id f⟩

/-- The number of the record of `h`, which is added if there is none. A handle that is
present has to be asked for with the same element type and signature. -/
def register (reg : Registry) (h : Handle) (e : ElementType) (signature : String) :
    Except Fault (Nat × Registry) :=
  match reg.find? h with
  | some r =>
    if r.element = e ∧ r.signature = signature then .ok (r.id, reg)
    else .error (.layoutConflict h (r.signature ++ " " ++ r.element.name)
      (signature ++ " " ++ e.name))
  | none => .ok (reg.size, ⟨reg.records ++ [⟨reg.size, h, e, signature, .one, []⟩]⟩)

def usesDouble (reg : Registry) : Bool :=
  reg.records.any (·.element.needsDouble)

end Registry

/-- The keys that have a temporary; the position of a key is the temporary's number. -/
structure Temporaries where
  keys : List String
deriving DecidableEq

namespace Temporaries

def empty : Temporaries := ⟨[]⟩

def count (t : Temporaries) : Nat :=
  t.keys.length

/-- The temporary of `key`, which is made on first use. -/
def claim (t : Temporaries) (key : String) : Handle × Temporaries :=
  match t.keys.idxOf? key with
  | some i => (.temporary i, t)
  | none => (.temporary t.count, ⟨t.keys ++ [key]⟩)

def contains (t : Temporaries) : Handle → Bool
  | .buffer _ => false
  | .temporary i => i < t.count

end Temporaries

/-- The state of binding: records, temporaries, and the kernel whose texts are recorded. -/
structure Context where
  registry : Registry
  temporaries : Temporaries
  pass : Nat
deriving DecidableEq

namespace Context

def empty : Context := ⟨.empty, .empty, 0⟩

def withPass (ctx : Context) (pass : Nat) : Context :=
  { ctx with pass := pass }

end Context

end LinearKernels
