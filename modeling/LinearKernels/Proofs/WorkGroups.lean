import Mathlib.Algebra.Order.BigOperators.Group.Finset
import LinearKernels.Proofs.KernelInstructions
import LinearKernels.Proofs.UnsignedNumbers

/-!
Work groups. Conditions and indices of a kernel text are about unsigned numbers that each item has
for itself, so what an item does is a list of actions that the memory has no part in. The items
of a group act in any order, one action at a time; at a barrier an item waits for all others. A
run that does not end, an action that is not defined and a barrier that some item never comes to
are all told apart from a run that ends.
-/

namespace LinearKernels

/-! ### What an item does -/

/-- A store, with the item's numbers at that time, or a barrier. -/
inductive ItemAction where
  | store (ρ : Values) (target value : CodeExpr)
  | barrier

/-- With the given numbers, the instructions make the item act in this way. -/
inductive Plays (w : WorkItem) : Values → List Instruction → List ItemAction → Prop
  | nil {ρ : Values} : Plays w ρ [] []
  | count {ρ : Values} {name : String} {value : CodeExpr} {n : Nat}
      {cs : List Instruction} {acts : List ItemAction} (hn : value.unsigned? w ρ = some n)
      (h : Plays w (ρ.set name n) cs acts) :
      Plays w ρ (.count name value :: cs) acts
  | store {ρ : Values} {target value : CodeExpr} {cs : List Instruction} {acts : List ItemAction}
      (h : Plays w ρ cs acts) :
      Plays w ρ (.store target value :: cs) (.store ρ target value :: acts)
  | share {ρ : Values} {name : String} {size : Nat} {cs : List Instruction}
      {acts : List ItemAction} (h : Plays w ρ cs acts) : Plays w ρ (.share name size :: cs) acts
  | barrier {ρ : Values} {cs : List Instruction} {acts : List ItemAction}
      (h : Plays w ρ cs acts) :
      Plays w ρ (.barrier :: cs) (.barrier :: acts)
  | again {ρ : Values} {condition : CodeExpr} {body cs : List Instruction}
      {acts : List ItemAction} (hholds : condition.holds? w ρ = some true)
      (h : Plays w ρ (body ++ .loop condition body :: cs) acts) :
      Plays w ρ (.loop condition body :: cs) acts
  | leave {ρ : Values} {condition : CodeExpr} {body cs : List Instruction}
      {acts : List ItemAction} (hholds : condition.holds? w ρ = some false)
      (h : Plays w ρ cs acts) :
      Plays w ρ (.loop condition body :: cs) acts
  | enter {ρ : Values} {condition : CodeExpr} {body cs : List Instruction}
      {acts : List ItemAction} (hholds : condition.holds? w ρ = some true)
      (h : Plays w ρ (body ++ cs) acts) :
      Plays w ρ (.guard condition body :: cs) acts
  | pass {ρ : Values} {condition : CodeExpr} {body cs : List Instruction} {acts : List ItemAction}
      (hholds : condition.holds? w ρ = some false) (h : Plays w ρ cs acts) :
      Plays w ρ (.guard condition body :: cs) acts

/-- An item has no choice. -/
theorem Plays.unique {w : WorkItem} {ρ : Values} {cs : List Instruction}
    {acts acts' : List ItemAction} (h : Plays w ρ cs acts) (h' : Plays w ρ cs acts') :
    acts = acts' := by
  induction h generalizing acts' with
  | nil =>
    cases h' with
    | nil => rfl
  | count hn _ ih =>
    cases h' with
    | count hn' h' =>
      obtain rfl := Option.some.inj (hn.symm.trans hn')
      exact ih h'
  | store _ ih =>
    cases h' with
    | store h' => rw [ih h']
  | share _ ih =>
    cases h' with
    | share h' => exact ih h'
  | barrier _ ih =>
    cases h' with
    | barrier h' => rw [ih h']
  | again hholds _ ih =>
    cases h' with
    | again _ h' => exact ih h'
    | leave hholds' h' => cases hholds.symm.trans hholds'
  | leave hholds _ ih =>
    cases h' with
    | again hholds' h' => cases hholds.symm.trans hholds'
    | leave _ h' => exact ih h'
  | enter hholds _ ih =>
    cases h' with
    | enter _ h' => exact ih h'
    | pass hholds' h' => cases hholds.symm.trans hholds'
  | pass hholds _ ih =>
    cases h' with
    | enter hholds' h' => cases hholds.symm.trans hholds'
    | pass _ h' => exact ih h'

/-! ### Elements -/

/-- What the items of a group share, and what each has for itself. -/
structure GroupState (V : Type) where
  memory : Memory V
  shared : String → Nat → V
  own : Nat → String → V

namespace GroupState

variable {V : Type}

def setShared (s : GroupState V) (name : String) (n : Nat) (v : V) : GroupState V :=
  { s with shared := fun a i => if a = name ∧ i = n then v else s.shared a i }

def setOwn (s : GroupState V) (t : Nat) (name : String) (v : V) : GroupState V :=
  { s with own := fun u x => if u = t ∧ x = name then v else s.own u x }

variable (s : GroupState V) (t n : Nat) (name : String) (v : V)

@[simp] theorem memory_setShared : (s.setShared name n v).memory = s.memory := rfl

@[simp] theorem own_setShared : (s.setShared name n v).own = s.own := rfl

@[simp] theorem memory_setOwn : (s.setOwn t name v).memory = s.memory := rfl

@[simp] theorem shared_setOwn : (s.setOwn t name v).shared = s.shared := rfl

@[simp] theorem shared_setShared_same : (s.setShared name n v).shared name n = v :=
  if_pos ⟨rfl, rfl⟩

theorem shared_setShared_ne {m : Nat} (h : m ≠ n) :
    (s.setShared name n v).shared name m = s.shared name m :=
  if_neg fun hsame => h hsame.2

@[simp] theorem own_setOwn_same : (s.setOwn t name v).own t name = v :=
  if_pos ⟨rfl, rfl⟩

theorem own_setOwn_ne {u : Nat} (h : u ≠ t) : (s.setOwn t name v).own u = s.own u :=
  funext fun _ => if_neg fun hsame => h hsame.1

end GroupState

/-- The record of the parameter with the given name. -/
def Registry.named? (reg : Registry) (name : String) : Option Record :=
  reg.records.find? (·.name = name)

/-- The operations on elements, the records of the kernel's parameters, and the sizes of the
arrays that a group shares. -/
structure KernelScope (V : Type) where
  machine : Machine V
  registry : Registry
  arrays : String → Option Nat

/-- The sizes of the arrays in the instructions. -/
def Instruction.arrays (cs : List Instruction) (name : String) : Option Nat :=
  cs.findSome? fun
    | .share x size => if x = name then some size else none
    | _ => none

namespace CodeOp

/-- The operation on elements. -/
def arithmetic? : CodeOp → Option BinaryOp
  | add => some .add
  | sub => some .sub
  | mul => some .mul
  | div => some .div
  | _ => none

end CodeOp

/-- The functions of one argument. -/
def function? : String → Option UnaryOp
  | "exp" => some .exp
  | "log" => some .log
  | "sqrt" => some .sqrt
  | "sin" => some .sin
  | "cos" => some .cos
  | "tan" => some .tan
  | "tanh" => some .tanh
  | "fabs" => some .fabs
  | _ => none

/-- The functions of two arguments. -/
def pairFunction? : String → Option BinaryOp
  | "pow" => some .pow
  | "fmax" => some .max
  | "fmin" => some .min
  | _ => none

namespace KernelScope

variable {V : Type} (K : KernelScope V)

/-- The cell of the memory that a parameter gives at an index. Host scalars have none. -/
def buffer? (name : String) : Option Handle := do
  let r ← K.registry.named? name
  if r.signature = Storage.hostScalar.signature then none else some r.handle

/-- The element that an expression stands for. The only numeral is zero. -/
def element? (w : WorkItem) (ρ : Values) (s : GroupState V) : CodeExpr → Option V
  | .word text =>
    if text.toList.all Char.isDigit then
      if decimalValue text.toList = 0 then some K.machine.zero else none
    else
      match K.registry.named? text with
      | some r =>
        if r.signature = Storage.hostScalar.signature then some (s.memory r.handle (0, 0))
        else none
      | none => some (s.own w.id text)
  | .element name e => do
    let n ← e.unsigned? w ρ
    match K.arrays name with
    | some size => if n < size then some (s.shared name n) else none
    | none => return s.memory (← K.buffer? name) (n, 0)
  | .call f (.binary .comma lhs rhs) => do
    return K.machine.binary (← pairFunction? f) (← element? w ρ s lhs) (← element? w ρ s rhs)
  | .call f e => do return K.machine.unary (← function? f) (← element? w ρ s e)
  | .neg e => do return K.machine.unary .neg (← element? w ρ s e)
  | .binary op lhs rhs => do
    return K.machine.binary (← op.arithmetic?) (← element? w ρ s lhs) (← element? w ρ s rhs)

/-- Store an element. Parameters without a buffer and numerals are not stored to. -/
def store? (w : WorkItem) (ρ : Values) (s : GroupState V) (target : CodeExpr) (v : V) :
    Option (GroupState V) :=
  match target with
  | .word text =>
    if text.toList.all Char.isDigit ∨ (K.registry.named? text).isSome then none
    else some (s.setOwn w.id text v)
  | .element name e => do
    let n ← e.unsigned? w ρ
    match K.arrays name with
    | some size => if n < size then some (s.setShared name n v) else none
    | none => return { s with memory := s.memory.write (← K.buffer? name) (n, 0) v }
  | _ => none

/-- An item does something on its own. -/
def act? (w : WorkItem) (s : GroupState V) : ItemAction → Option (GroupState V)
  | .store ρ target value => do K.store? w ρ s target (← K.element? w ρ s value)
  | .barrier => none

end KernelScope

/-! ### Runs of a group -/

/-- What is shared, and what each item still has to do. -/
structure GroupRun (S : Type) where
  state : S
  todo : Nat → List ItemAction

namespace GroupRun

variable {S : Type} (act? : Nat → S → ItemAction → Option S) (size : Nat)

/-- One item acts, or all pass a barrier. -/
inductive Step (c : GroupRun S) : GroupRun S → Prop
  | act {t : Nat} {a : ItemAction} {rest : List ItemAction}
      {s : S} (ht : t < size) (htodo : c.todo t = a :: rest) (hs : act? t c.state a = some s) :
      Step c ⟨s, fun u => if u = t then rest else c.todo u⟩
  | sync (h : ∀ t < size, (c.todo t).head? = some .barrier) :
    Step c ⟨c.state, fun t => (c.todo t).tail⟩

def Finished (c : GroupRun S) : Prop :=
  ∀ t < size, c.todo t = []

/-- In whatever order the items act, they all finish, and then the state satisfies `P`. -/
inductive Settles (P : S → Prop) : GroupRun S → Prop
  | finished {c : GroupRun S} (h : c.Finished size) (hP : P c.state) : Settles P c
  | step {c : GroupRun S} (hstep : ∃ c', c.Step act? size c')
      (h : ∀ c', c.Step act? size c' → Settles P c') :
      Settles P c

/-- The number of actions that are left. -/
def remaining (c : GroupRun S) : Nat :=
  ∑ t ∈ Finset.range size, (c.todo t).length

variable {act? size} {c c' : GroupRun S}

theorem Step.remaining_lt (hsize : 0 < size) (h : c.Step act? size c') :
    c'.remaining size < c.remaining size := by
  cases h with
  | @act t a rest s ht htodo hs =>
    refine Finset.sum_lt_sum (fun u hu => ?_) ⟨t, Finset.mem_range.mpr ht, ?_⟩
    · by_cases hut : u = t
      · subst hut
        simp [htodo]
      · simp [hut]
    · simp [htodo]
  | sync hbarrier =>
    refine Finset.sum_lt_sum (fun u hu => ?_) ⟨0, Finset.mem_range.mpr hsize, ?_⟩
    · simp
    · obtain ⟨rest, hrest⟩ := List.head?_eq_some_iff.mp (hbarrier 0 hsize)
      simp [hrest]

/-- An invariant that leaves something to do until all have finished. -/
theorem settles_of_invariant {P : S → Prop} {Inv : GroupRun S → Prop} (hsize : 0 < size)
    (hprogress : ∀ c, Inv c → (c.Finished size ∧ P c.state) ∨ ∃ c', c.Step act? size c')
    (hkeeps : ∀ c c', Inv c → c.Step act? size c' → Inv c') (h : Inv c) :
    c.Settles act? size P := by
  induction hn : c.remaining size using Nat.strong_induction_on generalizing c with
  | _ n ih =>
    rcases hprogress c h with ⟨hfinished, hP⟩ | hstep
    · exact .finished hfinished hP
    · refine .step hstep fun c' hc' => ?_
      exact ih _ (hn ▸ hc'.remaining_lt hsize) (hkeeps c c' h hc') rfl

end GroupRun

end LinearKernels
