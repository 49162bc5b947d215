import LinearKernels.Proofs.KeyIdentity
import LinearKernels.Proofs.PhraseValues
import LinearKernels.Proofs.Rebinding

/-!
What the code of a term means. An interpretation says what the leaves, the registers of matrix
products and the operators stand for. Nothing is assumed about it: its values may be numbers,
and they may as well be computations that read and assign a memory in some order. Under every
interpretation the code of a term, read as an expression, has the value of the term itself.
-/

namespace LinearKernels

/-- What the parts of an expression stand for. An assignment stands for something that depends
on its place and on the assigned value. -/
structure Interpretation (V : Type) where
  numeral : Nat → V
  scalar : Handle → V
  cell : Handle → Nat → V
  register : String → V
  negation : V → V
  arithmetic : CodeOp → V → V → V
  function : String → V → V
  pairFunction : String → V → V → V
  store : CodeOp → Handle → Nat → V → V

variable {V : Type}

/-! ### Expressions -/

namespace CodeOp

def isAssignment (op : CodeOp) : Bool :=
  op.power = assign.power

def isArithmetic (op : CodeOp) : Bool :=
  op.arithmetic?.isSome

end CodeOp

namespace CodeExpr

variable (reg : Registry) (w : WorkItem) (ρ : Values)

/-- The place in a buffer that an expression stands for. A host scalar has no buffer. -/
def place? : CodeExpr → Option (Handle × Nat)
  | .element name index => do
    let r ← reg.named? name
    let n ← index.index? w ρ
    if r.signature = Storage.hostScalar.signature then none else some (r.handle, n)
  | _ => none

/-- The value of an expression. A pair has no value of its own, and neither has a comparison. -/
def meaning? (I : Interpretation V) : CodeExpr → Option V
  | .word text =>
    if text.toList.all Char.isDigit then some (I.numeral (decimalValue text.toList))
    else
      match reg.named? text with
      | some r =>
        if r.signature = Storage.hostScalar.signature then some (I.scalar r.handle) else none
      | none => some (I.register text)
  | .element name index => (place? reg w ρ (.element name index)).map fun p => I.cell p.1 p.2
  | .call f (.binary .comma lhs rhs) => do
    return I.pairFunction f (← lhs.meaning? I) (← rhs.meaning? I)
  | .call f e => do return I.function f (← e.meaning? I)
  | .neg e => do return I.negation (← e.meaning? I)
  | .binary op lhs rhs => do
    let v ← rhs.meaning? I
    if op.isAssignment then
      let p ← lhs.place? reg w ρ
      return I.store op p.1 p.2 v
    else if op.isArithmetic then return I.arithmetic op (← lhs.meaning? I) v
    else none

end CodeExpr

/-! ### Terms -/

namespace Interpretation

variable (I : Interpretation V)

def unary : UnaryOp → V → V
  | .neg => I.negation
  | op => I.function op.name

/-- The operations that only compute. Products of elements are products, and so are scalings. -/
def binary? : BinaryOp → Option (V → V → V)
  | .add => some (I.arithmetic .add)
  | .sub => some (I.arithmetic .sub)
  | .mul | .elementProd => some (I.arithmetic .mul)
  | .div | .elementDiv => some (I.arithmetic .div)
  | .pow => some (I.pairFunction "pow")
  | .max => some (I.pairFunction "fmax")
  | .min => some (I.pairFunction "fmin")
  | .assign | .inplaceAdd | .inplaceSub | .prod => none

end Interpretation

/-- The assignment that the operation is. -/
def BinaryOp.storing? : BinaryOp → Option CodeOp
  | assign => some .assign
  | inplaceAdd => some .addAssign
  | inplaceSub => some .subAssign
  | _ => none

namespace Argument

variable (reg : Registry) (ρ : Values)

/-- The place of the current element of the argument. -/
def place? (a : Argument) : Option (Handle × Nat) :=
  match a.storage with
  | .hostScalar => none
  | .deviceScalar => some (a.handle, 0)
  | .vector v => some (a.handle, ρ rowIndex * v.stride + v.start)
  | .matrix l => (a.name reg).toOption.map fun name =>
      (a.handle, l.flatten ρ name (l.position ρ name (ρ rowIndex) (ρ colIndex)))

/-- The current element of the argument. -/
def meaning? (I : Interpretation V) (a : Argument) : Option V :=
  if a.storage = .hostScalar then some (I.scalar a.handle)
  else (a.place? reg ρ).map fun p => I.cell p.1 p.2

end Argument

namespace Term

variable (reg : Registry) (ρ : Values)

def place? : Term → Option (Handle × Nat)
  | leaf arg => arg.place? reg ρ
  | _ => none

/-- The value of a term. A matrix product stands for its register, and an inner product for its
temporary or, before it is computed, for the product of the current elements. -/
def meaning? (I : Interpretation V) : Term → Option V
  | leaf arg => arg.meaning? reg ρ I
  | unary op sub => (sub.meaning? I).map (I.unary op)
  | binary op lhs rhs => do
    let v ← rhs.meaning? I
    match op.storing? with
    | some assignment => (lhs.place? reg ρ).map fun p => I.store assignment p.1 p.2 v
    | none => do return (← I.binary? op) (← lhs.meaning? I) v
  | matMat lhs rhs | matVec lhs rhs =>
    (pairKey reg .prod lhs rhs).toOption.map fun key => I.register (accumulator key 0 0)
  | inner _ _ (some _) temporary => temporary.bind (·.meaning? reg ρ I)
  | inner lhs rhs none _ => do return I.arithmetic .mul (← lhs.meaning? I) (← rhs.meaning? I)

end Term

/-! ### Arguments and their expressions -/

/-- The offset of a matrix element, read as an expression. -/
theorem Layout.index?_phrase (l : Layout) {name : String} (hname : AllWord name)
    (w : WorkItem) (ρ : Values) :
    (l.phrase name (.word rowIndex) (.word colIndex)).index? w ρ =
      some (l.flatten ρ name (l.position ρ name (ρ rowIndex) (ρ colIndex))) := by
  have hrow : ρ.word rowIndex = ρ rowIndex := isName_rowIndex.value ρ
  have hcol : ρ.word colIndex = ρ colIndex := isName_colIndex.value ρ
  have hsizes : ∀ x ∈ matrixParameters name, ρ.word x = ρ x :=
    fun x hx => (hname.isName_of_mem hx).value ρ
  simp only [matrixParameters, List.forall_mem_cons, List.not_mem_nil, false_implies,
    implies_true, and_true] at hsizes
  obtain ⟨hrowStart, hcolStart, hrowInc, hcolInc, hsize₁, hsize₂⟩ := hsizes
  obtain ⟨rowMajor, transposed⟩ := l
  cases rowMajor <;> cases transposed <;>
    simp [Layout.phrase, Layout.flatten, Layout.position, CodeExpr.index?, CodeExpr.number?, hrow,
      hcol, hrowStart, hcolStart, hrowInc, hcolInc, hsize₁, hsize₂]

section Meanings

variable {reg : Registry} {w : WorkItem} {ρ : Values} {I : Interpretation V}

namespace Argument

variable {a : Argument}

/-- A bound argument with a buffer has its place, and its expression stands for that place. -/
theorem exists_place (hs : reg.Sound) (hb : a.BoundIn reg) (hstorage : a.storage ≠ .hostScalar) :
    ∃ p, a.place? reg ρ = some p ∧ (a.phrase reg).place? reg w ρ = some p := by
  obtain ⟨i, r, hi, hr, hhandle, -, hsignature⟩ := hb
  have hname : a.name reg = .ok r.name := name_of_info (info_eq_ok_iff.mpr ⟨i, hi, hr⟩)
  have hnamed := hs.named?_name hr
  have hother : r.signature ≠ Storage.hostScalar.signature := fun hsame =>
    hstorage (Storage.eq_of_signature_eq (hsignature.symm.trans hsame))
  have helement : ∀ {index : CodeExpr} {n : Nat}, index.index? w ρ = some n →
      (CodeExpr.element r.name index).place? reg w ρ = some (a.handle, n) := by
    intro index n hn
    simp [CodeExpr.place?, hnamed, hn, hother, hhandle]
  rw [phrase, hname]
  cases hstorage : a.storage with
  | hostScalar => contradiction
  | deviceScalar => exact ⟨(a.handle, 0), by rw [place?, hstorage], helement rfl⟩
  | vector v => exact ⟨_, by rw [place?, hstorage], helement (v.index?_phrase w ρ)⟩
  | matrix l =>
    exact ⟨_, by rw [place?, hstorage, hname]; rfl,
      helement (l.index?_phrase r.isParameter_name.toIsWord.all w ρ)⟩

/-- The expression of a bound argument stands for its current element. -/
theorem exists_meaning (hs : reg.Sound) (hb : a.BoundIn reg) :
    ∃ v, a.meaning? reg ρ I = some v ∧ (a.phrase reg).meaning? reg w ρ I = some v := by
  by_cases hstorage : a.storage = .hostScalar
  · obtain ⟨i, r, hi, hr, hhandle, -, hsignature⟩ := hb
    have hname : a.name reg = .ok r.name := name_of_info (info_eq_ok_iff.mpr ⟨i, hi, hr⟩)
    have hdigits := r.isParameter_name.isName.notDigits
    rw [hstorage] at hsignature
    refine ⟨I.scalar a.handle, if_pos hstorage, ?_⟩
    simp [phrase, hname, hstorage, Storage.phrase, CodeExpr.meaning?, hdigits, hs.named?_name hr,
      hsignature, hhandle]
  · obtain ⟨p, hp, hp'⟩ := exists_place hs hb hstorage
    refine ⟨I.cell p.1 p.2, by rw [meaning?, if_neg hstorage, hp]; rfl, ?_⟩
    cases he : a.phrase reg with
    | element name index =>
      rw [he] at hp'
      rw [CodeExpr.meaning?, hp']
      rfl
    | word | call | neg | binary =>
      rw [he] at hp'
      cases hp'

end Argument

/-! ### Operations -/

/-- A function is applied to the value of its argument, which is no pair. -/
theorem UnaryOp.meaning?_phrase (op : UnaryOp) {e : CodeExpr} {v : V}
    (he : e.meaning? reg w ρ I = some v) :
    (op.phrase e).meaning? reg w ρ I = some (I.unary op v) := by
  have hcall : ∀ f, (CodeExpr.call f e).meaning? reg w ρ I = some (I.function f v) := by
    intro f
    rw [CodeExpr.meaning?]
    · simp [he]
    · rintro lhs rhs rfl
      simp [CodeExpr.meaning?, CodeOp.isAssignment, CodeOp.isArithmetic, CodeOp.arithmetic?,
        CodeOp.power] at he
  cases op with
  | neg => simp [UnaryOp.phrase, CodeExpr.meaning?, he, Interpretation.unary]
  | exp | log | sqrt | sin | cos | tan | tanh | fabs => exact hcall _

theorem BinaryOp.meaning?_phrase {op : BinaryOp} {f : V → V → V} (hop : I.binary? op = some f)
    {l r : CodeExpr} {v v' : V} (hl : l.meaning? reg w ρ I = some v)
    (hr : r.meaning? reg w ρ I = some v') :
    (op.phrase l r).meaning? reg w ρ I = some (f v v') := by
  cases op <;> cases hop <;>
    simp [BinaryOp.phrase, CodeExpr.meaning?, CodeOp.isAssignment, CodeOp.isArithmetic,
      CodeOp.arithmetic?, CodeOp.power, hl, hr]

theorem BinaryOp.meaning?_phrase_storing {op : BinaryOp} {assignment : CodeOp}
    (hop : op.storing? = some assignment) {l r : CodeExpr} {p : Handle × Nat} {v : V}
    (hl : l.place? reg w ρ = some p) (hr : r.meaning? reg w ρ I = some v) :
    (op.phrase l r).meaning? reg w ρ I = some (I.store assignment p.1 p.2 v) := by
  cases op <;> cases hop <;> simp [BinaryOp.phrase, CodeExpr.meaning?, CodeOp.isAssignment,
    CodeOp.power, hl, hr]

end Meanings

/-! ### Bound terms -/

namespace Term

/-- The term is bound, and what its code reaches in the kernel has the usual access text there:
the leaves outside matrix products, and the temporaries of the inner products that have been
computed. -/
structure BoundFor (reg : Registry) (pass : Nat) (t : Term) : Prop where
  leaves : t.LeavesBound reg
  reached : ∀ a ∈ t.reached, a.BoundIn reg ∧ a.UsualIn reg pass
  computed : ∀ m ∈ t.innerProducts, ∀ p, m.computed? = some p →
    ∃ lhs rhs cell, m = inner lhs rhs (some p) (some cell)

variable {reg : Registry} {pass : Nat} {w : WorkItem} {ρ : Values}
  {I : Interpretation V} {l r t : Term}

theorem BoundFor.operands (h : t.BoundFor reg pass) (hleaves : t.leaves = l.leaves ++ r.leaves)
    (hreached : t.reached = l.reached ++ r.reached)
    (hproducts : ∀ m ∈ l.innerProducts ++ r.innerProducts, m ∈ t.innerProducts) :
    l.BoundFor reg pass ∧ r.BoundFor reg pass := by
  obtain ⟨hl, hr⟩ :=
    List.forall_mem_append.mp (hleaves ▸ h.leaves : ∀ a ∈ l.leaves ++ r.leaves, a.BoundIn reg)
  obtain ⟨hul, hur⟩ := List.forall_mem_append.mp (hreached ▸ h.reached)
  obtain ⟨hpl, hpr⟩ := List.forall_mem_append.mp hproducts
  exact ⟨⟨hl, hul, fun m hm => h.computed m (hpl m hm)⟩,
    ⟨hr, hur, fun m hm => h.computed m (hpr m hm)⟩⟩

theorem BoundFor.binary {op : BinaryOp} (h : (binary op l r).BoundFor reg pass) :
    l.BoundFor reg pass ∧ r.BoundFor reg pass :=
  h.operands rfl rfl fun _ hm => hm

theorem BoundFor.uncomputed {temporary : Option Argument}
    (h : (inner l r none temporary).BoundFor reg pass) :
    l.BoundFor reg pass ∧ r.BoundFor reg pass :=
  h.operands rfl rfl fun _ hm => List.mem_append_left _ hm

theorem BoundFor.exists_cell {p : Nat} {temporary : Option Argument}
    (h : (inner l r (some p) temporary).BoundFor reg pass) :
    ∃ cell, temporary = some cell ∧ cell.BoundIn reg ∧ cell.UsualIn reg pass := by
  obtain ⟨lhs, rhs, cell, heq⟩ :=
    h.computed _ (self_mem_innerProducts l r (some p) temporary) p rfl
  obtain ⟨-, -, -, rfl⟩ := inner.inj heq
  exact ⟨cell, rfl, h.reached cell (List.mem_singleton_self cell)⟩

theorem BoundFor.exists_code (h : t.BoundFor reg pass) : ∃ text, t.code reg pass = .ok text := by
  have product : ∀ {l r : Term}, (∀ a ∈ l.leaves ++ r.leaves, a.BoundIn reg) →
      ∃ text : String, (do
      return accumulator (joinKeys .prod (← l.key reg) (← r.key reg)) 0 0) = Except.ok text := by
    intro l r hleaves
    obtain ⟨hl, hr⟩ := List.forall_mem_append.mp hleaves
    obtain ⟨kl, hkl⟩ := LeavesBound.exists_key hl
    obtain ⟨kr, hkr⟩ := LeavesBound.exists_key hr
    exact ⟨_, by rw [hkl, hkr]; rfl⟩
  induction t with
  | leaf arg =>
    obtain ⟨record, -, haccess⟩ := (h.reached arg (List.mem_singleton_self arg)).2
    exact ⟨_, haccess⟩
  | unary op sub ih =>
    obtain ⟨text, htext⟩ := ih ⟨h.leaves, h.reached, h.computed⟩
    exact ⟨_, by rw [code, htext]; rfl⟩
  | binary op l r ihl ihr =>
    obtain ⟨lhs, hlhs⟩ := ihl h.binary.1
    obtain ⟨rhs, hrhs⟩ := ihr h.binary.2
    exact ⟨_, by rw [code, hlhs, hrhs]; rfl⟩
  | matMat l r | matVec l r => exact product h.leaves
  | inner l r computed temporary ihl ihr =>
    cases computed with
    | none =>
      obtain ⟨lhs, hlhs⟩ := ihl h.uncomputed.1
      obtain ⟨rhs, hrhs⟩ := ihr h.uncomputed.2
      exact ⟨_, by rw [code, hlhs, hrhs]; rfl⟩
    | some p =>
      obtain ⟨cell, rfl, -, record, -, haccess⟩ := h.exists_cell
      exact ⟨_, haccess⟩

/-- Only a leaf that has a buffer can be assigned. -/
theorem exists_target {op : BinaryOp} {assignment : CodeOp} (hop : op.storing? = some assignment)
    (haccepts : accepts op l r = true) : ∃ arg, l = leaf arg ∧ arg.storage ≠ .hostScalar := by
  have hwriteable : l.isWriteable = true := by
    cases op <;> cases hop <;> simp_all [accepts]
  cases l with
  | leaf arg => exact ⟨arg, rfl, by simpa [isWriteable, Storage.isWriteable] using hwriteable⟩
  | unary | binary | matMat | matVec | inner => cases hwriteable

/-- Every accepted operation that is no assignment computes. -/
theorem exists_binary {op : BinaryOp} (hop : op.storing? = none)
    (haccepts : accepts op l r = true) :
    ∃ f, I.binary? op = some f := by
  cases op with
  | assign | inplaceAdd | inplaceSub => cases hop
  | prod => cases haccepts
  | add | sub | mul | div | elementProd | elementDiv | pow | max | min => exact ⟨_, rfl⟩

/-- The name of the register of a matrix product is no parameter's, and no numeral. -/
theorem meaning?_register {kl kr : String} (hl : l.key reg = .ok kl) (hr : r.key reg = .ok kr) :
    (CodeExpr.word (accumulator (joinKeys .prod kl kr) 0 0)).meaning? reg w ρ I =
      some (I.register (accumulator (joinKeys .prod kl kr) 0 0)) := by
  have hnamed :=
    reg.named?_eq_none (parameterWords_accumulator (allWord_key hl) (allWord_key hr) 0 0)
  have hdigits : (accumulator (joinKeys .prod kl kr) 0 0).toList.all Char.isDigit = false := by
    simp [accumulator, joinKeys]
  simp [CodeExpr.meaning?, hnamed, hdigits]

/-- The value of a bound and well-typed term is that of its expression. -/
theorem BoundFor.exists_meaning (hs : reg.Sound) (wt : t.WellTyped) (h : t.BoundFor reg pass) :
    ∃ v, t.meaning? reg ρ I = some v ∧ (t.phrase reg).meaning? reg w ρ I = some v := by
  induction t with
  | leaf arg => exact Argument.exists_meaning hs (h.leaves arg (List.mem_singleton_self arg))
  | unary op sub ih =>
    obtain ⟨v, hv, hv'⟩ := ih wt.1 ⟨h.leaves, h.reached, h.computed⟩
    exact ⟨I.unary op v, by rw [meaning?, hv]; rfl, op.meaning?_phrase hv'⟩
  | binary op l r ihl ihr =>
    obtain ⟨v', hr, hr'⟩ := ihr wt.2.1 h.binary.2
    cases hstoring : op.storing? with
    | some assignment =>
      obtain ⟨arg, rfl, hstorage⟩ := exists_target hstoring wt.2.2.2
      have hleaf := h.binary.1.leaves arg (List.mem_singleton_self arg)
      obtain ⟨p, hp, hp'⟩ := Argument.exists_place hs hleaf hstorage
      exact ⟨_, by simp [meaning?, place?, hr, hstoring, hp],
        BinaryOp.meaning?_phrase_storing hstoring hp' hr'⟩
    | none =>
      obtain ⟨f, hf⟩ := exists_binary (I := I) hstoring wt.2.2.2
      obtain ⟨v, hl, hl'⟩ := ihl wt.1 h.binary.1
      exact ⟨f v v', by simp [meaning?, hl, hr, hstoring, hf],
        BinaryOp.meaning?_phrase hf hl' hr'⟩
  | matMat l r | matVec l r =>
    obtain ⟨key, hkey⟩ := h.leaves.exists_key
    obtain ⟨kl, kr, hkl, hkr, rfl⟩ := (key_operands_iff rfl).mp hkey
    refine ⟨I.register (accumulator (joinKeys .prod kl kr) 0 0), ?_, ?_⟩
    · simp [meaning?, pairKey, hkl, hkr, Except.toOption]
    · simpa [phrase, hkey] using meaning?_register hkl hkr
  | inner l r computed temporary ihl ihr =>
    cases computed with
    | none =>
      obtain ⟨v, hl, hl'⟩ := ihl wt.1 h.uncomputed.1
      obtain ⟨v', hr, hr'⟩ := ihr wt.2.1 h.uncomputed.2
      exact ⟨I.arithmetic .mul v v', by simp [meaning?, hl, hr],
        BinaryOp.meaning?_phrase rfl hl' hr'⟩
    | some p =>
      obtain ⟨cell, rfl, hbound, -⟩ := h.exists_cell
      exact Argument.exists_meaning hs hbound

/-! ### Making and binding -/

/-- A well-typed term that carries no mark can be made by the constructors. -/
theorem WellTyped.constructed (wt : t.WellTyped) (hbare : t.erase = t) : t.Constructed := by
  induction t with
  | leaf arg => exact .leaf arg
  | unary op sub ih =>
    exact .unary (ih wt.1 (unary.inj hbare).2) (mkUnary_eq_ok_iff.mpr ⟨wt.2, rfl⟩)
  | binary op l r ihl ihr =>
    obtain ⟨-, hl, hr⟩ := binary.inj hbare
    exact .binary (ihl wt.1 hl) (ihr wt.2.1 hr) (mkBinary_eq_ok_iff.mpr ⟨wt.2.2, rfl⟩)
  | matMat l r ihl ihr =>
    obtain ⟨hl, hr⟩ := matMat.inj hbare
    exact .matMat (ihl wt.1 hl) (ihr wt.2.1 hr) (mkMatMat_eq_ok_iff.mpr ⟨wt.2.2, rfl⟩)
  | matVec l r ihl ihr =>
    obtain ⟨hl, hr⟩ := matVec.inj hbare
    exact .matVec (ihl wt.1 hl) (ihr wt.2.1 hr) (mkMatVec_eq_ok_iff.mpr ⟨wt.2.2, rfl⟩)
  | inner l r computed temporary ihl ihr =>
    obtain ⟨hl, hr, rfl, rfl⟩ := inner.inj hbare
    exact .inner (ihl wt.1 hl) (ihr wt.2.1 hr) (mkInner_eq_ok_iff.mpr ⟨wt.2.2, rfl⟩)

theorem mem_references_of_reached {a : Argument} (h : a ∈ t.reached) : a ∈ t.references := by
  have hpair : ∀ {l r : Term}, (a ∈ l.reached → a ∈ l.references) →
      (a ∈ r.reached → a ∈ r.references) →
      a ∈ l.reached ++ r.reached → a ∈ l.references ++ r.references := fun hl hr ha =>
    List.mem_append.mpr ((List.mem_append.mp ha).imp hl hr)
  induction t with
  | leaf arg => exact h
  | unary op sub ih => exact ih h
  | binary op l r ihl ihr => exact hpair ihl ihr h
  | matMat l r | matVec l r => cases h
  | inner l r computed temporary ihl ihr =>
    cases computed with
    | none => exact List.mem_append_left _ (hpair ihl ihr h)
    | some p =>
      cases temporary with
      | none => exact List.mem_append_left _ (hpair ihl ihr h)
      | some cell => exact List.mem_append_right _ h

/-- Where only usual access texts have been noted, binding a term for a kernel gives what its
code in that kernel reaches the usual texts. -/
theorem boundFor_of_bindAll {written : Term} {ctx ctx' : Context} (ho : ctx.Orderly)
    (hu : ctx.registry.Usual) (h : written.bindAll ctx = .ok (t, ctx')) :
    ctx'.registry.Sound ∧ t.BoundFor ctx'.registry ctx.pass := by
  have hbind := Workbench.bindAll_eq_ok h
  have hsettles := settles_of_bind ho hbind
  have husual : ctx'.registry.Usual := by
    have := Registry.usual_kept.bind written ho.sound hu
    rwa [hbind] at this
  have hbound := hsettles.settled.references
  refine ⟨hsettles.orderly.sound, hsettles.settled.leavesBound, fun a ha => ?_,
    fun m hm p hp => ?_⟩
  · have hmem := mem_references_of_reached ha
    exact ⟨hbound a hmem, (hbound a hmem).accessName_eq husual (hsettles.named a hmem)⟩
  · obtain ⟨lhs, rhs, computed, cell, rfl⟩ := hsettles.settled.exists_cell m hm
    obtain rfl : computed = some p := hp
    exact ⟨lhs, rhs, cell, rfl⟩

end Term

/-- An operand on its own is an expression. -/
theorem CodeExpr.Reads.ofTokens? {tokens : List CodeToken} {e : CodeExpr} (h : Reads tokens e) :
    CodeExpr.ofTokens? tokens = some e := by
  rw [CodeExpr.ofTokens?, h []]
  rfl

/-- The code of a term that was made by the checked constructors and bound is an expression. Its
value is that of the term, whatever the leaves, the registers and the operators stand for. -/
theorem code_denotes_term {written t : Term} {reg : Registry}
    {pass : Nat} (hwritten : written.Constructed) (ht : t.erase = written.erase) (hs : reg.Sound)
    (hbound : t.BoundFor reg pass) :
    ∃ text e, t.code reg pass = .ok text ∧ CodeExpr.ofTokens? (codeTokens text) = some e ∧
      ∀ (V : Type) (I : Interpretation V) (w : WorkItem) (ρ : Values),
        ∃ v, t.meaning? reg ρ I = some v ∧ e.meaning? reg w ρ I = some v := by
  obtain ⟨text, htext⟩ := hbound.exists_code
  have hreads := Term.reads_code htext fun a ha => (hbound.reached a ha).2
  have wt : t.WellTyped := hwritten.wellTyped.of_erase_eq ht.symm
  exact ⟨text, _, htext, hreads.ofTokens?, fun V I w ρ => hbound.exists_meaning hs wt⟩

/-- An assignment to a transposed matrix, with two inner products and a matrix product. -/
def nestedUpdate (computed : Option Nat) : Term :=
  let m : Term := .leaf (.ofHandle (.buffer 1) .float (.matrix ⟨true, true⟩))
  let n : Term := .leaf (.ofHandle (.buffer 2) .float (.matrix .standard))
  let x : Term := .leaf (.ofHandle (.buffer 3) .float (.vector ⟨3, 2⟩))
  let y : Term := .leaf (.ofHandle (.buffer 4) .float (.vector .whole))
  .binary .assign m (.binary .sub (.unary .neg n) (.binary .sub
    (.binary .mul (.inner x y computed none) (.binary .elementDiv m n))
    (.binary .div (.matMat m n) (.inner x x none none))))

theorem constructed_nestedUpdate : (nestedUpdate none).Constructed := by
  refine Term.WellTyped.constructed ?_ rfl
  simp [nestedUpdate, Term.WellTyped, Term.accepts, Term.shape, Term.element, Term.isWriteable,
    Argument.shape, Argument.ofHandle, Storage.shape, Storage.isWriteable, UnaryOp.requiresFloat]

/-- Every value is its own description. -/
def described : Interpretation String where
  numeral n := decimal n
  scalar h := place h 0
  cell h n := place h n
  register _ := "register"
  negation v := "neg(" ++ v ++ ")"
  arithmetic op v v' := name op ++ "(" ++ v ++ ", " ++ v' ++ ")"
  function f v := f ++ "(" ++ v ++ ")"
  pairFunction f v v' := f ++ "(" ++ v ++ ", " ++ v' ++ ")"
  store op h n v := name op ++ "(" ++ place h n ++ ", " ++ v ++ ")"
where
  place (h : Handle) (n : Nat) : String :=
    match h with
    | .buffer k => "buffer" ++ decimal k ++ "." ++ decimal n
    | .temporary k => "temporary" ++ decimal k ++ "." ++ decimal n
  name : CodeOp → String
    | .assign => "store"
    | .sub => "sub"
    | .mul => "mul"
    | .div => "div"
    | _ => "other"

/-- Row 1 and column 0 of matrices with increments, starts and sizes of two. -/
def cornerIndex (name : String) : Nat :=
  if name = rowIndex then 1 else if name = colIndex then 0 else 2

def describedUpdate : String :=
  "store(buffer1.8, sub(neg(buffer2.10), sub(mul(temporary0.0, div(buffer1.8, buffer2.10)), " ++
    "div(register, mul(buffer3.5, buffer3.5)))))"

theorem code_denotes_term_nested :
    ∃ t ctx text e, (nestedUpdate none).Constructed ∧ t.erase = (nestedUpdate none).erase ∧
      (nestedUpdate (some 0)).bindAll .empty = .ok (t, ctx) ∧ ctx.registry.Sound ∧
      t.BoundFor ctx.registry 0 ∧
      t.code ctx.registry 0 = .ok text ∧ CodeExpr.ofTokens? (codeTokens text) = some e ∧
      e.meaning? ctx.registry ⟨0, 1⟩ cornerIndex described = some describedUpdate := by
  obtain ⟨⟨t, ctx⟩, hbind, hvalues⟩ := Outcome.exists_ok_of_map
    (x := (nestedUpdate (some 0)).bindAll .empty)
    (f := fun p => (decide (p.1.erase = (nestedUpdate none).erase),
      p.1.meaning? p.2.registry cornerIndex described)) (b := (true, some describedUpdate))
    (by decide +kernel)
  obtain ⟨herase, hmeaning⟩ := Prod.mk.inj hvalues
  obtain ⟨hsound, hbound⟩ :=
    Term.boundFor_of_bindAll Context.empty_orderly Registry.usual_empty hbind
  obtain ⟨text, e, htext, he, hvalue⟩ :=
    code_denotes_term constructed_nestedUpdate (of_decide_eq_true herase) hsound hbound
  obtain ⟨v, hv, hv'⟩ := hvalue String described ⟨0, 1⟩ cornerIndex
  obtain rfl := Option.some.inj (hmeaning.symm.trans hv)
  exact ⟨t, ctx, text, e, constructed_nestedUpdate, of_decide_eq_true herase, hbind, hsound,
    hbound, htext, he, hv'⟩

end LinearKernels
