import LinearKernels.Proofs.WorkGroups
import LinearKernels.Proofs.LoweredFiles
import LinearKernels.Proofs.Execution

/-!
The element that the code of a term stands for. In a kernel whose parameters are the records of
a plan, the expression that a term's code is read as has the value of the term itself at the
row in the index variable, whatever the group has done to its own arrays and variables.
-/

namespace LinearKernels

variable {V : Type}

/-- Sums are exact, and the operations element by element are those on elements. -/
structure Machine.Exact [AddCommMonoid V] (M : Machine V) : Prop where
  zero : M.zero = 0
  add : M.binary .add = (· + ·)
  elementProd : M.binary .elementProd = M.binary .mul
  elementDiv : M.binary .elementDiv = M.binary .div

/-! ### Parameters -/

theorem Record.id_eq_of_name_eq {r s : Record} (h : r.name = s.name) : r.id = s.id := by
  have hdigits := congrArg String.toList h
  simp only [name, String.toList_append, List.append_cancel_left_eq] at hdigits
  rw [← decimalValue_toList_decimal r.id, hdigits, decimalValue_toList_decimal]

namespace Registry

theorem Sound.named?_name {reg : Registry} (h : reg.Sound) {i : Nat} {r : Record}
    (hr : reg.records[i]? = some r) :
    reg.named? r.name = some r := by
  have hmem := List.mem_of_getElem? hr
  cases hfind : reg.named? r.name with
  | none => simpa using List.find?_eq_none.mp hfind r hmem
  | some r' =>
    obtain ⟨j, hj⟩ := List.mem_iff_getElem?.mp (List.mem_of_find?_eq_some hfind)
    have hname : r'.name = r.name := by simpa using List.find?_some hfind
    have hid := Record.id_eq_of_name_eq hname
    rw [h.numbered j r' hj, h.numbered i r hr] at hid
    subst hid
    rw [← hj, hr]

theorem named?_eq_none (reg : Registry) {name : String} (hname : parameterWords name = []) :
    reg.named? name = none := by
  refine List.find?_eq_none.mpr fun r _ => ?_
  simpa using r.isParameter_name.ne_of_words hname

end Registry

theorem Values.word_decimal (ρ : Values) (n : Nat) : ρ.word (decimal n) = n := by
  have hdigits : (decimal n).toList.all Char.isDigit = true :=
    List.all_eq_true.mpr fun _ hc => isDigit_of_mem_decimal hc
  rw [Values.word, if_pos hdigits, decimalValue_toList_decimal]

/-! ### Places -/

theorem View.index?_phrase (v : View) (w : WorkItem) (ρ : Values) :
    (v.phrase (.word rowIndex)).index? w ρ = some (ρ rowIndex * v.stride + v.start) := by
  have hrow : ρ.word rowIndex = ρ rowIndex := isName_rowIndex.value ρ
  unfold View.phrase CodeExpr.index?
  split <;> split <;> simp_all [CodeExpr.number?, Values.word_decimal]

theorem View.undivided_phrase (v : View) (index : String) :
    (v.phrase (.word index)).Undivided := by
  unfold View.phrase
  split <;> split <;> simp [CodeExpr.Undivided]

/-- The place of element `i` of a vector is an unsigned number. -/
def Storage.FitsAt (s : Storage) (i : Nat) : Prop :=
  match s with
  | .vector v => i * v.stride + v.start < 2 ^ 32
  | .hostScalar | .deviceScalar | .matrix _ => True

instance (s : Storage) (i : Nat) : Decidable (s.FitsAt i) :=
  match s with
  | .vector _ => inferInstanceAs (Decidable (_ < _))
  | .hostScalar | .deviceScalar | .matrix _ => .isTrue trivial

namespace KernelScope

/-- Records have names of their own, and no array that a group shares has the name of a
parameter. -/
structure Regular (K : KernelScope V) : Prop where
  sound : K.registry.Sound
  arrays : ∀ name, IsParameter name → K.arrays name = none

variable {K : KernelScope V} {w : WorkItem} {ρ : Values} {s : GroupState V}

/-- An argument is reached by its element at the index. -/
theorem Regular.element?_argument (h : K.Regular) {a : Argument} (hb : a.BoundIn K.registry)
    (hshape : a.shape ≠ .matrix) (hfits : a.storage.FitsAt (ρ rowIndex)) :
    K.element? w ρ s (a.phrase K.registry) = some (a.read s.memory (ρ rowIndex, 0)) := by
  obtain ⟨i, r, hi, hr, hhandle, -, hsignature⟩ := hb
  have hname : a.name K.registry = .ok r.name :=
    Argument.name_of_info (Argument.info_eq_ok_iff.mpr ⟨i, hi, hr⟩)
  have hparameter := h.sound.named?_name hr
  have harray := h.arrays r.name r.isParameter_name
  have hdigits := r.isParameter_name.isName.notDigits
  have hbuffer : a.storage ≠ .hostScalar → K.buffer? r.name = some a.handle := by
    intro hne
    have hother : r.signature ≠ Storage.hostScalar.signature := fun hsame =>
      hne (Storage.eq_of_signature_eq (hsignature.symm.trans hsame))
    simp [buffer?, hparameter, hother, hhandle]
  rw [Argument.phrase, hname, Argument.read]
  cases hstorage : a.storage with
  | hostScalar =>
    rw [hstorage] at hsignature
    simp [Storage.phrase, element?, hdigits, hparameter, hsignature, hhandle, Storage.cell]
  | deviceScalar =>
    have hzero : (CodeExpr.word "0").unsigned? w ρ = some 0 := rfl
    simp [Storage.phrase, element?, hzero, harray, hbuffer (by simp [hstorage]), Storage.cell]
  | vector v =>
    rw [hstorage] at hfits
    have hplace :=
      CodeExpr.unsigned?_of_index? (v.undivided_phrase rowIndex) (v.index?_phrase w ρ) hfits
    simp [Storage.phrase, element?, hplace, harray, hbuffer (by simp [hstorage]), Storage.cell]
  | matrix l =>
    rw [Argument.shape, hstorage] at hshape
    exact absurd rfl hshape

/-! ### Terms -/

theorem element?_unary (op : UnaryOp) {e : CodeExpr} {v : V} (he : K.element? w ρ s e = some v) :
    K.element? w ρ s (op.phrase e) = some (K.machine.unary op v) := by
  -- A pair has no value, so a function of one argument is not taken for one of two.
  have hcall : ∀ f, function? f = some op →
      K.element? w ρ s (.call f e) = some (K.machine.unary op v) := by
    intro f hf
    rw [element?]
    · simp [hf, he]
    · rintro lhs rhs rfl
      simp [element?, CodeOp.arithmetic?] at he
  cases op with
  | neg => simp [UnaryOp.phrase, element?, he]
  | exp | log | sqrt | sin | cos | tan | tanh | fabs => exact hcall _ rfl

/-- Operations other than assignments and products. -/
theorem element?_binary [AddCommMonoid V] (hM : K.machine.Exact) {op : BinaryOp}
    (hwrites : op.isAssignment = false) (hprod : op ≠ .prod) {l r : CodeExpr} {v v' : V}
    (hl : K.element? w ρ s l = some v) (hr : K.element? w ρ s r = some v') :
    K.element? w ρ s (op.phrase l r) = some (K.machine.binary op v v') := by
  cases op with
  | assign | inplaceAdd | inplaceSub => cases hwrites
  | prod => exact absurd rfl hprod
  | elementProd => simp [BinaryOp.phrase, element?, CodeOp.arithmetic?, hl, hr, hM.elementProd]
  | elementDiv => simp [BinaryOp.phrase, element?, CodeOp.arithmetic?, hl, hr, hM.elementDiv]
  | add | sub | mul | div => simp [BinaryOp.phrase, element?, CodeOp.arithmetic?, hl, hr]
  | pow | max | min => simp [BinaryOp.phrase, element?, pairFunction?, hl, hr]

end KernelScope

namespace Term

/-- The operands of an operation that gives no matrix. -/
theorem WellTyped.operands_ne_matrix {op : BinaryOp} {lhs rhs : Term}
    (h : (binary op lhs rhs).WellTyped) (hshape : (binary op lhs rhs).shape ≠ .matrix) :
    op ≠ .prod ∧ lhs.shape ≠ .matrix ∧ rhs.shape ≠ .matrix := by
  have haccepts := h.2.2.2
  cases op with
  | prod => simp [accepts] at haccepts
  | mul =>
    simp only [shape, accepts, Bool.or_eq_true, decide_eq_true_eq] at hshape haccepts
    grind
  | assign | inplaceAdd | inplaceSub | add | sub | elementProd | elementDiv | pow
    | max | min | div =>
    simp_all [accepts, shape]

variable {env : Declarations} {ctx : Context} {t : Term} {K : KernelScope V} {w : WorkItem}
  {ρ : Values} {s : GroupState V}

/-- The expression of a term without matrices has the value of the term, wherever the places of
its arguments fit. -/
theorem element?_phrase [AddCommMonoid V] (hK : K.Regular) (hM : K.machine.Exact)
    (hk : ctx.registry.Keeps K.registry) (hb : t.BoundIn env ctx) (wt : t.WellTyped)
    (hshape : t.shape ≠ .matrix) (hproducts : t.matrixProducts = []) (hfree : t.AssignmentFree)
    (hc : t.Computed) (hfits : ∀ a ∈ t.reached, a.storage.FitsAt (ρ rowIndex)) :
    K.element? w ρ s (t.phrase K.registry) =
      some (t.value K.machine s.memory (ρ rowIndex, 0)) := by
  induction t with
  | leaf arg =>
    exact hK.element?_argument (hb.2.keeps hk) hshape (hfits arg (List.mem_singleton_self arg))
  | unary op sub ih => exact K.element?_unary op (ih hb wt.1 hshape hproducts hfree hc hfits)
  | binary op lhs rhs ihl ihr =>
    obtain ⟨hprod, hlshape, hrshape⟩ := wt.operands_ne_matrix hshape
    obtain ⟨hlproducts, hrproducts⟩ := List.append_eq_nil_iff.mp hproducts
    obtain ⟨hcl, hcr⟩ := List.forall_mem_append.mp hc
    obtain ⟨hfl, hfr⟩ := List.forall_mem_append.mp hfits
    exact KernelScope.element?_binary hM hfree.1 hprod (ihl hb.1 wt.1 hlshape hlproducts hfree.2.1
      hcl hfl) (ihr hb.2 wt.2.1 hrshape hrproducts hfree.2.2 hcr hfr)
  | matMat lhs rhs | matVec lhs rhs => simp [matrixProducts] at hproducts
  | inner lhs rhs computed temporary ihl ihr =>
    obtain ⟨l, r, p, cell, heq⟩ := hc _ (self_mem_innerProducts lhs rhs computed temporary)
    obtain ⟨-, -, rfl, rfl⟩ := inner.inj heq
    obtain ⟨-, -, _, hcell, -, -, -, -, -, -, hstorage, hbound⟩ := hb
    obtain rfl := Option.some.inj hcell
    have hscalar : cell.shape ≠ .matrix := by
      rw [Argument.shape, hstorage]
      decide
    have hcellValue : K.element? w ρ s (cell.phrase K.registry) =
        some (cell.read s.memory (ρ rowIndex, 0)) :=
      hK.element?_argument (hbound.keeps hk) hscalar (hfits cell (List.mem_singleton_self cell))
    simpa only [phrase, value, Argument.read, hstorage, Storage.cell] using hcellValue

end Term

end LinearKernels
