import LinearKernels.Proofs.ReductionBodies
import LinearKernels.Proofs.AccessTexts
import LinearKernels.Proofs.ParameterOrder
import LinearKernels.Proofs.LoopRanges

/-!
Inner products. The body of a reduction pass, read as text and carried out by one work group of
any valid size, leaves in the temporary of the pass the sum of the products of its two operands
over all indices below the length of its vectors. Nothing else in memory changes, and the order
in which the items act does not matter. Counters and places are unsigned numbers of 32 bits, so
the length has to leave room for a last stride of the group.
-/

namespace LinearKernels

variable {V : Type}

theorem Term.NamedIn.reached {reg : Registry} {pass : Nat} {t : Term} (h : t.NamedIn reg pass) :
    ∀ a ∈ t.reached, a.NamedIn reg pass := by
  induction t with
  | leaf arg =>
    intro a ha
    rw [List.mem_singleton.mp ha]
    exact h
  | unary op sub ih => exact ih h
  | binary op lhs rhs ihl ihr => exact List.forall_mem_append.mpr ⟨ihl h.1, ihr h.2⟩
  | matMat lhs rhs | matVec lhs rhs => simp [Term.reached]
  | inner lhs rhs computed temporary ihl ihr =>
    have hoperands := List.forall_mem_append.mpr ⟨ihl h.1, ihr h.2.1⟩
    cases computed with
    | none => exact hoperands
    | some p =>
      cases temporary with
      | none => exact hoperands
      | some cell => simpa [Term.reached] using h.2.2 cell rfl

theorem Record.isParameter_vectorSize (r : Record) : IsParameter (vectorSize r.name) :=
  r.isParameter_name.append (by decide)

theorem Argument.vectorSize_eq {a : Argument} {reg : Registry} {r : Record} {ρ : Values} {n : Nat}
    (hshape : a.shape = .vector) (hr : a.info reg = .ok r)
    (hsize : a.logicalSize ρ reg = .ok [n]) :
    ρ (vectorSize r.name) = n := by
  obtain ⟨r', hr', hsize⟩ := Plan.logicalSize_eq_ok_iff.mp hsize
  obtain rfl := Except.ok.inj (hr.symm.trans hr')
  rw [Argument.shape] at hshape
  cases hstorage : a.storage with
  | hostScalar | deviceScalar | matrix => simp [hstorage, Storage.shape] at hshape
  | vector v => simpa [hstorage, Storage.logicalSize] using hsize

namespace Plan

variable {env : Declarations} {statements : List Statement} {plan : Plan} {d : Draft}
  {pass : Pass} {node : Term}

theorem exists_statement_of_reduced? (h : plan.reduced? pass = some node) :
    ∃ statement ∈ plan.statements, node ∈ statement.tree.innerProducts := by
  simp only [reduced?, Option.bind_eq_bind, Option.bind_eq_some_iff] at h
  obtain ⟨s, -, statement, hstatement, n, -, hn⟩ := h
  exact ⟨statement, List.mem_of_getElem? hstatement, List.mem_of_getElem? hn⟩

theorem Built.boundIn_reduced (h : plan.Built env statements d)
    (hnode : plan.reduced? pass = some node) :
    node.BoundIn env d.context := by
  obtain ⟨statement, hs, hm⟩ := exists_statement_of_reduced? hnode
  exact ((h.planned statement hs).products node hm).2.1

/-- Planning does not put assignments into operands. -/
theorem Built.assignmentFree_reduced (h : plan.Built env statements d)
    (hstatements : ∀ s ∈ statements, ∃ op target value, s.tree.Schedulable op target value)
    (hnode : plan.reduced? pass = some node) : node.AssignmentFree := by
  obtain ⟨statement, hs, hm⟩ := exists_statement_of_reduced? hnode
  have hsource : { statement with tree := statement.tree.erase } ∈ statements := by
    rw [← h.source]
    exact List.mem_map_of_mem hs
  obtain ⟨op, target, value, hschedulable⟩ := hstatements _ hsource
  have hproducts : node.erase ∈ statement.tree.erase.innerProducts := by
    rw [Term.innerProducts_erase]
    exact List.mem_map_of_mem hm
  have htree : statement.tree.erase = .binary op (.leaf target) value := hschedulable.eq
  rw [htree] at hproducts
  have hvalue : node.erase ∈ value.innerProducts := by
    simpa [Term.innerProducts] using hproducts
  exact (Term.assignmentFree_erase node).mp
    (hschedulable.assignmentFree.of_mem_innerProducts hvalue)

variable {lhs rhs : Term} {computed : Nat} {cell : Argument}

/-- The parts of the body of a reduction pass. -/
theorem Reduces.body_eq (h : plan.Reduces env pass lhs rhs computed cell)
    (husual : plan.registry.Usual) (hcell : cell.storage = .deviceScalar) :
    ∃ length r term result, length ∈ lhs.arguments ∧ length.shape = .vector ∧
      length.info plan.registry = .ok r ∧
      Term.pairCode plan.registry pass.index .mul lhs rhs = .ok term ∧
      cell.info plan.registry = .ok result ∧ ∀ size, plan.reductionBody size pass =
        .ok (.reduction size lhs.element (vectorSize r.name) term
          (result.name ++ "[" ++ "0" ++ "]")) := by
  obtain ⟨hproducts, -⟩ := List.append_eq_nil_iff.mp h.products
  obtain ⟨length, hlength, hmem⟩ := Term.exists_lengthVector h.typed.1 h.typed.2.2.1 hproducts
  obtain ⟨r, hr⟩ := (h.left length hmem).bound.info_ok
  obtain ⟨term, hterm⟩ := Term.pairCode_ok h.leaves h.named h.settled
  obtain ⟨result, hresult, haccess⟩ := h.holds.bound.accessName_eq husual (h.named.2.2 cell rfl)
  have hbound : plan.vectorBound length = .ok (rowIndex ++ " < " ++ vectorSize r.name) := by
    rw [vectorBound, Argument.name_of_info hr]
    rfl
  have htarget : cell.storage.access result.name = result.name ++ "[" ++ "0" ++ "]" := by
    rw [hcell, Storage.access, String.append_assoc, String.append_assoc]
    rfl
  rw [htarget] at haccess
  refine ⟨length, r, term, result, hmem, Term.shape_lengthVector? hlength, hr, hterm,
    hresult, fun size => ?_⟩
  unfold reductionBody
  rw [h.reduced]
  change (orUnbound (Term.lengthVector? lhs) >>= _) = _
  simp only [orUnbound, hlength, Outcome.ok_bind, hbound, hterm, haccess]
  rfl

/-- The operands have their inner products computed, and no matrix products. -/
theorem Reduces.operands (h : plan.Reduces env pass lhs rhs computed cell) :
    (lhs.Computed ∧ lhs.matrixProducts = []) ∧ rhs.Computed ∧ rhs.matrixProducts = [] := by
  obtain ⟨hproducts, hproducts'⟩ := List.append_eq_nil_iff.mp h.products
  obtain ⟨hsettled, hsettled'⟩ :=
    List.forall_mem_append.mp fun m hm => h.settled m (List.mem_append_left _ hm)
  exact ⟨⟨hsettled, hproducts⟩, hsettled', hproducts'⟩

/-- The product of the operands is an operand of the body's text. -/
theorem Reduces.reads_pairCode (h : plan.Reduces env pass lhs rhs computed cell)
    (husual : plan.registry.Usual) {text : String}
    (htext : Term.pairCode plan.registry pass.index .mul lhs rhs = .ok text) :
    CodeExpr.Reads (codeTokens text) (BinaryOp.mul.phrase (lhs.phrase plan.registry)
      (rhs.phrase plan.registry)) := by
  have usual : ∀ {t : Term}, t.Computed ∧ t.matrixProducts = [] →
      t.NamedIn plan.registry pass.index →
      (∀ a ∈ t.arguments, a.PlacedIn env plan.registry) →
      ∀ a ∈ t.reached, a.UsualIn plan.registry pass.index := by
    rintro t ⟨hcomputed, hnone⟩ hnamed hplaced a ha
    have hargument := (Term.mem_arguments_iff_reached hcomputed hnone).mpr ha
    exact (hplaced a hargument).bound.accessName_eq husual (hnamed.reached a ha)
  obtain ⟨l, hl, htext⟩ := Outcome.bind_eq_ok_iff.mp htext
  obtain ⟨r, hr, htext⟩ := Outcome.bind_eq_ok_iff.mp htext
  obtain rfl := Except.ok.inj htext
  exact BinaryOp.mul.reads_code (Term.reads_code hl (usual h.operands.1 h.named.1 h.left))
    (Term.reads_code hr (usual h.operands.2 h.named.2.1 h.right))

/-- The product of the operands has the value of the product. -/
theorem Built.element?_product [AddCommMonoid V] (h : plan.Built env statements d)
    (hstatements : ∀ s ∈ statements, ∃ op target value, s.tree.Schedulable op target value)
    (hr : plan.Reduces env pass lhs rhs computed cell) {K : KernelScope V}
    (hregistry : K.registry = plan.registry) (hK : K.Regular)
    (hM : K.machine.Exact) (w : WorkItem) (ρ : Values) (s : GroupState V)
    (hfits : ∀ a ∈ lhs.arguments ++ rhs.arguments, a.storage.FitsAt (ρ rowIndex)) :
    K.element? w ρ s (BinaryOp.mul.phrase (lhs.phrase plan.registry) (rhs.phrase plan.registry)) =
      some (K.machine.binary .mul (lhs.value K.machine s.memory (ρ rowIndex, 0))
        (rhs.value K.machine s.memory (ρ rowIndex, 0))) := by
  have hkeeps : d.context.registry.Keeps K.registry := hregistry ▸ h.keeps
  have hbound := h.boundIn_reduced hr.reduced
  have hfree := h.assignmentFree_reduced hstatements hr.reduced
  obtain ⟨⟨hsettled, hproducts⟩, hsettled', hproducts'⟩ := hr.operands
  obtain ⟨hleft, hright, hshape, hshape', -⟩ := hr.typed
  obtain ⟨hfits, hfits'⟩ := List.forall_mem_append.mp hfits
  rw [← hregistry]
  exact KernelScope.element?_binary hM rfl (by decide)
    (Term.element?_phrase hK hM hkeeps hbound.1 hleft (by simp [hshape]) hproducts hfree.1
      hsettled fun a ha => hfits a ((Term.mem_arguments_iff_reached hsettled hproducts).mpr ha))
    (Term.element?_phrase hK hM hkeeps hbound.2.1 hright
      (by simp [hshape']) hproducts' hfree.2 hsettled'
      fun a ha => hfits' a ((Term.mem_arguments_iff_reached hsettled' hproducts').mpr ha))

/-- The instructions of a reduction pass, for the records of its length and of its result. -/
def reductionInstructions (plan : Plan) (lhs rhs : Term) (size : Nat) (length result : Record) :
    List Instruction :=
  Instruction.reduction size (vectorSize length.name)
    (BinaryOp.mul.phrase (lhs.phrase plan.registry) (rhs.phrase plan.registry)) result.name

/-- What the instructions are about. -/
def reductionScope (plan : Plan) (M : Machine V) (lhs rhs : Term) (size : Nat)
    (length result : Record) :
    KernelScope V :=
  ⟨M, plan.registry, Instruction.arrays (plan.reductionInstructions lhs rhs size length result)⟩

theorem arrays_reductionScope (M : Machine V) (lhs rhs : Term) (size : Nat)
    (length result : Record) (name : String) :
    (plan.reductionScope M lhs rhs size length result).arrays name = if name =
      bufferName then some size else none :=
  Instruction.arrays_reduction ..

theorem Built.regular_reductionScope (h : plan.Built env statements d)
    (M : Machine V) (lhs rhs : Term) (size : Nat) (length result : Record) :
    (plan.reductionScope M lhs rhs size length result).Regular where
  sound := h.registry_sound
  arrays name hname := by
    rw [arrays_reductionScope, if_neg (hname.ne_of_words (by decide +kernel))]

/-- The sum that a reduction pass computes over vectors of length `n`. -/
def Built.kernelSum [AddCommMonoid V] (h : plan.Built env statements d)
    (hstatements : ∀ s ∈ statements, ∃ op target value, s.tree.Schedulable op target value)
    (hr : plan.Reduces env pass lhs rhs computed cell) {M : Machine V}
    (hM : M.Exact) {levels n : Nat} (hlevels : levels < 32)
    (hfits : ∀ i < n, ∀ a ∈ lhs.arguments ++ rhs.arguments, a.storage.FitsAt i) (length : Record)
    {result : Record} (hresult : cell.info plan.registry = .ok result)
    (hcell : cell.storage = .deviceScalar) : KernelSum V where
  scope := plan.reductionScope M lhs rhs (2 ^ levels) length result
  levels := levels
  length := n
  lengthName := vectorSize length.name
  phrase := BinaryOp.mul.phrase (lhs.phrase plan.registry) (rhs.phrase plan.registry)
  term μ i := M.binary .mul (lhs.value M μ (i, 0)) (rhs.value M μ (i, 0))
  resultName := result.name
  result := cell.handle
  exact := hM
  levels_lt := hlevels
  isParameter_length := length.isParameter_vectorSize
  element?_phrase w ρ s hrow :=
    h.element?_product hstatements hr rfl (h.regular_reductionScope M lhs rhs
      (2 ^ levels) length result) hM w ρ s (hfits (ρ rowIndex) hrow)
  arrays_buffer := by
    rw [arrays_reductionScope, if_pos rfl]
  arrays_result := (h.regular_reductionScope M lhs rhs (2 ^ levels) length result).arrays _
    result.isParameter_name
  buffer?_result := by
    obtain ⟨i, hi, hrecord⟩ := Argument.info_eq_ok_iff.mp hresult
    obtain ⟨j, r, hj, hrecord', hhandle, -, hsignature⟩ := hr.holds.bound
    obtain rfl := Option.some.inj (hi.symm.trans hj)
    obtain rfl := Option.some.inj (hrecord.symm.trans hrecord')
    rw [hcell] at hsignature
    rw [KernelScope.buffer?, reductionScope, h.registry_sound.named?_name hrecord]
    simp [hsignature, hhandle, Storage.signature]

/-- The text of a reduction kernel. -/
theorem Built.exists_reductionInstructions (h : plan.Built env statements d)
    (hpass : pass ∈ plan.passes) (hkind : pass.kind = .reduction) (size : Nat) :
    ∃ body lhs rhs computed cell k length r result, plan.body size pass = .ok body ∧
      plan.Reduces env pass lhs rhs computed cell ∧ cell.handle = .temporary k ∧
      cell.storage = .deviceScalar ∧
      length ∈ lhs.arguments ∧ length.shape = .vector ∧ length.info plan.registry = .ok r ∧
      cell.info plan.registry = .ok result ∧
      Instruction.ofText? (joinLines (body.lines 1)) =
        some (plan.reductionInstructions lhs rhs size r result) := by
  obtain ⟨p, hp⟩ := List.mem_iff_getElem?.mp hpass
  obtain ⟨lhs, rhs, computed, cell, hr⟩ := h.reduces hp hkind
  obtain ⟨-, -, _, hcell, k, -, hhandle, -, -, -, hstorage, -⟩ := h.boundIn_reduced hr.reduced
  obtain rfl := Option.some.inj hcell
  obtain ⟨length, r, term, result, hmem, hvector, hinfo, hterm, hresult, hbody⟩ :=
    hr.body_eq h.usual hstorage
  have hsays := Code.says_reduction size lhs.element r.isParameter_vectorSize.toIsWord
    (hr.reads_pairCode h.usual hterm) result.isParameter_name
  refine ⟨_, lhs, rhs, computed, cell, k, length, r, result, ?_, hr, hhandle, hstorage, hmem,
    hvector, hinfo, hresult, hsays.ofText? 1⟩
  rw [Plan.body, hkind]
  exact hbody size

end Plan

/-- Carried out by one work group of a valid size, in whatever order the items act, the text of a
reduction kernel leaves the inner product of the operands in the temporary of its pass, and all
other cells as they were, if neither the counters nor the places overflow. If the counters
overflow, it computes nothing at all. -/
theorem reduction_computes_inner_product [AddCommMonoid V] {M : Machine V} (hM : M.Exact)
    {lowering planning : Settings} {file : SourceFile} {statements : List Statement}
    {plan : Plan} {pass : Pass} (hlower : file.lower lowering = .ok statements)
    (hplan : schedule planning statements = .ok plan) (hpass : pass ∈ plan.passes)
    (hkind : pass.kind = .reduction) {size : Nat} (hsize : isLocalSize size = true) :
    ∃ body cs lhs rhs computed cell k, plan.body size pass = .ok body ∧
      Instruction.ofText? (joinLines (body.lines 1)) = some cs ∧
      plan.reduced? pass = some (.inner lhs rhs (some computed) (some cell)) ∧
      cell.handle = .temporary k ∧ ∀ (n : Nat) (ρ : Values) (μ : Memory V),
        (∀ a ∈ lhs.arguments, a.shape = .vector → a.logicalSize ρ plan.registry = .ok [n]) →
        (n + size ≤ 2 ^ 32 →
          (∀ i < n, ∀ a ∈ lhs.arguments ++ rhs.arguments, a.storage.FitsAt i) →
          Instruction.Computes cs M plan.registry size ρ μ (μ.write (.temporary k) (0, 0)
            (∑ i ∈ Finset.range n, M.binary .mul (lhs.value M μ (i, 0))
              (rhs.value M μ (i, 0))))) ∧
        (n < 2 ^ 32 → 2 ^ 32 < n + size →
          ∀ μ' : Memory V, ¬ Instruction.Computes cs M plan.registry size ρ μ μ') := by
  obtain ⟨-, env, -, hlawful⟩ := SourceFile.lower_lawful hlower
  obtain ⟨d, hbuilt⟩ := Plan.built_of_schedule hplan hlawful
  have hstatements := SourceFile.lower_schedulable hlower
  obtain ⟨⟨levels, rfl⟩, hsmall⟩ := (isLocalSize_iff size).mp hsize
  have hlevels : levels < 32 :=
    (Nat.pow_lt_pow_iff_right (by decide : 1 < 2)).mp (Nat.lt_of_le_of_lt hsmall (by decide))
  obtain ⟨body, lhs, rhs, computed, cell, k, length, r, result, hbody, hr, hhandle, hstorage,
    hmem, hvector, hinfo, hresult, htext⟩ :=
    hbuilt.exists_reductionInstructions hpass hkind (2 ^ levels)
  refine ⟨body, _, lhs, rhs, computed, cell, k, hbody, htext, hr.reduced, hhandle,
    fun n ρ μ hn => ?_⟩
  rw [← hhandle]
  have hlength := Argument.vectorSize_eq hvector hinfo (hn length hmem hvector)
  refine ⟨fun hroom hfits => ?_, fun hshort hoverflow μ' => ?_⟩
  · exact (hbuilt.kernelSum hstatements hr hM hlevels hfits r hresult hstorage).computes
      rfl hroom hlength μ
  · exact Instruction.not_computes_reduction (Nat.pow_dvd_pow 2 hlevels.le)
      (Nat.two_pow_pos levels) r.isParameter_vectorSize hshort hoverflow hlength

/-- Whole numbers. Functions and operations that the example does not use are not told apart. -/
def wholeNumbers : Machine Int where
  zero := 0
  unary _ v := v
  binary
    | .mul, a, b | .elementProd, a, b => a * b
    | .div, a, b | .elementDiv, a, b => a / b
    | _, a, b => a + b
  total vs := vs.foldr (· + ·) 0
  length _ := 0
  columns _ := 0

/-- An inner product in an operand of another. -/
def nestedProductSource : String :=
  "vector x, y; x = dot(dot(x, y) * x, x + y) * y;"

def nestedProductSizes : Values :=
  .ofList [("arg0_size", 6), ("arg1_size", 6)]

/-- The inner product inside has been computed as two. -/
def nestedProductMemory : Memory Int
  | .buffer 1, cell => cell.1 + 1
  | .buffer 2, cell => cell.1
  | .temporary 0, _ => 2
  | _, _ => 0

/-- Four items add up six terms. -/
theorem reduction_computes_inner_product_nested :
    ∃ plan pass body cs, planSource .standard nestedProductSource = .ok plan ∧
      pass ∈ plan.passes ∧
      pass = ⟨1, .reduction, [0], some 1⟩ ∧ isLocalSize 4 = true ∧ plan.body 4 pass = .ok body ∧
      Instruction.ofText? (joinLines (body.lines 1)) = some cs ∧
      Instruction.Computes cs wholeNumbers plan.registry 4 nestedProductSizes nestedProductMemory
        (nestedProductMemory.write (.temporary 1) (0, 0) 322) := by
  obtain ⟨plan, hplan, hvalues⟩ := Outcome.exists_ok_of_map
    (x := planSource .standard nestedProductSource)
    (f := fun plan => (plan.passes[1]?,
      (plan.reduced? ⟨1, .reduction, [0], some 1⟩).map fun node =>
      (node.argument?.map (·.handle), node.operands?.map fun o =>
        (∑ i ∈ Finset.range 6, wholeNumbers.binary .mul
          (o.2.1.value wholeNumbers nestedProductMemory (i, 0))
          (o.2.2.value wholeNumbers nestedProductMemory (i, 0)),
        (o.2.1.arguments.all fun a => a.shape ≠ .vector ∨
          a.logicalSize nestedProductSizes plan.registry = .ok [6]) &&
          (List.range 6).all fun i => (o.2.1.arguments ++ o.2.2.arguments).all fun a =>
            a.storage.FitsAt i))))
    (b := (some ⟨1, .reduction, [0], some 1⟩, some (some (.temporary 1), some (322, true))))
    (by decide +kernel)
  obtain ⟨hpass, hnode⟩ := Prod.mk.inj hvalues
  have hmem := List.mem_of_getElem? hpass
  obtain ⟨file, statements, -, hlower, -, hschedule⟩ := planSource_eq_ok_iff.mp hplan
  have hexact : wholeNumbers.Exact := ⟨rfl, rfl, rfl, rfl⟩
  have hlocal : isLocalSize 4 = true := rfl
  obtain ⟨body, cs, lhs, rhs, computed, cell, k, hbody, hcs, hreduced, hcell, hcomputes⟩ :=
    reduction_computes_inner_product hexact hlower hschedule hmem rfl hlocal
  rw [hreduced] at hnode
  simp only [Option.map_some, Term.argument?, Term.operands?, Option.some.injEq, Prod.mk.injEq,
    hcell, Handle.temporary.injEq, Bool.and_eq_true, List.all_eq_true, decide_eq_true_eq,
    List.mem_range] at hnode
  obtain ⟨rfl, htotal, hsizes, hfits⟩ := hnode
  refine ⟨plan, _, body, cs, hplan, hmem, rfl, hlocal, hbody, hcs, ?_⟩
  rw [← htotal]
  exact (hcomputes 6 nestedProductSizes nestedProductMemory fun a ha hshape =>
    (hsizes a ha).resolve_left fun hne => hne hshape).1 (by decide) hfits

/-- An inner product of two vectors. -/
def longProductSource : String :=
  "vector x, y; scalar s; s = dot(x, y);"

/-- Both vectors have the greatest length that a kernel can be told. -/
def longProductSizes : Values :=
  .ofList [("arg0_size", 4294967295), ("arg1_size", 4294967295)]

/-- The counter of the first of 128 items goes from 4294967168 back to zero, and never ends. -/
theorem long_reduction_never_ends :
    ∃ plan pass body cs lhs rhs computed cell, planSource .standard longProductSource = .ok plan ∧
      pass ∈ plan.passes ∧ pass = ⟨0, .reduction, [0], some 0⟩ ∧ isLocalSize 128 = true ∧
      plan.body 128 pass = .ok body ∧ Instruction.ofText? (joinLines (body.lines 1)) = some cs ∧
      plan.reduced? pass = some (.inner lhs rhs (some computed) (some cell)) ∧
      (∀ a ∈ lhs.arguments ++ rhs.arguments, a.shape = .vector →
        a.logicalSize longProductSizes plan.registry = .ok [4294967295]) ∧
      (∀ i < 4294967295, ∀ a ∈ lhs.arguments ++ rhs.arguments, a.storage.FitsAt i) ∧
      ∀ μ μ' : Memory Int,
        ¬ Instruction.Computes cs wholeNumbers plan.registry 128 longProductSizes μ μ' := by
  obtain ⟨plan, hplan, hvalues⟩ := Outcome.exists_ok_of_any
    (x := planSource .standard longProductSource)
    (p := fun plan => plan.passes[0]? = some ⟨0, .reduction, [0], some 0⟩ &&
      (plan.reduced? ⟨0, .reduction, [0], some 0⟩).any fun node => node.operands?.any fun o =>
        (o.2.1.arguments ++ o.2.2.arguments).all fun a => a.storage = .vector .whole &&
          a.logicalSize longProductSizes plan.registry = .ok [4294967295])
    (by decide +kernel)
  simp only [Bool.and_eq_true, decide_eq_true_eq] at hvalues
  obtain ⟨hpass, hnode⟩ := hvalues
  have hmem := List.mem_of_getElem? hpass
  obtain ⟨file, statements, -, hlower, -, hschedule⟩ := planSource_eq_ok_iff.mp hplan
  obtain ⟨-, env, -, hlawful⟩ := SourceFile.lower_lawful hlower
  obtain ⟨d, hbuilt⟩ := Plan.built_of_schedule hschedule hlawful
  obtain ⟨body, lhs, rhs, computed, cell, k, length, r, result, hbody, hr, -, -, hlength,
    hvector, hinfo, -, htext⟩ := hbuilt.exists_reductionInstructions hmem rfl 128
  rw [hr.reduced] at hnode
  simp only [Option.any_some, Term.operands?, List.all_eq_true, Bool.and_eq_true,
    decide_eq_true_eq] at hnode
  have hsize :=
    Argument.vectorSize_eq hvector hinfo (hnode length (List.mem_append_left _ hlength)).2
  refine ⟨plan, _, body, _, lhs, rhs, computed, cell, hplan, hmem, rfl, rfl, hbody, htext,
    hr.reduced, fun a ha _ => (hnode a ha).2, fun i hi a ha => ?_, fun μ μ' => ?_⟩
  · rw [(hnode a ha).1]
    show i * 1 + 0 < 2 ^ 32
    omega
  · exact Instruction.not_computes_reduction (by decide) (by decide) r.isParameter_vectorSize
      (by decide) (by decide) hsize

end LinearKernels
