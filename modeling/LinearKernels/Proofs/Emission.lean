import LinearKernels.Proofs.Assignments
import LinearKernels.Proofs.Execution
import LinearKernels.Proofs.TermSets

/-!
Emission never fails. Whatever the text of a kernel mentions has been bound with a name for
that kernel, the arguments that loops run over are of the shape they run over, and the length
of a reduction can be read off its left operand. So a lowered file can be planned and written
for every valid work-group size, and compiling fails only if reading, lowering, the device or
the work-group size is at fault.
-/

namespace LinearKernels

namespace Argument.BoundIn

variable {a : Argument} {reg : Registry}

theorem info_ok (h : a.BoundIn reg) : ∃ r, a.info reg = .ok r := by
  obtain ⟨i, r, hi, hr, -⟩ := h
  exact ⟨r, info_eq_ok_iff.mpr ⟨i, hi, hr⟩⟩

theorem name_ok (h : a.BoundIn reg) : ∃ name, a.name reg = .ok name := by
  obtain ⟨r, hr⟩ := h.info_ok
  exact ⟨r.name, by rw [name, hr]; rfl⟩

theorem declaration_ok (h : a.BoundIn reg) : ∃ text, a.declaration reg = .ok text := by
  obtain ⟨r, hr⟩ := h.info_ok
  exact ⟨_, by rw [declaration, hr]; rfl⟩

theorem vectorElement_ok (h : a.BoundIn reg) (hshape : a.shape = .vector) (i : String) :
    ∃ text, a.vectorElement reg i = .ok text := by
  obtain ⟨name, hname⟩ := h.name_ok
  obtain ⟨v, hv⟩ : ∃ v, a.storage = .vector v := by
    cases hs : a.storage <;> simp_all [Argument.shape, Storage.shape]
  exact ⟨_, by rw [vectorElement, hname, Outcome.ok_bind, hv]; rfl⟩

end Argument.BoundIn

/-- The argument is stored as a matrix. -/
theorem Argument.exists_layout {a : Argument} (hshape : a.shape = .matrix) :
    ∃ l, a.storage = .matrix l := by
  cases hs : a.storage <;> simp_all [shape, Storage.shape]

theorem Argument.BoundIn.matrixElement_ok {a : Argument} {reg : Registry} (h : a.BoundIn reg)
    (hshape : a.shape = .matrix) (i j : String) : ∃ text, a.matrixElement reg i j = .ok text := by
  obtain ⟨name, hname⟩ := h.name_ok
  obtain ⟨l, hl⟩ := exists_layout hshape
  exact ⟨_, by rw [matrixElement, hname, Outcome.ok_bind, hl]; rfl⟩

namespace Term

variable {reg : Registry} {t : Term} {pass : Nat}

theorem LeavesBound.exists_key (h : t.LeavesBound reg) : ∃ key, t.key reg = .ok key := by
  obtain ⟨key, hkey⟩ := h.key_ok
  exact ⟨key, hkey reg (Registry.Grows.refl reg)⟩

theorem LeavesBound.shortKey_ok (h : t.LeavesBound reg) : ∃ key, t.shortKey reg = .ok key := by
  induction t with
  | leaf arg => exact h.exists_key
  | unary op sub ih =>
    obtain ⟨key, hkey⟩ := ih h
    exact ⟨_, by rw [shortKey, hkey]; rfl⟩
  | binary op lhs rhs ihl ihr =>
    obtain ⟨hl, hr⟩ := List.forall_mem_append.mp h
    rw [shortKey]
    split
    · obtain ⟨kl, hkl⟩ := ihl hl
      obtain ⟨kr, hkr⟩ := ihr hr
      exact ⟨_, by rw [hkl, hkr]; rfl⟩
    · exact LeavesBound.exists_key hl
  | matMat lhs rhs ihl ihr | matVec lhs rhs ihl ihr =>
    obtain ⟨hl, hr⟩ := List.forall_mem_append.mp h
    obtain ⟨kl, hkl⟩ := ihl hl
    obtain ⟨kr, hkr⟩ := ihr hr
    exact ⟨_, by rw [shortKey, hkl, hkr]; rfl⟩
  | inner lhs rhs computed temporary ihl ihr =>
    exact LeavesBound.exists_key (List.forall_mem_append.mp h).1

/-- Every inner product has its pass and its temporary. -/
def Computed (t : Term) : Prop :=
  ∀ m ∈ t.innerProducts, ∃ lhs rhs pass cell, m = inner lhs rhs (some pass) (some cell)

/-- What has a name for a kernel can be written in it. -/
theorem code_ok (hb : t.LeavesBound reg) (hn : t.NamedIn reg pass) (hc : t.Computed) :
    ∃ text, t.code reg pass = .ok text := by
  induction t with
  | leaf arg => exact Argument.NamedIn.accessName_ok hn
  | unary op sub ih =>
    obtain ⟨text, htext⟩ := ih hb hn hc
    exact ⟨_, by rw [code, htext]; rfl⟩
  | binary op lhs rhs ihl ihr =>
    obtain ⟨hbl, hbr⟩ := List.forall_mem_append.mp hb
    obtain ⟨hcl, hcr⟩ := List.forall_mem_append.mp hc
    obtain ⟨l, hl⟩ := ihl hbl hn.1 hcl
    obtain ⟨r, hr⟩ := ihr hbr hn.2 hcr
    exact ⟨_, by rw [code, hl, hr]; rfl⟩
  | matMat lhs rhs ihl ihr | matVec lhs rhs ihl ihr =>
    obtain ⟨hbl, hbr⟩ := List.forall_mem_append.mp hb
    obtain ⟨kl, hkl⟩ := LeavesBound.exists_key hbl
    obtain ⟨kr, hkr⟩ := LeavesBound.exists_key hbr
    exact ⟨_, by rw [code, hkl, hkr]; rfl⟩
  | inner lhs rhs computed temporary ihl ihr =>
    obtain ⟨l, r, p, cell, heq⟩ := hc _ (self_mem_innerProducts lhs rhs computed temporary)
    obtain ⟨-, -, rfl, rfl⟩ := inner.inj heq
    exact (hn.2.2 cell rfl).accessName_ok

/-- The operands of a computed inner product can be written in the kernel that computes it. -/
theorem pairCode_ok {lhs rhs : Term} {computed : Option Nat} {temporary : Option Argument}
    (hb : (inner lhs rhs computed temporary).LeavesBound reg)
    (hn : (inner lhs rhs computed temporary).NamedIn reg pass)
    (hc : (inner lhs rhs computed temporary).Computed) :
    ∃ text, pairCode reg pass .mul lhs rhs = .ok text := by
  obtain ⟨hbl, hbr⟩ := List.forall_mem_append.mp hb
  have hoperands : ∀ m ∈ lhs.innerProducts ++ rhs.innerProducts, ∃ l r p cell,
      m = inner l r (some p) (some cell) := fun m hm => hc m (List.mem_append_left _ hm)
  obtain ⟨hcl, hcr⟩ := List.forall_mem_append.mp hoperands
  obtain ⟨l, hl⟩ := code_ok hbl hn.1 hcl
  obtain ⟨r, hr⟩ := code_ok hbr hn.2.1 hcr
  exact ⟨_, by rw [pairCode, hl, hr]; rfl⟩

/-- The length of a reduction can be read off a vector in its left operand. -/
theorem exists_lengthVector (wt : t.WellTyped) (hshape : t.shape = .vector)
    (hproducts : t.matrixProducts = []) : ∃ a, t.lengthVector? = some a ∧ a ∈ t.arguments := by
  obtain ⟨b, hb, hvector⟩ := exists_vector_leaf wt hshape hproducts
  have hne : (t.extract .argument isVectorLeaf).terms ≠ [] :=
    TermSet.insertAll_ne_nil (.inr (List.ne_nil_of_mem
      (List.mem_filter.mpr
        ⟨hb, by simpa [TermKind.admits, argument?, isVectorLeaf] using hvector⟩)))
  obtain ⟨x, rest, hx⟩ := List.exists_cons_of_ne_nil hne
  obtain ⟨hwalk, -, hleaf⟩ := mem_extract (hx ▸ List.mem_cons_self ..)
  cases x with
  | leaf a =>
    refine ⟨a, ?_, List.mem_filterMap.mpr ⟨leaf a, hwalk, rfl⟩⟩
    rw [lengthVector?, hx]
    rfl
  | unary | binary | matMat | matVec | inner => simp [isVectorLeaf] at hleaf

end Term

namespace Plan

variable {env : Declarations} {statements : List Statement} {plan : Plan} {d : Draft}

theorem Built.computed (h : plan.Built env statements d) {statement : Statement}
    (hs : statement ∈ plan.statements) : statement.tree.Computed := by
  intro m hm
  exact ((h.planned statement hs).products m hm).2.2

theorem Built.placedIn (h : plan.Built env statements d) {statement : Statement}
    (hs : statement ∈ plan.statements) :
    ∀ a ∈ statement.tree.arguments, a.PlacedIn env plan.registry :=
  fun a ha => ((h.planned statement hs).bound.arguments a ha).keeps h.keeps

theorem Built.keys_ok (h : plan.Built env statements d) : ∃ keys, plan.keys = .ok keys :=
  Outcome.mapM_ok fun _ hs => (h.leavesBound hs).exists_key

theorem Built.shortKeys_ok (h : plan.Built env statements d) :
    ∃ keys, plan.shortKeys = .ok keys :=
  Outcome.mapM_ok fun _ hs => (h.leavesBound hs).shortKey_ok

theorem tree_ok {s : Nat} {statement : Statement} (hs : plan.statements[s]? = some statement) :
    plan.tree s = .ok statement.tree := by
  rw [tree, hs]

/-! ### Parameters -/

/-- The terms through which a pass walks for its parameters, and what it takes besides. -/
def sources (plan : Plan) (pass : Pass) : Except Fault (List Term × List Term) := do
  if pass.kind = .reduction then
    let some node := plan.reduced? pass | throw .unbound
    let some (_, lhs, rhs) := node.operands? | throw .unbound
    return ([lhs, rhs], [node])
  else
    return (← pass.statements.mapM plan.tree, [])

/-- The arguments of some terms and some terms besides, as a set. -/
def parameterSet (sources : List Term × List Term) : TermSet :=
  TermSet.empty.insertAll (sources.1.flatMap (·.argumentSet.terms) ++ sources.2)

theorem arguments_eq (plan : Plan) (pass : Pass) :
    plan.arguments pass = parameterSet <$> plan.sources pass := by
  have hfold : ∀ (trees : List Term) (set : TermSet),
      trees.foldl (fun set tree => set.insertAll tree.argumentSet.terms) set =
        set.insertAll (trees.flatMap (·.argumentSet.terms)) := by
    intro trees
    induction trees with
    | nil => exact fun set => rfl
    | cons t trees ih =>
      intro set
      rw [List.foldl_cons, ih, List.flatMap_cons, TermSet.insertAll_append]
  unfold Plan.arguments sources
  split
  · cases plan.reduced? pass with
    | none => rfl
    | some node =>
      dsimp only
      cases node.operands? with
      | none => rfl
      | some operands =>
        simp only [parameterSet, List.flatMap_cons, List.flatMap_nil, List.append_nil,
          TermSet.insertAll_append, Outcome.pure_eq_ok, Outcome.map_ok]
        rfl
  · cases pass.statements.mapM plan.tree with
    | error e => rfl
    | ok trees =>
      simp only [Outcome.ok_bind, hfold, Outcome.pure_eq_ok, Outcome.map_ok,
        parameterSet, List.append_nil]

/-- Everything the pass takes is bound. -/
structure Takes (env : Declarations) (plan : Plan) (sources : List Term × List Term) : Prop where
  walks : ∀ t ∈ sources.1, ∀ a ∈ t.arguments, a.PlacedIn env plan.registry
  besides : ∀ t ∈ sources.2, ∃ a, t.argument? = some a ∧ a.PlacedIn env plan.registry

theorem Takes.placed {sources : List Term × List Term} (h : plan.Takes env sources) :
    ∀ t ∈ (parameterSet sources).terms, ∃ a, t.argument? = some a ∧
      a.PlacedIn env plan.registry := by
  intro t ht
  rcases TermSet.mem_insertAll ht with ht | ht
  · cases ht
  · rcases List.mem_append.mp ht with ht | ht
    · obtain ⟨s, hs, ht⟩ := List.mem_flatMap.mp ht
      obtain ⟨hwalk, hadmits, -⟩ := Term.mem_extract ht
      obtain ⟨a, ha⟩ := Option.isSome_iff_exists.mp hadmits
      exact ⟨a, ha, h.walks s hs a (List.mem_filterMap.mpr ⟨t, hwalk, ha⟩)⟩
    · exact h.besides t ht

theorem Takes.parameters_ok {pass : Pass} {sources : List Term × List Term}
    (h : plan.Takes env sources) (hsources : plan.sources pass = .ok sources) :
    ∃ parameters, plan.parameters pass = .ok parameters := by
  rw [parameters, arguments_eq, hsources]
  refine Outcome.mapM_ok fun t ht => ?_
  obtain ⟨a, ha, hplaced⟩ := h.placed t ht
  obtain ⟨text, htext⟩ := hplaced.bound.declaration_ok
  exact ⟨text, by rw [ha]; exact htext⟩

/-! ### Reductions -/

/-- What a reduction pass needs: its inner product, bound, named and with its cell. -/
structure Reduces (env : Declarations) (plan : Plan) (pass : Pass) (lhs rhs : Term)
    (computed : Nat) (cell : Argument) : Prop where
  reduced : plan.reduced? pass = some (.inner lhs rhs (some computed) (some cell))
  typed : (Term.inner lhs rhs (some computed) (some cell)).WellTyped
  leaves : (Term.inner lhs rhs (some computed) (some cell)).LeavesBound plan.registry
  left : ∀ a ∈ lhs.arguments, a.PlacedIn env plan.registry
  right : ∀ a ∈ rhs.arguments, a.PlacedIn env plan.registry
  holds : cell.PlacedIn env plan.registry
  named : (Term.inner lhs rhs (some computed) (some cell)).NamedIn plan.registry pass.index
  products : (Term.inner lhs rhs (some computed) (some cell)).matrixProducts = []
  settled : (Term.inner lhs rhs (some computed) (some cell)).Computed

theorem Built.reduces (h : plan.Built env statements d) {p : Nat} {pass : Pass}
    (hp : plan.passes[p]? = some pass) (hkind : pass.kind = .reduction) :
    ∃ lhs rhs computed cell, plan.Reduces env pass lhs rhs computed cell := by
  cases h.passOf hp with
  | body kind_ne => exact absurd hkind kind_ne
  | @reduction c n m product computed named =>
    rcases Draft.mem_of_productAt product with ⟨statement, hc, hm⟩ | ⟨-, hm⟩
    · have hmem := List.mem_of_getElem? hc
      have hplanned := h.planned statement hmem
      rw [Draft.productAt_done hc] at product
      obtain ⟨wt, hbound, lhs, rhs, q, cell, rfl⟩ := hplanned.products m hm
      obtain ⟨op, target, value, hbody⟩ := hplanned.bodyOf
      refine ⟨lhs, rhs, q, cell, ?_, wt, hbound.leavesBound.keeps h.keeps,
        fun a ha => (hbound.1.arguments a ha).keeps h.keeps,
        fun a ha => (hbound.2.1.arguments a ha).keeps h.keeps,
        (hbound.arguments cell (by simp [Term.arguments, Term.walk, Term.argument?])).keeps
          h.keeps, named, hbody.outside_tree _ hm, ?_⟩
      · simp [reduced?, hc, product]
      · intro x hx
        simp only [Term.innerProducts, List.mem_append, List.mem_singleton] at hx
        rcases hx with hx | rfl
        · refine h.computed hmem x (Term.mem_innerProducts_of_nested hm ?_)
          simpa [Term.nestedProducts, Term.children] using hx
        · exact ⟨lhs, rhs, q, cell, rfl⟩
    · cases hm

variable {pass : Pass} {lhs rhs : Term} {computed : Nat} {cell : Argument}

theorem Reduces.sources_ok (h : plan.Reduces env pass lhs rhs computed cell)
    (hkind : pass.kind = .reduction) :
    ∃ sources, plan.sources pass = .ok sources ∧ plan.Takes env sources := by
  refine ⟨([lhs, rhs], [.inner lhs rhs (some computed) (some cell)]), ?_, ?_, ?_⟩
  · simp only [sources, hkind, if_true, h.reduced, Term.operands?, Outcome.pure_eq_ok]
  · intro t ht
    rcases List.mem_cons.mp ht with rfl | ht
    · exact h.left
    · obtain rfl := List.mem_singleton.mp ht
      exact h.right
  · intro t ht
    obtain rfl := List.mem_singleton.mp ht
    exact ⟨cell, rfl, h.holds⟩

theorem Reduces.body_ok (h : plan.Reduces env pass lhs rhs computed cell) (localSize : Nat) :
    ∃ code, plan.reductionBody localSize pass = .ok code := by
  obtain ⟨hproducts, -⟩ := List.append_eq_nil_iff.mp h.products
  obtain ⟨length, hlength, hmem⟩ := Term.exists_lengthVector h.typed.1 h.typed.2.2.1 hproducts
  obtain ⟨name, hname⟩ := (h.left length hmem).bound.name_ok
  obtain ⟨text, htext⟩ := Term.pairCode_ok h.leaves h.named h.settled
  obtain ⟨result, hresult⟩ := (h.named.2.2 cell rfl).accessName_ok
  have hbound : plan.vectorBound length = .ok (rowIndex ++ " < " ++ vectorSize name) := by
    rw [vectorBound, hname]
    rfl
  unfold reductionBody
  rw [h.reduced]
  change ∃ code, (orUnbound (Term.lengthVector? lhs) >>= _) = .ok code
  simp only [orUnbound, hlength, Outcome.ok_bind, hbound, htext, hresult]
  exact ⟨_, rfl⟩

/-! ### Statements -/

/-- What every other pass needs: statements of its kind, bound and named. -/
structure Runs (env : Declarations) (plan : Plan) (pass : Pass) : Prop where
  nonempty : pass.statements ≠ []
  statement : ∀ s ∈ pass.statements, ∃ tree op target value, plan.tree s = .ok tree ∧
    Term.BodyOf env op target value tree ∧ Term.Fits pass.kind target value ∧
    tree.LeavesBound plan.registry ∧ (∀ a ∈ tree.arguments, a.PlacedIn env plan.registry) ∧
    tree.NamedIn plan.registry pass.index ∧ tree.Computed

theorem Built.runs (h : plan.Built env statements d) {p : Nat} {pass : Pass}
    (hp : plan.passes[p]? = some pass) (hkind : pass.kind ≠ .reduction) : plan.Runs env pass := by
  cases h.passOf hp with
  | reduction => exact absurd rfl hkind
  | body kind_ne nonempty single planned =>
    refine ⟨nonempty, fun s hs => ?_⟩
    obtain ⟨statement, hstatement, rfl, hnamed⟩ := planned s hs
    have hmem := List.mem_of_getElem? hstatement
    obtain ⟨op, target, value, hbody⟩ := (h.planned statement hmem).bodyOf
    exact ⟨statement.tree, op, target, value, tree_ok hstatement, hbody, hbody.fits,
      h.leavesBound hmem, h.placedIn hmem, hnamed, h.computed hmem⟩

theorem Runs.sources_ok (h : plan.Runs env pass) (hkind : pass.kind ≠ .reduction) :
    ∃ sources, plan.sources pass = .ok sources ∧ plan.Takes env sources := by
  obtain ⟨trees, htrees, hplaced⟩ : ∃ trees, pass.statements.mapM plan.tree = .ok trees ∧
      ∀ t ∈ trees, ∀ a ∈ t.arguments, a.PlacedIn env plan.registry := by
    refine Outcome.mapM_forall_ok fun s hs => ?_
    obtain ⟨tree, -, -, -, htree, -, -, -, hplaced, -, -⟩ := h.statement s hs
    exact ⟨tree, htree, hplaced⟩
  refine ⟨(trees, []), ?_, hplaced, fun t ht => by cases ht⟩
  simp only [sources, hkind, if_false, htrees, Outcome.ok_bind, Outcome.pure_eq_ok]

theorem Runs.bodies_ok (h : plan.Runs env pass) : ∃ code, plan.bodies pass = .ok code := by
  obtain ⟨texts, htexts⟩ : ∃ texts, pass.statements.mapM (fun s => do
      (← plan.tree s).code plan.registry pass.index) = .ok texts := by
    refine Outcome.mapM_ok fun s hs => ?_
    obtain ⟨tree, -, -, -, htree, -, -, hleaves, -, hnamed, hcomputed⟩ := h.statement s hs
    obtain ⟨text, htext⟩ := Term.code_ok hleaves hnamed hcomputed
    exact ⟨text, by rw [htree]; exact htext⟩
  exact ⟨_, by rw [bodies, htexts]; rfl⟩

theorem target_ok {s : Nat} {tree value : Term} {op : BinaryOp} {target : Argument}
    (htree : plan.tree s = .ok tree) (hbody : Term.BodyOf env op target value tree) :
    plan.target s = .ok target := by
  simp only [Plan.target, htree, Outcome.ok_bind, hbody.eq, Term.operands?, hbody.isAssignment,
    if_true, Term.argument?, orUnbound]

/-- The matrix product of a statement with its operands. -/
structure Multiplies (plan : Plan) (s : Nat) (p : Term) (a b : Argument) : Prop where
  product : plan.product s = .ok p
  operands : productOperands p = .ok (a, b)
  typed : p.WellTyped
  leaves : p.LeavesBound plan.registry
  left : a.BoundIn plan.registry
  right : b.BoundIn plan.registry

theorem multiplies {s : Nat} {tree value p : Term} {op : BinaryOp} {target a b : Argument}
    (htree : plan.tree s = .ok tree) (hbody : Term.BodyOf env op target value tree)
    (hleaves : tree.LeavesBound plan.registry) (hp : value.matrixProducts = [p])
    (hab : p.product? = some (.leaf a, .leaf b)) : plan.Multiplies s p a b := by
  have hproducts : tree.matrixProducts = [p] := by
    rw [hbody.eq]
    exact hp
  have hmem : p ∈ tree.matrixProducts := hproducts ▸ List.mem_singleton_self p
  have hsub := Term.leaves_of_mem_matrixProducts hmem
  have hpleaves : p.LeavesBound plan.registry := fun c hc => hleaves c (hsub c hc)
  have hfound : tree.walk.find? (·.product?.isSome) = some p := by
    rw [← List.head?_filter, Term.filter_walk_product hbody.outside_tree, hproducts]
    rfl
  have hpair : p.leaves = [a, b] := by
    cases p with
    | matMat lhs rhs | matVec lhs rhs =>
      obtain ⟨rfl, rfl⟩ := Prod.mk.inj (Option.some.inj hab)
      rfl
    | leaf | unary | binary | inner => simp [Term.product?] at hab
  refine ⟨?_, ?_, Term.WellTyped.of_mem_matrixProducts hbody.typed hmem, hpleaves,
    hpleaves a (by simp [hpair]), hpleaves b (by simp [hpair])⟩
  · simp only [Plan.product, htree, Outcome.ok_bind, hfound, orUnbound]
  · simp only [productOperands, hab, orUnbound, Outcome.ok_bind, Term.argument?,
      Outcome.pure_eq_ok]

theorem vectorBound_ok {a : Argument} (ha : a.BoundIn plan.registry) :
    ∃ bound, plan.vectorBound a = .ok bound := by
  obtain ⟨name, hname⟩ := ha.name_ok
  exact ⟨_, by rw [vectorBound, hname]; rfl⟩

theorem matrixBounds_ok {a : Argument} (ha : a.BoundIn plan.registry)
    (hshape : a.shape = .matrix) :
    ∃ bounds, plan.matrixBounds a = .ok bounds := by
  obtain ⟨name, hname⟩ := ha.name_ok
  obtain ⟨l, hl⟩ := Argument.exists_layout hshape
  exact ⟨_, by simp only [matrixBounds, layoutOf, hl, hname, Outcome.ok_bind]; rfl⟩

theorem innerBound_ok {a : Argument} (ha : a.BoundIn plan.registry) (hshape : a.shape = .matrix) :
    ∃ bound, plan.innerBound a = .ok bound := by
  obtain ⟨name, hname⟩ := ha.name_ok
  obtain ⟨l, hl⟩ := Argument.exists_layout hshape
  exact ⟨_, by simp only [innerBound, layoutOf, hl, hname, Outcome.ok_bind]; rfl⟩

theorem Runs.body_ok (h : plan.Runs env pass) (localSize : Nat) (hkind : pass.kind ≠ .reduction) :
    ∃ code, plan.body localSize pass = .ok code := by
  obtain ⟨s, rest, hrest⟩ := List.exists_cons_of_ne_nil h.nonempty
  have hfirst : firstStatement pass = .ok s := by
    rw [firstStatement, hrest]
    rfl
  obtain ⟨tree, op, target, value, htree, hbody, hfits, hleaves, -, -, -⟩ :=
    h.statement s (by simp [hrest])
  have htarget := target_ok htree hbody
  have hbound : target.BoundIn plan.registry := hleaves target (by simp [hbody.eq, Term.leaves])
  obtain ⟨bodies, hbodies⟩ := h.bodies_ok
  unfold body
  cases hk : pass.kind with
  | vector =>
    obtain ⟨bound, hvector⟩ := vectorBound_ok hbound
    exact ⟨_, by simp only [vectorBody, hfirst, htarget, hvector, hbodies, Outcome.ok_bind]; rfl⟩
  | matrix =>
    rw [hk] at hfits
    obtain ⟨bounds, hmatrix⟩ := matrixBounds_ok hbound hfits.1
    exact ⟨_, by simp only [matrixBody, hfirst, htarget, hmatrix, hbodies, Outcome.ok_bind]; rfl⟩
  | scalar => exact ⟨_, by simp only [scalarBody, hbodies, Outcome.ok_bind]; rfl⟩
  | reduction => exact absurd hk hkind
  | matVec =>
    rw [hk] at hfits
    obtain ⟨-, a, b, hp⟩ := hfits
    have hm := multiplies htree hbody hleaves hp rfl
    obtain ⟨-, -, hshapea, hshapeb, -⟩ := hm.typed
    obtain ⟨key, hkey⟩ := hm.leaves.exists_key
    obtain ⟨bound, hvector⟩ := vectorBound_ok hbound
    obtain ⟨sum, hsum⟩ := innerBound_ok hm.left hshapea
    obtain ⟨l, hl⟩ := hm.left.matrixElement_ok hshapea rowIndex innerIndex
    obtain ⟨r, hr⟩ := hm.right.vectorElement_ok hshapeb innerIndex
    exact ⟨_, by
      simp only [matVecBody, hfirst, htarget, hm.product, hm.operands, hkey, hvector, hsum, hl,
        hr, hbodies, Outcome.ok_bind]
      rfl⟩
  | matMat =>
    rw [hk] at hfits
    obtain ⟨hshape, a, b, hp⟩ := hfits
    have hm := multiplies htree hbody hleaves hp rfl
    obtain ⟨-, -, hshapea, hshapeb, -⟩ := hm.typed
    obtain ⟨key, hkey⟩ := hm.leaves.exists_key
    obtain ⟨bounds, hmatrix⟩ := matrixBounds_ok hbound hshape
    obtain ⟨sum, hsum⟩ := innerBound_ok hm.left hshapea
    obtain ⟨l, hl⟩ := hm.left.matrixElement_ok hshapea rowIndex innerIndex
    obtain ⟨r, hr⟩ := hm.right.matrixElement_ok hshapeb innerIndex colIndex
    exact ⟨_, by
      simp only [matMatBody, hfirst, htarget, hm.product, hm.operands, hkey, hmatrix, hsum, hl,
        hr, hbodies, Outcome.ok_bind]
      rfl⟩

/-! ### The whole program -/

theorem Built.sources_ok (h : plan.Built env statements d) {pass : Pass}
    (hp : pass ∈ plan.passes) :
    ∃ sources, plan.sources pass = .ok sources ∧ plan.Takes env sources := by
  obtain ⟨p, hp⟩ := List.mem_iff_getElem?.mp hp
  by_cases hkind : pass.kind = .reduction
  · obtain ⟨lhs, rhs, computed, cell, hreduces⟩ := h.reduces hp hkind
    exact hreduces.sources_ok hkind
  · exact (h.runs hp hkind).sources_ok hkind

theorem Built.body_ok (h : plan.Built env statements d) {pass : Pass} (hp : pass ∈ plan.passes)
    (localSize : Nat) : ∃ code, plan.body localSize pass = .ok code := by
  obtain ⟨p, hp⟩ := List.mem_iff_getElem?.mp hp
  by_cases hkind : pass.kind = .reduction
  · obtain ⟨lhs, rhs, computed, cell, hreduces⟩ := h.reduces hp hkind
    rw [body, hkind]
    exact hreduces.body_ok localSize
  · exact (h.runs hp hkind).body_ok localSize hkind

theorem Built.emit_ok (h : plan.Built env statements d) (name : String) {settings : Settings}
    (hlocal : isLocalSize settings.localSize = true) :
    ∃ listing, plan.emit name settings = .ok listing := by
  obtain ⟨kernels, hkernels⟩ : ∃ kernels,
      plan.passes.mapM (plan.kernel name settings.localSize) = .ok kernels := by
    refine Outcome.mapM_ok fun pass hp => ?_
    obtain ⟨sources, hsources, htakes⟩ := h.sources_ok hp
    obtain ⟨parameters, hparameters⟩ := htakes.parameters_ok hsources
    obtain ⟨code, hcode⟩ := h.body_ok hp settings.localSize
    exact ⟨_, by simp only [kernel, hparameters, hcode, Outcome.ok_bind]; rfl⟩
  exact ⟨_, by
    simp only [emit, Settings.checkLocalSize, hlocal, if_true, hkernels, Outcome.ok_bind]
    rfl⟩

theorem Built.toProgram_ok (h : plan.Built env statements d) {settings : Settings}
    (hlocal : isLocalSize settings.localSize = true) :
    ∃ name program, plan.programName settings = .ok name ∧
      plan.toProgram settings name = .ok program := by
  obtain ⟨keys, hkeys⟩ := h.keys_ok
  obtain ⟨shortKeys, hshort⟩ := h.shortKeys_ok
  have hname : ∃ name, plan.programName settings = .ok name :=
    ⟨_, by rw [Plan.programName, hkeys]; rfl⟩
  obtain ⟨name, hname⟩ := hname
  obtain ⟨listing, hlisting⟩ := h.emit_ok name hlocal
  exact ⟨name, _, hname, by rw [toProgram, hlisting, hkeys, hshort]; rfl⟩

end Plan

/-- The valid work-group sizes are the powers of two up to 1024. -/
theorem isLocalSize_iff (n : Nat) : isLocalSize n = true ↔ n.isPowerOfTwo ∧ n ≤ 1024 := by
  rw [isLocalSize, Bool.and_eq_true, decide_eq_true_iff, decide_eq_true_iff, maxLocalSize]

/-- The device and the work-group size are all that can be at fault once a file has been
lowered; what a fault of planning or emission would say is never said. -/
theorem compile_lowered {options : Options} {source : String}
    {file : SourceFile} {first : Statement} {rest : List Statement}
    {ds : List Diagnostic} (hparse : parseSource 0 source = .ok file)
    (hlower : file.lower options.settings = .ok (first :: rest)) :
    compile options source = .error ds ↔ options.device.check (first :: rest) = .error ds ∨
      options.device.check (first :: rest) = .ok () ∧
      isLocalSize options.settings.localSize = false ∧
        ds = [(Fault.invalidLocalSize options.settings.localSize).diagnostic first.span] := by
  obtain ⟨-, env, -, hlawful⟩ := SourceFile.lower_lawful hlower
  cases hcheck : options.device.check (first :: rest) with
  | error es =>
    simp [compile, planSource, hparse, hlower, hcheck]
  | ok =>
    cases hlocal : isLocalSize options.settings.localSize with
    | true =>
      obtain ⟨plan, d, hplan, hbuilt⟩ := schedule_ok hlocal hlawful
      obtain ⟨name, program, hname, hprogram⟩ := hbuilt.toProgram_ok hlocal
      have hsource := planSource_eq_ok_iff.mpr ⟨file, _, hparse, hlower, hcheck, hplan⟩
      simp [compile, hsource, hname, hprogram]
    | false =>
      simp [compile, planSource, hparse, hlower, hcheck, schedule, Settings.checkLocalSize,
        hlocal, Checked.ofFault, eq_comm]

/-- Whatever has been lowered can be planned, keyed and written, for every valid work-group
size and every name; so compiling fails exactly if the source cannot be read or lowered, or
the device or the work-group size does not do. -/
theorem internal_faults_unreachable :
    (∀ (lowering planning emission : Settings) (file : SourceFile) (statements : List Statement),
      file.lower lowering = .ok statements →
      planning.localSize.isPowerOfTwo → planning.localSize ≤ 1024 →
      emission.localSize.isPowerOfTwo → emission.localSize ≤ 1024 →
      ∃ plan, schedule planning statements = .ok plan ∧
        (∃ keys, plan.keys = .ok keys) ∧ (∃ shortKeys, plan.shortKeys = .ok shortKeys) ∧
        (∀ pass ∈ plan.passes, ∃ set, plan.arguments pass = .ok set) ∧
        ∀ name, ∃ listing, plan.emit name emission = .ok listing) ∧
    ∀ (options : Options) (source : String) (ds : List Diagnostic),
      compile options source = .error ds ↔
        parseSource 0 source = .error ds ∨
        ∃ file, parseSource 0 source = .ok file ∧
          (file.lower options.settings = .error ds ∨
          ∃ first rest, file.lower options.settings = .ok (first :: rest) ∧
            (options.device.check (first :: rest) = .error ds ∨
            options.device.check (first :: rest) = .ok () ∧
              ¬ (options.settings.localSize.isPowerOfTwo ∧ options.settings.localSize ≤ 1024) ∧
              ds = [(Fault.invalidLocalSize options.settings.localSize).diagnostic
                first.span])) := by
  constructor
  · intro lowering planning emission file statements hlower hpower hle hpower' hle'
    obtain ⟨-, env, -, hlawful⟩ := SourceFile.lower_lawful hlower
    obtain ⟨plan, d, hplan, hbuilt⟩ := schedule_ok ((isLocalSize_iff _).mpr ⟨hpower, hle⟩) hlawful
    refine ⟨plan, hplan, hbuilt.keys_ok, hbuilt.shortKeys_ok, fun pass hp => ?_, fun name => ?_⟩
    · obtain ⟨sources, hsources, -⟩ := hbuilt.sources_ok hp
      exact ⟨Plan.parameterSet sources, by rw [Plan.arguments_eq, hsources]; rfl⟩
    · exact hbuilt.emit_ok name ((isLocalSize_iff _).mpr ⟨hpower', hle'⟩)
  · intro options source ds
    rw [← isLocalSize_iff, Bool.not_eq_true]
    cases hparse : parseSource 0 source with
    | error es => simp [compile, planSource, hparse]
    | ok file =>
      cases hlower : file.lower options.settings with
      | error es => simp [compile, planSource, hparse, hlower]
      | ok statements =>
        obtain ⟨hne, -⟩ := SourceFile.lower_lawful hlower
        obtain ⟨first, rest, rfl⟩ := List.exists_cons_of_ne_nil hne
        rw [compile_lowered hparse hlower]
        constructor
        · intro h
          exact .inr ⟨file, rfl, .inr ⟨first, rest, hlower, h⟩⟩
        · rintro (h | ⟨file', hfile, h | ⟨first', rest', hlower', h⟩⟩)
          · cases h
          · obtain rfl := Except.ok.inj hfile
            rw [hlower] at h
            cases h
          · obtain rfl := Except.ok.inj hfile
            obtain ⟨rfl, rfl⟩ := List.cons.inj (Except.ok.inj (hlower.symm.trans hlower'))
            exact h

/-- Nested inner products, a matrix product, and a reduction that is used again. -/
def mixedSource : String :=
  "matrix m; vector a, b, x; scalar s; s = dot(dot(a, b) * x, x); a += m * x - s * dot(a, b) * b;"

theorem internal_faults_unreachable_mixed :
    ∃ file statements plan, parseSource 0 mixedSource = .ok file ∧
      file.lower .standard = .ok statements ∧ schedule .standard statements = .ok plan ∧
      (∃ keys, plan.keys = .ok keys) ∧ (∃ shortKeys, plan.shortKeys = .ok shortKeys) ∧
      (∀ pass ∈ plan.passes, ∃ set, plan.arguments pass = .ok set) ∧
      ∀ name, ∃ listing, plan.emit name { Settings.standard with localSize := 1024 } =
        .ok listing := by
  have hread : (parseSource 0 mixedSource >>= (·.lower .standard)).isOk = true := by
    decide +kernel
  obtain ⟨statements, hstatements⟩ : ∃ statements,
      (parseSource 0 mixedSource >>= (·.lower .standard)) = .ok statements := by
    cases h : parseSource 0 mixedSource >>= (·.lower .standard) with
    | error ds =>
      rw [h] at hread
      cases hread
    | ok statements => exact ⟨statements, rfl⟩
  obtain ⟨file, hfile, hlower⟩ := Outcome.bind_eq_ok_iff.mp hstatements
  obtain ⟨plan, hplan, h⟩ := internal_faults_unreachable.1 .standard .standard
    { Settings.standard with localSize := 1024 } file statements hlower ⟨7, rfl⟩ (by decide)
    ⟨10, rfl⟩ (by decide)
  exact ⟨file, statements, plan, hfile, hlower, hplan, h⟩

end LinearKernels
