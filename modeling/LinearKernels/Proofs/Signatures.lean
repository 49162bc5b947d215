import LinearKernels.Proofs.ParameterNames
import LinearKernels.Proofs.ParameterOrder
import Mathlib.Data.List.Sort

/-!
Kernel signatures. The parameters of a kernel come from a walk through its terms, its body
from the codes of the terms, the loop conditions and the sums of its products. For every kind
of pass the body names the own parameter of each argument met in the walk, and no parameter
of any other buffer. So the signature declares all that the body mentions, each of its buffers is
used, and they come in the order of their declarations, before the temporaries.
-/

namespace LinearKernels

theorem Code.mentions_ofList (codes : List Code) :
    (ofList codes).mentions = codes.flatMap mentions := by
  induction codes with
  | nil => rfl
  | cons code codes ih => rw [ofList, mentions, ih, List.flatMap_cons]

/-- A statement walks over its target. -/
theorem Term.BodyOf.target_mem {env : Declarations} {op : BinaryOp} {target : Argument}
    {value tree : Term} (h : BodyOf env op target value tree) : target ∈ tree.arguments := by
  have hargs : (binary op (leaf target) value).arguments =
      (leaf target).arguments ++ value.arguments :=
    arguments_pair rfl rfl
  rw [h.eq, hargs]
  exact List.mem_append_left _ (List.mem_singleton_self target)

/-- The length of a reduction is that of a vector. -/
theorem Term.shape_lengthVector? {t : Term} {a : Argument} (h : t.lengthVector? = some a) :
    a.shape = .vector := by
  obtain ⟨x, hhead, ha⟩ := Option.bind_eq_some_iff.mp h
  obtain ⟨-, -, hleaf⟩ := mem_extract (List.mem_of_mem_head? hhead)
  cases x with
  | leaf b =>
    obtain rfl := Option.some.inj ha
    cases hs : b.storage with
    | vector v =>
      rw [Argument.shape, hs]
      rfl
    | hostScalar | deviceScalar | matrix => simp [isVectorLeaf, Storage.isVector, hs] at hleaf
  | unary | binary | matMat | matVec | inner => simp [isVectorLeaf] at hleaf

namespace Plan

variable {env : Declarations} {plan : Plan} {pass : Pass} {a : Argument}

/-! ### Loops -/

theorem mentions_vectorLoop (bound : String) (body : Code) :
    (vectorLoop bound body).mentions = parameterWords bound ++ body.mentions := by
  simp [vectorLoop, Code.mentions, parameterWords_rowIndex]

theorem mentions_matrixLoops (bounds : String × String) (body : Code) :
    (matrixLoops bounds body).mentions =
      parameterWords bounds.1 ++ parameterWords bounds.2 ++ body.mentions := by
  simp [matrixLoops, Code.mentions, parameterWords_rowIndex, parameterWords_colIndex]

theorem layoutOf_eq_ok {l : Layout} (h : layoutOf a = .ok l) : a.storage = .matrix l := by
  unfold layoutOf at h
  split at h
  · next hs =>
    obtain rfl := Except.ok.inj h
    exact hs
  · cases h

/-- The condition of a vector loop names the size of the vector. -/
theorem vectorBound_owned (hshape : a.shape = .vector) {bound : String}
    (h : plan.vectorBound a = .ok bound) :
    ∀ w ∈ parameterWords bound, a.Owns plan.registry w := by
  obtain ⟨name, hname, h⟩ := Outcome.bind_eq_ok_iff.mp h
  obtain ⟨r, hr, hname⟩ := Outcome.bind_eq_ok_iff.mp hname
  obtain rfl := Except.ok.inj hname
  obtain rfl := Except.ok.inj h
  obtain ⟨v, hv⟩ : ∃ v, a.storage = .vector v := by
    cases hs : a.storage <;> simp_all [Argument.shape, Storage.shape]
  rw [parameterWords_between (by decide +kernel), parameterWords_rowIndex,
    r.isParameter_name.vectorSize]
  intro w hw
  obtain rfl := List.mem_singleton.mp hw
  exact ⟨r, hr, by simp [hv, Storage.parameterNames]⟩

/-- The conditions of matrix loops name sizes of the matrix. -/
theorem matrixBounds_owned {bounds : String × String} (h : plan.matrixBounds a = .ok bounds) :
    ∀ w ∈ parameterWords bounds.1 ++ parameterWords bounds.2, a.Owns plan.registry w := by
  obtain ⟨l, hl, h⟩ := Outcome.bind_eq_ok_iff.mp h
  obtain ⟨name, hname, h⟩ := Outcome.bind_eq_ok_iff.mp h
  obtain ⟨r, hr, hname⟩ := Outcome.bind_eq_ok_iff.mp hname
  obtain rfl := Except.ok.inj hname
  obtain rfl := Except.ok.inj h
  intro w hw
  have hmem : w ∈ matrixParameters r.name := by
    rcases List.mem_append.mp hw with hw | hw
    · exact l.mem_rowsBound r.isParameter_name parameterWords_rowIndex hw
    · exact l.mem_colsBound r.isParameter_name parameterWords_colIndex hw
  refine ⟨r, hr, ?_⟩
  rw [layoutOf_eq_ok hl]
  exact List.mem_cons_of_mem _ hmem

theorem innerBound_owned {bound : String} (h : plan.innerBound a = .ok bound) :
    ∀ w ∈ parameterWords bound, a.Owns plan.registry w := by
  obtain ⟨name, hname, h⟩ := Outcome.bind_eq_ok_iff.mp h
  obtain ⟨r, hr, hname⟩ := Outcome.bind_eq_ok_iff.mp hname
  obtain ⟨l, hl, h⟩ := Outcome.bind_eq_ok_iff.mp h
  obtain rfl := Except.ok.inj hname
  obtain rfl := Except.ok.inj h
  intro w hw
  refine ⟨r, hr, ?_⟩
  rw [layoutOf_eq_ok hl]
  exact List.mem_cons_of_mem _ (l.mem_colsBound r.isParameter_name parameterWords_innerIndex hw)

/-! ### Statements -/

/-- What the codes of some trees name, all together. -/
theorem names_of_mapM {reg : Registry} {tree : Nat → Except Fault Term}
    {code : Nat → Except Fault String} {ss : List Nat}
    (h : ∀ s ∈ ss, ∀ t text, tree s = .ok t → code s = .ok text →
      Names reg t.reached (parameterWords text))
    {trees : List Term} {texts : List String} (htrees : ss.mapM tree = .ok trees)
    (htexts : ss.mapM code = .ok texts) :
    Names reg (trees.flatMap (·.reached)) (texts.flatMap parameterWords) := by
  induction ss generalizing trees texts with
  | nil =>
    obtain rfl := Except.ok.inj htrees
    obtain rfl := Except.ok.inj htexts
    exact Names.nil reg
  | cons s ss ih =>
    obtain ⟨t, ts, ht, hts, rfl⟩ := Outcome.mapM_cons_eq_ok htrees
    obtain ⟨text, rest, htext, hrest, rfl⟩ := Outcome.mapM_cons_eq_ok htexts
    exact (h s (List.mem_cons_self ..) t text ht htext).append
      (ih (fun s hs => h s (List.mem_cons_of_mem _ hs)) hts hrest)

/-- The bodies of a pass name what their codes reach. -/
theorem Runs.bodies_names (h : plan.Runs env pass) (hu : plan.registry.Usual) {trees : List Term}
    (htrees : pass.statements.mapM plan.tree = .ok trees) {code : Code}
    (hcode : plan.bodies pass = .ok code) :
    Names plan.registry (trees.flatMap (·.reached)) code.mentions := by
  obtain ⟨texts, htexts, hcode⟩ := Outcome.bind_eq_ok_iff.mp hcode
  obtain rfl := Except.ok.inj hcode
  have hmentions : (Code.ofList (texts.map .eval)).mentions = texts.flatMap parameterWords := by
    rw [Code.mentions_ofList, List.flatMap_map]
    rfl
  rw [hmentions]
  refine names_of_mapM (fun s hs t text ht htext => ?_) htrees htexts
  obtain ⟨tree, op, target, value, htree, hbody, -, -, hplaced, hnamed, hcomputed⟩ :=
    h.statement s hs
  obtain rfl := Except.ok.inj (htree.symm.trans ht)
  rw [htree] at htext
  refine tree.code_names hu hcomputed (fun a ha => (hplaced a ?_).bound) hnamed htext
  exact (Term.mem_arguments_iff hcomputed hbody.outside_tree).mpr (.inl ha)

theorem head?_of_firstStatement {s : Nat} (h : firstStatement pass = .ok s) :
    pass.statements.head? = some s := by
  unfold firstStatement orUnbound at h
  split at h
  · next hhead => rw [hhead, Except.ok.inj h]
  · cases h

/-- The first statement of a pass, with what it assigns. -/
theorem Runs.first (h : plan.Runs env pass) {trees : List Term}
    (htrees : pass.statements.mapM plan.tree = .ok trees) {s : Nat}
    (hfirst : firstStatement pass = .ok s) {target : Argument}
    (htarget : plan.target s = .ok target) :
    ∃ tree op value, tree ∈ trees ∧ plan.tree s = .ok tree ∧
      Term.BodyOf env op target value tree ∧ Term.Fits pass.kind target value := by
  obtain ⟨rest, hrest⟩ := List.head?_eq_some_iff.mp (head?_of_firstStatement hfirst)
  obtain ⟨tree, op, target', value, htree, hbody, hfits, -⟩ := h.statement s (by simp [hrest])
  obtain rfl := Except.ok.inj ((target_ok htree hbody).symm.trans htarget)
  rw [hrest] at htrees
  obtain ⟨tree', trees, htree', -, rfl⟩ := Outcome.mapM_cons_eq_ok htrees
  obtain rfl := Except.ok.inj (htree.symm.trans htree')
  exact ⟨tree, op, value, List.mem_cons_self .., htree, hbody, hfits⟩

/-- A pass of a fusable kind has no matrix products, so its bodies name all arguments. -/
theorem Runs.fused_names (h : plan.Runs env pass) (hu : plan.registry.Usual)
    (hfusable : pass.kind.isFusable = true) {trees : List Term}
    (htrees : pass.statements.mapM plan.tree = .ok trees) {code : Code}
    (hcode : plan.bodies pass = .ok code) :
    Names plan.registry (trees.flatMap (·.arguments)) code.mentions := by
  have hreached : ∀ t ∈ trees, ∀ a, a ∈ t.arguments ↔ a ∈ t.reached := by
    obtain ⟨trees', htrees', hall⟩ : ∃ trees, pass.statements.mapM plan.tree = .ok trees ∧
        ∀ t ∈ trees, ∀ a, a ∈ t.arguments ↔ a ∈ t.reached := by
      refine Outcome.mapM_forall_ok fun s hs => ?_
      obtain ⟨tree, op, target, value, htree, hbody, hfits, -, -, -, hcomputed⟩ :=
        h.statement s hs
      have hnone : tree.matrixProducts = [] := by
        rw [hbody.eq]
        cases hkind : pass.kind <;> rw [hkind] at hfits hfusable <;>
          first | exact hfits.2 | cases hfusable
      exact ⟨tree, htree, fun a => Term.mem_arguments_iff_reached hcomputed hnone⟩
    obtain rfl := Except.ok.inj (htrees'.symm.trans htrees)
    exact hall
  refine (h.bodies_names hu htrees hcode).congr (fun a => ?_) fun w => Iff.rfl
  simp only [List.mem_flatMap]
  constructor
  · rintro ⟨t, ht, ha⟩
    exact ⟨t, ht, (hreached t ht a).mp ha⟩
  · rintro ⟨t, ht, ha⟩
    exact ⟨t, ht, (hreached t ht a).mpr ha⟩

/-! ### Bodies by kind -/

theorem Runs.vectorBody_names (h : plan.Runs env pass) (hu : plan.registry.Usual)
    (hkind : pass.kind = .vector) {trees : List Term}
    (htrees : pass.statements.mapM plan.tree = .ok trees) {code : Code}
    (hcode : plan.vectorBody pass = .ok code) :
    Names plan.registry (trees.flatMap (·.arguments)) code.mentions := by
  obtain ⟨s, hs, hcode⟩ := Outcome.bind_eq_ok_iff.mp hcode
  obtain ⟨target, htarget, hcode⟩ := Outcome.bind_eq_ok_iff.mp hcode
  obtain ⟨bound, hbound, hcode⟩ := Outcome.bind_eq_ok_iff.mp hcode
  obtain ⟨bodies, hbodies, hcode⟩ := Outcome.bind_eq_ok_iff.mp hcode
  obtain rfl := Except.ok.inj hcode
  obtain ⟨tree, op, value, hmem, -, hbody, hfits⟩ := h.first htrees hs htarget
  rw [hkind] at hfits
  rw [mentions_vectorLoop]
  exact (h.fused_names hu (by rw [hkind]; rfl) htrees hbodies).more
    (List.mem_flatMap.mpr ⟨tree, hmem, hbody.target_mem⟩) (vectorBound_owned hfits.1 hbound)

theorem Runs.matrixBody_names (h : plan.Runs env pass) (hu : plan.registry.Usual)
    (hkind : pass.kind = .matrix) {trees : List Term}
    (htrees : pass.statements.mapM plan.tree = .ok trees) {code : Code}
    (hcode : plan.matrixBody pass = .ok code) :
    Names plan.registry (trees.flatMap (·.arguments)) code.mentions := by
  obtain ⟨s, hs, hcode⟩ := Outcome.bind_eq_ok_iff.mp hcode
  obtain ⟨target, htarget, hcode⟩ := Outcome.bind_eq_ok_iff.mp hcode
  obtain ⟨bounds, hbounds, hcode⟩ := Outcome.bind_eq_ok_iff.mp hcode
  obtain ⟨bodies, hbodies, hcode⟩ := Outcome.bind_eq_ok_iff.mp hcode
  obtain rfl := Except.ok.inj hcode
  obtain ⟨tree, op, value, hmem, -, hbody, -⟩ := h.first htrees hs htarget
  rw [mentions_matrixLoops]
  exact (h.fused_names hu (by rw [hkind]; rfl) htrees hbodies).more
    (List.mem_flatMap.mpr ⟨tree, hmem, hbody.target_mem⟩) (matrixBounds_owned hbounds)

theorem Runs.scalarBody_names (h : plan.Runs env pass) (hu : plan.registry.Usual)
    (hkind : pass.kind = .scalar) {trees : List Term}
    (htrees : pass.statements.mapM plan.tree = .ok trees) {code : Code}
    (hcode : plan.scalarBody pass = .ok code) :
    Names plan.registry (trees.flatMap (·.arguments)) code.mentions := by
  obtain ⟨bodies, hbodies, hcode⟩ := Outcome.bind_eq_ok_iff.mp hcode
  obtain rfl := Except.ok.inj hcode
  have hcondition : parameterWords "get_global_id(0) == 0" = [] := by decide +kernel
  rw [Code.mentions, hcondition, List.nil_append]
  exact h.fused_names hu (by rw [hkind]; rfl) htrees hbodies

/-- The lines that combine the sums of a work group name no parameter. -/
theorem parameterWords_reduction (n : Nat) (e : ElementType) :
    (LocalArray.reduction ⟨bufferName, n, e⟩ Term.reduceOp laneName).flatMap parameterWords =
      [] := by
  have hheader : parameterWords ("for (unsigned int stride = " ++ decimal n ++
      "/2; stride > 0; stride /= 2) \x7b") = [] := by
    simp only [String.append_assoc]
    rw [parameterWords_lead (by decide +kernel), parameterWords_trail (by decide +kernel),
      parameterWords_decimal]
  simp only [LocalArray.reduction, LocalArray.access, List.flatMap_cons,
    List.flatMap_nil, hheader]
  decide +kernel

/-- A reduction names parameters in its loop condition, in the terms it sums and where it
leaves the result. -/
theorem mentions_reduction (n : Nat) (e : ElementType) (bound term result : String) :
    (Code.ofList [
      .declareLocal ⟨bufferName, n, e⟩,
      .declareLane laneName,
      .declare e totalName "0",
      vectorLoop bound (.assign totalName (Term.reduceOp.code totalName term)),
      .assign (LocalArray.access ⟨bufferName, n, e⟩ laneName) totalName,
      .combine ⟨bufferName, n, e⟩ Term.reduceOp laneName,
      .guard (laneName ++ " == 0")
        (.assign result (LocalArray.access ⟨bufferName, n, e⟩ "0"))]).mentions =
    parameterWords bound ++ (parameterWords term ++ parameterWords result) := by
  have hbuffer : parameterWords bufferName = [] := by decide +kernel
  have hlane : parameterWords laneName = [] := by decide +kernel
  have htotal : parameterWords totalName = [] := by decide +kernel
  have hzero : parameterWords "0" = [] := by decide +kernel
  have hguard : parameterWords (laneName ++ " == 0") = [] := by decide +kernel
  have hown : parameterWords (LocalArray.access ⟨bufferName, n, e⟩ laneName) = [] := by
    simp only [LocalArray.access]
    decide +kernel
  have hfirst : parameterWords (LocalArray.access ⟨bufferName, n, e⟩ "0") = [] := by
    simp only [LocalArray.access]
    decide +kernel
  simp only [Code.mentions_ofList, List.flatMap_cons, List.flatMap_nil, mentions_vectorLoop,
    Code.mentions, parameterWords_reduction, parameterWords_binary, hbuffer, hlane, htotal, hzero,
    hguard, hown, hfirst, List.nil_append, List.append_nil, List.append_assoc]

theorem Reduces.body_names {lhs rhs : Term} {computed : Nat} {cell : Argument}
    (h : plan.Reduces env pass lhs rhs computed cell) (hu : plan.registry.Usual) {localSize : Nat}
    {code : Code} (hcode : plan.reductionBody localSize pass = .ok code) :
    Names plan.registry (lhs.arguments ++ rhs.arguments ++ [cell]) code.mentions := by
  obtain ⟨hpl, hpr⟩ := List.append_eq_nil_iff.mp h.products
  obtain ⟨length, hlength, hmem⟩ := Term.exists_lengthVector h.typed.1 h.typed.2.2.1 hpl
  have hoperands : ∀ m ∈ lhs.innerProducts ++ rhs.innerProducts, ∃ l r p c,
      m = .inner l r (some p) (some c) := fun m hm => h.settled m (List.mem_append_left _ hm)
  obtain ⟨hcl, hcr⟩ := List.forall_mem_append.mp hoperands
  unfold reductionBody at hcode
  rw [h.reduced] at hcode
  change (orUnbound (Term.lengthVector? lhs) >>= _) = .ok code at hcode
  simp only [hlength, orUnbound, Outcome.ok_bind] at hcode
  obtain ⟨bound, hbound, hcode⟩ := Outcome.bind_eq_ok_iff.mp hcode
  obtain ⟨term, hterm, hcode⟩ := Outcome.bind_eq_ok_iff.mp hcode
  obtain ⟨result, hresult, hcode⟩ := Outcome.bind_eq_ok_iff.mp hcode
  obtain rfl := Except.ok.inj hcode
  obtain ⟨l, hl, hterm⟩ := Outcome.bind_eq_ok_iff.mp hterm
  obtain ⟨r, hr, hterm⟩ := Outcome.bind_eq_ok_iff.mp hterm
  obtain rfl := Except.ok.inj hterm
  have hleft : Names plan.registry lhs.reached (parameterWords l) :=
    lhs.code_names hu hcl
      (fun a ha => (h.left a ((Term.mem_arguments_iff_reached hcl hpl).mpr ha)).bound)
        h.named.1 hl
  have hright : Names plan.registry rhs.reached (parameterWords r) :=
    rhs.code_names hu hcr
      (fun a ha => (h.right a ((Term.mem_arguments_iff_reached hcr hpr).mpr ha)).bound)
        h.named.2.1 hr
  have hcell : Names plan.registry [cell] (parameterWords result) :=
    h.holds.bound.accessName_names hu (h.named.2.2 cell rfl) hresult
  have hnames := ((Term.joinCode_names .mul hleft hright).append hcell).more
    (by simp [(Term.mem_arguments_iff_reached hcl hpl).mp hmem])
    (vectorBound_owned (Term.shape_lengthVector? hlength) hbound)
  rw [mentions_reduction]
  refine hnames.congr (fun a => ?_) fun w => Iff.rfl
  simp only [List.mem_append, Term.mem_arguments_iff_reached hcl hpl,
    Term.mem_arguments_iff_reached hcr hpr]

/-- The sum of a product names parameters in its loop condition and in the two elements. -/
theorem mentions_productSum (e : ElementType) {total : String}
    (htotal : parameterWords total = []) (bound l r : String) (body : Code) :
    (Code.ofList (productSum e total bound l r ++ [body])).mentions =
      parameterWords bound ++ (parameterWords l ++ parameterWords r ++ body.mentions) := by
  have hzero : parameterWords "0" = [] := by decide +kernel
  have hstep : parameterWords (Term.accumulated total l r) =
      parameterWords l ++ parameterWords r := by
    rw [Term.accumulated, parameterWords_binary, htotal,
      parameterWords_between (by decide +kernel), List.nil_append]
  simp only [productSum, Code.mentions_ofList, List.flatMap_append, List.flatMap_cons,
    List.flatMap_nil, Code.mentions, htotal, hzero, hstep, parameterWords_innerIndex,
    List.nil_append, List.append_nil, List.append_assoc]

/-- With one product, the arguments are its two operands and what the code reaches. -/
theorem mem_arguments_iff_product {tree p : Term} {a b : Argument} (hc : tree.Computed)
    (houtside : tree.ProductsOutside) (hp : tree.matrixProducts = [p])
    (hab : p.product? = some (.leaf a, .leaf b)) {c : Argument} :
    c ∈ tree.arguments ↔ c ∈ [a] ++ [b] ++ tree.reached := by
  have hpair : p.arguments = [a, b] := by
    cases p with
    | matMat lhs rhs | matVec lhs rhs =>
      obtain ⟨rfl, rfl⟩ := Prod.mk.inj (Option.some.inj hab)
      rfl
    | leaf | unary | binary | inner => simp [Term.product?] at hab
  rw [Term.mem_arguments_iff hc houtside, hp]
  simp only [exists_eq_left, hpair, List.mem_append, List.mem_cons, List.not_mem_nil, or_false]
  exact Or.comm

/-- The sum and the body of a statement with one product. -/
theorem Runs.sum_names (h : plan.Runs env pass) (hu : plan.registry.Usual)
    {s : Nat} (hs : pass.statements = [s]) {tree value p : Term} {op : BinaryOp}
    {target b : Argument} (htree : plan.tree s = .ok tree)
    (hbody : Term.BodyOf env op target value tree) (hcomputed : tree.Computed)
    (hp : value.matrixProducts = [p]) (hab : p.product? = some (.leaf a, .leaf b))
    {key : String} (hkey : p.key plan.registry = .ok key)
    {bodies : Code} (hbodies : plan.bodies pass = .ok bodies) {bound l r : String}
    (hbound : plan.innerBound a = .ok bound) (hl : Names plan.registry [a] (parameterWords l))
    (hr : Names plan.registry [b] (parameterWords r)) (e : ElementType) :
    Names plan.registry tree.arguments
      (Code.ofList (productSum e (Term.accumulator key 0 0) bound l r ++ [bodies])).mentions := by
  have hproducts : tree.matrixProducts = [p] := by
    rw [hbody.eq]
    exact hp
  have htrees : pass.statements.mapM plan.tree = .ok [tree] := by
    rw [hs, List.mapM_cons, htree]
    rfl
  have hreached := h.bodies_names hu htrees hbodies
  rw [List.flatMap_singleton] at hreached
  have htotal : parameterWords (Term.accumulator key 0 0) = [] := by
    have hoperands : p.operands? = some (.prod, .leaf a, .leaf b) := by
      cases p <;> simp_all [Term.product?, Term.operands?]
    obtain ⟨kl, kr, hkl, hkr, rfl⟩ := (Term.key_operands_iff hoperands).mp hkey
    exact Term.parameterWords_accumulator (Term.allWord_key hkl) (Term.allWord_key hkr) 0 0
  have hnames := ((hl.append hr).append hreached).more
    (List.mem_append_left _ (List.mem_append_left _ (List.mem_singleton_self a)))
      (innerBound_owned hbound)
  rw [mentions_productSum e htotal]
  exact hnames.congr (fun c =>
    mem_arguments_iff_product hcomputed hbody.outside_tree hproducts hab) fun w => Iff.rfl

theorem Runs.matVecBody_names (h : plan.Runs env pass) (hu : plan.registry.Usual)
    (hkind : pass.kind = .matVec) {s : Nat} (hs : pass.statements = [s]) {tree : Term}
    (htree : plan.tree s = .ok tree) {code : Code} (hcode : plan.matVecBody pass = .ok code) :
    Names plan.registry tree.arguments code.mentions := by
  obtain ⟨tree', op, target, value, htree', hbody, hfits, hleaves, -, -, hcomputed⟩ :=
    h.statement s (by simp [hs])
  obtain rfl := Except.ok.inj (htree.symm.trans htree')
  rw [hkind] at hfits
  obtain ⟨hshape, a, b, hp⟩ := hfits
  have hm := multiplies htree hbody hleaves hp rfl
  have hfirst : firstStatement pass = .ok s := by
    rw [firstStatement, hs]
    rfl
  simp only [matVecBody, hfirst, target_ok htree hbody, hm.product, hm.operands,
    Outcome.ok_bind] at hcode
  obtain ⟨key, hkey, hcode⟩ := Outcome.bind_eq_ok_iff.mp hcode
  obtain ⟨bound, hbound, hcode⟩ := Outcome.bind_eq_ok_iff.mp hcode
  obtain ⟨sum, hsum, hcode⟩ := Outcome.bind_eq_ok_iff.mp hcode
  obtain ⟨l, hl, hcode⟩ := Outcome.bind_eq_ok_iff.mp hcode
  obtain ⟨r, hr, hcode⟩ := Outcome.bind_eq_ok_iff.mp hcode
  obtain ⟨bodies, hbodies, hcode⟩ := Outcome.bind_eq_ok_iff.mp hcode
  obtain rfl := Except.ok.inj hcode
  rw [mentions_vectorLoop]
  exact (h.sum_names hu hs htree hbody hcomputed hp rfl hkey hbodies hsum
    (Argument.matrixElement_names parameterWords_rowIndex parameterWords_innerIndex hl)
    (Argument.vectorElement_names parameterWords_innerIndex hr) _).more hbody.target_mem
    (vectorBound_owned hshape hbound)

theorem Runs.matMatBody_names (h : plan.Runs env pass) (hu : plan.registry.Usual)
    (hkind : pass.kind = .matMat) {s : Nat} (hs : pass.statements = [s]) {tree : Term}
    (htree : plan.tree s = .ok tree) {code : Code} (hcode : plan.matMatBody pass = .ok code) :
    Names plan.registry tree.arguments code.mentions := by
  obtain ⟨tree', op, target, value, htree', hbody, hfits, hleaves, -, -, hcomputed⟩ :=
    h.statement s (by simp [hs])
  obtain rfl := Except.ok.inj (htree.symm.trans htree')
  rw [hkind] at hfits
  obtain ⟨-, a, b, hp⟩ := hfits
  have hm := multiplies htree hbody hleaves hp rfl
  have hfirst : firstStatement pass = .ok s := by
    rw [firstStatement, hs]
    rfl
  simp only [matMatBody, hfirst, target_ok htree hbody, hm.product, hm.operands,
    Outcome.ok_bind] at hcode
  obtain ⟨key, hkey, hcode⟩ := Outcome.bind_eq_ok_iff.mp hcode
  obtain ⟨bounds, hbounds, hcode⟩ := Outcome.bind_eq_ok_iff.mp hcode
  obtain ⟨sum, hsum, hcode⟩ := Outcome.bind_eq_ok_iff.mp hcode
  obtain ⟨l, hl, hcode⟩ := Outcome.bind_eq_ok_iff.mp hcode
  obtain ⟨r, hr, hcode⟩ := Outcome.bind_eq_ok_iff.mp hcode
  obtain ⟨bodies, hbodies, hcode⟩ := Outcome.bind_eq_ok_iff.mp hcode
  obtain rfl := Except.ok.inj hcode
  rw [mentions_matrixLoops]
  exact (h.sum_names hu hs htree hbody hcomputed hp rfl hkey hbodies hsum
    (Argument.matrixElement_names parameterWords_rowIndex parameterWords_innerIndex hl)
    (Argument.matrixElement_names parameterWords_innerIndex parameterWords_colIndex hr) _).more
      hbody.target_mem (matrixBounds_owned hbounds)

/-- The body of a pass names the arguments that its walk meets, and no others. -/
theorem Built.body_names {statements : List Statement} {d : Draft}
    (h : plan.Built env statements d) (hp : pass ∈ plan.passes) {sources : List Term × List Term}
    (hsources : plan.sources pass = .ok sources) {localSize : Nat} {code : Code}
    (hcode : plan.body localSize pass = .ok code) :
    Names plan.registry (sourceArguments sources) code.mentions := by
  obtain ⟨p, hp⟩ := List.mem_iff_getElem?.mp hp
  have hu := h.usual
  by_cases hkind : pass.kind = .reduction
  · obtain ⟨lhs, rhs, computed, cell, hreduces⟩ := h.reduces hp hkind
    simp only [Plan.sources, hkind, if_true, hreduces.reduced, Term.operands?,
      Outcome.pure_eq_ok] at hsources
    obtain rfl := Except.ok.inj hsources
    rw [body, hkind] at hcode
    have hargs : sourceArguments ([lhs, rhs], [.inner lhs rhs (some computed) (some cell)]) =
        lhs.arguments ++ rhs.arguments ++ [cell] := by
      simp [sourceArguments, Term.argument?]
    rw [hargs]
    exact hreduces.body_names hu hcode
  · have hruns := h.runs hp hkind
    simp only [Plan.sources, hkind, if_false] at hsources
    obtain ⟨trees, htrees, hsources⟩ := Outcome.bind_eq_ok_iff.mp hsources
    obtain rfl := Except.ok.inj hsources
    have hargs : sourceArguments (trees, []) = trees.flatMap (·.arguments) := by
      simp [sourceArguments]
    rw [hargs]
    -- Only one statement is in a pass with a matrix product.
    have single : pass.kind.isFusable = false → ∃ s tree, pass.statements = [s] ∧ plan.tree s =
        .ok tree ∧ trees.flatMap (·.arguments) = tree.arguments := by
      intro hfusable
      have hlength : pass.statements.length = 1 := by
        cases h.passOf hp with
        | reduction => exact absurd rfl hkind
        | body _ _ single _ => exact single hfusable
      obtain ⟨s, hs⟩ := List.length_eq_one_iff.mp hlength
      rw [hs] at htrees
      obtain ⟨tree, rest, htree, hrest, rfl⟩ := Outcome.mapM_cons_eq_ok htrees
      obtain rfl := Except.ok.inj hrest
      exact ⟨s, tree, hs, htree, List.flatMap_singleton ..⟩
    unfold body at hcode
    cases hk : pass.kind with
    | vector =>
      rw [hk] at hcode
      exact hruns.vectorBody_names hu hk htrees hcode
    | matrix =>
      rw [hk] at hcode
      exact hruns.matrixBody_names hu hk htrees hcode
    | scalar =>
      rw [hk] at hcode
      exact hruns.scalarBody_names hu hk htrees hcode
    | reduction => exact absurd hk hkind
    | matVec =>
      rw [hk] at hcode single
      obtain ⟨s, tree, hs, htree, hsame⟩ := single rfl
      rw [hsame]
      exact hruns.matVecBody_names hu hk hs htree hcode
    | matMat =>
      rw [hk] at hcode single
      obtain ⟨s, tree, hs, htree, hsame⟩ := single rfl
      rw [hsame]
      exact hruns.matMatBody_names hu hk hs htree hcode

end Plan

/-! ### Names of records -/

/-- The names that parameters of the record can have. -/
def Record.parameterNames (r : Record) : List String :=
  r.name :: vectorSize r.name :: matrixParameters r.name

theorem Storage.mem_parameterNames {s : Storage} {r : Record} {w : String}
    (h : w ∈ s.parameterNames r.name) : w ∈ r.parameterNames := by
  cases s with
  | hostScalar | deviceScalar =>
    obtain rfl := List.mem_singleton.mp h
    exact List.mem_cons_self ..
  | vector v =>
    simp only [parameterNames, List.mem_cons, List.not_mem_nil, or_false] at h
    simp only [Record.parameterNames, List.mem_cons]
    exact h.imp_right .inl
  | matrix l =>
    simp only [parameterNames, List.mem_cons] at h
    simp only [Record.parameterNames, List.mem_cons]
    exact h.imp_right .inr

/-- What follows the record's number in its names. -/
def nameEndings : List String :=
  ["", "_size", "_row_start", "_col_start", "_row_inc", "_col_inc", "_internal_size1",
    "_internal_size2"]

theorem Record.parameterNames_eq (r : Record) :
    r.parameterNames = nameEndings.map (r.name ++ ·) := by
  rw [nameEndings, List.map_cons, String.append_empty]
  rfl

/-- The number of a record can be read off its names. -/
theorem Record.id_eq_of_mem {r r' : Record} {w : String} (h : w ∈ r.parameterNames)
    (h' : w ∈ r'.parameterNames) : r.id = r'.id := by
  have stops : ∀ e ∈ nameEndings, StopsNumeral e.toList := by
    intro e he c hc
    have hall : ∀ e ∈ nameEndings, e.toList.head?.all (!·.isDigit) = true := by decide +kernel
    simpa [hc] using hall e he
  rw [Record.parameterNames_eq] at h h'
  obtain ⟨e, he, htext⟩ := List.mem_map.mp h
  obtain ⟨e', he', htext'⟩ := List.mem_map.mp h'
  have hlists := congrArg String.toList (htext.trans htext'.symm)
  simp only [Record.name, String.toList_append, List.append_assoc] at hlists
  exact (decimal_append_cancel (stops e he) (stops e' he') (List.append_cancel_left hlists)).1

/-! ### Order of declarations -/

namespace Scope

/-- The names have their buffers in the order of their declarations. -/
structure InOrder (scope : Scope) : Prop where
  handles : scope.arguments.map (·.handle) =
    (List.range scope.symbols.length).map fun k => .buffer (k + 1)
  next : scope.nextKey = scope.symbols.length + 1

theorem inOrder_empty : Scope.empty.InOrder :=
  ⟨rfl, rfl⟩

theorem InOrder.declareName {scope : Scope} (h : scope.InOrder) (e : ElementType) (s : Storage)
    (name : Spanned String) : (scope.declareName e s name).1.InOrder := by
  unfold Scope.declareName
  cases scope.find? name.value with
  | some first => exact h
  | none =>
    have hhandles := h.handles
    constructor
    · simp only [arguments, List.map_append, List.map_cons, List.map_nil, List.length_append,
        List.length_singleton, List.range_succ] at hhandles ⊢
      rw [hhandles, ← h.next]
      rfl
    · simp [h.next]

theorem InOrder.declareNames (e : ElementType) (s : Storage) (names : List (Spanned String))
    {scope : Scope} (h : scope.InOrder) : (Scope.declareNames e s scope names).1.InOrder := by
  induction names generalizing scope with
  | nil => exact h
  | cons name names ih => exact ih (h.declareName e s name)

theorem InOrder.declare {scope : Scope} (h : scope.InOrder) (settings : Settings)
    (d : Declaration) :
    (scope.declare settings d).1.InOrder := by
  unfold Scope.declare
  split
  · exact h
  · exact h.declareNames _ _ d.names

end Scope

/-- The names that a file declares. -/
def SourceFile.scope (settings : Settings) (file : SourceFile) : Scope :=
  (file.items.foldl (Lowered.addItem settings) .empty).scope

theorem SourceFile.scope_inOrder (settings : Settings) (file : SourceFile) :
    (file.scope settings).InOrder := by
  have hitems : ∀ (items : List Item) (l : Lowered), l.scope.InOrder →
      (items.foldl (Lowered.addItem settings) l).scope.InOrder := by
    intro items
    induction items with
    | nil => exact fun l hl => hl
    | cons item items ih =>
      intro l hl
      refine ih (l.addItem settings item) ?_
      cases item with
      | declaration d => exact hl.declare settings d
      | assignment a =>
        unfold Lowered.addItem
        dsimp only
        split <;> exact hl
  exact hitems file.items .empty Scope.inOrder_empty

/-- The leaves of a file's statements are what its names stand for. -/
theorem SourceFile.leaves_of_lower {settings : Settings} {file : SourceFile}
    {statements : List Statement} (h : file.lower settings = .ok statements) :
    ∀ s ∈ statements, ∀ a ∈ s.tree.leaves, a ∈ (file.scope settings).arguments := by
  have hl := Lowered.lawful_empty.addItems settings file.items
  simp only [lower] at h
  split at h
  · cases h
  · split at h
    · cases h
    · obtain rfl := Except.ok.inj h
      intro s hs
      obtain ⟨op, target, value, hassigns⟩ := hl.statements s hs
      rw [hassigns.eq]
      exact List.forall_mem_append.mpr ⟨hassigns.target_admitted.leaves,
        hassigns.value_admitted.leaves⟩

namespace Plan

theorem temporaries_of_widen {plan plan' : Plan} {alignment : Alignment}
    (h : plan.widen alignment = .ok plan') :
    plan'.context.temporaries = plan.context.temporaries := by
  unfold widen at h
  split at h
  · obtain rfl := Except.ok.inj h
    rfl
  · obtain ⟨reg, -, h⟩ := Outcome.bind_eq_ok_iff.mp h
    obtain rfl := Except.ok.inj h
    rfl

/-- A buffer that has a record has been declared, and a temporary has been claimed. -/
theorem record_declared {lowering planning : Settings} {file : SourceFile}
    {statements : List Statement} {plan : Plan} (hlower : file.lower lowering = .ok statements)
    (hplan : schedule planning statements = .ok plan) {r : Record}
    (hr : r ∈ plan.registry.records) :
    r.handle ∈ (file.scope lowering).arguments.map (·.handle) ++
      (List.range plan.context.temporaries.count).map .temporary := by
  obtain ⟨i, hi⟩ := List.getElem?_of_mem hr
  obtain ⟨-, env, -, hlawful⟩ := SourceFile.lower_lawful hlower
  obtain ⟨d, hbuilt⟩ := built_of_schedule hplan hlawful
  obtain ⟨r₀, hr₀, hsame, -⟩ := hbuilt.record_origin hi
  cases hhandle : r.handle with
  | buffer k =>
    obtain ⟨t, ht, a, ha, -, hagrees⟩ := hbuilt.exists_leaf hr₀ (hsame.trans hhandle)
    obtain ⟨s, hs, hwritten⟩ := hbuilt.source_leaf ht ha
    have hnamed := SourceFile.leaves_of_lower hlower s hs a.erase hwritten
    refine List.mem_append_left _ (List.mem_map.mpr ⟨a.erase, hnamed, ?_⟩)
    exact hagrees.1.symm.trans (hsame.trans hhandle)
  | temporary j =>
    refine List.mem_append_right _ (List.mem_map.mpr ⟨j, List.mem_range.mpr ?_, rfl⟩)
    obtain ⟨lhs, rhs, key, hcell⟩ := hbuilt.reachable.sound.cells i r₀ j hr₀ (hsame.trans hhandle)
    obtain ⟨alignment, hwiden⟩ := hbuilt.widened
    rw [temporaries_of_widen hwiden]
    exact (List.getElem?_eq_some_iff.mp hcell.key_at).1

end Plan

/-- Handles in ascending order, all of them declared or claimed, are in the order of the
declarations. -/
theorem handles_inOrder {scope : Scope} (h : scope.InOrder) {n : Nat} {hs : List Handle}
    (hascend : hs.Pairwise fun h k => h.less k = true)
    (hsub : ∀ h ∈ hs, h ∈ scope.arguments.map (·.handle) ++ (List.range n).map .temporary) :
    hs.Sublist (scope.arguments.map (·.handle) ++ (List.range n).map .temporary) := by
  have hasymm : Std.Antisymm fun h k : Handle => h.less k = true := by
    refine ⟨fun a b hab hba => ?_⟩
    rw [Handle.less_asymm hab] at hba
    cases hba
  have hnodup : hs.Nodup := by
    refine hascend.imp ?_
    rintro a b hab rfl
    rw [Handle.less_irrefl] at hab
    cases hab
  refine List.sublist_of_subperm_of_pairwise (List.subperm_of_subset hnodup hsub) hascend ?_
  rw [h.handles]
  refine List.pairwise_append.mpr ⟨?_, ?_, ?_⟩
  · refine List.pairwise_map.mpr (List.pairwise_lt_range.imp ?_)
    intro a b hab
    simpa [Handle.less] using hab
  · refine List.pairwise_map.mpr (List.pairwise_lt_range.imp ?_)
    intro a b hab
    simpa [Handle.less] using hab
  · intro a ha b hb
    obtain ⟨k, -, rfl⟩ := List.mem_map.mp ha
    obtain ⟨j, -, rfl⟩ := List.mem_map.mp hb
    rfl

/-! ### Signatures -/

theorem parameterWords_intercalate (texts : List String) :
    parameterWords (", ".intercalate texts) = texts.flatMap parameterWords := by
  induction texts with
  | nil => decide +kernel
  | cons text texts ih =>
    by_cases hnil : texts = []
    · subst hnil
      simp
    · rw [String.intercalate_cons_of_ne_nil hnil, String.append_assoc,
        parameterWords_separated (by decide +kernel), ih, List.flatMap_cons]

theorem Argument.BoundIn.info_eq {a : Argument} {reg : Registry} (h : a.BoundIn reg)
    (hs : reg.Sound) {r : Record} (hr : r ∈ reg.records) (hhandle : r.handle = a.handle) :
    a.info reg = .ok r := by
  obtain ⟨i, r', hi, hr', hagrees⟩ := h
  obtain ⟨j, hj⟩ := List.getElem?_of_mem hr
  obtain rfl : i = j := hs.distinct i j r' r hr' hj (hagrees.1.trans hhandle.symm)
  exact info_eq_ok_iff.mpr ⟨i, hi, hj⟩

theorem Argument.BoundIn.record_of_info {a : Argument} {reg : Registry} (h : a.BoundIn reg)
    {r : Record} (hr : a.info reg = .ok r) : r ∈ reg.records ∧ r.handle = a.handle := by
  obtain ⟨i, r', hi, hr', hagrees⟩ := h
  obtain rfl := Except.ok.inj ((info_eq_ok_iff.mpr ⟨i, hi, hr'⟩).symm.trans hr)
  exact ⟨List.mem_of_getElem? hr', hagrees.1⟩

/-- Declarations name the parameters of their arguments, one argument after the other. -/
theorem exists_declared {reg : Registry} {args : List Argument} (hb : ∀ a ∈ args, a.BoundIn reg)
    {texts : List String} (h : args.mapM (·.declaration reg) = .ok texts) :
    ∃ entries : List (Record × Storage), entries.map (·.1.handle) = args.map (·.handle) ∧
      (∀ e ∈ entries, e.1 ∈ reg.records ∧ e.1.signature = e.2.signature) ∧
      texts.flatMap parameterWords = entries.flatMap fun e => e.2.parameterNames e.1.name := by
  induction args generalizing texts with
  | nil =>
    obtain rfl : [] = texts := Except.ok.inj h
    exact ⟨[], rfl, List.forall_mem_nil _, rfl⟩
  | cons a args ih =>
    obtain ⟨text, texts, htext, htexts, rfl⟩ := Outcome.mapM_cons_eq_ok h
    obtain ⟨ha, hargs⟩ := List.forall_mem_cons.mp hb
    obtain ⟨entries, hhandles, hentries, hwords⟩ := ih hargs htexts
    obtain ⟨i, r, hi, hr, hhandle, -, hsignature⟩ := ha
    refine ⟨(r, a.storage) :: entries, ?_, ?_, ?_⟩
    · rw [List.map_cons, List.map_cons, hhandle, hhandles]
    · exact List.forall_mem_cons.mpr ⟨⟨List.mem_of_getElem? hr, hsignature⟩, hentries⟩
    · rw [List.flatMap_cons, List.flatMap_cons, hwords,
        Argument.declaration_words (Argument.info_eq_ok_iff.mpr ⟨i, hi, hr⟩) htext]

namespace Plan

/-- The parameters of a kernel, its signature and the names in its body fit together. The
signature names the parameters of the records of the set, in the set's order, and nothing else. -/
structure SignatureExact (plan : Plan) (set : TermSet) (signature body : String) : Prop where
  ascending : set.handles.Pairwise fun h k => h.less k = true
  distinct : set.handles.Nodup
  recorded : ∀ h ∈ set.handles, ∃ r ∈ plan.registry.records, r.handle = h
  own : ∀ r ∈ plan.registry.records, r.handle ∈ set.handles ↔ r.name ∈ parameterWords body
  mentioned : ∀ r ∈ plan.registry.records,
    r.handle ∈ set.handles ↔ ∃ w ∈ r.parameterNames, w ∈ parameterWords body
  declared : ∀ w ∈ parameterWords body, w ∈ parameterWords signature
  listed : ∃ entries : List (Record × Storage), entries.map (·.1.handle) = set.handles ∧
    (∀ e ∈ entries, e.1 ∈ plan.registry.records ∧ e.1.signature = e.2.signature) ∧
    parameterWords signature = entries.flatMap fun e => e.2.parameterNames e.1.name

variable {env : Declarations} {statements : List Statement} {plan : Plan}
  {d : Draft} {pass : Pass}

theorem Built.signatureExact (h : plan.Built env statements d) (hp : pass ∈ plan.passes)
    {set : TermSet} (hset : plan.arguments pass = .ok set) {parameters : List String}
    (hparameters : plan.parameters pass = .ok parameters) {localSize : Nat} {body : Code}
    (hbody : plan.body localSize pass = .ok body) :
    plan.SignatureExact set (", ".intercalate parameters) (joinLines (body.lines 1)) := by
  obtain ⟨sources, hsources, htakes⟩ := h.sources_ok hp
  have hs := h.registry_sound
  have hnames := h.body_names hp hsources hbody
  have hwords : parameterWords (joinLines (body.lines 1)) = body.mentions := by
    rw [parameterWords_joinLines, Code.parameterWords_lines]
  rw [arguments_eq, hsources] at hset
  obtain rfl := Except.ok.inj hset
  rw [htakes.parameters_eq hsources] at hparameters
  have hplaced := htakes.sourceArguments_placed
  have hhandles : ∀ k, k ∈ (parameterSet sources).handles ↔
      ∃ a ∈ sourceArguments sources, a.handle = k := by
    intro k
    rw [htakes.mem_handles_iff, List.mem_map]
  have hown : ∀ r ∈ plan.registry.records, r.handle ∈ (parameterSet sources).handles →
      r.name ∈ body.mentions := by
    intro r hr hhandle
    obtain ⟨a, ha, hsame⟩ := (hhandles _).mp hhandle
    obtain ⟨r', hr', hname⟩ := hnames.used a ha
    obtain rfl := Except.ok.inj (((hplaced a ha).bound.info_eq hs hr hsame.symm).symm.trans hr')
    exact hname
  have hmentioned : ∀ r ∈ plan.registry.records, ∀ w ∈ r.parameterNames, w ∈ body.mentions →
      r.handle ∈ (parameterSet sources).handles := by
    intro r hr w hw hmem
    obtain ⟨a, ha, r', hr', hw'⟩ := hnames.owned w hmem
    obtain ⟨hr'mem, hsame⟩ := (hplaced a ha).bound.record_of_info hr'
    have hid := Record.id_eq_of_mem hw (Storage.mem_parameterNames hw')
    obtain ⟨i, hi⟩ := List.getElem?_of_mem hr
    obtain ⟨j, hj⟩ := List.getElem?_of_mem hr'mem
    rw [hs.numbered i r hi, hs.numbered j r' hj] at hid
    subst hid
    obtain rfl := Option.some.inj (hi.symm.trans hj)
    exact (hhandles _).mpr ⟨a, ha, hsame.symm⟩
  have hself : ∀ r : Record, r.name ∈ r.parameterNames := fun r => List.mem_cons_self ..
  refine ⟨htakes.sorted.handles_ascend, htakes.sorted.nodup_handles, ?_, ?_, ?_, ?_, ?_⟩
  · intro k hk
    obtain ⟨a, ha, rfl⟩ := (hhandles k).mp hk
    obtain ⟨r, hr⟩ := (hplaced a ha).bound.info_ok
    obtain ⟨hmem, hsame⟩ := (hplaced a ha).bound.record_of_info hr
    exact ⟨r, hmem, hsame⟩
  · intro r hr
    rw [hwords]
    exact ⟨hown r hr, hmentioned r hr r.name (hself r)⟩
  · intro r hr
    rw [hwords]
    constructor
    · intro hhandle
      exact ⟨r.name, hself r, hown r hr hhandle⟩
    · rintro ⟨w, hw, hmem⟩
      exact hmentioned r hr w hw hmem
  · intro w hw
    rw [hwords] at hw
    obtain ⟨a, ha, r, hr, hw⟩ := hnames.owned w hw
    have hmem := (htakes.mem_parameterArguments hs).mpr ha
    obtain ⟨-, -, hall⟩ := Outcome.mapM_zip hparameters hparameters
    obtain ⟨⟨text, _⟩, hzip, htext, -⟩ := hall a hmem
    rw [parameterWords_intercalate]
    refine List.mem_flatMap.mpr ⟨text, (List.of_mem_zip hzip).1, ?_⟩
    rw [Argument.declaration_words hr htext]
    exact hw
  · rw [handles_parameterSet, parameterWords_intercalate]
    exact exists_declared (fun a ha => (htakes.parameterArguments_placed a ha).bound) hparameters

/-- The lines of a kernel as one text. -/
theorem joinLines_kernelLines (name : String) (parameters : List String) (body : Code) :
    joinLines (kernelLines name parameters body) =
      "\n" ++ ("__kernel void " ++ name ++ "(" ++ ", ".intercalate parameters ++ ")\n\x7b\n" ++
        joinLines (body.lines 1) ++ "\x7d\n") := by
  have hindent : ∀ text, Code.indent 0 text = text := by
    intro text
    unfold Code.indent
    split
    · next hempty => rw [hempty]
    · simp
  have hopen : ")\n\x7b\n" = ")" ++ "\n" ++ "\x7b" ++ "\n" := by decide +kernel
  have hclose : joinLines ["\x7d"] = "\x7d\n" := by decide +kernel
  rw [kernelLines, Code.block, hindent, hindent, hindent, joinLines_cons, List.cons_append,
    List.cons_append, joinLines_cons, joinLines_cons, joinLines_append, hclose, hopen]
  simp only [String.append_assoc, String.empty_append]

/-- The text of every kernel stands in the program. -/
theorem exists_kernel_text {program : String} {settings : Settings} {listing : Listing}
    (h : plan.emit program settings = .ok listing) (hp : pass ∈ plan.passes) :
    ∃ parameters body before after, plan.parameters pass = .ok parameters ∧
      plan.body settings.localSize pass = .ok body ∧
      listing.source = before ++ ("__kernel void " ++ kernelName program pass ++ "(" ++
        ", ".intercalate parameters ++ ")\n\x7b\n" ++ joinLines (body.lines 1) ++
          "\x7d\n") ++ after := by
  obtain ⟨kernels, hkernels, rfl⟩ := emit_eq_ok h
  obtain ⟨-, -, hall⟩ := Outcome.mapM_zip hkernels hkernels
  obtain ⟨⟨kernel, _⟩, hzip, hkernel, -⟩ := hall pass hp
  obtain ⟨parameters, body, hparameters, hbody, rfl⟩ := kernel_eq_ok hkernel
  obtain ⟨first, last, hsplit⟩ := List.append_of_mem (List.of_mem_zip hzip).1
  have hsource : joinLines (plan.preamble program ++ kernels.flatMap (·.2)) =
      joinLines (plan.preamble program ++ first.flatMap (·.2)) ++
        joinLines (kernelLines (kernelName program pass) parameters body) ++
          joinLines (last.flatMap (·.2)) := by
    simp only [hsplit, List.flatMap_append, List.flatMap_cons, joinLines_append,
      String.append_assoc]
  refine ⟨parameters, body, joinLines (plan.preamble program ++ first.flatMap (·.2)) ++ "\n",
    joinLines (last.flatMap (·.2)), hparameters, hbody, hsource.trans ?_⟩
  rw [joinLines_kernelLines]
  simp only [String.append_assoc]

end Plan

/-- Every kernel of a program has an exact signature: the handles of its parameters come in
the order of the declarations, before the temporaries, none of them twice, and they are those
whose names occur in the body. Whatever parameter the body names, the signature declares, and it
declares no others' parameters. -/
theorem kernel_signature_exact {lowering planning emission : Settings} {file : SourceFile}
    {statements : List Statement} {plan : Plan} {program : String}
    {listing : Listing} {pass : Pass} (hlower : file.lower lowering = .ok statements)
    (hplan : schedule planning statements = .ok plan)
    (hemit : plan.emit program emission = .ok listing) (hpass : pass ∈ plan.passes) :
    ∃ set parameters body before after, plan.arguments pass = .ok set ∧
      plan.parameters pass = .ok parameters ∧ plan.body emission.localSize pass = .ok body ∧
      listing.source = before ++ ("__kernel void " ++ Plan.kernelName program pass ++ "(" ++
        ", ".intercalate parameters ++ ")\n\x7b\n" ++ joinLines (body.lines 1) ++
          "\x7d\n") ++ after ∧
      plan.SignatureExact set (", ".intercalate parameters) (joinLines (body.lines 1)) ∧
      set.handles.Sublist ((file.scope lowering).arguments.map (·.handle) ++
        (List.range plan.context.temporaries.count).map .temporary) := by
  obtain ⟨-, env, -, hlawful⟩ := SourceFile.lower_lawful hlower
  obtain ⟨d, hbuilt⟩ := Plan.built_of_schedule hplan hlawful
  obtain ⟨sources, hsources, -⟩ := hbuilt.sources_ok hpass
  have hset : plan.arguments pass = .ok (Plan.parameterSet sources) := by
    rw [Plan.arguments_eq, hsources]
    rfl
  obtain ⟨parameters, body, before, after, hparameters, hbody, hsource⟩ :=
    Plan.exists_kernel_text hemit hpass
  have hexact := hbuilt.signatureExact hpass hset hparameters hbody
  refine ⟨_, parameters, body, before, after, hset, hparameters, hbody, hsource, hexact, ?_⟩
  refine handles_inOrder (file.scope_inOrder lowering) hexact.ascending fun h hh => ?_
  obtain ⟨r, hr, rfl⟩ := hexact.recorded h hh
  exact Plan.record_declared hlower hplan hr

/-- Declarations in another order than the uses, a reduction and a matrix product. -/
def scaledSource : String :=
  "vector z, x; matrix m; scalar s; s = dot(x, z); z = s * (m * x);"

theorem kernel_signature_exact_scaled :
    ∃ file statements plan listing, parseSource 0 scaledSource = .ok file ∧
      file.lower .standard = .ok statements ∧ schedule .standard statements = .ok plan ∧
      plan.emit "p" .standard = .ok listing ∧
      plan.passes.map (·.kind) = [.reduction, .scalar, .matVec] ∧
      ∀ pass ∈ plan.passes, ∃ set parameters body before after,
        plan.arguments pass = .ok set ∧ plan.parameters pass = .ok parameters ∧
        plan.body Settings.standard.localSize pass = .ok body ∧
        listing.source = before ++ ("__kernel void " ++ Plan.kernelName "p" pass ++ "(" ++
          ", ".intercalate parameters ++ ")\n\x7b\n" ++ joinLines (body.lines 1) ++
            "\x7d\n") ++ after ∧
        plan.SignatureExact set (", ".intercalate parameters) (joinLines (body.lines 1)) ∧
        set.handles.Sublist ((file.scope .standard).arguments.map (·.handle) ++
          (List.range plan.context.temporaries.count).map .temporary) := by
  obtain ⟨plan, hplan, hvalues⟩ := Outcome.exists_ok_of_any
    (x := planSource .standard scaledSource)
    (p := fun plan => plan.passes.map (·.kind) = [.reduction, .scalar, .matVec] &&
      (plan.emit "p" .standard).isOk) (by decide +kernel)
  simp only [Bool.and_eq_true, decide_eq_true_eq] at hvalues
  obtain ⟨hkinds, hemitted⟩ := hvalues
  obtain ⟨file, statements, hfile, hlower, -, hschedule⟩ := planSource_eq_ok_iff.mp hplan
  obtain ⟨listing, hemit⟩ : ∃ listing, plan.emit "p" .standard = .ok listing := by
    cases h : plan.emit "p" .standard with
    | error fault => simp [h, Except.isOk, Except.toBool] at hemitted
    | ok listing => exact ⟨listing, rfl⟩
  exact ⟨file, statements, plan, listing, hfile, hlower, hschedule, hemit, hkinds,
    fun pass hpass => kernel_signature_exact hlower hschedule hemit hpass⟩

end LinearKernels
