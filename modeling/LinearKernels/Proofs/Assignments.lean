import LinearKernels.Proofs.Passes

/-!
What the kind of a pass says about the statements it runs. A planned statement assigns to a
writeable argument; the kind of its pass gives the shape of the target and the matrix product
that stands in its value, if there is one. The operands of the product are leaves other than
the target.
-/

namespace LinearKernels

namespace Term

theorem leaves_of_mem_matrixProducts {t p : Term} (hp : p ∈ t.matrixProducts) :
    ∀ a ∈ p.leaves, a ∈ t.leaves := by
  induction t with
  | leaf arg => simp [matrixProducts] at hp
  | unary op sub ih => exact ih hp
  | binary op lhs rhs ihl ihr | inner lhs rhs computed temporary ihl ihr =>
    intro a ha
    rcases List.mem_append.mp hp with hp | hp
    · exact List.mem_append_left _ (ihl hp a ha)
    · exact List.mem_append_right _ (ihr hp a ha)
  | matMat lhs rhs ihl ihr | matVec lhs rhs ihl ihr =>
    intro a ha
    simp only [matrixProducts, List.mem_append, List.mem_singleton] at hp
    rcases hp with (hp | hp) | rfl
    · exact List.mem_append_left _ (ihl hp a ha)
    · exact List.mem_append_right _ (ihr hp a ha)
    · exact ha

theorem WellTyped.of_mem_matrixProducts {t p : Term} (wt : t.WellTyped)
    (hp : p ∈ t.matrixProducts) :
    p.WellTyped := by
  induction t with
  | leaf arg => simp [matrixProducts] at hp
  | unary op sub ih => exact ih wt.1 hp
  | binary op lhs rhs ihl ihr | inner lhs rhs computed temporary ihl ihr =>
    exact (List.mem_append.mp hp).elim (ihl wt.1) (ihr wt.2.1)
  | matMat lhs rhs ihl ihr | matVec lhs rhs ihl ihr =>
    simp only [matrixProducts, List.mem_append, List.mem_singleton] at hp
    rcases hp with (hp | hp) | rfl
    · exact ihl wt.1 hp
    · exact ihr wt.2.1 hp
    · exact wt

/-- A term with a matrix product in it has the shape of the product. -/
theorem shape_eq_of_mem_matrixProducts {t p : Term}
    (wt : t.WellTyped) (houtside : t.ProductsOutside)
    (hoperands : ∀ p ∈ t.matrixProducts, ∃ a b, p.product? = some (leaf a, leaf b))
    (hp : p ∈ t.matrixProducts) : t.shape = p.shape ∧ p.shape ≠ .scalar := by
  induction t with
  | leaf arg => simp [matrixProducts] at hp
  | unary op sub ih => exact ih wt.1 houtside hoperands hp
  | binary op lhs rhs ihl ihr =>
    obtain ⟨wtl, wtr, -, haccepts⟩ := wt
    obtain ⟨houtl, houtr⟩ := List.forall_mem_append.mp houtside
    obtain ⟨hopl, hopr⟩ := List.forall_mem_append.mp hoperands
    rcases List.mem_append.mp hp with hp | hp
    · obtain ⟨hl, hscalar⟩ := ihl wtl houtl hopl hp
      refine ⟨?_, hscalar⟩
      rw [← hl] at hscalar ⊢
      cases op <;> simp [shape, hscalar]
    · obtain ⟨hr, hscalar⟩ := ihr wtr houtr hopr hp
      refine ⟨?_, hscalar⟩
      rw [← hr] at hscalar ⊢
      cases op <;> simp_all [shape, accepts]
  | matMat lhs rhs ihl ihr =>
    obtain ⟨a, b, hab⟩ := hoperands (matMat lhs rhs) (by simp [matrixProducts])
    obtain ⟨rfl, rfl⟩ := Prod.mk.inj (Option.some.inj hab)
    obtain rfl : p = matMat (leaf a) (leaf b) := by simpa [matrixProducts] using hp
    simp [shape]
  | matVec lhs rhs ihl ihr =>
    obtain ⟨a, b, hab⟩ := hoperands (matVec lhs rhs) (by simp [matrixProducts])
    obtain ⟨rfl, rfl⟩ := Prod.mk.inj (Option.some.inj hab)
    obtain rfl : p = matVec (leaf a) (leaf b) := by simpa [matrixProducts] using hp
    simp [shape]
  | inner lhs rhs computed temporary ihl ihr =>
    rw [houtside _ (self_mem_innerProducts lhs rhs computed temporary)] at hp
    cases hp

/-- A vector that is not a matrix product is made from a vector leaf outside all inner
products. -/
theorem exists_vector_leaf {t : Term} (wt : t.WellTyped) (hshape : t.shape = .vector)
    (hproducts : t.matrixProducts = []) : ∃ a, leaf a ∈ t.walk ∧ a.storage.isVector = true := by
  induction t with
  | leaf arg =>
    refine ⟨arg, by simp [walk], ?_⟩
    cases hstorage : arg.storage <;> simp_all [shape, Argument.shape,
      Storage.shape, Storage.isVector]
  | unary op sub ih =>
    obtain ⟨a, ha, hvector⟩ := ih wt.1 hshape hproducts
    exact ⟨a, List.mem_append_left _ ha, hvector⟩
  | binary op lhs rhs ihl ihr =>
    obtain ⟨wtl, wtr, -, -⟩ := wt
    obtain ⟨hl, hr⟩ := List.append_eq_nil_iff.mp hproducts
    have hside : lhs.shape = .vector ∨ rhs.shape = .vector := by
      cases op <;> simp only [shape] at hshape <;> grind
    rcases hside with hside | hside
    · obtain ⟨a, ha, hvector⟩ := ihl wtl hside hl
      exact ⟨a, by simp [walk, ha], hvector⟩
    · obtain ⟨a, ha, hvector⟩ := ihr wtr hside hr
      exact ⟨a, by simp [walk, ha], hvector⟩
  | matMat lhs rhs ihl ihr => simp [matrixProducts] at hproducts
  | matVec lhs rhs ihl ihr => simp [matrixProducts] at hproducts
  | inner lhs rhs computed temporary ihl ihr => simp [shape] at hshape

/-- A bound statement: an assignment to `target` whose products have other leaves as their
operands. -/
structure BodyOf (env : Declarations) (op : BinaryOp) (target : Argument)
    (value tree : Term) : Prop where
  eq : tree = binary op (leaf target) value
  isAssignment : op.isAssignment = true
  typed : tree.WellTyped
  declared : ∀ a ∈ tree.leaves, a.Declared env
  outside : value.ProductsOutside
  products : value.matrixProducts.length ≤ 1
  operands : ∀ p ∈ value.matrixProducts, ∃ a b, p.product? = some (leaf a, leaf b) ∧
    a.handle ≠ target.handle ∧ b.handle ≠ target.handle

/-- An operand of an erased product is an erased operand. -/
theorem exists_leaves_of_erase {p : Term} {a b : Argument}
    (h : p.erase.product? = some (leaf a, leaf b)) :
    ∃ a' b', p.product? = some (leaf a', leaf b') ∧ a'.erase = a ∧ b'.erase = b := by
  have leaf_of : ∀ {t : Term} {a : Argument}, t.erase = leaf a →
      ∃ a', t = leaf a' ∧ a'.erase = a := by
    intro t a ht
    cases t with
    | leaf a' => exact ⟨a', rfl, leaf.inj ht⟩
    | unary | binary | matMat | matVec | inner => simp [erase] at ht
  cases p with
  | matMat lhs rhs | matVec lhs rhs =>
    obtain ⟨hl, hr⟩ := Prod.mk.inj (Option.some.inj h)
    obtain ⟨a', rfl, ha⟩ := leaf_of hl
    obtain ⟨b', rfl, hb⟩ := leaf_of hr
    exact ⟨a', b', rfl, ha, hb⟩
  | leaf | unary | binary | inner => simp [erase, product?] at h

theorem Assigns.bodyOf {env : Declarations} {tree value : Term} {op : BinaryOp}
    {target : Argument} (h : Assigns (·.Declared env) tree.erase op target value) :
    ∃ target' value', BodyOf env op target' value' tree := by
  obtain ⟨target', value', rfl, rfl, rfl⟩ := h.of_erase
  have hproducts := matrixProducts_erase value'
  refine ⟨target', value', rfl, h.isAssignment, (wellTyped_erase _).mp h.typed, ?_,
    (productsOutside_erase value').mp h.value_admitted.outside, ?_, ?_⟩
  · intro a ha
    have hdeclared : ∀ b ∈ (binary op (leaf target') value').erase.leaves, b.Declared env := by
      intro b hb
      rcases List.mem_append.mp hb with hb | hb
      · exact h.target_admitted.leaves b hb
      · exact h.value_admitted.leaves b hb
    exact (hdeclared a.erase (by rw [leaves_erase]; exact List.mem_map_of_mem ha)).of_erase_eq rfl
  · have := h.products
    rwa [hproducts, List.length_map] at this
  · intro p hp
    have hmem : p.erase ∈ value'.erase.matrixProducts := by
      rw [hproducts]
      exact List.mem_map_of_mem hp
    obtain ⟨a, b, hab⟩ := h.value_admitted.operands p.erase hmem
    have hne := h.disjoint p.erase hmem a b hab
    obtain ⟨a', b', hab', rfl, rfl⟩ := exists_leaves_of_erase hab
    exact ⟨a', b', hab', hne⟩

/-- What a statement of the given kind assigns, and the matrix product in it. -/
def Fits (kind : PassKind) (target : Argument) (value : Term) : Prop :=
  match kind with
  | .vector => target.shape = .vector ∧ value.matrixProducts = []
  | .matrix => target.shape = .matrix ∧ value.matrixProducts = []
  | .scalar => target.shape = .scalar ∧ value.matrixProducts = []
  | .matVec => target.shape = .vector ∧ ∃ a b, value.matrixProducts = [matVec (leaf a) (leaf b)]
  | .matMat => target.shape = .matrix ∧ ∃ a b, value.matrixProducts = [matMat (leaf a) (leaf b)]
  | .reduction => False

namespace BodyOf

variable {env : Declarations} {op : BinaryOp} {target : Argument} {value tree : Term}

/-- The target can be written, and has the shape of the value. -/
theorem accepts_target (h : BodyOf env op target value tree) :
    target.storage.isWriteable = true ∧ target.shape = value.shape := by
  have htyped := h.typed
  rw [h.eq] at htyped
  have haccepts : ((leaf target).isWriteable && decide (target.shape = value.shape)) = true := by
    have hop := h.isAssignment
    cases op <;> simp [BinaryOp.isAssignment] at hop <;> exact htyped.2.2.2
  simpa [isWriteable] using haccepts

theorem shape_tree (h : BodyOf env op target value tree) : tree.shape = target.shape := by
  have hop := h.isAssignment
  rw [h.eq]
  cases op <;> simp [BinaryOp.isAssignment] at hop <;> rfl

theorem outside_tree (h : BodyOf env op target value tree) : tree.ProductsOutside := by
  rw [h.eq]
  exact h.outside

/-- The value is a product exactly if the tree holds one of the kind. -/
theorem count_pos_iff (h : BodyOf env op target value tree) (kind : TermKind)
    (hkind : ∀ s, kind.admits s = true → s.product?.isSome = true) :
    0 < tree.count kind ↔ ∃ p ∈ value.matrixProducts, kind.admits p = true := by
  rw [count_eq_countP h.outside_tree hkind, List.countP_pos_iff, h.eq]
  rfl

/-- The kind of a statement's pass fits the statement. -/
theorem fits (h : BodyOf env op target value tree) :
    Fits (PassKind.ofTree tree) target value := by
  have hvalue : value.WellTyped := by
    have htyped := h.typed
    rw [h.eq] at htyped
    exact htyped.2.1
  have hshape : ∀ p ∈ value.matrixProducts, target.shape = p.shape := by
    intro p hp
    rw [h.accepts_target.2]
    refine (shape_eq_of_mem_matrixProducts hvalue h.outside ?_ hp).1
    intro q hq
    obtain ⟨a, b, hab, -⟩ := h.operands q hq
    exact ⟨a, b, hab⟩
  have hsingle : ∀ p ∈ value.matrixProducts, value.matrixProducts = [p] := by
    intro p hp
    obtain ⟨q, hq⟩ := List.length_eq_one_iff.mp
      (Nat.le_antisymm h.products (List.length_pos_of_mem hp))
    rw [hq] at hp ⊢
    rw [List.mem_singleton.mp hp]
  have hmatVec := h.count_pos_iff .matVec fun s hs => by
    cases s <;> simp_all [TermKind.admits, product?]
  have hmatMat := h.count_pos_iff .matMat fun s hs => by
    cases s <;> simp_all [TermKind.admits, product?]
  unfold PassKind.ofTree
  split
  · next hcount =>
    obtain ⟨p, hp, hadmits⟩ := hmatVec.mp hcount
    obtain ⟨a, b, hab, -⟩ := h.operands p hp
    cases p with
    | matVec lhs rhs =>
      obtain ⟨rfl, rfl⟩ := Prod.mk.inj (Option.some.inj hab)
      exact ⟨hshape _ hp, a, b, hsingle _ hp⟩
    | leaf | unary | binary | matMat | inner => simp [TermKind.admits] at hadmits
  · next hvec =>
    split
    · next hcount =>
      obtain ⟨p, hp, hadmits⟩ := hmatMat.mp hcount
      obtain ⟨a, b, hab, -⟩ := h.operands p hp
      cases p with
      | matMat lhs rhs =>
        obtain ⟨rfl, rfl⟩ := Prod.mk.inj (Option.some.inj hab)
        exact ⟨hshape _ hp, a, b, hsingle _ hp⟩
      | leaf | unary | binary | matVec | inner => simp [TermKind.admits] at hadmits
    · next hmat =>
      have hnone : value.matrixProducts = [] := by
        refine List.eq_nil_iff_forall_not_mem.mpr fun p hp => ?_
        obtain ⟨a, b, hab, -⟩ := h.operands p hp
        cases p with
        | matMat lhs rhs => exact hmat (hmatMat.mpr ⟨_, hp, rfl⟩)
        | matVec lhs rhs => exact hvec (hmatVec.mpr ⟨_, hp, rfl⟩)
        | leaf | unary | binary | inner => simp [product?] at hab
      have htarget := h.shape_tree
      cases hs : tree.shape <;> exact ⟨htarget.symm.trans hs, hnone⟩

end BodyOf

end Term

theorem Statement.Planned.bodyOf {env : Declarations} {ctx : Context} {statement : Statement}
    (h : statement.Planned env ctx) :
    ∃ op target value, Term.BodyOf env op target value statement.tree := by
  obtain ⟨op, target, value, hassigns⟩ := h.lawful
  obtain ⟨target', value', hbody⟩ := hassigns.bodyOf
  exact ⟨op, target', value', hbody⟩

namespace Plan.Built

variable {env : Declarations} {statements : List Statement} {plan : Plan} {d : Draft}

theorem planned (h : plan.Built env statements d) :
    ∀ statement ∈ plan.statements, statement.Planned env d.context :=
  h.reachable.lawful.planned

/-- Every pass of a plan, over the records of the plan. -/
theorem passOf (h : plan.Built env statements d) {p : Nat} {pass : Pass}
    (hp : plan.passes[p]? = some pass) :
    Draft.PassOf plan.statements [] plan.registry p pass := by
  rw [h.passes] at hp
  exact (h.reachable.lawful.passes p pass hp).mono h.keeps (fun _ _ _ hm => hm) fun _ _ hs => hs

theorem leavesBound (h : plan.Built env statements d) {statement : Statement}
    (hs : statement ∈ plan.statements) : statement.tree.LeavesBound plan.registry :=
  (h.planned statement hs).bound.leavesBound.keeps h.keeps

end Plan.Built

end LinearKernels
