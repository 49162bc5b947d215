import LinearKernels.TermWalk

/-!
What binding and planning leave alone in a term. Erasing the record numbers, the computing
passes and the temporaries of a term gives back the term that was written; shape, element
type, leaves and products are those of the erased term. The handles a walk meets are the
handles of the leaves outside all inner products, once the inner products are computed.
-/

namespace LinearKernels

/-- The argument as it was before binding. -/
def Argument.erase (a : Argument) : Argument :=
  { a with record := none }

theorem Argument.eq_of_erase_eq {a b : Argument} (h : a.erase = b.erase) :
    a.handle = b.handle ∧ a.element = b.element ∧ a.storage = b.storage := by
  simpa [erase] using h

namespace Term

/-- The term as it was before binding and planning. -/
@[simp] def erase : Term → Term
  | leaf arg => leaf arg.erase
  | unary op sub => unary op sub.erase
  | binary op lhs rhs => binary op lhs.erase rhs.erase
  | matMat lhs rhs => matMat lhs.erase rhs.erase
  | matVec lhs rhs => matVec lhs.erase rhs.erase
  | inner lhs rhs _ _ => inner lhs.erase rhs.erase none none

/-- All leaves, also those below inner products. -/
def leaves : Term → List Argument
  | leaf arg => [arg]
  | unary _ sub => sub.leaves
  | binary _ lhs rhs | matMat lhs rhs | matVec lhs rhs | inner lhs rhs _ _ =>
    lhs.leaves ++ rhs.leaves

/-- The handles of all leaves. -/
def leafHandles (t : Term) : List Handle :=
  t.leaves.map (·.handle)

/-- The handles of the leaves that are not below an inner product. -/
def outerHandles : Term → List Handle
  | leaf arg => [arg.handle]
  | unary _ sub => sub.outerHandles
  | binary _ lhs rhs | matMat lhs rhs | matVec lhs rhs => lhs.outerHandles ++ rhs.outerHandles
  | inner _ _ _ _ => []

/-- The handles an inner product reads itself: those of its operands' leaves that are not
below a further inner product. -/
def ownHandles : Term → List Handle
  | inner lhs rhs _ _ => lhs.outerHandles ++ rhs.outerHandles
  | _ => []

/-- The inner products strictly inside a term. -/
def nestedProducts (t : Term) : List Term :=
  t.children.flatMap innerProducts

/-- The reduction pass recorded at an inner product. -/
def computed? : Term → Option Nat
  | inner _ _ computed _ => computed
  | _ => none

/-- All matrix products, operands first. -/
def matrixProducts : Term → List Term
  | leaf _ => []
  | unary _ sub => sub.matrixProducts
  | binary _ lhs rhs | inner lhs rhs _ _ => lhs.matrixProducts ++ rhs.matrixProducts
  | matMat lhs rhs => lhs.matrixProducts ++ rhs.matrixProducts ++ [matMat lhs rhs]
  | matVec lhs rhs => lhs.matrixProducts ++ rhs.matrixProducts ++ [matVec lhs rhs]

/-- The operands of every operation have the element types and shapes it was built for. -/
def WellTyped : Term → Prop
  | leaf _ => True
  | unary op sub => sub.WellTyped ∧ (op.requiresFloat = true → sub.element.isFloat = true)
  | binary op lhs rhs =>
    lhs.WellTyped ∧ rhs.WellTyped ∧ lhs.element = rhs.element ∧ accepts op lhs rhs = true
  | matMat lhs rhs =>
    lhs.WellTyped ∧ rhs.WellTyped ∧ lhs.shape = .matrix ∧ rhs.shape = .matrix ∧
      lhs.element = rhs.element
  | matVec lhs rhs =>
    lhs.WellTyped ∧ rhs.WellTyped ∧ lhs.shape = .matrix ∧ rhs.shape = .vector ∧
      lhs.element = rhs.element
  | inner lhs rhs _ _ =>
    lhs.WellTyped ∧ rhs.WellTyped ∧ lhs.shape = .vector ∧ rhs.shape = .vector ∧
      lhs.element = rhs.element

/-! ### Erasure -/

@[simp] theorem shape_erase (t : Term) : t.erase.shape = t.shape := by
  induction t with
  | leaf arg => rfl
  | unary op sub ih => simpa only [erase, shape] using ih
  | binary op lhs rhs ihl ihr => cases op <;> simp only [erase, shape, ihl, ihr]
  | matMat lhs rhs ihl ihr => rfl
  | matVec lhs rhs ihl ihr => rfl
  | inner lhs rhs computed temporary ihl ihr => rfl

@[simp] theorem element_erase (t : Term) : t.erase.element = t.element := by
  induction t with
  | leaf arg => rfl
  | unary op sub ih => simpa only [erase, element] using ih
  | binary op lhs rhs ihl ihr => simpa only [erase, element] using ihl
  | matMat lhs rhs ihl ihr => simpa only [erase, element] using ihl
  | matVec lhs rhs ihl ihr => simpa only [erase, element] using ihl
  | inner lhs rhs computed temporary ihl ihr => simpa only [erase, element] using ihl

theorem isWriteable_erase (t : Term) : t.erase.isWriteable = t.isWriteable := by
  cases t <;> rfl

theorem accepts_erase (op : BinaryOp) (lhs rhs : Term) :
    accepts op lhs.erase rhs.erase = accepts op lhs rhs := by
  cases op <;> simp only [accepts, isWriteable_erase, shape_erase, element_erase]

@[simp] theorem wellTyped_erase (t : Term) : t.erase.WellTyped ↔ t.WellTyped := by
  induction t with
  | leaf arg => exact Iff.rfl
  | unary op sub ih => simp only [erase, WellTyped, ih, element_erase]
  | binary op lhs rhs ihl ihr =>
    simp only [erase, WellTyped, ihl, ihr, element_erase, accepts_erase]
  | matMat lhs rhs ihl ihr => simp only [erase, WellTyped, ihl, ihr, element_erase, shape_erase]
  | matVec lhs rhs ihl ihr => simp only [erase, WellTyped, ihl, ihr, element_erase, shape_erase]
  | inner lhs rhs computed temporary ihl ihr =>
    simp only [erase, WellTyped, ihl, ihr, element_erase, shape_erase]

/-- Equally written terms have the same well-typedness. -/
theorem WellTyped.of_erase_eq {s t : Term} (h : s.erase = t.erase) (hs : s.WellTyped) :
    t.WellTyped := by
  rw [← wellTyped_erase, ← h, wellTyped_erase]
  exact hs

theorem shape_eq_of_erase_eq {s t : Term} (h : s.erase = t.erase) : s.shape = t.shape := by
  rw [← shape_erase s, h, shape_erase]

theorem element_eq_of_erase_eq {s t : Term} (h : s.erase = t.erase) : s.element = t.element := by
  rw [← element_erase s, h, element_erase]

theorem leaves_erase (t : Term) : t.erase.leaves = t.leaves.map Argument.erase := by
  induction t with
  | leaf arg => rfl
  | unary op sub ih => simpa only [erase, leaves] using ih
  | binary op lhs rhs ihl ihr => simp only [erase, leaves, ihl, ihr, List.map_append]
  | matMat lhs rhs ihl ihr => simp only [erase, leaves, ihl, ihr, List.map_append]
  | matVec lhs rhs ihl ihr => simp only [erase, leaves, ihl, ihr, List.map_append]
  | inner lhs rhs computed temporary ihl ihr =>
    simp only [erase, leaves, ihl, ihr, List.map_append]

@[simp] theorem outerHandles_erase (t : Term) : t.erase.outerHandles = t.outerHandles := by
  induction t with
  | leaf arg => rfl
  | unary op sub ih => simpa only [erase, outerHandles] using ih
  | binary op lhs rhs ihl ihr => simp only [erase, outerHandles, ihl, ihr]
  | matMat lhs rhs ihl ihr => simp only [erase, outerHandles, ihl, ihr]
  | matVec lhs rhs ihl ihr => simp only [erase, outerHandles, ihl, ihr]
  | inner lhs rhs computed temporary ihl ihr => rfl

theorem ownHandles_erase (t : Term) : t.erase.ownHandles = t.ownHandles := by
  cases t <;> simp only [erase, ownHandles, outerHandles_erase]

theorem innerProducts_erase (t : Term) :
    t.erase.innerProducts = t.innerProducts.map erase := by
  induction t with
  | leaf arg => rfl
  | unary op sub ih => simpa only [erase, innerProducts] using ih
  | binary op lhs rhs ihl ihr => simp only [erase, innerProducts, ihl, ihr, List.map_append]
  | matMat lhs rhs ihl ihr => simp only [erase, innerProducts, ihl, ihr, List.map_append]
  | matVec lhs rhs ihl ihr => simp only [erase, innerProducts, ihl, ihr, List.map_append]
  | inner lhs rhs computed temporary ihl ihr =>
    simp only [erase, innerProducts, ihl, ihr, List.map_append, List.map_cons, List.map_nil]

theorem nestedProducts_erase (t : Term) :
    t.erase.nestedProducts = t.nestedProducts.map erase := by
  cases t <;>
    simp only [nestedProducts, erase, children, List.flatMap_cons, List.flatMap_nil,
      List.append_nil, List.map_append, List.map_nil, innerProducts_erase]

theorem matrixProducts_erase (t : Term) :
    t.erase.matrixProducts = t.matrixProducts.map erase := by
  induction t with
  | leaf arg => rfl
  | unary op sub ih => simpa only [erase, matrixProducts] using ih
  | binary op lhs rhs ihl ihr => simp only [erase, matrixProducts, ihl, ihr, List.map_append]
  | matMat lhs rhs ihl ihr =>
    simp only [erase, matrixProducts, ihl, ihr, List.map_append, List.map_cons, List.map_nil]
  | matVec lhs rhs ihl ihr =>
    simp only [erase, matrixProducts, ihl, ihr, List.map_append, List.map_cons, List.map_nil]
  | inner lhs rhs computed temporary ihl ihr =>
    simp only [erase, matrixProducts, ihl, ihr, List.map_append]

/-! ### Inner products in order -/

/-- What is nested in a listed inner product is listed before it. -/
def OperandsFirst (ts : List Term) : Prop :=
  ∀ before n after, ts = before ++ n :: after → ∀ m ∈ n.nestedProducts, m ∈ before

theorem OperandsFirst.append {xs ys : List Term} (hx : OperandsFirst xs)
    (hy : OperandsFirst ys) : OperandsFirst (xs ++ ys) := by
  intro before n after h m hm
  rcases List.append_eq_append_iff.mp h with ⟨mid, rfl, hys⟩ | ⟨mid, hxs, hrest⟩
  · exact List.mem_append_right xs (hy mid n after hys m hm)
  · cases mid with
    | nil =>
      have hnil := hy [] n after (by simpa using hrest.symm) m hm
      simp at hnil
    | cons first rest =>
      obtain ⟨rfl, -⟩ := List.cons.inj hrest
      exact hx before n rest hxs m hm

theorem operandsFirst_innerProducts (t : Term) : OperandsFirst t.innerProducts := by
  induction t with
  | leaf arg =>
    intro before n after h
    simp [innerProducts] at h
  | unary op sub ih => exact ih
  | binary op lhs rhs ihl ihr => exact ihl.append ihr
  | matMat lhs rhs ihl ihr => exact ihl.append ihr
  | matVec lhs rhs ihl ihr => exact ihl.append ihr
  | inner lhs rhs computed temporary ihl ihr =>
    intro before n after h m hm
    rw [innerProducts, List.append_eq_append_iff] at h
    rcases h with ⟨mid, hbefore, hlast⟩ | ⟨mid, hfirst, hrest⟩
    · cases mid with
      | nil =>
        obtain ⟨rfl, -⟩ := List.cons.inj hlast
        simpa [hbefore, nestedProducts, children] using hm
      | cons first rest =>
        simp at hlast
    · cases mid with
      | nil =>
        obtain ⟨rfl, -⟩ := List.cons.inj hrest
        have hbefore : before = lhs.innerProducts ++ rhs.innerProducts := by
          simpa using hfirst.symm
        simpa [hbefore, nestedProducts, children] using hm
      | cons first rest =>
        obtain ⟨rfl, -⟩ := List.cons.inj hrest
        exact (ihl.append ihr) before n rest hfirst m hm

/-- An inner product nested in one of a term's inner products is one of them. -/
theorem mem_innerProducts_of_nested {t n m : Term} (hn : n ∈ t.innerProducts)
    (hm : m ∈ n.nestedProducts) : m ∈ t.innerProducts := by
  obtain ⟨before, after, h⟩ := List.append_of_mem hn
  rw [h]
  exact List.mem_append_left _ (operandsFirst_innerProducts t before n after h m hm)

theorem WellTyped.innerProducts {t : Term} (h : t.WellTyped) :
    ∀ m ∈ t.innerProducts, m.WellTyped := by
  induction t with
  | leaf arg => intro m hm; cases hm
  | unary op sub ih => exact ih h.1
  | binary op lhs rhs ihl ihr | matMat lhs rhs ihl ihr | matVec lhs rhs ihl ihr =>
    intro m hm
    exact (List.mem_append.mp hm).elim (ihl h.1 m) (ihr h.2.1 m)
  | inner lhs rhs computed temporary ihl ihr =>
    intro m hm
    rcases List.mem_append.mp hm with hm | hm
    · exact (List.mem_append.mp hm).elim (ihl h.1 m) (ihr h.2.1 m)
    · rwa [List.mem_singleton.mp hm]

theorem self_mem_innerProducts (lhs rhs : Term) (computed : Option Nat)
    (temporary : Option Argument) :
    inner lhs rhs computed temporary ∈ (inner lhs rhs computed temporary).innerProducts :=
  List.mem_append_right _ (List.mem_singleton_self _)

/-- A leaf is outside all inner products, or read by one of them itself. -/
theorem mem_leafHandles_iff (t : Term) (h : Handle) :
    h ∈ t.leafHandles ↔ h ∈ t.outerHandles ∨ ∃ m ∈ t.innerProducts, h ∈ m.ownHandles := by
  induction t with
  | leaf arg => simp [leafHandles, leaves, outerHandles, innerProducts]
  | unary op sub ih => exact ih
  | binary op lhs rhs ihl ihr =>
    simp only [leafHandles, leaves, List.map_append, List.mem_append] at ihl ihr ⊢
    simp only [outerHandles, innerProducts, List.mem_append, ihl, ihr, or_and_right, exists_or]
    grind
  | matMat lhs rhs ihl ihr =>
    simp only [leafHandles, leaves, List.map_append, List.mem_append] at ihl ihr ⊢
    simp only [outerHandles, innerProducts, List.mem_append, ihl, ihr, or_and_right, exists_or]
    grind
  | matVec lhs rhs ihl ihr =>
    simp only [leafHandles, leaves, List.map_append, List.mem_append] at ihl ihr ⊢
    simp only [outerHandles, innerProducts, List.mem_append, ihl, ihr, or_and_right, exists_or]
    grind
  | inner lhs rhs computed temporary ihl ihr =>
    simp only [leafHandles, leaves, List.map_append, List.mem_append] at ihl ihr ⊢
    simp only [outerHandles, innerProducts, List.mem_append, List.mem_singleton, ihl, ihr,
      or_and_right, exists_or, exists_eq_left, ownHandles, List.not_mem_nil, false_or]
    grind

/-- Every leaf below an inner product is read by it or by an inner product nested in it. -/
theorem mem_leafHandles_inner_iff {n : Term} (hn : n.isInner = true) (h : Handle) :
    h ∈ n.leafHandles ↔ h ∈ n.ownHandles ∨ ∃ m ∈ n.nestedProducts, h ∈ m.ownHandles := by
  cases n with
  | inner lhs rhs computed temporary =>
    have hl := mem_leafHandles_iff lhs h
    have hr := mem_leafHandles_iff rhs h
    simp only [leafHandles, leaves, List.map_append, List.mem_append] at hl hr ⊢
    simp only [ownHandles, nestedProducts, children, List.flatMap_cons, List.flatMap_nil,
      List.append_nil, List.mem_append, hl, hr, or_and_right, exists_or]
    grind
  | leaf | unary | binary | matMat | matVec => simp [isInner] at hn

/-! ### Walks -/

theorem handles_pair (xs ys : List Term) (t : Term) (ht : t.handle? = none) :
    (xs ++ ys ++ [t]).filterMap handle? = xs.filterMap handle? ++ ys.filterMap handle? := by
  simp [ht]

/-- Of the buffers, a walk that meets inner products as their temporaries meets exactly those
outside the inner products. -/
theorem buffer_mem_handles_iff {t : Term}
    (ht : ∀ m ∈ t.innerProducts, ∃ i, m.handle? = some (.temporary i)) (k : Nat) :
    Handle.buffer k ∈ t.handles ↔ Handle.buffer k ∈ t.outerHandles := by
  induction t with
  | leaf arg => simp [handles, walk, handle?, argument?, outerHandles]
  | unary op sub ih =>
    simpa [handles, walk, outerHandles, handle?, argument?] using ih ht
  | binary op lhs rhs ihl ihr | matMat lhs rhs ihl ihr | matVec lhs rhs ihl ihr =>
    obtain ⟨hl, hr⟩ := List.forall_mem_append.mp ht
    simp only [handles] at ihl ihr ⊢
    rw [walk, handles_pair _ _ _ rfl, List.mem_append, ihl hl, ihr hr,
      outerHandles, List.mem_append]
  | inner lhs rhs computed temporary ihl ihr =>
    obtain ⟨i, hi⟩ := ht _ (self_mem_innerProducts lhs rhs computed temporary)
    cases computed with
    | none => cases hi
    | some pass =>
      cases temporary with
      | none => cases hi
      | some cell =>
        obtain hcell : cell.handle = .temporary i := Option.some.inj hi
        simp [handles, walk, handle?, argument?, hcell, outerHandles]

/-- An inner product is walked through unless it stands for its temporary. -/
theorem walk_inner (lhs rhs : Term) (computed : Option Nat) (temporary : Option Argument) :
    (inner lhs rhs computed temporary).walk = [inner lhs rhs computed temporary] ∨
      (inner lhs rhs computed temporary).walk =
        lhs.walk ++ rhs.walk ++ [inner lhs rhs computed temporary] := by
  cases computed <;> cases temporary <;> simp [walk]

theorem isInner_of_mem_innerProducts {t m : Term} (hm : m ∈ t.innerProducts) :
    m.isInner = true := by
  induction t with
  | leaf arg => cases hm
  | unary op sub ih => exact ih hm
  | binary op lhs rhs ihl ihr | matMat lhs rhs ihl ihr | matVec lhs rhs ihl ihr =>
    exact (List.mem_append.mp hm).elim ihl ihr
  | inner lhs rhs computed temporary ihl ihr =>
    rcases List.mem_append.mp hm with hm | hm
    · exact (List.mem_append.mp hm).elim ihl ihr
    · rw [List.mem_singleton.mp hm]
      rfl

/-- A walk meets every leaf, if no inner product stands for its temporary. -/
theorem arguments_eq_leaves {t : Term} (ht : ∀ m ∈ t.innerProducts, m.argument? = none) :
    t.arguments = t.leaves := by
  have pair : ∀ {l r t : Term}, t.walk = l.walk ++ r.walk ++ [t] → t.argument? = none →
      l.arguments = l.leaves → r.arguments = r.leaves → t.arguments = l.leaves ++ r.leaves := by
    intro l r t hwalk hnone hl hr
    rw [← hl, ← hr]
    simp only [arguments, hwalk, List.filterMap_append, List.filterMap_cons, hnone,
      List.filterMap_nil, List.append_nil]
  induction t with
  | leaf arg => rfl
  | unary op sub ih =>
    rw [leaves, ← ih ht]
    simp [arguments, walk, argument?]
  | binary op lhs rhs ihl ihr | matMat lhs rhs ihl ihr | matVec lhs rhs ihl ihr =>
    obtain ⟨hl, hr⟩ := List.forall_mem_append.mp ht
    exact pair rfl rfl (ihl hl) (ihr hr)
  | inner lhs rhs computed temporary ihl ihr =>
    obtain ⟨hoperands, hself⟩ := List.forall_mem_append.mp ht
    obtain ⟨hl, hr⟩ := List.forall_mem_append.mp hoperands
    have hnone := hself _ (List.mem_singleton_self _)
    refine pair ?_ hnone (ihl hl) (ihr hr)
    cases computed <;> cases temporary <;> simp [argument?] at hnone <;> rfl

theorem arguments_of_bare {t : Term} (h : t.erase = t) : t.arguments = t.leaves := by
  refine arguments_eq_leaves fun m hm => ?_
  rw [← h, innerProducts_erase] at hm
  obtain ⟨n, hn, rfl⟩ := List.mem_map.mp hm
  have hinner := isInner_of_mem_innerProducts hn
  cases n with
  | inner => rfl
  | leaf | unary | binary | matMat | matVec => cases hinner

/-- No matrix product stands below an inner product. -/
def ProductsOutside (t : Term) : Prop :=
  ∀ m ∈ t.innerProducts, m.matrixProducts = []

theorem filter_walk_pair (xs ys : List Term) (t : Term) (ht : t.product? = none) :
    (xs ++ ys ++ [t]).filter (·.product?.isSome) =
      xs.filter (·.product?.isSome) ++ ys.filter (·.product?.isSome) := by
  simp [ht]

/-- A walk meets all matrix products, whether the inner products are computed or not. -/
theorem filter_walk_product {t : Term} (ht : t.ProductsOutside) :
    t.walk.filter (·.product?.isSome) = t.matrixProducts := by
  induction t with
  | leaf arg => rfl
  | unary op sub ih =>
    simpa [walk, matrixProducts, product?] using ih ht
  | binary op lhs rhs ihl ihr =>
    obtain ⟨hl, hr⟩ := List.forall_mem_append.mp ht
    rw [walk, filter_walk_pair _ _ _ rfl, ihl hl, ihr hr, matrixProducts]
  | matMat lhs rhs ihl ihr =>
    obtain ⟨hl, hr⟩ := List.forall_mem_append.mp ht
    rw [walk, List.filter_append, List.filter_append, ihl hl, ihr hr]
    rfl
  | matVec lhs rhs ihl ihr =>
    obtain ⟨hl, hr⟩ := List.forall_mem_append.mp ht
    rw [walk, List.filter_append, List.filter_append, ihl hl, ihr hr]
    rfl
  | inner lhs rhs computed temporary ihl ihr =>
    have hnone : lhs.matrixProducts ++ rhs.matrixProducts = [] :=
      ht _ (self_mem_innerProducts lhs rhs computed temporary)
    have hsub : ∀ m ∈ lhs.innerProducts ++ rhs.innerProducts, m.matrixProducts = [] := fun m hm =>
      ht m (List.mem_append_left _ hm)
    obtain ⟨hl, hr⟩ := List.forall_mem_append.mp hsub
    rcases walk_inner lhs rhs computed temporary with hwalk | hwalk
    · rw [hwalk, matrixProducts, hnone]
      rfl
    · rw [hwalk, filter_walk_pair _ _ _ rfl, ihl hl, ihr hr, matrixProducts]

/-! ### Checked constructors -/

theorem mkUnary_eq_ok_iff {op : UnaryOp} {sub t : Term} :
    mkUnary op sub = .ok t ↔ (op.requiresFloat = true → sub.element.isFloat = true) ∧
    unary op sub = t := by
  unfold mkUnary
  cases op.requiresFloat <;> cases sub.element.isFloat <;> simp

theorem mkBinary_eq_ok_iff {op : BinaryOp} {lhs rhs t : Term} :
    mkBinary op lhs rhs = .ok t ↔
      (lhs.element = rhs.element ∧ accepts op lhs rhs = true) ∧ binary op lhs rhs = t := by
  unfold mkBinary
  split <;> simp_all

theorem mkMatMat_eq_ok_iff {lhs rhs t : Term} :
    mkMatMat lhs rhs = .ok t ↔
      (lhs.shape = .matrix ∧ rhs.shape = .matrix ∧ lhs.element = rhs.element) ∧
      matMat lhs rhs = t := by
  unfold mkMatMat
  split <;> simp_all

theorem mkMatVec_eq_ok_iff {lhs rhs t : Term} :
    mkMatVec lhs rhs = .ok t ↔
      (lhs.shape = .matrix ∧ rhs.shape = .vector ∧ lhs.element = rhs.element) ∧
      matVec lhs rhs = t := by
  unfold mkMatVec
  split <;> simp_all

theorem mkInner_eq_ok_iff {lhs rhs t : Term} :
    mkInner lhs rhs = .ok t ↔
      (lhs.shape = .vector ∧ rhs.shape = .vector ∧ lhs.element = rhs.element) ∧
      inner lhs rhs none none = t := by
  unfold mkInner
  split <;> simp_all

end Term

end LinearKernels
