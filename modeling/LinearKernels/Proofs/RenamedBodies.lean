import LinearKernels.Proofs.Emission
import LinearKernels.Proofs.PlanKeys

/-!
Kernel bodies of a plan with other handles. No text names a handle, but two things depend on
the order of handles: sets of arguments are sorted by it, and the length of a reduction is
that of the vector with the least handle. A renaming that keeps the order of the handles in a
pass leaves the body of the pass as it is.
-/

namespace LinearKernels

/-- The renaming keeps the order of the given handles. -/
def Renaming.KeepsOrder (f : Renaming) (hs : List Handle) : Prop :=
  ∀ h ∈ hs, ∀ k ∈ hs, (h.rename f).less (k.rename f) = h.less k

theorem Renaming.KeepsOrder.mono {f : Renaming} {hs ks : List Handle} (h : f.KeepsOrder hs)
    (hsub : ∀ k ∈ ks, k ∈ hs) : f.KeepsOrder ks :=
  fun a ha b hb => h a (hsub a ha) b (hsub b hb)

/-- Two ascending lists of handles give the same order. -/
theorem Renaming.keepsOrder_of_ascend {f : Renaming} {hs : List Handle}
    (h : hs.Pairwise fun a b => a.less b = true)
    (h' : (hs.map (·.rename f)).Pairwise fun a b => a.less b = true) : f.KeepsOrder hs := by
  induction hs with
  | nil => exact fun a ha => by cases ha
  | cons x hs ih =>
    obtain ⟨hx, h⟩ := List.pairwise_cons.mp h
    obtain ⟨hx', h'⟩ := List.pairwise_cons.mp h'
    intro a ha b hb
    rcases List.mem_cons.mp ha with rfl | ha₁ <;> rcases List.mem_cons.mp hb with rfl | hb₁
    · rw [Handle.less_irrefl, Handle.less_irrefl]
    · rw [hx b hb₁, hx' _ (List.mem_map_of_mem hb₁)]
    · rw [Handle.less_asymm (hx a ha₁), Handle.less_asymm (hx' _ (List.mem_map_of_mem ha₁))]
    · exact ih h h' a ha₁ b hb₁

/-! ### Sets -/

def TermSet.rename (f : Renaming) (s : TermSet) : TermSet :=
  ⟨s.terms.map (·.rename f)⟩

namespace TermSet

variable {f : Renaming} {hs : List Handle}

/-- All terms stand for arguments with handles from the list. -/
def Within (hs : List Handle) (ts : List Term) : Prop :=
  ∀ t ∈ ts, ∃ h ∈ hs, t.handle? = some h

theorem less_rename (hf : f.KeepsOrder hs) {s t : Term} {h k : Handle} (hh : h ∈ hs) (hk : k ∈ hs)
    (hs' : s.handle? = some h) (ht : t.handle? = some k) :
    (s.rename f).less (t.rename f) = s.less t := by
  have hs₁ : (s.rename f).handle? = some (h.rename f) := by rw [Term.handle?_rename, hs']; rfl
  have ht₁ : (t.rename f).handle? = some (k.rename f) := by rw [Term.handle?_rename, ht]; rfl
  rw [Term.less_eq hs₁ ht₁, Term.less_eq hs' ht, hf h hh k hk]

theorem insert_rename (hf : f.KeepsOrder hs) {s : TermSet} (hwithin : Within hs s.terms)
    {t : Term} {k : Handle} (hk : k ∈ hs) (ht : t.handle? = some k) :
    (s.rename f).insert (t.rename f) = (s.insert t).rename f := by
  have hplace : (s.rename f).place (t.rename f) = s.place t := by
    refine bisect_map fun x hx => ?_
    obtain ⟨h, hh, hx⟩ := hwithin x hx
    exact less_rename hf hh hk hx ht
  have hadds : (s.rename f).adds (t.rename f) = s.adds t := by
    rw [adds, adds, hplace, rename, List.getElem?_map]
    cases hat : s.terms[s.place t]? with
    | none => rfl
    | some x =>
      obtain ⟨h, hh, hx⟩ := hwithin x (List.mem_of_getElem? hat)
      exact less_rename hf hk hh ht hx
  rw [insert, insert, hadds, hplace]
  split
  · simp only [rename, List.map_append, List.map_cons, List.map_take, List.map_drop]
  · rfl

theorem Within.insert {s : TermSet} (h : Within hs s.terms) {t : Term} {k : Handle} (hk : k ∈ hs)
    (ht : t.handle? = some k) : Within hs (s.insert t).terms := by
  intro x hx
  rcases mem_insert hx with hx | rfl
  · exact h x hx
  · exact ⟨k, hk, ht⟩

theorem insertAll_rename (hf : f.KeepsOrder hs) {s : TermSet}
    (hwithin : Within hs s.terms) {ts : List Term} (hts : Within hs ts) :
    (s.rename f).insertAll (ts.map (·.rename f)) = (s.insertAll ts).rename f := by
  induction ts generalizing s with
  | nil => rfl
  | cons t ts ih =>
    obtain ⟨k, hk, ht⟩ := hts t (List.mem_cons_self ..)
    have hstep := insert_rename hf hwithin hk ht
    have hrest := ih (hwithin.insert hk ht) fun x hx => hts x (List.mem_cons_of_mem t hx)
    rw [← hstep] at hrest
    exact hrest

end TermSet

namespace Term

variable {f : Renaming} {hs : List Handle}

theorem within_extract {condition : Term → Bool} {t : Term} (hsub : ∀ h ∈ t.handles, h ∈ hs) :
    TermSet.Within hs (t.walk.filter fun s => TermKind.argument.admits s && condition s) := by
  intro x hx
  simp only [List.mem_filter, Bool.and_eq_true] at hx
  obtain ⟨hwalk, hadmits, -⟩ := hx
  obtain ⟨h, hh⟩ := handle?_of_admits hadmits
  exact ⟨h, hsub h (List.mem_filterMap.mpr ⟨x, hwalk, hh⟩), hh⟩

theorem extract_rename (hf : f.KeepsOrder hs) {condition : Term → Bool}
    (hcondition : ∀ s : Term, condition (s.rename f) = condition s) {t : Term}
    (hsub : ∀ h ∈ t.handles, h ∈ hs) :
    (t.rename f).extract .argument condition = (t.extract .argument condition).rename f := by
  rw [extract, extract, ← TermSet.insertAll_rename hf (fun x hx => by cases hx)
    (within_extract hsub), walk_rename, List.filter_map]
  congr 2
  refine List.filter_congr fun s _ => ?_
  simp only [Function.comp, admits_rename, hcondition]

theorem lengthVector?_rename {lhs : Term} (hf : f.KeepsOrder lhs.handles) :
    (lhs.rename f).lengthVector? = lhs.lengthVector?.map (·.rename f) := by
  have hcondition : ∀ s : Term, (s.rename f).isVectorLeaf = s.isVectorLeaf := by
    intro s
    cases s <;> rfl
  rw [lengthVector?, lengthVector?, extract_rename hf hcondition fun _ h => h, TermSet.rename]
  cases (lhs.extract .argument isVectorLeaf).terms with
  | nil => rfl
  | cons t ts => exact argument?_rename t

end Term

/-! ### Texts -/

namespace Plan.Renames

variable {f : Renaming} {plan plan' : Plan} (hr : plan.Renames f plan')

include hr

/-- Statements of the same number are both there or both missing. -/
theorem statement_eq (s : Nat) : plan.statements[s]? = none ∧ plan'.statements[s]? = none ∨
    ∃ statement statement', plan.statements[s]? = some statement ∧
      plan'.statements[s]? = some statement' ∧ statement'.tree = statement.tree.rename f := by
  have htrees := congrArg (·[s]?) hr.trees
  simp only [List.getElem?_map] at htrees
  cases h : plan.statements[s]? with
  | none =>
    rw [h, Option.map_none, Option.map_eq_none_iff] at htrees
    exact .inl ⟨rfl, htrees⟩
  | some statement =>
    rw [h, Option.map_some, Option.map_eq_some_iff] at htrees
    obtain ⟨statement', hstatement', heq⟩ := htrees
    exact .inr ⟨statement, statement', rfl, hstatement', heq⟩

theorem tree_eq (s : Nat) : plan'.tree s = Term.rename f <$> plan.tree s := by
  rw [tree, tree]
  rcases hr.statement_eq s with ⟨h, h'⟩ | ⟨statement, statement', h, h', htree⟩
  · rw [h, h']
    rfl
  · rw [h, h']
    exact congrArg Except.ok htree

theorem reduced?_eq (pass : Pass) :
    plan'.reduced? pass = (plan.reduced? pass).map (·.rename f) := by
  rw [reduced?, reduced?]
  cases pass.statements.head? with
  | none => rfl
  | some s =>
    rcases hr.statement_eq s with ⟨h, h'⟩ | ⟨statement, statement', h, h', htree⟩
    · simp [h, h']
    · cases pass.reduction with
      | none => simp
      | some n => simp [h, h', htree, Term.innerProducts_rename]

theorem target_eq (s : Nat) : plan'.target s = Argument.rename f <$> plan.target s := by
  rw [target, target, hr.tree_eq]
  cases plan.tree s with
  | error e => rfl
  | ok t =>
    simp only [Outcome.map_ok, Outcome.ok_bind, Term.operands?_rename]
    cases t.operands? with
    | none => rfl
    | some operands =>
      obtain ⟨op, lhs, rhs⟩ := operands
      simp only [Option.map_some]
      split
      · rw [Term.argument?_rename]
        cases lhs.argument? <;> rfl
      · rfl

theorem product_eq (s : Nat) : plan'.product s = Term.rename f <$> plan.product s := by
  rw [product, product, hr.tree_eq]
  cases plan.tree s with
  | error e => rfl
  | ok t =>
    simp only [Outcome.map_ok, Outcome.ok_bind, Term.walk_rename, List.find?_map]
    have hpred : (fun t : Term => t.product?.isSome) ∘ (Term.rename f) = fun t =>
        t.product?.isSome := by
      funext t
      simp [Term.product?_rename]
    rw [hpred]
    cases t.walk.find? (·.product?.isSome) <;> rfl

theorem bodies_eq (pass : Pass) : plan'.bodies pass = plan.bodies pass := by
  have hcode : (fun s => plan'.tree s >>= (·.code plan'.registry pass.index)) =
      fun s => plan.tree s >>= (·.code plan.registry pass.index) := by
    funext s
    rw [hr.tree_eq, hr.registry]
    cases plan.tree s with
    | error e => rfl
    | ok t => exact t.code_rename plan.registry pass.index
  rw [bodies, bodies, hcode]

theorem vectorBound_eq (a : Argument) : plan'.vectorBound (a.rename f) = plan.vectorBound a := by
  rw [vectorBound, vectorBound, hr.registry, a.name_rename]

theorem matrixBounds_eq (a : Argument) :
    plan'.matrixBounds (a.rename f) = plan.matrixBounds a := by
  rw [matrixBounds, matrixBounds, hr.registry, a.name_rename]
  rfl

theorem innerBound_eq (a : Argument) : plan'.innerBound (a.rename f) = plan.innerBound a := by
  rw [innerBound, innerBound, hr.registry, a.name_rename]
  rfl

theorem vectorBody_eq (pass : Pass) : plan'.vectorBody pass = plan.vectorBody pass := by
  rw [vectorBody, vectorBody]
  refine bind_congr fun s => ?_
  rw [hr.target_eq, bind_map_left]
  refine bind_congr fun target => ?_
  rw [hr.vectorBound_eq, hr.bodies_eq]

theorem matrixBody_eq (pass : Pass) : plan'.matrixBody pass = plan.matrixBody pass := by
  rw [matrixBody, matrixBody]
  refine bind_congr fun s => ?_
  rw [hr.target_eq, bind_map_left]
  refine bind_congr fun target => ?_
  rw [hr.matrixBounds_eq, hr.bodies_eq]

theorem scalarBody_eq (pass : Pass) : plan'.scalarBody pass = plan.scalarBody pass := by
  rw [scalarBody, scalarBody, hr.bodies_eq]

/-- The length of a reduction is read off the same vector if the order is kept. -/
theorem reductionBody_eq (localSize : Nat) (pass : Pass)
    (hf : ∀ lhs rhs computed temporary, plan.reduced? pass =
      some (.inner lhs rhs computed temporary) → f.KeepsOrder lhs.handles) :
    plan'.reductionBody localSize pass = plan.reductionBody localSize pass := by
  rw [reductionBody, reductionBody, hr.reduced?_eq]
  cases hreduced : plan.reduced? pass with
  | none => rfl
  | some node =>
    cases node with
    | inner lhs rhs computed temporary =>
      have hlength := Term.lengthVector?_rename (hf lhs rhs computed temporary hreduced)
      change (orUnbound (Term.lengthVector? (lhs.rename f)) >>= _) =
        (orUnbound (Term.lengthVector? lhs) >>= _)
      rw [hlength]
      cases lhs.lengthVector? with
      | none => rfl
      | some length =>
        cases temporary with
        | none => rfl
        | some cell =>
          simp only [Option.map_some, orUnbound, Outcome.ok_bind, Term.element_rename,
            hr.vectorBound_eq, hr.registry, Term.pairCode_rename, cell.accessName_rename]
    | leaf | unary | binary | matMat | matVec => rfl

end Plan.Renames

/-- The operands of a renamed product. -/
theorem Plan.productOperands_rename {f : Renaming} (p : Term) : productOperands (p.rename f) =
    (fun (a, b) => (a.rename f, b.rename f)) <$> productOperands p := by
  rw [productOperands, productOperands, Term.product?_rename]
  cases p.product? with
  | none => rfl
  | some operands =>
    obtain ⟨lhs, rhs⟩ := operands
    simp only [Option.map_some, orUnbound, Outcome.ok_bind, Term.argument?_rename]
    cases lhs.argument? <;> cases rhs.argument? <;> rfl

namespace Plan.Renames

variable {f : Renaming} {plan plan' : Plan} (hr : plan.Renames f plan')

include hr

theorem matVecBody_eq (pass : Pass) : plan'.matVecBody pass = plan.matVecBody pass := by
  rw [matVecBody, matVecBody]
  refine bind_congr fun s => ?_
  rw [hr.target_eq, bind_map_left]
  refine bind_congr fun target => ?_
  rw [hr.product_eq, bind_map_left]
  refine bind_congr fun p => ?_
  rw [productOperands_rename, bind_map_left]
  refine bind_congr fun operands => ?_
  obtain ⟨a, b⟩ := operands
  simp only [hr.vectorBound_eq, hr.innerBound_eq, hr.bodies_eq, hr.registry, p.key_rename,
    a.matrixElement_rename, b.vectorElement_rename, p.element_rename]

theorem matMatBody_eq (pass : Pass) : plan'.matMatBody pass = plan.matMatBody pass := by
  rw [matMatBody, matMatBody]
  refine bind_congr fun s => ?_
  rw [hr.target_eq, bind_map_left]
  refine bind_congr fun target => ?_
  rw [hr.product_eq, bind_map_left]
  refine bind_congr fun p => ?_
  rw [productOperands_rename, bind_map_left]
  refine bind_congr fun operands => ?_
  obtain ⟨a, b⟩ := operands
  simp only [hr.matrixBounds_eq, hr.innerBound_eq, hr.bodies_eq, hr.registry, p.key_rename,
    a.matrixElement_rename, b.matrixElement_rename, p.element_rename]

/-- Only the body of a reduction depends on the order of the handles. -/
theorem body_eq (localSize : Nat) (pass : Pass)
    (hf : pass.kind = .reduction → ∀ lhs rhs computed temporary,
      plan.reduced? pass = some (.inner lhs rhs computed temporary) → f.KeepsOrder lhs.handles) :
    plan'.body localSize pass = plan.body localSize pass := by
  rw [body, body]
  cases hkind : pass.kind with
  | vector => exact hr.vectorBody_eq pass
  | matrix => exact hr.matrixBody_eq pass
  | scalar => exact hr.scalarBody_eq pass
  | reduction => exact hr.reductionBody_eq localSize pass (hf hkind)
  | matVec => exact hr.matVecBody_eq pass
  | matMat => exact hr.matMatBody_eq pass

theorem shortKeys_eq : plan'.shortKeys = plan.shortKeys := by
  have hshort : ∀ p : Plan, p.shortKeys =
      (p.statements.map (·.tree)).mapM (·.shortKey p.registry) := by
    intro p
    rw [List.mapM_map]
    rfl
  rw [hshort, hr.trees, hr.registry, List.mapM_map]
  exact congrArg (plan.statements.mapM ·) (funext fun s => s.tree.shortKey_rename plan.registry)

end Plan.Renames

end LinearKernels
