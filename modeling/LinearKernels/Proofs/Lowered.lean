import LinearKernels.Lowering
import LinearKernels.Proofs.Binding

/-!
What lowering admits. Every lowered statement assigns a well-typed expression to a writeable
name of the same shape; all leaves are declared names, nothing is bound yet, and the one
matrix product there may be has two names other than the target as its operands and stands
outside all inner products. The declared names have buffers of their own, and views a
positive stride.
-/

namespace LinearKernels

namespace Term

/-- An expression as lowering builds it, with leaves of which `P` holds. -/
structure Admitted (P : Argument → Prop) (t : Term) : Prop where
  typed : t.WellTyped
  bare : t.erase = t
  leaves : ∀ a ∈ t.leaves, P a
  outside : t.ProductsOutside
  operands : ∀ p ∈ t.matrixProducts, ∃ a b, p.product? = some (leaf a, leaf b)

variable {P Q : Argument → Prop} {l r t : Term} {span : Span}

theorem Admitted.mono (h : t.Admitted P) (hPQ : ∀ a, P a → Q a) : t.Admitted Q :=
  ⟨h.typed, h.bare, fun a ha => hPQ a (h.leaves a ha), h.outside, h.operands⟩

theorem admitted_leaf {a : Argument} (ha : P a) (hbare : a.erase = a) : (leaf a).Admitted P where
  typed := trivial
  bare := by rw [erase, hbare]
  leaves b hb := by
    obtain rfl := List.mem_singleton.mp hb
    exact ha
  outside m hm := by simp [innerProducts] at hm
  operands p hp := by simp [matrixProducts] at hp

/-- A bare term that stands for an argument is a leaf. -/
theorem exists_leaf_of_argument? (hbare : t.erase = t) (h : t.argument?.isNone = false) :
    ∃ a, t = leaf a := by
  cases t with
  | leaf a => exact ⟨a, rfl⟩
  | inner l r computed temporary =>
    obtain ⟨-, -, rfl, -⟩ := inner.inj hbare
    simp [argument?] at h
  | unary | binary | matMat | matVec => simp [argument?] at h

theorem Admitted.unary (h : l.Admitted P) {op : UnaryOp} (ht : mkUnary op l = .ok t) :
    t.Admitted P := by
  unfold mkUnary at ht
  split at ht
  · cases ht
  · next hfloat =>
    obtain rfl := Except.ok.inj ht
    refine ⟨⟨h.typed, fun hop => ?_⟩, by rw [erase, h.bare], h.leaves, h.outside, h.operands⟩
    simpa [hop] using hfloat

theorem Admitted.binary (hl : l.Admitted P) (hr : r.Admitted P) {op : BinaryOp}
    (ht : mkBinary op l r = .ok t) : t.Admitted P := by
  unfold mkBinary at ht
  split at ht
  · next haccepts =>
    obtain rfl := Except.ok.inj ht
    exact ⟨⟨hl.typed, hr.typed, haccepts⟩, by rw [erase, hl.bare, hr.bare],
      fun a ha => (List.mem_append.mp ha).elim (hl.leaves a) (hr.leaves a),
      fun m hm => (List.mem_append.mp hm).elim (hl.outside m) (hr.outside m),
      fun p hp => (List.mem_append.mp hp).elim (hl.operands p) (hr.operands p)⟩
  · cases ht

/-- All matrix products of the term have been counted. -/
theorem productCount_eq (ht : t.ProductsOutside) : t.productCount = t.matrixProducts.length := by
  rw [← filter_walk_product ht, ← List.countP_eq_length_filter, productCount, count, count]
  induction t.walk with
  | nil => rfl
  | cons s rest ih =>
    have hs : (if TermKind.matMat.admits s then 1 else 0) +
        (if TermKind.matVec.admits s then 1 else 0) = if s.product?.isSome then 1 else 0 := by
      cases s <;> rfl
    simp only [List.countP_cons]
    omega

theorem Admitted.inner (hl : l.Admitted P) (hr : r.Admitted P)
    (hcount : ¬ l.productCount + r.productCount > 0) (ht : mkInner l r = .ok t) :
    t.Admitted P := by
  rw [productCount_eq hl.outside, productCount_eq hr.outside] at hcount
  have hlnil : l.matrixProducts = [] := List.eq_nil_of_length_eq_zero (by omega)
  have hrnil : r.matrixProducts = [] := List.eq_nil_of_length_eq_zero (by omega)
  unfold mkInner at ht
  split at ht
  · next htypes =>
    obtain rfl := Except.ok.inj ht
    have hnone : (Term.inner l r none none).matrixProducts = [] := by
      rw [matrixProducts, hlnil, hrnil, List.append_nil]
    refine ⟨⟨hl.typed, hr.typed, htypes⟩, by rw [erase, hl.bare, hr.bare],
      fun a ha => (List.mem_append.mp ha).elim (hl.leaves a) (hr.leaves a), ?_, ?_⟩
    · intro m hm
      simp only [innerProducts, List.mem_append, List.mem_singleton] at hm
      rcases hm with (hm | hm) | rfl
      · exact hl.outside m hm
      · exact hr.outside m hm
      · exact hnone
    · intro p hp
      rw [hnone] at hp
      cases hp
  · cases ht

theorem ofTerm_eq_ok_iff {x : Except Fault Term} : Checked.ofTerm span x = .ok t ↔ x = .ok t := by
  cases x <;> simp [Checked.ofTerm]

/-- Operands of a product stand for arguments, so they are leaves. -/
theorem Admitted.product (hl : l.Admitted P) (hr : r.Admitted P)
    (ht : lowerProduct l r span = .ok t) : t.Admitted P := by
  unfold lowerProduct at ht
  split at ht
  · cases ht
  · next hargs =>
    simp only [Bool.or_eq_true, not_or, Bool.not_eq_true] at hargs
    obtain ⟨a, rfl⟩ := exists_leaf_of_argument? hl.bare hargs.1
    obtain ⟨b, rfl⟩ := exists_leaf_of_argument? hr.bare hargs.2
    have hleaves : ∀ c ∈ (leaf a).leaves ++ (leaf b).leaves, P c := fun c hc =>
      (List.mem_append.mp hc).elim (hl.leaves c) (hr.leaves c)
    split at ht
    · rw [ofTerm_eq_ok_iff, mkMatMat] at ht
      split at ht
      · next htypes =>
        obtain rfl := Except.ok.inj ht
        refine ⟨⟨trivial, trivial, htypes⟩, by rw [erase, hl.bare, hr.bare], hleaves, ?_, ?_⟩
        · intro m hm
          simp [innerProducts] at hm
        · intro p hp
          obtain rfl : p = matMat (leaf a) (leaf b) := by simpa [matrixProducts] using hp
          exact ⟨a, b, rfl⟩
      · cases ht
    · rw [ofTerm_eq_ok_iff, mkMatVec] at ht
      split at ht
      · next htypes =>
        obtain rfl := Except.ok.inj ht
        refine ⟨⟨trivial, trivial, htypes⟩, by rw [erase, hl.bare, hr.bare], hleaves, ?_, ?_⟩
        · intro m hm
          simp [innerProducts] at hm
        · intro p hp
          obtain rfl : p = matVec (leaf a) (leaf b) := by simpa [matrixProducts] using hp
          exact ⟨a, b, rfl⟩
      · cases ht

theorem Admitted.operator (hl : l.Admitted P) (hr : r.Admitted P) {op : Operator}
    (ht : lowerOperator op l r span = .ok t) : t.Admitted P := by
  cases op with
  | mul =>
    simp only [lowerOperator] at ht
    split at ht
    · exact hl.product hr ht
    · exact hl.binary hr (ofTerm_eq_ok_iff.mp ht)
  | add | sub | div | elemMul | elemDiv => exact hl.binary hr (ofTerm_eq_ok_iff.mp ht)

theorem Admitted.call {args : List Term} (hargs : ∀ s ∈ args, s.Admitted P) {f : Function}
    (ht : lowerCall f args span = .ok t) : t.Admitted P := by
  unfold lowerCall at ht
  split at ht
  · exact (hargs _ (by simp)).unary (ofTerm_eq_ok_iff.mp ht)
  · split at ht
    · cases ht
    · next hcount =>
      exact (hargs _ (by simp)).inner (hargs _ (by simp)) hcount (ofTerm_eq_ok_iff.mp ht)
  · split at ht
    · exact (hargs _ (by simp)).product (hargs _ (by simp)) ht
    · cases ht
  · exact (hargs _ (by simp)).binary (hargs _ (by simp)) (ofTerm_eq_ok_iff.mp ht)
  · exact (hargs _ (by simp)).binary (hargs _ (by simp)) (ofTerm_eq_ok_iff.mp ht)
  · exact (hargs _ (by simp)).binary (hargs _ (by simp)) (ofTerm_eq_ok_iff.mp ht)
  · cases ht

/-- A statement as lowering builds it. -/
structure Assigns (P : Argument → Prop) (tree : Term) (op : BinaryOp) (target : Argument)
    (value : Term) : Prop where
  eq : tree = binary op (leaf target) value
  isAssignment : op.isAssignment = true
  typed : tree.WellTyped
  target_admitted : (leaf target).Admitted P
  value_admitted : value.Admitted P
  products : value.matrixProducts.length ≤ 1
  disjoint : ∀ p ∈ value.matrixProducts, ∀ a b, p.product? = some (leaf a, leaf b) →
    a.handle ≠ target.handle ∧ b.handle ≠ target.handle

theorem Assigns.mono {tree value : Term} {op : BinaryOp} {target : Argument}
    (h : Assigns P tree op target value) (hPQ : ∀ a, P a → Q a) :
    Assigns Q tree op target value :=
  ⟨h.eq, h.isAssignment, h.typed, h.target_admitted.mono hPQ, h.value_admitted.mono hPQ,
    h.products, h.disjoint⟩

/-- The target and the value of a statement are still there once it is bound. -/
theorem Assigns.of_erase {tree value : Term} {op : BinaryOp} {target : Argument}
    (h : Assigns P tree.erase op target value) :
    ∃ target' value', tree = Term.binary op (leaf target') value' ∧ target'.erase = target ∧
      value'.erase = value := by
  have heq := h.eq
  cases tree with
  | binary op' lhs rhs =>
    obtain ⟨rfl, hlhs, hrhs⟩ := Term.binary.inj heq
    cases lhs with
    | leaf target' => exact ⟨target', rhs, rfl, leaf.inj hlhs, hrhs⟩
    | unary | binary | matMat | matVec | inner => simp [erase] at hlhs
  | leaf | unary | matMat | matVec | inner => simp [erase] at heq

theorem disjoint_of_productReads (ht : t.ProductsOutside) {h : Handle}
    (hreads : t.productReads (some h) = false) {p : Term}
    (hp : p ∈ t.matrixProducts) {a b : Argument} (hab : p.product? = some (leaf a, leaf b)) :
    a.handle ≠ h ∧ b.handle ≠ h := by
  rw [← filter_walk_product ht, List.mem_filter] at hp
  have := List.any_eq_false.mp hreads p hp.1
  simpa [hab, handle?, argument?] using this

end Term

/-! ### Declared names -/

/-- No view stands still. -/
def Storage.Strided (s : Storage) : Prop :=
  ∀ v, s = .vector v → 0 < v.stride

namespace TypeSpec

theorem stride_pos_apply {kind : DeclKind} {spec spec' : TypeSpec} {arg : TypeArg}
    (h : 0 < spec.view.stride) (heq : spec.apply kind arg = .ok spec') :
    0 < spec'.view.stride := by
  unfold apply setFlag setParameter at heq
  grind

theorem stride_pos_applyAll (kind : DeclKind) (args : List (Spanned TypeArg)) (spec : TypeSpec)
    (h : 0 < spec.view.stride) : 0 < (spec.applyAll kind args).1.view.stride := by
  induction args generalizing spec with
  | nil => exact h
  | cons arg args ih =>
    rw [applyAll]
    cases heq : spec.apply kind arg.value with
    | ok spec' => exact ih spec' (stride_pos_apply h heq)
    | error fault => exact ih spec h

end TypeSpec

theorem TypeExpr.strided_resolve {settings : Settings} {ty : TypeExpr} {e : ElementType}
    {s : Storage} (h : ty.resolve settings = .ok (e, s)) : s.Strided := by
  rintro v rfl
  have hpos := TypeSpec.stride_pos_applyAll ty.kind ty.args .plain (by decide)
  simp only [resolve] at h
  split at h
  · have hs := congrArg Prod.snd (Except.ok.inj h)
    cases hkind : ty.kind <;> simp only [hkind, TypeSpec.storage, Storage.vector.injEq,
      reduceCtorEq] at hs
    rw [← hs, ← hkind]
    exact hpos
  · cases h

namespace Scope

/-- What the declared names stand for. -/
def arguments (scope : Scope) : List Argument :=
  scope.symbols.map (·.2.argument)

/-- Declared names stand for unbound arguments with buffers of their own. -/
structure Lawful (scope : Scope) : Prop where
  numbered : ∀ a ∈ scope.arguments, ∃ k, a.handle = .buffer k ∧ k < scope.nextKey
  bare : ∀ a ∈ scope.arguments, a.erase = a
  strided : ∀ a ∈ scope.arguments, a.storage.Strided
  distinct : ∀ a ∈ scope.arguments, ∀ b ∈ scope.arguments, a.handle = b.handle → a = b

/-- The names of a scope are declared in a later one as they were. -/
def Extends (scope scope' : Scope) : Prop :=
  ∀ a ∈ scope.arguments, a ∈ scope'.arguments

theorem lawful_empty : Scope.empty.Lawful := by
  constructor <;> intro a ha <;> simp [empty, arguments] at ha

theorem declareName_lawful {scope : Scope} (h : scope.Lawful) {e : ElementType} {s : Storage}
    (hs : s.Strided) (name : Spanned String) :
    (scope.declareName e s name).1.Lawful ∧ scope.Extends (scope.declareName e s name).1 := by
  unfold declareName
  cases scope.find? name.value with
  | some first => exact ⟨h, fun a ha => ha⟩
  | none =>
    have hargs : ∀ a, a ∈ arguments ⟨scope.symbols ++
          [(name.value, ⟨Argument.ofHandle (.buffer scope.nextKey) e s, name.span⟩)],
          scope.nextKey + 1⟩ ↔
        a ∈ scope.arguments ∨ a = Argument.ofHandle (.buffer scope.nextKey) e s := by
      intro a
      simp [arguments]
    have hfresh : ∀ a ∈ scope.arguments, a.handle ≠ .buffer scope.nextKey := by
      intro a ha heq
      obtain ⟨k, hk, hlt⟩ := h.numbered a ha
      have := Handle.buffer.inj (hk.symm.trans heq)
      omega
    refine ⟨⟨?_, ?_, ?_, ?_⟩, fun a ha => (hargs a).mpr (.inl ha)⟩
    · intro a ha
      rcases (hargs a).mp ha with ha | rfl
      · obtain ⟨k, hk, hlt⟩ := h.numbered a ha
        exact ⟨k, hk, Nat.lt_succ_of_lt hlt⟩
      · exact ⟨scope.nextKey, rfl, Nat.lt_succ_self _⟩
    · intro a ha
      rcases (hargs a).mp ha with ha | rfl
      · exact h.bare a ha
      · rfl
    · intro a ha
      rcases (hargs a).mp ha with ha | rfl
      · exact h.strided a ha
      · exact hs
    · intro a ha b hb heq
      rcases (hargs a).mp ha with ha | rfl <;> rcases (hargs b).mp hb with hb | rfl
      · exact h.distinct a ha b hb heq
      · exact absurd heq (hfresh a ha)
      · exact absurd heq.symm (hfresh b hb)
      · rfl

theorem declareNames_lawful {e : ElementType} {s : Storage} (hs : s.Strided)
    (names : List (Spanned String)) (scope : Scope) (h : scope.Lawful) :
    (declareNames e s scope names).1.Lawful ∧ scope.Extends (declareNames e s scope names).1 := by
  induction names generalizing scope with
  | nil => exact ⟨h, fun a ha => ha⟩
  | cons name names ih =>
    obtain ⟨hlawful, hext⟩ := declareName_lawful h hs (e := e) name
    obtain ⟨hlawful', hext'⟩ := ih (scope.declareName e s name).1 hlawful
    exact ⟨hlawful', fun a ha => hext' a (hext a ha)⟩

theorem declare_lawful {scope : Scope} (h : scope.Lawful) (settings : Settings)
    (d : Declaration) :
    (scope.declare settings d).1.Lawful ∧ scope.Extends (scope.declare settings d).1 := by
  unfold declare
  cases hty : d.ty.value.resolve settings with
  | error ds => exact ⟨h, fun a ha => ha⟩
  | ok ty =>
    obtain ⟨e, s⟩ := ty
    exact declareNames_lawful (TypeExpr.strided_resolve hty) d.names scope h

/-- What the buffers of a scope are declared as; other buffers do not matter. -/
def declarations (scope : Scope) : Declarations := fun k =>
  match scope.arguments.find? (·.handle = .buffer k) with
  | some a => (a.element, a.storage)
  | none => (.float, .deviceScalar)

theorem Lawful.declared {scope : Scope} (h : scope.Lawful) {a : Argument}
    (ha : a ∈ scope.arguments) :
    a.Declared scope.declarations := by
  obtain ⟨k, hk, -⟩ := h.numbered a ha
  refine ⟨k, hk, ?_⟩
  unfold declarations
  cases hfind : scope.arguments.find? (·.handle = .buffer k) with
  | none =>
    have := List.find?_eq_none.mp hfind a ha
    simp [hk] at this
  | some b =>
    have hb : b.handle = .buffer k := by simpa using List.find?_some hfind
    rw [h.distinct a ha b (List.mem_of_find?_eq_some hfind) (hk.trans hb.symm)]

theorem Lawful.strided_declarations {scope : Scope} (h : scope.Lawful) (k : Nat) :
    (scope.declarations k).2.Strided := by
  unfold declarations
  cases hfind : scope.arguments.find? (·.handle = .buffer k) with
  | none => exact fun v hv => by cases hv
  | some a => exact h.strided a (List.mem_of_find?_eq_some hfind)

/-! ### Statements -/

theorem lowerName_ok {scope : Scope} {name : String} {span : Span} {t : Term}
    (ht : scope.lowerName name span = .ok t) : ∃ a ∈ scope.arguments, t = .leaf a := by
  unfold lowerName find? at ht
  cases hfind : scope.symbols.lookup name with
  | none => simp [hfind, Checked.fail] at ht
  | some symbol =>
    rw [hfind] at ht
    refine ⟨symbol.argument, ?_, (Except.ok.inj ht).symm⟩
    obtain ⟨before, after, heq, -⟩ := List.lookup_eq_some_iff.mp hfind
    simp [arguments, heq]

theorem lowerName_admitted {scope : Scope} (h : scope.Lawful) {name : String} {span : Span}
    {t : Term} (ht : scope.lowerName name span = .ok t) : t.Admitted (· ∈ scope.arguments) := by
  obtain ⟨a, ha, rfl⟩ := lowerName_ok ht
  exact Term.admitted_leaf ha (h.bare a ha)

mutual

/-- Expressions are lowered to admitted terms over the declared names. -/
theorem lowerExpr_admitted {scope : Scope} (h : scope.Lawful) :
    ∀ (e : Expr) (t : Term), scope.lowerExpr e = .ok t → t.Admitted (· ∈ scope.arguments)
  | .var span name, t, ht => by
    rw [lowerExpr] at ht
    exact lowerName_admitted h ht
  | .neg span operand, t, ht => by
    rw [lowerExpr, Outcome.bind_eq_ok_iff] at ht
    obtain ⟨s, hs, ht⟩ := ht
    exact (lowerExpr_admitted h operand s hs).unary (Term.ofTerm_eq_ok_iff.mp ht)
  | .binary span op lhs rhs, t, ht => by
    rw [lowerExpr, Outcome.bind_eq_ok_iff] at ht
    obtain ⟨⟨l, r⟩, hboth, ht⟩ := ht
    obtain ⟨hl, hr⟩ := Outcome.both_eq_ok_iff.mp hboth
    exact (lowerExpr_admitted h lhs l hl).operator (lowerExpr_admitted h rhs r hr) ht
  | .call span name args, t, ht => by
    rw [lowerExpr] at ht
    split at ht
    · cases ht
    · split at ht
      · cases ht
      · obtain ⟨ts, hts, ht⟩ := Outcome.bind_eq_ok_iff.mp ht
        exact Term.Admitted.call (lowerExprs_admitted h args ts hts) ht
  | .missing span, t, ht => by
    rw [lowerExpr] at ht
    cases ht

theorem lowerExprs_admitted {scope : Scope} (h : scope.Lawful) :
    ∀ (es : List Expr) (ts : List Term), scope.lowerExprs es = .ok ts →
      ∀ t ∈ ts, t.Admitted (· ∈ scope.arguments)
  | [], ts, hts => by
    rw [lowerExprs] at hts
    obtain rfl := Except.ok.inj hts
    intro t ht
    cases ht
  | e :: es, ts, hts => by
    rw [lowerExprs, Outcome.bind_eq_ok_iff] at hts
    obtain ⟨⟨t, rest⟩, hboth, hts⟩ := hts
    obtain ⟨ht, hrest⟩ := Outcome.both_eq_ok_iff.mp hboth
    obtain rfl := Except.ok.inj hts
    intro s hs
    rcases List.mem_cons.mp hs with rfl | hs
    · exact lowerExpr_admitted h e s ht
    · exact lowerExprs_admitted h es rest hrest s hs

end

theorem lowerAssignment_assigns {scope : Scope} (h : scope.Lawful) {a : Assignment}
    {s : Statement} (hs : scope.lowerAssignment a = .ok s) :
    ∃ op target value, Term.Assigns (· ∈ scope.arguments) s.tree op target value := by
  rw [lowerAssignment, Outcome.bind_eq_ok_iff] at hs
  obtain ⟨⟨target, value⟩, hboth, hs⟩ := hs
  obtain ⟨htarget, hvalue⟩ := Outcome.both_eq_ok_iff.mp hboth
  obtain ⟨arg, harg, rfl⟩ := lowerName_ok htarget
  have hadmitted := lowerExpr_admitted h a.value value hvalue
  have hleaf := lowerName_admitted h htarget
  dsimp only at hs hadmitted hleaf
  split at hs
  · cases hs
  · next hcount =>
    split at hs
    · cases hs
    · next hreads =>
      obtain ⟨tree, htree, hs⟩ := Outcome.bind_eq_ok_iff.mp hs
      obtain rfl := Except.ok.inj hs
      have hbuilt := Term.ofTerm_eq_ok_iff.mp htree
      have htyped := (hleaf.binary hadmitted hbuilt).typed
      unfold Term.mkBinary at hbuilt
      split at hbuilt
      · obtain rfl := Except.ok.inj hbuilt
        refine ⟨_, arg, value, rfl, ?_, htyped, hleaf, hadmitted, ?_, ?_⟩
        · cases a.op.value <;> rfl
        · rw [← Term.productCount_eq hadmitted.outside]
          omega
        · intro p hp x y hxy
          exact Term.disjoint_of_productReads hadmitted.outside
            (Bool.not_eq_true _ ▸ hreads) hp hxy
      · cases hbuilt

end Scope

namespace Lowered

/-- All statements so far assign over the names declared so far. -/
structure Lawful (l : Lowered) : Prop where
  scope : l.scope.Lawful
  statements : ∀ s ∈ l.statements, ∃ op target value,
    Term.Assigns (· ∈ l.scope.arguments) s.tree op target value

theorem lawful_empty : Lowered.empty.Lawful :=
  ⟨Scope.lawful_empty, fun s hs => by simp [empty] at hs⟩

theorem Lawful.addItem {l : Lowered} (h : l.Lawful) (settings : Settings) (item : Item) :
    (l.addItem settings item).Lawful := by
  cases item with
  | declaration d =>
    obtain ⟨hscope, hext⟩ := Scope.declare_lawful h.scope settings d
    refine ⟨hscope, fun s hs => ?_⟩
    obtain ⟨op, target, value, hassigns⟩ := h.statements s hs
    exact ⟨op, target, value, hassigns.mono hext⟩
  | assignment a =>
    unfold Lowered.addItem
    cases hs : l.scope.lowerAssignment a with
    | error ds =>
      dsimp only
      rw [hs]
      exact ⟨h.scope, h.statements⟩
    | ok s =>
      dsimp only
      rw [hs]
      refine ⟨h.scope, fun s' hs' => ?_⟩
      rcases List.mem_append.mp hs' with hs' | hs'
      · exact h.statements s' hs'
      · obtain rfl := List.mem_singleton.mp hs'
        exact Scope.lowerAssignment_assigns h.scope hs

theorem Lawful.addItems {l : Lowered} (h : l.Lawful) (settings : Settings) (items : List Item) :
    (items.foldl (Lowered.addItem settings) l).Lawful := by
  induction items generalizing l with
  | nil => exact h
  | cons item items ih => exact ih (h.addItem settings item)

end Lowered

/-- The statement assigns a well-formed expression over the declared buffers. -/
def Statement.Lawful (env : Declarations) (s : Statement) : Prop :=
  ∃ op target value, Term.Assigns (·.Declared env) s.tree op target value

/-- Only the declarations of the leaves matter. -/
theorem Statement.Lawful.redeclare {env env' : Declarations} {s : Statement} (h : s.Lawful env)
    (hleaves : ∀ a ∈ s.tree.leaves, a.Declared env') : s.Lawful env' := by
  obtain ⟨op, target, value, h⟩ := h
  rw [h.eq] at hleaves
  obtain ⟨htarget, hvalue⟩ := List.forall_mem_append.mp hleaves
  exact ⟨op, target, value, h.eq, h.isAssignment, h.typed,
    { h.target_admitted with leaves := htarget }, { h.value_admitted with leaves := hvalue },
    h.products, h.disjoint⟩

/-- The statements of a file are lawful over declarations with positive strides. -/
theorem SourceFile.lower_lawful {settings : Settings} {file : SourceFile}
    {statements : List Statement} (h : file.lower settings = .ok statements) :
    statements ≠ [] ∧ ∃ env : Declarations, (∀ k, (env k).2.Strided) ∧
      ∀ s ∈ statements, s.Lawful env := by
  have hl := Lowered.lawful_empty.addItems settings file.items
  simp only [lower] at h
  split at h
  · cases h
  · split at h
    · cases h
    · next hne =>
      obtain rfl := Except.ok.inj h
      refine ⟨by simpa using hne, _, hl.scope.strided_declarations, fun s hs => ?_⟩
      obtain ⟨op, target, value, hassigns⟩ := hl.statements s hs
      exact ⟨op, target, value, hassigns.mono fun a ha => hl.scope.declared ha⟩

end LinearKernels
