import LinearKernels.Proofs.Signatures
import LinearKernels.Proofs.Spelling

/-!
What becomes of a file. If a file in which nothing is missing is lowered at all, each of its
assignments becomes one statement, in order; a failure never goes without a complaint. The
leaves of a statement are the variables of its assignment, from left to right, and a name
stands for one buffer in the whole file, stored as it was declared.
-/

namespace LinearKernels

/-! ### Failures come with complaints -/

namespace Checked

variable {α β : Type}

/-- If there is no value, there is something to complain about. -/
def Reports (x : Checked α) : Prop :=
  x ≠ .error []

theorem reports_ok (a : α) : Reports (.ok a : Checked α) := by
  simp [Reports]

theorem reports_fail (fault : StatementFault) (span : Span) :
    Reports (fail fault span : Checked α) := by
  simp [Reports, fail]

theorem reports_ofTerm (span : Span) (x : Except Fault Term) : Reports (ofTerm span x) := by
  cases x <;> simp [Reports, ofTerm]

theorem Reports.both {x : Checked α} {y : Checked β} (hx : Reports x) (hy : Reports y) :
    Reports (Checked.both x y) := by
  cases x with
  | ok a => cases y <;> simp_all [Reports, Checked.both]
  | error ds => cases y <;> simp_all [Reports, Checked.both]

theorem Reports.bind {x : Checked α} {f : α → Checked β} (hx : Reports x)
    (hf : ∀ a, x = .ok a → Reports (f a)) : Reports (x >>= f) := by
  cases x with
  | ok a => exact hf a rfl
  | error ds =>
    intro h
    exact hx (congrArg Except.error (Except.error.inj h))

end Checked

namespace Term

open Checked

theorem reports_lowerProduct (l r : Term) (span : Span) : Reports (lowerProduct l r span) := by
  unfold lowerProduct
  split
  · exact reports_fail _ _
  · split
    · exact reports_ofTerm _ _
    · exact reports_ofTerm _ _

theorem reports_lowerOperator (op : Operator) (l r : Term) (span : Span) :
    Reports (lowerOperator op l r span) := by
  cases op with
  | mul =>
    simp only [lowerOperator]
    split
    · exact reports_lowerProduct l r span
    · exact reports_ofTerm _ _
  | add | sub | div | elemMul | elemDiv => exact reports_ofTerm _ _

/-- A call with the right number of arguments. -/
theorem reports_lowerCall {f : Function} {args : List Term}
    (h : args.length = f.arity) (span : Span) :
    Reports (lowerCall f args span) := by
  unfold lowerCall
  split
  · exact reports_ofTerm _ _
  · split
    · exact reports_fail _ _
    · exact reports_ofTerm _ _
  · split
    · exact reports_lowerProduct _ _ _
    · exact reports_fail _ _
  · exact reports_ofTerm _ _
  · exact reports_ofTerm _ _
  · exact reports_ofTerm _ _
  · next hunary hdot hprod hpow hmax hmin =>
    exfalso
    cases f with
    | unary op =>
      obtain ⟨t, rfl⟩ := List.length_eq_one_iff.mp h
      exact hunary op t rfl rfl
    | dot =>
      obtain ⟨l, r, rfl⟩ := List.length_eq_two.mp h
      exact hdot l r rfl rfl
    | prod =>
      obtain ⟨l, r, rfl⟩ := List.length_eq_two.mp h
      exact hprod l r rfl rfl
    | pow =>
      obtain ⟨l, r, rfl⟩ := List.length_eq_two.mp h
      exact hpow l r rfl rfl
    | max =>
      obtain ⟨l, r, rfl⟩ := List.length_eq_two.mp h
      exact hmax l r rfl rfl
    | min =>
      obtain ⟨l, r, rfl⟩ := List.length_eq_two.mp h
      exact hmin l r rfl rfl

end Term

namespace Scope

open Checked

theorem reports_lowerName (scope : Scope) (name : String) (span : Span) :
    Reports (scope.lowerName name span) := by
  unfold lowerName
  split
  · exact reports_ok _
  · exact reports_fail _ _

theorem length_lowerExprs {scope : Scope} {es : List Expr} {ts : List Term}
    (h : scope.lowerExprs es = .ok ts) :
    ts.length = es.length := by
  induction es generalizing ts with
  | nil =>
    rw [lowerExprs] at h
    obtain rfl := Except.ok.inj h
    rfl
  | cons e es ih =>
    rw [lowerExprs, Outcome.bind_eq_ok_iff] at h
    obtain ⟨⟨t, rest⟩, hboth, hts⟩ := h
    rw [← Except.ok.inj hts, List.length_cons, List.length_cons,
      ih (Outcome.both_eq_ok_iff.mp hboth).2]

mutual

theorem reports_lowerExpr (scope : Scope) : ∀ e : Expr, e.Complete → Reports (scope.lowerExpr e)
  | .var span name, _ => by
    rw [lowerExpr]
    exact scope.reports_lowerName name span
  | .neg span operand, h => by
    rw [lowerExpr]
    exact (reports_lowerExpr scope operand h).bind fun t _ => reports_ofTerm _ _
  | .binary span op lhs rhs, h => by
    rw [lowerExpr]
    exact ((reports_lowerExpr scope lhs h.1).both (reports_lowerExpr scope rhs h.2)).bind
      fun p _ => Term.reports_lowerOperator op p.1 p.2 span
  | .call span name args, h => by
    rw [lowerExpr]
    split
    · exact reports_fail _ _
    · next f _ =>
      by_cases harity : args.length = f.arity
      · rw [if_neg (not_not_intro harity)]
        refine (reports_lowerExprs scope args h).bind fun ts hts => ?_
        exact Term.reports_lowerCall ((length_lowerExprs hts).trans harity) span
      · rw [if_pos harity]
        exact reports_fail _ _
  | .missing _, h => h.elim

theorem reports_lowerExprs (scope : Scope) :
    ∀ es : List Expr, Expr.CompleteAll es → Reports (scope.lowerExprs es)
  | [], _ => by
    rw [lowerExprs]
    exact reports_ok _
  | e :: es, h => by
    rw [lowerExprs]
    exact ((reports_lowerExpr scope e h.1).both (reports_lowerExprs scope es h.2)).bind fun p _ =>
      reports_ok _

end

theorem reports_lowerAssignment (scope : Scope) {a : Assignment} (h : a.value.Complete) :
    Reports (scope.lowerAssignment a) := by
  unfold lowerAssignment
  have hboth := (scope.reports_lowerName a.target.value a.target.span).both
    (scope.reports_lowerExpr a.value h)
  refine hboth.bind fun p _ => ?_
  dsimp only
  split
  · exact reports_fail _ _
  · split
    · exact reports_fail _ _
    · exact (reports_ofTerm _ _).bind fun t _ => reports_ok _

end Scope

/-! ### Assignments inside a term -/

namespace Term

/-- No operation in the term writes. -/
def AssignmentFree : Term → Prop
  | leaf _ => True
  | unary _ sub => sub.AssignmentFree
  | binary op lhs rhs => op.isAssignment = false ∧ lhs.AssignmentFree ∧ rhs.AssignmentFree
  | matMat lhs rhs | matVec lhs rhs | inner lhs rhs _ _ => lhs.AssignmentFree ∧ rhs.AssignmentFree

/-- The term is put together from `parts`: it has their leaves, and writes nothing itself. -/
structure Assembles (t : Term) (parts : List Term) : Prop where
  leaves : t.leaves = parts.flatMap (·.leaves)
  assignmentFree : (∀ s ∈ parts, s.AssignmentFree) → t.AssignmentFree

variable {l r t : Term} {span : Span}

theorem assembles_mkUnary {op : UnaryOp} (h : mkUnary op l = .ok t) : t.Assembles [l] := by
  obtain ⟨-, rfl⟩ := mkUnary_eq_ok_iff.mp h
  exact ⟨by simp [Term.leaves], fun hs => hs l (by simp)⟩

theorem assembles_mkBinary {op : BinaryOp} (hop : op.isAssignment = false)
    (h : mkBinary op l r = .ok t) :
    t.Assembles [l, r] := by
  obtain ⟨-, rfl⟩ := mkBinary_eq_ok_iff.mp h
  exact ⟨by simp [Term.leaves], fun hs => ⟨hop, hs l (by simp), hs r (by simp)⟩⟩

theorem assembles_mkInner (h : mkInner l r = .ok t) : t.Assembles [l, r] := by
  obtain ⟨-, rfl⟩ := mkInner_eq_ok_iff.mp h
  exact ⟨by simp [Term.leaves], fun hs => ⟨hs l (by simp), hs r (by simp)⟩⟩

theorem assembles_lowerProduct (h : lowerProduct l r span = .ok t) : t.Assembles [l, r] := by
  unfold lowerProduct at h
  split at h
  · cases h
  · split at h
    · obtain ⟨-, rfl⟩ := mkMatMat_eq_ok_iff.mp (ofTerm_eq_ok_iff.mp h)
      exact ⟨by simp [Term.leaves], fun hs => ⟨hs l (by simp), hs r (by simp)⟩⟩
    · obtain ⟨-, rfl⟩ := mkMatVec_eq_ok_iff.mp (ofTerm_eq_ok_iff.mp h)
      exact ⟨by simp [Term.leaves], fun hs => ⟨hs l (by simp), hs r (by simp)⟩⟩

theorem assembles_lowerOperator {op : Operator} (h : lowerOperator op l r span = .ok t) :
    t.Assembles [l, r] := by
  cases op with
  | mul =>
    simp only [lowerOperator] at h
    split at h
    · exact assembles_lowerProduct h
    · exact assembles_mkBinary rfl (ofTerm_eq_ok_iff.mp h)
  | add | sub | div | elemMul | elemDiv => exact assembles_mkBinary rfl (ofTerm_eq_ok_iff.mp h)

theorem assembles_lowerCall {f : Function} {args : List Term}
    (h : lowerCall f args span = .ok t) :
    t.Assembles args := by
  unfold lowerCall at h
  split at h
  · exact assembles_mkUnary (ofTerm_eq_ok_iff.mp h)
  · split at h
    · cases h
    · exact assembles_mkInner (ofTerm_eq_ok_iff.mp h)
  · split at h
    · exact assembles_lowerProduct h
    · cases h
  · exact assembles_mkBinary rfl (ofTerm_eq_ok_iff.mp h)
  · exact assembles_mkBinary rfl (ofTerm_eq_ok_iff.mp h)
  · exact assembles_mkBinary rfl (ofTerm_eq_ok_iff.mp h)
  · cases h

/-- A well-typed term has one element type. -/
theorem WellTyped.element_leaves (h : t.WellTyped) : ∀ a ∈ t.leaves, a.element = t.element := by
  induction t with
  | leaf arg =>
    intro a ha
    rw [List.mem_singleton.mp ha, element]
  | unary op sub ih => exact ih h.1
  | binary op lhs rhs ihl ihr =>
    intro a ha
    rcases List.mem_append.mp ha with ha | ha
    · exact ihl h.1 a ha
    · exact (ihr h.2.1 a ha).trans h.2.2.1.symm
  | matMat lhs rhs ihl ihr | matVec lhs rhs ihl ihr | inner lhs rhs computed temporary ihl ihr =>
    intro a ha
    rcases List.mem_append.mp ha with ha | ha
    · exact ihl h.1 a ha
    · exact (ihr h.2.1 a ha).trans h.2.2.2.2.symm

theorem assignmentFree_erase (t : Term) : t.erase.AssignmentFree ↔ t.AssignmentFree := by
  induction t with
  | leaf arg => exact Iff.rfl
  | unary op sub ih => exact ih
  | binary op lhs rhs ihl ihr => exact and_congr_right' (and_congr ihl ihr)
  | matMat lhs rhs ihl ihr | matVec lhs rhs ihl ihr | inner lhs rhs computed temporary ihl ihr =>
    exact and_congr ihl ihr

theorem AssignmentFree.of_mem_innerProducts (h : t.AssignmentFree) {m : Term}
    (hm : m ∈ t.innerProducts) :
    m.AssignmentFree := by
  induction t with
  | leaf arg => cases hm
  | unary op sub ih => exact ih h hm
  | binary op lhs rhs ihl ihr => exact (List.mem_append.mp hm).elim (ihl h.2.1) (ihr h.2.2)
  | matMat lhs rhs ihl ihr | matVec lhs rhs ihl ihr =>
    exact (List.mem_append.mp hm).elim (ihl h.1) (ihr h.2)
  | inner lhs rhs computed temporary ihl ihr =>
    simp only [innerProducts, List.mem_append, List.mem_singleton] at hm
    rcases hm with (hm | hm) | rfl
    · exact ihl h.1 hm
    · exact ihr h.2 hm
    · exact h

/-- The shape in which statements are scheduled. -/
structure Schedulable (tree : Term) (op : BinaryOp) (target : Argument)
    (value : Term) : Prop where
  eq : tree = binary op (leaf target) value
  isAssignment : op.isAssignment = true
  writeable : target.storage.isWriteable = true
  assignmentFree : value.AssignmentFree
  element : ∀ a ∈ tree.leaves, a.element = target.element
  products : tree.matrixProducts.length ≤ 1
  operands : ∀ p ∈ tree.matrixProducts, ∃ a b, p.product? = some (leaf a, leaf b) ∧
    a.handle ≠ target.handle ∧ b.handle ≠ target.handle
  outside : ∀ m ∈ tree.innerProducts, m.matrixProducts = []

theorem Assigns.schedulable {P : Argument → Prop} {tree value : Term} {op : BinaryOp}
    {target : Argument} (h : Assigns P tree op target value) (hfree : value.AssignmentFree) :
    tree.Schedulable op target value := by
  obtain rfl := h.eq
  have hwriteable : (leaf target).isWriteable = true := by
    have hop := h.isAssignment
    have haccepts := h.typed.2.2.2
    cases op <;> simp_all [accepts, BinaryOp.isAssignment]
  refine ⟨rfl, h.isAssignment, hwriteable, hfree, h.typed.element_leaves, ?_, ?_, ?_⟩
  · simpa [matrixProducts] using h.products
  · intro p hp
    have hp : p ∈ value.matrixProducts := by simpa [matrixProducts] using hp
    obtain ⟨a, b, hab⟩ := h.value_admitted.operands p hp
    exact ⟨a, b, hab, h.disjoint p hp a b hab⟩
  · intro m hm
    exact h.value_admitted.outside m (by simpa [innerProducts] using hm)

end Term

/-! ### Names and leaves -/

namespace Scope

/-- What a name stands for. -/
def argument? (scope : Scope) (name : String) : Option Argument :=
  (scope.find? name).map (·.argument)

/-- What is found in the scope is found in the later one. -/
def Within (scope scope' : Scope) : Prop :=
  ∀ name symbol, scope.find? name = some symbol → scope'.find? name = some symbol

theorem Within.argument? {scope scope' : Scope} (h : scope.Within scope') {name : String}
    {a : Argument} (ha : scope.argument? name = some a) : scope'.argument? name = some a := by
  obtain ⟨symbol, hfind, rfl⟩ := Option.map_eq_some_iff.mp ha
  rw [Scope.argument?, h name symbol hfind, Option.map_some]

/-- Different names have different buffers. -/
theorem InOrder.name_eq {scope : Scope} (h : scope.InOrder) {x y : String} {a b : Argument}
    (ha : scope.argument? x = some a) (hb : scope.argument? y = some b)
    (heq : a.handle = b.handle) : x = y := by
  have hat : ∀ {name : String} {c : Argument}, scope.argument? name = some c →
      ∃ k, (scope.symbols.map (·.1))[k]? = some name ∧ c.handle = .buffer (k + 1) := by
    intro name c hc
    obtain ⟨symbol, hfind, rfl⟩ := Option.map_eq_some_iff.mp hc
    obtain ⟨before, after, hsymbols, -⟩ := List.lookup_eq_some_iff.mp hfind
    refine ⟨before.length, by simp [hsymbols], ?_⟩
    have hk := congrArg (·[before.length]?) h.handles
    simpa [arguments, hsymbols] using hk
  obtain ⟨k, hx, hk⟩ := hat ha
  obtain ⟨k', hy, hk'⟩ := hat hb
  obtain rfl : k = k' := by
    have := Handle.buffer.inj (hk.symm.trans (heq.trans hk'))
    omega
  exact Option.some.inj (hx.symm.trans hy)

theorem lowerName_argument? {scope : Scope} {name : String} {span : Span} {t : Term}
    (h : scope.lowerName name span = .ok t) :
    ∃ a, scope.argument? name = some a ∧ t = .leaf a := by
  unfold lowerName at h
  split at h
  · next symbol hfind =>
    exact ⟨symbol.argument, by rw [argument?, hfind, Option.map_some], (Except.ok.inj h).symm⟩
  · cases h

/-- The leaves of the term are what the variables of the expression stand for. -/
structure Reads (scope : Scope) (names : List String) (ts : List Term) : Prop where
  leaves : List.Forall₂ (fun name a => scope.argument? name = some a) names
    (ts.flatMap (·.leaves))
  assignmentFree : ∀ t ∈ ts, t.AssignmentFree

theorem Reads.join {scope : Scope} {names : List String} {parts : List Term} {t : Term}
    (h : scope.Reads names parts) (ht : t.Assembles parts) : scope.Reads names [t] where
  leaves := by
    rw [List.flatMap_singleton, ht.leaves]
    exact h.leaves
  assignmentFree s hs := List.mem_singleton.mp hs ▸ ht.assignmentFree h.assignmentFree

theorem Reads.append {scope : Scope} {names names' : List String} {ts ts' : List Term}
    (h : scope.Reads names ts) (h' : scope.Reads names' ts') :
    scope.Reads (names ++ names') (ts ++ ts') where
  leaves := by
    rw [List.flatMap_append]
    exact List.rel_append h.leaves h'.leaves
  assignmentFree t ht := (List.mem_append.mp ht).elim (h.assignmentFree t) (h'.assignmentFree t)

mutual

theorem lowerExpr_reads {scope : Scope} :
    ∀ (e : Expr) (t : Term), scope.lowerExpr e = .ok t → scope.Reads e.varNames [t]
  | .var span name, t, ht => by
    rw [lowerExpr] at ht
    obtain ⟨a, ha, rfl⟩ := lowerName_argument? ht
    exact ⟨.cons ha .nil, fun s hs => List.mem_singleton.mp hs ▸ trivial⟩
  | .neg span operand, t, ht => by
    rw [lowerExpr, Outcome.bind_eq_ok_iff] at ht
    obtain ⟨s, hs, ht⟩ := ht
    exact (lowerExpr_reads operand s hs).join
      (Term.assembles_mkUnary (Term.ofTerm_eq_ok_iff.mp ht))
  | .binary span op lhs rhs, t, ht => by
    rw [lowerExpr, Outcome.bind_eq_ok_iff] at ht
    obtain ⟨⟨l, r⟩, hboth, ht⟩ := ht
    obtain ⟨hl, hr⟩ := Outcome.both_eq_ok_iff.mp hboth
    exact ((lowerExpr_reads lhs l hl).append (lowerExpr_reads rhs r hr)).join
      (Term.assembles_lowerOperator ht)
  | .call span name args, t, ht => by
    rw [lowerExpr] at ht
    split at ht
    · cases ht
    · split at ht
      · cases ht
      · obtain ⟨ts, hts, ht⟩ := Outcome.bind_eq_ok_iff.mp ht
        exact (lowerExprs_reads args ts hts).join (Term.assembles_lowerCall ht)
  | .missing span, t, ht => by
    rw [lowerExpr] at ht
    cases ht

theorem lowerExprs_reads {scope : Scope} :
    ∀ (es : List Expr) (ts : List Term), scope.lowerExprs es = .ok ts →
      scope.Reads (Expr.varNamesAll es) ts
  | [], ts, hts => by
    rw [lowerExprs] at hts
    obtain rfl := Except.ok.inj hts
    exact ⟨.nil, fun t ht => by cases ht⟩
  | e :: es, ts, hts => by
    rw [lowerExprs, Outcome.bind_eq_ok_iff] at hts
    obtain ⟨⟨t, rest⟩, hboth, hts⟩ := hts
    obtain ⟨ht, hrest⟩ := Outcome.both_eq_ok_iff.mp hboth
    obtain rfl := Except.ok.inj hts
    exact (lowerExpr_reads e t ht).append (lowerExprs_reads es rest hrest)

end

/-- The statement is what the assignment says, over the names of the scope. -/
structure Renders (scope : Scope) (a : Assignment) (s : Statement) : Prop where
  span : s.span = a.target.span.merge a.value.span
  leaves : List.Forall₂ (fun name x => scope.argument? name = some x) a.varNames s.tree.leaves
  schedulable : ∃ target value, s.tree.Schedulable a.op.value.operation target value

theorem Renders.within {scope scope' : Scope} (hwithin : scope.Within scope') {a : Assignment}
    {s : Statement} (h : scope.Renders a s) : scope'.Renders a s :=
  ⟨h.span, h.leaves.imp fun _ _ hx => hwithin.argument? hx, h.schedulable⟩

theorem lowerAssignment_renders {scope : Scope} (h : scope.Lawful) {a : Assignment}
    {s : Statement} (hs : scope.lowerAssignment a = .ok s) : scope.Renders a s := by
  obtain ⟨op, target', value', hassigns⟩ := lowerAssignment_assigns h hs
  rw [lowerAssignment, Outcome.bind_eq_ok_iff] at hs
  obtain ⟨⟨target, value⟩, hboth, hs⟩ := hs
  obtain ⟨htarget, hvalue⟩ := Outcome.both_eq_ok_iff.mp hboth
  obtain ⟨arg, harg, rfl⟩ := lowerName_argument? htarget
  have hreads := lowerExpr_reads a.value value hvalue
  dsimp only at hs hreads
  split at hs
  · cases hs
  · split at hs
    · cases hs
    · obtain ⟨tree, htree, hs⟩ := Outcome.bind_eq_ok_iff.mp hs
      obtain rfl := Except.ok.inj hs
      obtain ⟨-, rfl⟩ := Term.mkBinary_eq_ok_iff.mp (Term.ofTerm_eq_ok_iff.mp htree)
      obtain ⟨rfl, hleaf, rfl⟩ := Term.binary.inj hassigns.eq
      refine ⟨rfl, ?_, target', value, hassigns.schedulable
        (hreads.assignmentFree value (by simp))⟩
      exact .cons harg (by simpa using hreads.leaves)

theorem argument?_snoc (scope : Scope) (name x : String) (symbol : Symbol) (key : Nat) :
    argument? ⟨scope.symbols ++ [(name, symbol)], key⟩ x =
      (scope.argument? x).or (if x = name then some symbol.argument else none) := by
  rw [argument?, argument?, find?, find?, List.lookup_append]
  by_cases heq : x = name
  · subst x
    rw [List.lookup_cons_self, if_pos rfl]
    cases scope.symbols.lookup name <;> rfl
  · have hkey : (x == name) = false := beq_eq_false_iff_ne.mpr heq
    rw [List.lookup_cons, hkey, if_neg heq]
    cases scope.symbols.lookup x <;> rfl

/-- The later scope declares `names` besides, all stored alike. -/
structure Adds (scope scope' : Scope) (names : List String) (e : ElementType)
    (s : Storage) : Prop where
  within : scope.Within scope'
  added : ∀ name a, scope'.argument? name = some a →
    scope.argument? name = some a ∨ name ∈ names ∧ a.element = e ∧ a.storage = s

theorem adds_refl (scope : Scope) (names : List String) (e : ElementType) (s : Storage) :
    scope.Adds scope names e s :=
  ⟨fun _ _ h => h, fun _ _ h => .inl h⟩

theorem adds_declareName (scope : Scope) (e : ElementType) (s : Storage) (name : Spanned String) :
    scope.Adds (scope.declareName e s name).1 [name.value] e s := by
  unfold declareName
  cases hfind : scope.find? name.value with
  | some first => exact scope.adds_refl _ e s
  | none =>
    constructor
    · intro x symbol hx
      rw [find?, List.lookup_append, ← find?, hx, Option.some_or]
    · intro x a ha
      rw [argument?_snoc] at ha
      rcases Option.or_eq_some_iff.mp ha with ha | ⟨-, ha⟩
      · exact .inl ha
      · split at ha
        · next heq =>
          obtain rfl := Option.some.inj ha
          exact .inr ⟨List.mem_singleton.mpr heq, rfl, rfl⟩
        · cases ha

theorem adds_declareNames (e : ElementType) (s : Storage)
    (names : List (Spanned String)) (scope : Scope) :
    scope.Adds (declareNames e s scope names).1 (names.map (·.value)) e s := by
  induction names generalizing scope with
  | nil => exact scope.adds_refl _ e s
  | cons name names ih =>
    have hfirst := scope.adds_declareName e s name
    have hrest := ih (scope.declareName e s name).1
    refine ⟨fun x symbol hx => hrest.within x symbol (hfirst.within x symbol hx),
      fun x a ha => ?_⟩
    rcases hrest.added x a ha with ha | ⟨hx, ha⟩
    · rcases hfirst.added x a ha with ha | ⟨hx, ha⟩
      · exact .inl ha
      · exact .inr ⟨List.mem_cons.mpr (.inl (List.mem_singleton.mp hx)), ha⟩
    · exact .inr ⟨List.mem_cons_of_mem _ hx, ha⟩

end Scope

/-! ### Whole files -/

/-- The items declare the name, stored as the argument is. -/
def Item.Declare (settings : Settings) (items : List Item) (name : String)
    (a : Argument) : Prop :=
  ∃ d, Item.declaration d ∈ items ∧ name ∈ d.names.map (·.value) ∧
    d.ty.value.resolve settings = .ok (a.element, a.storage)

namespace Lowered

/-- The items have been lowered without complaint: each assignment is rendered over the
names declared so far. -/
structure Faithful (settings : Settings) (items : List Item) (l : Lowered) : Prop where
  lawful : l.scope.Lawful
  inOrder : l.scope.InOrder
  declared : ∀ name a, l.scope.argument? name = some a → Item.Declare settings items name a
  statements : List.Forall₂ l.scope.Renders (SourceFile.mk items).assignments l.statements

theorem Faithful.declare {settings : Settings} {items : List Item}
    {l : Lowered} (h : l.Faithful settings items) (d : Declaration) :
    (l.addItem settings (.declaration d)).Faithful settings (items ++ [.declaration d]) := by
  have hadds : l.scope.Within (l.scope.declare settings d).1 ∧
      ∀ name a, (l.scope.declare settings d).1.argument? name = some a →
        l.scope.argument? name = some a ∨
          name ∈ d.names.map (·.value) ∧
          d.ty.value.resolve settings = .ok (a.element, a.storage) := by
    unfold Scope.declare
    cases hty : d.ty.value.resolve settings with
    | error ds => exact ⟨fun _ _ hx => hx, fun _ _ ha => .inl ha⟩
    | ok ty =>
      have hnames := Scope.adds_declareNames ty.1 ty.2 d.names l.scope
      refine ⟨hnames.within, fun name a ha => (hnames.added name a ha).imp_right ?_⟩
      rintro ⟨hname, he, hs⟩
      exact ⟨hname, by rw [he, hs]⟩
  refine ⟨(Scope.declare_lawful h.lawful settings d).1, h.inOrder.declare settings d, ?_, ?_⟩
  · intro name a ha
    rcases hadds.2 name a ha with ha | ⟨hname, hty⟩
    · obtain ⟨d', hd', hname⟩ := h.declared name a ha
      exact ⟨d', List.mem_append_left _ hd', hname⟩
    · exact ⟨d, by simp, hname, hty⟩
  · have hitems : (SourceFile.mk (items ++ [.declaration d])).assignments =
        (SourceFile.mk items).assignments := by
      simp [SourceFile.assignments]
    rw [hitems]
    exact h.statements.imp fun a s hs => hs.within hadds.1

/-- An assignment that is not rendered is complained about. -/
theorem Faithful.assign {settings : Settings} {items : List Item}
    {l : Lowered} (h : l.Faithful settings items) {a : Assignment} (ha : a.value.Complete)
    (hds : (l.addItem settings (.assignment a)).diagnostics = []) :
    (l.addItem settings (.assignment a)).Faithful settings (items ++ [.assignment a]) := by
  cases hs : l.scope.lowerAssignment a with
  | error ds =>
    have hne : ds ≠ [] := fun hnil => l.scope.reports_lowerAssignment ha (hnil ▸ hs)
    simp only [Lowered.addItem, hs, List.append_eq_nil_iff] at hds
    exact absurd hds.2 hne
  | ok s =>
    have hadd : l.addItem settings (.assignment a) =
        { l with statements := l.statements ++ [s] } := by
      simp only [Lowered.addItem, hs]
    have hitems : (SourceFile.mk (items ++ [.assignment a])).assignments =
        (SourceFile.mk items).assignments ++ [a] := by
      simp [SourceFile.assignments]
    rw [hadd]
    refine ⟨h.lawful, h.inOrder, fun name b hb => ?_, ?_⟩
    · obtain ⟨d, hd, hname⟩ := h.declared name b hb
      exact ⟨d, List.mem_append_left _ hd, hname⟩
    · rw [hitems]
      exact List.rel_append h.statements (.cons (Scope.lowerAssignment_renders h.lawful hs) .nil)

theorem diagnostics_addItem (settings : Settings) (l : Lowered) (item : Item) :
    l.diagnostics <+: (l.addItem settings item).diagnostics := by
  cases item with
  | declaration d => exact List.prefix_append _ _
  | assignment a =>
    simp only [addItem]
    split
    · exact List.prefix_rfl
    · exact List.prefix_append _ _

theorem diagnostics_addItems (settings : Settings) (items : List Item) (l : Lowered) :
    l.diagnostics <+: (items.foldl (addItem settings) l).diagnostics := by
  induction items generalizing l with
  | nil => exact List.prefix_rfl
  | cons item items ih =>
    exact (l.diagnostics_addItem settings item).trans (ih (l.addItem settings item))

/-- No complaint at the end means none on the way. -/
theorem Faithful.addItems {settings : Settings} (items : List Item) {before : List Item}
    {l : Lowered} (h : l.Faithful settings before) (hitems : ∀ item ∈ items, item.Complete)
    (hds : (items.foldl (Lowered.addItem settings) l).diagnostics = []) :
    (items.foldl (Lowered.addItem settings) l).Faithful settings (before ++ items) := by
  induction items generalizing before l with
  | nil => rwa [List.append_nil]
  | cons item items ih =>
    have hnone : (l.addItem settings item).diagnostics = [] :=
      List.prefix_nil.mp (hds ▸ diagnostics_addItems settings items (l.addItem settings item))
    have hfirst : (l.addItem settings item).Faithful settings (before ++ [item]) := by
      cases item with
      | declaration d => exact h.declare d
      | assignment a => exact h.assign (hitems _ List.mem_cons_self) hnone
    have hrest := ih hfirst (fun i hi => hitems i (List.mem_cons_of_mem _ hi)) hds
    rwa [List.append_assoc, List.singleton_append] at hrest

end Lowered

theorem Lowered.schedulable_addItem {settings : Settings} {l : Lowered} (hscope : l.scope.Lawful)
    (h : ∀ s ∈ l.statements, ∃ op target value, s.tree.Schedulable op target value)
    (item : Item) :
    ∀ s ∈ (l.addItem settings item).statements, ∃ op target value,
      s.tree.Schedulable op target value := by
  cases item with
  | declaration d => exact h
  | assignment a =>
    simp only [addItem]
    split
    · next s hs =>
      refine List.forall_mem_append.mpr ⟨h, fun s' hs' => ?_⟩
      obtain rfl := List.mem_singleton.mp hs'
      obtain ⟨target, value, hschedulable⟩ :=
        (Scope.lowerAssignment_renders hscope hs).schedulable
      exact ⟨_, target, value, hschedulable⟩
    · exact h

/-- All that is lowered can be scheduled, also in a file with gaps. -/
theorem SourceFile.lower_schedulable {settings : Settings} {file : SourceFile}
    {statements : List Statement} (h : file.lower settings = .ok statements) :
    ∀ s ∈ statements, ∃ op target value, s.tree.Schedulable op target value := by
  have hitems : ∀ (items : List Item) (l : Lowered), l.Lawful →
      (∀ s ∈ l.statements, ∃ op target value, s.tree.Schedulable op target value) →
      ∀ s ∈ (items.foldl (Lowered.addItem settings) l).statements,
        ∃ op target value, s.tree.Schedulable op target value := by
    intro items
    induction items with
    | nil => exact fun l _ hl => hl
    | cons item items ih =>
      exact fun l hlawful hl => ih _ (hlawful.addItem settings item)
        (Lowered.schedulable_addItem hlawful.scope hl item)
  simp only [lower] at h
  split at h
  · cases h
  · split at h
    · cases h
    · obtain rfl := Except.ok.inj h
      exact hitems file.items .empty Lowered.lawful_empty fun s hs => by
        simp [Lowered.empty] at hs

end LinearKernels
