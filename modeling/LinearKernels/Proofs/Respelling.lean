import LinearKernels.Proofs.Acceptance
import LinearKernels.Proofs.CacheRuns
import LinearKernels.Proofs.LoweredFiles

/-!
Spellings do not matter. A file and a respelled one are lowered to the same trees, or both are
complained about: names count only as far as they are the same or not, and spans only in
complaints. Plans, keys and kernels are made from the trees alone, so the programs are the same.
-/

namespace LinearKernels

namespace Checked

variable {α β : Type}

/-- The same value, or complaints on both sides. -/
def Agrees (x y : Checked α) : Prop :=
  x.toOption = y.toOption

theorem agrees_fail (fault fault' : StatementFault) (span span' : Span) :
    Agrees (fail fault span : Checked α) (fail fault' span') :=
  rfl

theorem agrees_ofTerm (span span' : Span) (x : Except Fault Term) :
    Agrees (ofTerm span x) (ofTerm span' x) := by
  cases x <;> rfl

theorem Agrees.cases {x y : Checked α} (h : Agrees x y) :
    (∃ a, x = .ok a ∧ y = .ok a) ∨ ∃ ds es, x = .error ds ∧ y = .error es := by
  cases x with
  | ok a => exact .inl ⟨a, rfl, Outcome.toOption_eq_some_iff.mp h.symm⟩
  | error ds =>
    cases y with
    | ok b => cases h
    | error es => exact .inr ⟨ds, es, rfl, rfl⟩

theorem Agrees.bind {x y : Checked α} (h : Agrees x y) {g g' : α → Checked β}
    (hg : ∀ a, Agrees (g a) (g' a)) :
    Agrees (x >>= g) (y >>= g') := by
  rcases h.cases with ⟨a, rfl, rfl⟩ | ⟨ds, es, rfl, rfl⟩
  · exact hg a
  · rfl

theorem Agrees.both {x x' : Checked α} {y y' : Checked β} (h : Agrees x x') (h' : Agrees y y') :
    Agrees (Checked.both x y) (Checked.both x' y') := by
  rcases h.cases with ⟨a, rfl, rfl⟩ | ⟨ds, es, rfl, rfl⟩
  · rcases h'.cases with ⟨b, rfl, rfl⟩ | ⟨ds, es, rfl, rfl⟩
    · rfl
    · rfl
  · rcases h'.cases with ⟨b, rfl, rfl⟩ | ⟨ds', es', rfl, rfl⟩
    · rfl
    · rfl

end Checked

/-! ### Expressions -/

namespace Term

open Checked

theorem agrees_lowerProduct (l r : Term) (span span' : Span) :
    Agrees (lowerProduct l r span) (lowerProduct l r span') := by
  unfold lowerProduct
  split
  · exact agrees_fail _ _ _ _
  · split
    · exact agrees_ofTerm _ _ _
    · exact agrees_ofTerm _ _ _

theorem agrees_lowerOperator (op : Operator) (l r : Term) (span span' : Span) :
    Agrees (lowerOperator op l r span) (lowerOperator op l r span') := by
  cases op with
  | mul =>
    simp only [lowerOperator]
    split
    · exact agrees_lowerProduct l r span span'
    · exact agrees_ofTerm _ _ _
  | add | sub | div | elemMul | elemDiv => exact agrees_ofTerm _ _ _

theorem agrees_lowerCall (f : Function) (args : List Term) (span span' : Span) :
    Agrees (lowerCall f args span) (lowerCall f args span') := by
  unfold lowerCall
  split
  · exact agrees_ofTerm _ _ _
  · split
    · exact agrees_fail _ _ _ _
    · exact agrees_ofTerm _ _ _
  · split
    · exact agrees_lowerProduct _ _ _ _
    · exact agrees_fail _ _ _ _
  · exact agrees_ofTerm _ _ _
  · exact agrees_ofTerm _ _ _
  · exact agrees_ofTerm _ _ _
  · rfl

end Term

namespace Scope

open Checked

variable {f : String → String} {scope scope' : Scope}

theorem agrees_lowerName {x y : String} (h : scope'.argument? y = scope.argument? x)
    (span span' : Span) :
    Agrees (scope'.lowerName y span') (scope.lowerName x span) := by
  have hname : ∀ (s : Scope) (name : String) (p : Span),
      (s.lowerName name p).toOption = (s.argument? name).map Term.leaf := by
    intro s name p
    unfold lowerName argument?
    cases s.find? name <;> rfl
  rw [Agrees, hname, hname, h]

mutual

/-- The two scopes have to agree on the names that occur only. -/
theorem agrees_lowerExpr : ∀ e : Expr, (∀ x ∈ e.varNames, scope'.argument? (f x) =
      scope.argument? x) → Agrees (scope'.lowerExpr (e.respell f)) (scope.lowerExpr e)
  | .var span name, h => by
    rw [Expr.respell, lowerExpr, lowerExpr]
    exact agrees_lowerName (h name (List.mem_singleton_self name)) _ _
  | .neg span operand, h => by
    rw [Expr.respell, lowerExpr, lowerExpr]
    exact (agrees_lowerExpr operand h).bind fun t => agrees_ofTerm _ _ _
  | .binary span op lhs rhs, h => by
    rw [Expr.respell, lowerExpr, lowerExpr]
    have hl := agrees_lowerExpr lhs fun x hx => h x (List.mem_append_left _ hx)
    have hr := agrees_lowerExpr rhs fun x hx => h x (List.mem_append_right _ hx)
    exact (hl.both hr).bind fun p => Term.agrees_lowerOperator op p.1 p.2 _ _
  | .call span name args, h => by
    have hlength : (Expr.respellAll f args).length = args.length := by
      rw [Expr.respellAll_eq_map, List.length_map]
    rw [Expr.respell, lowerExpr, lowerExpr]
    cases hfunction : Function.ofName? name.value with
    | none =>
      simp only [Spanned.bare, hfunction]
      exact agrees_fail _ _ _ _
    | some g =>
      simp only [Spanned.bare, hfunction, hlength]
      split
      · exact agrees_fail _ _ _ _
      · exact (agrees_lowerExprs args h).bind fun ts => Term.agrees_lowerCall g ts _ _
  | .missing span, h => by
    rw [Expr.respell, lowerExpr, lowerExpr]
    rfl

theorem agrees_lowerExprs : ∀ es : List Expr,
    (∀ x ∈ Expr.varNamesAll es, scope'.argument? (f x) = scope.argument? x) →
    Agrees (scope'.lowerExprs (Expr.respellAll f es)) (scope.lowerExprs es)
  | [], _ => by
    rw [Expr.respellAll, lowerExprs, lowerExprs]
    rfl
  | e :: es, h => by
    rw [Expr.respellAll, lowerExprs, lowerExprs]
    have hfirst := agrees_lowerExpr e fun x hx => h x (List.mem_append_left _ hx)
    have hrest := agrees_lowerExprs es fun x hx => h x (List.mem_append_right _ hx)
    exact (hfirst.both hrest).bind fun p => rfl

end

/-- The statements of an assignment and of the respelled one have the same tree. -/
theorem tree_lowerAssignment {a : Assignment}
    (h : ∀ x ∈ a.varNames, scope'.argument? (f x) = scope.argument? x) :
    (scope'.lowerAssignment (a.respell f)).toOption.map (·.tree) =
      (scope.lowerAssignment a).toOption.map (·.tree) := by
  have htarget := agrees_lowerName (h a.target.value List.mem_cons_self) a.target.span .origin
  have hvalue := agrees_lowerExpr a.value fun x hx => h x (List.mem_cons_of_mem _ hx)
  unfold lowerAssignment
  simp only [Assignment.respell, Spanned.bare]
  rcases (htarget.both hvalue).cases with ⟨p, hp, hp'⟩ | ⟨ds, es, hp, hp'⟩
  · rw [hp, hp', Outcome.ok_bind, Outcome.ok_bind]
    split
    · rfl
    · split
      · rfl
      · cases Term.mkBinary a.op.value.operation p.1 p.2 <;> rfl
  · rw [hp, hp']
    rfl

/-! ### Declarations -/

/-- The scopes number their buffers alike, and the respelled names stand for what the names
stand for. -/
structure Corresponds (f : String → String) (names : List String)
    (scope scope' : Scope) : Prop where
  nextKey : scope'.nextKey = scope.nextKey
  argument? : ∀ x ∈ names, scope'.argument? (f x) = scope.argument? x

theorem argument?_isSome (scope : Scope) (x : String) :
    (scope.argument? x).isSome = (scope.find? x).isSome := by
  rw [Scope.argument?, Option.isSome_map]

variable {names : List String}

theorem Corresponds.declareName (hinj : ∀ x ∈ names, ∀ y ∈ names, f x = f y → x = y)
    (h : scope.Corresponds f names scope') (e : ElementType) (s : Storage) {name : Spanned String}
    (hname : name.value ∈ names) (span : Span) :
    (scope.declareName e s name).1.Corresponds f names
        (scope'.declareName e s ⟨f name.value, span⟩).1 ∧
      ((scope'.declareName e s ⟨f name.value, span⟩).2 = [] ↔
        (scope.declareName e s name).2 = []) := by
  have hfound : (scope'.find? (f name.value)).isSome = (scope.find? name.value).isSome := by
    rw [← argument?_isSome, ← argument?_isSome, h.argument? _ hname]
  unfold Scope.declareName
  cases hfind : scope.find? name.value with
  | some first =>
    obtain ⟨first', hfind'⟩ := Option.isSome_iff_exists.mp (hfound.trans (by rw [hfind]; rfl))
    simp only [hfind']
    exact ⟨h, by simp⟩
  | none =>
    have hfind' : scope'.find? (f name.value) = none := by
      rw [← Option.not_isSome_iff_eq_none, hfound, hfind]
      simp
    simp only [hfind']
    refine ⟨⟨congrArg (· + 1) h.nextKey, fun x hx => ?_⟩, trivial⟩
    rw [argument?_snoc, argument?_snoc, h.argument? x hx, h.nextKey]
    by_cases hxname : x = name.value
    · rw [hxname, if_pos rfl, if_pos rfl]
    · rw [if_neg hxname, if_neg fun heq => hxname (hinj x hx _ hname heq)]

theorem Corresponds.declareNames (hinj : ∀ x ∈ names, ∀ y ∈ names, f x = f y → x = y)
    (e : ElementType) (s : Storage) (xs : List (Spanned String)) (hxs : ∀ x ∈ xs, x.value ∈ names)
    {scope scope' : Scope} (h : scope.Corresponds f names scope') :
    (Scope.declareNames e s scope xs).1.Corresponds f names
        (Scope.declareNames e s scope' (xs.map fun x => ⟨f x.value, .origin⟩)).1 ∧
      ((Scope.declareNames e s scope' (xs.map fun x => ⟨f x.value, .origin⟩)).2 = [] ↔
        (Scope.declareNames e s scope xs).2 = []) := by
  induction xs generalizing scope scope' with
  | nil => exact ⟨h, Iff.rfl⟩
  | cons x xs ih =>
    obtain ⟨hfirst, hclean⟩ := h.declareName hinj e s (hxs x List.mem_cons_self) .origin
    obtain ⟨hrest, hclean'⟩ := ih (fun y hy => hxs y (List.mem_cons_of_mem _ hy)) hfirst
    refine ⟨hrest, ?_⟩
    simp only [List.map_cons, Scope.declareNames, List.append_eq_nil_iff, hclean, hclean']

end Scope

namespace TypeSpec

/-- The spans of type arguments show in complaints only. -/
theorem applyAll_bare (kind : DeclKind) (args : List (Spanned TypeArg)) (spec : TypeSpec) :
    (spec.applyAll kind (args.map (·.bare))).1 = (spec.applyAll kind args).1 ∧
      ((spec.applyAll kind (args.map (·.bare))).2 = [] ↔ (spec.applyAll kind args).2 = []) := by
  induction args generalizing spec with
  | nil => exact ⟨rfl, Iff.rfl⟩
  | cons arg args ih =>
    rw [List.map_cons, applyAll, applyAll]
    simp only [Spanned.bare]
    cases spec.apply kind arg.value with
    | ok spec' => exact ih spec'
    | error fault => exact ⟨(ih spec).1, by simp⟩

end TypeSpec

namespace Scope

variable {f : String → String} {names : List String} {scope scope' : Scope}

theorem Corresponds.declare (hinj : ∀ x ∈ names, ∀ y ∈ names, f x = f y → x = y)
    (h : scope.Corresponds f names scope') (settings : Settings) {d : Declaration}
    (hd : ∀ x ∈ d.names, x.value ∈ names) :
    (scope.declare settings d).1.Corresponds f names (scope'.declare settings (d.respell f)).1 ∧
      ((scope'.declare settings (d.respell f)).2 = [] ↔ (scope.declare settings d).2 = []) := by
  obtain ⟨hspec, hclean⟩ := TypeSpec.applyAll_bare d.ty.value.kind d.ty.value.args .plain
  have hresolve : ∀ ty : TypeExpr, ty.resolve settings =
      if (TypeSpec.plain.applyAll ty.kind ty.args).2.isEmpty then
        .ok ((TypeSpec.plain.applyAll ty.kind ty.args).1.element.getD settings.defaultType,
          (TypeSpec.plain.applyAll ty.kind ty.args).1.storage ty.kind)
      else .error (TypeSpec.plain.applyAll ty.kind ty.args).2 := fun _ => rfl
  simp only [Scope.declare, hresolve, Declaration.respell, List.isEmpty_iff, hspec, hclean]
  by_cases hnil : (TypeSpec.plain.applyAll d.ty.value.kind d.ty.value.args).2 = []
  · simp only [if_pos hnil]
    exact h.declareNames hinj _ _ d.names hd
  · simp only [if_neg hnil]
    exact ⟨h, hclean⟩

end Scope

/-! ### Files -/

namespace Lowered

/-- Both have come equally far. -/
structure Corresponds (f : String → String) (names : List String) (l l' : Lowered) : Prop where
  scope : l.scope.Corresponds f names l'.scope
  trees : l'.statements.map (·.tree) = l.statements.map (·.tree)
  clean : l'.diagnostics = [] ↔ l.diagnostics = []

variable {f : String → String} {names : List String} {l l' : Lowered}

theorem Corresponds.addItem (hinj : ∀ x ∈ names, ∀ y ∈ names, f x = f y → x = y)
    (settings : Settings) (h : l.Corresponds f names l') {item : Item} (hcomplete : item.Complete)
    (hitem : ∀ x ∈ item.varNames, x ∈ names) :
    (l.addItem settings item).Corresponds f names (l'.addItem settings (item.respell f)) := by
  cases item with
  | declaration d =>
    obtain ⟨hscope, hclean⟩ :=
      h.scope.declare hinj settings fun x hx => hitem _ (List.mem_map_of_mem hx)
    refine ⟨hscope, h.trees, ?_⟩
    simp only [Item.respell, Lowered.addItem, List.append_eq_nil_iff, h.clean, hclean]
  | assignment a =>
    have htree := Scope.tree_lowerAssignment fun x hx => h.scope.argument? x (hitem x hx)
    have hreports := l.scope.reports_lowerAssignment hcomplete
    have hreports' := l'.scope.reports_lowerAssignment (a := a.respell f)
      ((a.value.complete_respell f).mpr hcomplete)
    simp only [Item.respell, Lowered.addItem]
    cases hs : l.scope.lowerAssignment a with
    | ok s =>
      rw [hs] at htree
      obtain ⟨s', hs', htree⟩ := Option.map_eq_some_iff.mp htree
      rw [Outcome.toOption_eq_some_iff.mp hs']
      exact ⟨h.scope, by simp [h.trees, htree], h.clean⟩
    | error ds =>
      rw [hs] at htree
      cases hs' : l'.scope.lowerAssignment (a.respell f) with
      | ok s' =>
        rw [hs'] at htree
        cases htree
      | error ds' =>
        rw [hs] at hreports
        rw [hs'] at hreports'
        have hne : ds ≠ [] := fun hnil => hreports (congrArg Except.error hnil)
        have hne' : ds' ≠ [] := fun hnil => hreports' (congrArg Except.error hnil)
        exact ⟨h.scope, h.trees, by simp [hne, hne']⟩

theorem Corresponds.addItems (hinj : ∀ x ∈ names, ∀ y ∈ names, f x = f y → x = y)
    (settings : Settings) (items : List Item) (h : l.Corresponds f names l')
    (hcomplete : ∀ item ∈ items, item.Complete)
    (hitems : ∀ item ∈ items, ∀ x ∈ item.varNames, x ∈ names) :
    (items.foldl (Lowered.addItem settings) l).Corresponds f names
      ((items.map (·.respell f)).foldl (Lowered.addItem settings) l') := by
  induction items generalizing l l' with
  | nil => exact h
  | cons item items ih =>
    have hfirst :=
      h.addItem hinj settings (hcomplete item List.mem_cons_self) (hitems item List.mem_cons_self)
    exact ih hfirst (fun i hi => hcomplete i (List.mem_cons_of_mem _ hi))
      fun i hi => hitems i (List.mem_cons_of_mem _ hi)

end Lowered

namespace SourceFile

/-- The trees of the statements of a file. -/
def trees? (settings : Settings) (file : SourceFile) : Option (List Term) :=
  (file.lower settings).toOption.map (·.map (·.tree))

theorem trees?_eq (settings : Settings) (file : SourceFile) :
    file.trees? settings =
      if (file.items.foldl (Lowered.addItem settings) .empty).diagnostics = [] ∧
          (file.items.foldl (Lowered.addItem settings) .empty).statements.map (·.tree) ≠ [] then
        some ((file.items.foldl (Lowered.addItem settings) .empty).statements.map (·.tree))
      else none := by
  simp only [trees?, lower]
  generalize file.items.foldl (Lowered.addItem settings) .empty = l
  by_cases hclean : l.diagnostics = []
  · by_cases hnone : l.statements = []
    · simp [hclean, hnone, Except.toOption]
    · simp [hclean, hnone, Except.toOption]
  · simp [hclean, Except.toOption]

/-- A respelled file is lowered to the same trees, if it is lowered at all. -/
theorem trees?_respell (settings : Settings) {f : String → String}
    {file : SourceFile} (hcomplete : file.Complete)
    (hinj : ∀ x ∈ file.varNames, ∀ y ∈ file.varNames, f x = f y → x = y) :
    (file.respell f).trees? settings = file.trees? settings := by
  have hempty : Lowered.empty.Corresponds f file.varNames .empty :=
    ⟨⟨rfl, fun _ _ => rfl⟩, rfl, Iff.rfl⟩
  have hend := hempty.addItems hinj settings file.items hcomplete fun item hitem x hx =>
    List.mem_flatMap.mpr ⟨item, hitem, hx⟩
  simp only [trees?_eq, respell, hend.clean, hend.trees]

end SourceFile

/-! ### Plans -/

/-- All handles stay. -/
def Renaming.refl : Renaming :=
  ⟨id, fun _ _ h => h⟩

theorem Handle.rename_refl (h : Handle) : h.rename .refl = h := by
  cases h <;> rfl

theorem Argument.rename_refl (a : Argument) : a.rename .refl = a := by
  rw [rename, a.handle.rename_refl]

theorem Term.rename_refl (t : Term) : t.rename .refl = t := by
  induction t with
  | leaf arg => rw [rename, arg.rename_refl]
  | unary op sub ih => rw [rename, ih]
  | binary op lhs rhs ihl ihr | matMat lhs rhs ihl ihr | matVec lhs rhs ihl ihr =>
    rw [rename, ihl, ihr]
  | inner lhs rhs computed temporary ihl ihr =>
    rw [rename, ihl, ihr]
    cases temporary with
    | none => rfl
    | some cell => rw [Option.map_some, cell.rename_refl]

theorem Registry.rename_refl (reg : Registry) : reg.rename .refl = reg := by
  have hrecord : ∀ r : Record, r.rename .refl = r :=
    fun r => by rw [Record.rename, r.handle.rename_refl]
  rw [rename, List.map_congr_left fun r _ => hrecord r, List.map_id']

theorem Draft.rename_refl (d : Draft) : d.rename .refl = d := by
  have hreads : ∀ r : Reduction, r.rename .refl = r := by
    intro r
    rw [Reduction.rename, List.map_congr_left fun h _ => h.rename_refl, List.map_id']
  rw [rename, Context.rename, d.context.registry.rename_refl,
    List.map_congr_left fun r _ => hreads r, List.map_id']

theorem map_tree_rename_refl (statements : List Statement) :
    statements.map (·.tree.rename .refl) = statements.map (·.tree) :=
  List.map_congr_left fun s _ => s.tree.rename_refl

/-- The plans are the same but for the spans of their statements. -/
structure Plan.SameTrees (plan plan' : Plan) : Prop where
  trees : plan'.statements.map (·.tree) = plan.statements.map (·.tree)
  passes : plan'.passes = plan.passes
  context : plan'.context = plan.context

namespace Plan.SameTrees

variable {plan plan' : Plan} (h : plan.SameTrees plan')

include h

theorem renames : plan.Renames .refl plan' where
  trees := by rw [h.trees, map_tree_rename_refl]
  passes := h.passes
  registry := by rw [registry, registry, h.context, Registry.rename_refl]

theorem keys_eq : plan'.keys = plan.keys := by
  rw [plan'.keys_eq, plan.keys_eq, h.trees, registry, registry, h.context]

theorem parameterOrder_eq (pass : Pass) :
    plan'.parameterOrder pass = plan.parameterOrder pass := by
  have hterms : ∀ ts : List Term, ts.map (·.rename .refl) = ts := by
    intro ts
    rw [List.map_congr_left fun t _ => t.rename_refl, List.map_id']
  have hsources : plan'.sources pass = plan.sources pass := by
    rw [h.renames.sources_eq]
    cases plan.sources pass with
    | error e => rfl
    | ok sources => rw [Outcome.map_ok, renameSources, hterms, hterms]
  rw [parameterOrder, parameterOrder, arguments_eq, arguments_eq, hsources]

theorem widen {alignment : Alignment} {wide : Plan} (hwide : plan.widen alignment = .ok wide) :
    ∃ wide', plan'.widen alignment = .ok wide' ∧ wide.SameTrees wide' := by
  have hleaves : plan'.vectorLeaves = plan.vectorLeaves := by
    rw [plan'.vectorLeaves_eq, plan.vectorLeaves_eq, h.trees]
  have hwidenable : plan'.isWidenable = plan.isWidenable := by
    rw [isWidenable, isWidenable, h.passes, hleaves]
  unfold Plan.widen at hwide ⊢
  rw [hwidenable, hleaves, registry, h.context, ← registry]
  by_cases hplain : (decide (alignment = .one) || !plan.isWidenable) = true
  · rw [if_pos hplain] at hwide ⊢
    obtain rfl := Except.ok.inj hwide
    exact ⟨plan', rfl, h⟩
  · rw [if_neg hplain] at hwide ⊢
    obtain ⟨reg, hreg, hwide⟩ := Outcome.bind_eq_ok_iff.mp hwide
    obtain rfl := Except.ok.inj hwide
    rw [hreg, Outcome.ok_bind]
    exact ⟨_, rfl, ⟨h.trees, h.passes, rfl⟩⟩

end Plan.SameTrees

/-- Statements with the same trees are planned alike. -/
theorem schedule_of_trees {settings : Settings} {statements statements' : List Statement}
    {plan : Plan} (htrees : statements'.map (·.tree) = statements.map (·.tree))
    (h : schedule settings statements = .ok plan) :
    ∃ plan', schedule settings statements' = .ok plan' ∧ plan.SameTrees plan' := by
  obtain ⟨⟨⟩, hlocal, h⟩ := Outcome.bind_eq_ok_iff.mp h
  obtain ⟨⟨bound, d⟩, hbound, h⟩ := Outcome.bind_eq_ok_iff.mp h
  rw [← map_tree_rename_refl statements] at htrees
  obtain ⟨bound', hbound', htrees'⟩ := Draft.addStatements_rename htrees hbound
  rw [Draft.rename_refl, Draft.rename_refl] at hbound'
  rw [map_tree_rename_refl] at htrees'
  have hsame : Plan.SameTrees ⟨bound, d.passes, d.context⟩ ⟨bound', d.passes, d.context⟩ :=
    ⟨htrees', rfl, rfl⟩
  obtain ⟨plan', hwide, hplan'⟩ := hsame.widen h
  refine ⟨plan', ?_, hplan'⟩
  simp only [schedule, hlocal, hbound', Outcome.ok_bind]
  exact hwide

/-- Sources with the same trees are planned alike. -/
theorem planSource_of_trees {options : Options} {source source' : String}
    {file file' : SourceFile} {plan : Plan} (hfile : parseSource 0 source = .ok file)
    (hfile' : parseSource 0 source' = .ok file')
    (htrees : file'.trees? options.settings = file.trees? options.settings)
    (h : planSource options source = .ok plan) :
    ∃ plan', planSource options source' = .ok plan' ∧ plan.SameTrees plan' := by
  obtain ⟨parsed, statements, hparsed, hlower, hcheck, hschedule⟩ := planSource_eq_ok_iff.mp h
  obtain rfl : file = parsed := Except.ok.inj (hfile.symm.trans hparsed)
  have hlowered : file.trees? options.settings = some (statements.map (·.tree)) := by
    rw [SourceFile.trees?, hlower]
    rfl
  obtain ⟨statements', hlower', hsame⟩ := Option.map_eq_some_iff.mp (htrees.trans hlowered)
  obtain ⟨plan', hschedule', hplan⟩ := schedule_of_trees hsame hschedule
  refine ⟨plan', planSource_eq_ok_iff.mpr ⟨file', statements', hfile', ?_, ?_, hschedule'⟩, hplan⟩
  · exact Outcome.toOption_eq_some_iff.mp hlower'
  · rw [Device.check_eq_ok_iff, hsame]
    exact Device.check_eq_ok_iff.mp hcheck

/-! ### Programs -/

/-- The keys of the statements of a program. -/
theorem Plan.toProgram_statements {plan : Plan} {settings : Settings}
    {name : String} {program : Program} {keys shortKeys : List String}
    (h : plan.toProgram settings name = .ok program) (hkeys : plan.keys = .ok keys)
    (hshort : plan.shortKeys = .ok shortKeys) :
    program.statements.map (fun s => (s.key, s.shortKey)) =
      ((plan.statements.map (·.tree)).zip (keys.zip shortKeys)).map (·.2) := by
  obtain ⟨listing, -, -, hemit, -⟩ := toProgram_eq_ok h
  simp only [toProgram, hemit, hkeys, hshort, Outcome.ok_bind, Outcome.pure_eq_ok,
    Checked.ofFault] at h
  obtain rfl := Except.ok.inj h
  rw [List.zip_map_left, List.map_map, List.map_map]
  rfl

/-- The programs are the same but for the spans of their statements. -/
structure Program.SameTexts (p q : Program) : Prop where
  name : p.name = q.name
  key : p.key = q.key
  shortKey : p.shortKey = q.shortKey
  source : p.source = q.source
  kernels : p.kernels = q.kernels
  statements : p.statements.map (fun s => (s.key, s.shortKey)) = q.statements.map fun s =>
    (s.key, s.shortKey)

theorem Compiles.sameTexts {options : Options} {source source' : String} {plan plan' : Plan}
    {p q : Program} (h : Compiles options source plan p) (h' : Compiles options source' plan' q)
    (hs : plan.SameTrees plan') :
    p.SameTexts q := by
  obtain ⟨listing, keys, shortKeys, -, hkeys, hshort, -, hpkey, hpshort, -⟩ :=
    Plan.toProgram_eq_ok h.made
  obtain ⟨listing', keys', shortKeys', -, hkeys', hshort', -, hqkey, hqshort, -⟩ :=
    Plan.toProgram_eq_ok h'.made
  obtain rfl : keys = keys' := Except.ok.inj (hkeys.symm.trans (hs.keys_eq.symm.trans hkeys'))
  obtain rfl : shortKeys = shortKeys' :=
    Except.ok.inj (hshort.symm.trans (hs.renames.shortKeys_eq.symm.trans hshort'))
  have hkey : p.key = q.key := hpkey.trans hqkey.symm
  have hname : p.name = q.name := by rw [h.name_eq, h'.name_eq, hkey]
  obtain ⟨hsource, hkernels⟩ := (h.reorders h' hname hkey rfl).2.mpr fun pass _ =>
    (hs.parameterOrder_eq pass).symm
  refine ⟨hname, hkey, hpshort.trans hqshort.symm, hsource, hkernels, ?_⟩
  rw [Plan.toProgram_statements h.made hkeys hshort,
    Plan.toProgram_statements h'.made hkeys' hshort', hs.trees]

theorem complete_of_parseSource {source : String} {file : SourceFile}
    (h : parseSource 0 source = .ok file) :
    file.Complete := by
  simp only [parseSource] at h
  split at h
  · obtain ⟨parts, hparts, -⟩ := derives_of_parseTokens h
    exact SourceFile.complete_respell.mp hparts.complete
  · cases h

/-- Names and formatting do not matter. Sources that are read as the same file but for spans and
the spelling of variables are both compiled or neither is, and the programs are the same but for
the spans of their statements. -/
theorem compile_respelled (options : Options) {source source' : String} {file file' : SourceFile}
    {f : String → String} (hfile : parseSource 0 source = .ok file)
    (hfile' : parseSource 0 source' = .ok file')
    (hinj : ∀ x ∈ file.varNames, ∀ y ∈ file.varNames, f x = f y → x = y)
    (hsame : file'.bare = file.respell f) :
    ((∃ p, compile options source = .ok p) ↔ ∃ q, compile options source' = .ok q) ∧
      ∀ p q, compile options source = .ok p → compile options source' = .ok q →
        p.SameTexts q := by
  have htrees : file'.trees? options.settings = file.trees? options.settings := by
    rw [← SourceFile.trees?_respell _ (complete_of_parseSource hfile) hinj, ← hsame]
    exact (SourceFile.trees?_respell _
      (complete_of_parseSource hfile') fun x _ y _ hxy => hxy).symm
  refine ⟨⟨?_, ?_⟩, ?_⟩
  · rintro ⟨p, hp⟩
    obtain ⟨plan, hplan⟩ := compiles_of_compile_eq hp
    obtain ⟨plan', hplan', -⟩ := planSource_of_trees hfile hfile' htrees hplan.planned
    obtain ⟨q, hq⟩ := exists_compiles hplan'
    exact ⟨q, hq.compile_eq⟩
  · rintro ⟨q, hq⟩
    obtain ⟨plan', hplan'⟩ := compiles_of_compile_eq hq
    obtain ⟨plan, hplan, -⟩ := planSource_of_trees hfile' hfile htrees.symm hplan'.planned
    obtain ⟨p, hp⟩ := exists_compiles hplan
    exact ⟨p, hp.compile_eq⟩
  · intro p q hp hq
    obtain ⟨plan, hplan⟩ := compiles_of_compile_eq hp
    obtain ⟨plan', hplan'⟩ := compiles_of_compile_eq hq
    obtain ⟨plan₁, hplan₁, hplans⟩ := planSource_of_trees hfile hfile' htrees hplan.planned
    obtain rfl : plan' = plan₁ := Except.ok.inj (hplan'.planned.symm.trans hplan₁)
    exact hplan.sameTexts hplan' hplans

def projectionSource : String :=
  "vector x, y; scalar s; s = dot(x, y); x += s * y;"

/-- `x` and `y` are exchanged, `s` has a longer name, and there are lines, a comment, a last comma
and brackets. -/
def swappedSource : String :=
  "vector y, x;\nscalar total;\ntotal = dot(y, x,); // of both\ny += (total * x);"

def swappedTree : SourceFile :=
  let x : Expr := .var .origin "x"
  let y : Expr := .var .origin "y"
  ⟨[.declaration ⟨⟨⟨.vector, []⟩, .origin⟩, [⟨"y", .origin⟩, ⟨"x", .origin⟩]⟩,
    .declaration ⟨⟨⟨.scalar, []⟩, .origin⟩, [⟨"total", .origin⟩]⟩,
    .assignment ⟨⟨"total", .origin⟩, ⟨.assign, .origin⟩, .call .origin ⟨"dot", .origin⟩ [y, x]⟩,
    .assignment ⟨⟨"y", .origin⟩, ⟨.addAssign, .origin⟩,
      .binary .origin .mul (.var .origin "total") x⟩]⟩

def swapNames (name : String) : String :=
  if name = "x" then "y" else if name = "y" then "x" else if name = "s" then "total" else name

theorem compile_respelled_swapped :
    ∃ file file' p q, parseSource 0 projectionSource = .ok file ∧ parseSource 0 swappedSource =
      .ok file' ∧ (∀ x ∈ file.varNames, ∀ y ∈ file.varNames, swapNames x = swapNames y → x = y) ∧
      file'.bare = file.respell swapNames ∧
      compile .standard projectionSource = .ok p ∧ compile .standard swappedSource = .ok q ∧
      p.SameTexts q := by
  obtain ⟨file, hfile, hvalues⟩ := Outcome.exists_ok_of_map (x := parseSource 0 projectionSource)
    (f := fun file => (file.varNames, file.respell swapNames))
    (b := (["x", "y", "s", "s", "x", "y", "x", "s", "y"], swappedTree)) (by decide +kernel)
  obtain ⟨file', hfile', hbare⟩ := Outcome.exists_ok_of_map (x := parseSource 0 swappedSource)
    (f := SourceFile.bare) (b := swappedTree) (by decide +kernel)
  obtain ⟨hnames, htree⟩ := Prod.mk.inj hvalues
  have hinj : ∀ x ∈ file.varNames, ∀ y ∈ file.varNames, swapNames x = swapNames y → x = y := by
    rw [hnames]
    decide +kernel
  have hsame : file'.bare = file.respell swapNames := hbare.trans htree.symm
  obtain ⟨hiff, htexts⟩ := compile_respelled .standard hfile hfile' hinj hsame
  obtain ⟨plan, hplan, -⟩ := Outcome.exists_ok_of_map (x := planSource .standard projectionSource)
    (f := fun plan => plan.statements.length) (b := 2) (by decide +kernel)
  obtain ⟨p, hp⟩ := exists_compiles hplan
  obtain ⟨q, hq⟩ := hiff.mp ⟨p, hp.compile_eq⟩
  exact ⟨file, file', p, q, hfile, hfile', hinj, hsame, hp.compile_eq, hq,
    htexts p q hp.compile_eq hq⟩

end LinearKernels
