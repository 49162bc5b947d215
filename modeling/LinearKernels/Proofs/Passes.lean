import LinearKernels.Compile
import LinearKernels.Proofs.Planning

/-!
What the passes of a plan hold. Every reduction pass computes the inner product it names,
and every other pass runs statements of its own kind, more than one only if the kind is
fusable; everything a pass reads has a name for it. Planning lawful statements succeeds for
every valid work-group size, and all plans are of this form.
-/

namespace LinearKernels

namespace Draft

/-- The `n`th inner product of statement `c`, as far as it has been visited. -/
def productAt (done : List Statement) (seen : List Term) (c n : Nat) : Option Term :=
  (done.map (·.tree.innerProducts) ++ [seen])[c]?.bind (·[n]?)

section Products

variable {done : List Statement} {seen : List Term} {c n : Nat} {m x : Term}

theorem productAt_visit (h : productAt done seen c n = some x) :
    productAt done (seen ++ [m]) c n = some x := by
  unfold productAt at h ⊢
  obtain ⟨ms, hms, hx⟩ := Option.bind_eq_some_iff.mp h
  rcases Registry.getElem?_snoc hms with hms | ⟨rfl, rfl⟩
  · rw [List.getElem?_append_left (List.getElem?_eq_some_iff.mp hms).1, hms]
    exact hx
  · rw [List.getElem?_concat_length, Option.bind_some,
      List.getElem?_append_left (List.getElem?_eq_some_iff.mp hx).1]
    exact hx

theorem productAt_close {statement : Statement}
    (h : productAt done statement.tree.innerProducts c n = some x) :
    productAt (done ++ [statement]) [] c n = some x := by
  unfold productAt at h ⊢
  obtain ⟨ms, hms, hx⟩ := Option.bind_eq_some_iff.mp h
  rw [List.map_append, List.map_singleton,
    List.getElem?_append_left (List.getElem?_eq_some_iff.mp hms).1]
  exact Option.bind_eq_some_iff.mpr ⟨ms, hms, hx⟩

theorem productAt_last (done : List Statement) (seen : List Term) (m : Term) :
    productAt done (seen ++ [m]) done.length seen.length = some m := by
  have hlength : (done.map (·.tree.innerProducts)).length = done.length := List.length_map ..
  rw [productAt, ← hlength, List.getElem?_concat_length, Option.bind_some,
    List.getElem?_concat_length]

theorem productAt_done {statement : Statement} (hc : done[c]? = some statement) :
    productAt done seen c n = statement.tree.innerProducts[n]? := by
  unfold productAt
  rw [List.getElem?_append_left (by simpa using (List.getElem?_eq_some_iff.mp hc).1),
    List.getElem?_map, hc]
  rfl

/-- A visited inner product is one of a planned statement or of the next one. -/
theorem mem_of_productAt (h : productAt done seen c n = some x) :
    (∃ statement, done[c]? = some statement ∧ x ∈ statement.tree.innerProducts) ∨
      c = done.length ∧ x ∈ seen := by
  unfold productAt at h
  obtain ⟨ms, hms, hx⟩ := Option.bind_eq_some_iff.mp h
  rcases Registry.getElem?_snoc hms with hms | ⟨hc, rfl⟩
  · rw [List.getElem?_map] at hms
    obtain ⟨statement, hstatement, rfl⟩ := Option.map_eq_some_iff.mp hms
    exact .inl ⟨statement, hstatement, List.mem_of_getElem? hx⟩
  · exact .inr ⟨by simpa using hc, List.mem_of_getElem? hx⟩

end Products

/-- Pass `p` computes a visited inner product, or runs planned statements of its kind. -/
inductive PassOf (done : List Statement) (seen : List Term) (reg : Registry)
    (p : Nat) : Pass → Prop
  | reduction {c n : Nat} {m : Term} (product : productAt done seen c n = some m)
      (computed : m.computed? = some p) (named : m.NamedIn reg p) :
      PassOf done seen reg p ⟨p, .reduction, [c], some n⟩
  | body {kind : PassKind} {statements : List Nat} (kind_ne : kind ≠ .reduction)
      (nonempty : statements ≠ []) (single : kind.isFusable = false → statements.length = 1)
      (planned : ∀ s ∈ statements, ∃ statement, done[s]? = some statement ∧
        PassKind.ofTree statement.tree = kind ∧ statement.tree.NamedIn reg p) :
      PassOf done seen reg p ⟨p, kind, statements, none⟩

theorem PassOf.mono {done done' : List Statement} {seen seen' : List Term} {reg reg' : Registry}
    {p : Nat} {pass : Pass} (h : PassOf done seen reg p pass) (hk : reg.Keeps reg')
    (hproducts : ∀ c n m, productAt done seen c n = some m → productAt done' seen' c n = some m)
    (hdone : ∀ (s : Nat) (statement : Statement), done[s]? = some statement →
      done'[s]? = some statement) : PassOf done' seen' reg' p pass := by
  cases h with
  | reduction product computed named =>
    exact .reduction (hproducts _ _ _ product) computed (named.keeps hk)
  | body kind_ne nonempty single planned =>
    refine .body kind_ne nonempty single fun s hs => ?_
    obtain ⟨statement, hstatement, hkind, hnamed⟩ := planned s hs
    exact ⟨statement, hdone s statement hstatement, hkind, hnamed.keeps hk⟩

theorem ofTree_ne_reduction (tree : Term) : PassKind.ofTree tree ≠ .reduction := by
  unfold PassKind.ofTree
  split
  · simp
  · split
    · simp
    · cases tree.shape <;> simp

theorem modify_concat {α : Type} (xs : List α) (x : α) (f : α → α) :
    (xs ++ [x]).modify xs.length f = xs ++ [f x] := by
  induction xs with
  | nil => rfl
  | cons y ys ih => simp [ih]

/-- A statement is appended to the last pass, or opens a pass. -/
theorem place_cases {d placed : Draft} {s p : Nat} {kind : PassKind}
    (h : d.place s kind = (p, placed)) :
    (∃ before pass, d.passes = before ++ [pass] ∧ p = before.length ∧ d.opened = some p ∧
      pass.kind = kind ∧
      placed.passes = before ++ [{ pass with statements := pass.statements ++ [s] }]) ∨
    (p = d.passes.length ∧ placed.passes = d.passes ++ [⟨p, kind, [s], none⟩]) := by
  unfold place at h
  cases hopened : d.opened.filter (d.canJoin kind) with
  | none =>
    rw [hopened] at h
    obtain ⟨rfl, rfl⟩ := Prod.mk.inj h
    exact .inr ⟨rfl, rfl⟩
  | some q =>
    rw [hopened] at h
    obtain ⟨rfl, rfl⟩ := Prod.mk.inj h
    obtain ⟨hq, hjoin⟩ := Option.filter_eq_some_iff.mp hopened
    simp only [canJoin, Bool.and_eq_true, decide_eq_true_eq, Option.any_eq_true] at hjoin
    obtain ⟨hlast, pass, hpass, hkind⟩ := hjoin
    have hlt : q < d.passes.length := by omega
    obtain ⟨before, hbefore, rfl⟩ : ∃ before, d.passes = before ++ [pass] ∧
        before.length = q := by
      refine ⟨d.passes.take q, ?_, by rw [List.length_take]; omega⟩
      have hdrop : d.passes.drop q = [pass] := by
        rw [List.getElem?_eq_getElem hlt] at hpass
        rw [List.drop_eq_getElem_cons hlt, List.drop_of_length_le (by omega),
          Option.some.inj hpass]
      rw [← hdrop, List.take_append_drop]
    refine .inl ⟨before, pass, hbefore, rfl, hq, hkind, ?_⟩
    dsimp only
    rw [hbefore, modify_concat]

theorem place_opened {d placed : Draft} {s p : Nat} {kind : PassKind}
    (h : d.place s kind = (p, placed)) :
    placed.opened = if kind.isFusable then some p else none := by
  unfold place at h
  split at h <;> obtain ⟨rfl, rfl⟩ := Prod.mk.inj h <;> rfl

end Draft

/-- The inner product is bound, and has its pass and its temporary. -/
def Term.Visited (env : Declarations) (ctx : Context) (m : Term) : Prop :=
  m.WellTyped ∧ m.BoundIn env ctx ∧ ∃ l r pass cell, m = .inner l r (some pass) (some cell)

theorem Term.Visited.grows {env : Declarations} {ctx ctx' : Context} {m : Term}
    (h : m.Visited env ctx) (hg : ctx.Grows ctx') : m.Visited env ctx' :=
  ⟨h.1, h.2.1.grows hg, h.2.2⟩

/-- The temporary of an inner product is the one that was claimed for its key. -/
theorem Term.Visited.temporary {env : Declarations} {ctx : Context} {m : Term}
    (h : m.Visited env ctx) :
    ∃ i key, m.handle? = some (.temporary i) ∧ ctx.temporaries.keys[i]? = some key ∧
      m.key ctx.registry = .ok key := by
  obtain ⟨-, hbound, lhs, rhs, p, cell, rfl⟩ := h
  obtain ⟨-, -, cell', hcell, i, key, hhandle, hkeys, hkey, -⟩ := hbound
  obtain rfl := Option.some.inj hcell
  exact ⟨i, key, congrArg some hhandle, hkeys, hkey⟩

/-- The statement is bound, and all its inner products have been visited. -/
structure Statement.Planned (env : Declarations) (ctx : Context)
    (statement : Statement) : Prop where
  lawful : ∃ op target value, Term.Assigns (·.Declared env) statement.tree.erase op target value
  bound : statement.tree.BoundIn env ctx
  products : ∀ m ∈ statement.tree.innerProducts, m.Visited env ctx

theorem Statement.Planned.grows {env : Declarations} {ctx ctx' : Context} {statement : Statement}
    (h : statement.Planned env ctx) (hg : ctx.Grows ctx') : statement.Planned env ctx' :=
  ⟨h.lawful, h.bound.grows hg, fun m hm => (h.products m hm).grows hg⟩

namespace Draft

/-- What holds of a draft, of the statements planned so far and of the inner products
visited so far. -/
structure Lawful (env : Declarations) (done : List Statement) (seen : List Term)
    (d : Draft) : Prop where
  visited : ∀ m ∈ seen, m.Visited env d.context
  planned : ∀ statement ∈ done, statement.Planned env d.context
  passes : ∀ (p : Nat) (pass : Pass), d.passes[p]? = some pass →
    PassOf done seen d.context.registry p pass
  opened : ∀ p, d.opened = some p → ∃ pass, d.passes[p]? = some pass ∧ pass.kind.isFusable = true

variable {env : Declarations} {done : List Statement} {seen : List Term} {d d' : Draft}

theorem lawful_empty : Draft.empty.Lawful env [] [] := by
  constructor
  · intro m hm
    cases hm
  · intro statement hs
    cases hs
  · intro p pass hp
    simp [empty] at hp
  · intro p hp
    cases hp

theorem Visit.visited {s n : Nat} {m : Term} (h : Visit env s n d m d') :
    m.Visited env d'.context := by
  cases h with
  | reuse prepared _ => exact ⟨prepared.typed, prepared.bound, _, _, _, _, rfl⟩
  | reduce prepared _ => exact ⟨prepared.typed, prepared.bound, _, _, _, _, rfl⟩

/-- Passes keep their form when one more inner product has been visited. -/
theorem Lawful.passes_visit (h : d.Lawful env done seen) {reg : Registry}
    (hg : d.context.registry.Grows reg) (m : Term) {p : Nat} {pass : Pass}
    (hp : d.passes[p]? = some pass) : PassOf done (seen ++ [m]) reg p pass :=
  (h.passes p pass hp).mono hg.keeps (fun _ _ _ => productAt_visit) fun _ _ h => h

theorem Lawful.visit (h : d.Lawful env done seen) {m : Term}
    (hvisit : Visit env done.length seen.length d m d') : d'.Lawful env done (seen ++ [m]) := by
  have hgrows := hvisit.context.1
  have hvisited : ∀ x ∈ seen ++ [m], x.Visited env d'.context := by
    intro x hx
    rcases List.mem_append.mp hx with hx | hx
    · exact (h.visited x hx).grows hgrows
    · obtain rfl := List.mem_singleton.mp hx
      exact hvisit.visited
  have hplanned : ∀ statement ∈ done, statement.Planned env d'.context := fun statement hs =>
    (h.planned statement hs).grows hgrows
  cases hvisit with
  | reuse prepared _ =>
    exact ⟨hvisited, hplanned, fun p pass hp =>
      h.passes_visit prepared.grows.registry _ hp, h.opened⟩
  | @reduce l r cell ctx key prepared _ =>
    refine ⟨hvisited, hplanned, fun p pass hp => ?_, fun p hopened => ?_⟩
    · rcases Registry.getElem?_snoc hp with hp | ⟨rfl, rfl⟩
      · exact h.passes_visit prepared.grows.registry _ hp
      · exact .reduction (productAt_last done seen _) rfl prepared.named
    · obtain ⟨pass, hpass, hfusable⟩ := h.opened p hopened
      refine ⟨pass, ?_, hfusable⟩
      rw [reduced, List.getElem?_append_left (List.getElem?_eq_some_iff.mp hpass).1]
      exact hpass

/-- Placing a statement keeps the passes in form: it joins a pass of its own, fusable kind
or gets a new pass. -/
theorem Lawful.passes_place {statement : Statement}
    (h : d.Lawful env done statement.tree.innerProducts) {p : Nat} {placed : Draft}
    {ctx : Context} (hcloses : Closes env done.length statement.tree d p placed ctx)
    {q : Nat} {pass : Pass} (hq : placed.passes[q]? = some pass) :
    PassOf (done ++ [statement]) [] ctx.registry q pass := by
  have hold : ∀ (q : Nat) (pass : Pass), d.passes[q]? = some pass →
      PassOf (done ++ [statement]) [] ctx.registry q pass := fun q pass hq =>
    (h.passes q pass hq).mono hcloses.grows.registry.keeps (fun _ _ _ => productAt_close)
      fun s x hx => by rw [List.getElem?_append_left (List.getElem?_eq_some_iff.mp hx).1, hx]
  have hnew : ∃ x, (done ++ [statement])[done.length]? = some x ∧
      PassKind.ofTree x.tree = PassKind.ofTree statement.tree ∧ x.tree.NamedIn ctx.registry p :=
    ⟨statement, List.getElem?_concat_length, rfl, hcloses.named⟩
  rcases place_cases hcloses.place with ⟨before, last, hbefore, rfl, hopened, hkind,
    hplaced⟩ | ⟨rfl, hplaced⟩
  · rw [hplaced] at hq
    rcases Registry.getElem?_snoc hq with hq | ⟨rfl, rfl⟩
    · refine hold q pass ?_
      rw [hbefore, List.getElem?_append_left (List.getElem?_eq_some_iff.mp hq).1, hq]
    · have hlast : d.passes[before.length]? = some last := by
        rw [hbefore, List.getElem?_concat_length]
      obtain ⟨last', hlast', hfusable⟩ := h.opened before.length hopened
      obtain rfl : last = last' := Option.some.inj (hlast.symm.trans hlast')
      cases hold before.length last hlast with
      | reduction => simp [PassKind.isFusable] at hfusable
      | body kind_ne nonempty single planned =>
        dsimp only at hkind hfusable ⊢
        subst hkind
        refine .body kind_ne (by simp)
          (fun hnot => by rw [hfusable] at hnot; cases hnot) fun s hs => ?_
        rcases List.mem_append.mp hs with hs | hs
        · exact planned s hs
        · obtain rfl := List.mem_singleton.mp hs
          exact hnew
  · rw [hplaced] at hq
    rcases Registry.getElem?_snoc hq with hq | ⟨rfl, rfl⟩
    · exact hold q pass hq
    · refine .body (ofTree_ne_reduction _) (by simp) (fun _ => rfl) fun s hs => ?_
      obtain rfl := List.mem_singleton.mp hs
      exact hnew

/-- The pass that the next statement may join is there, and of a fusable kind. -/
theorem fusable_of_place {placed : Draft} {s p q : Nat} {kind : PassKind}
    (h : d.place s kind = (p, placed)) (hq : placed.opened = some q) :
    ∃ pass, placed.passes[q]? = some pass ∧ pass.kind.isFusable = true := by
  rw [place_opened h] at hq
  split at hq
  · next hfusable =>
    obtain rfl := Option.some.inj hq
    rcases place_cases h with ⟨before, last, -, rfl, -, rfl, hplaced⟩ | ⟨rfl, hplaced⟩
    · rw [hplaced]
      exact ⟨_, List.getElem?_concat_length, hfusable⟩
    · rw [hplaced]
      exact ⟨_, List.getElem?_concat_length, hfusable⟩
  · cases hq

theorem Lawful.close {statement : Statement} (h : d.Lawful env done statement.tree.innerProducts)
    {p : Nat} {placed : Draft} {ctx : Context}
    (hcloses : Closes env done.length statement.tree d p placed ctx) :
    ({ placed with context := ctx }.invalidate statement.tree).Lawful env
      (done ++ [statement]) [] := by
  constructor
  · intro m hm
    cases hm
  · intro x hx
    rw [invalidate_context]
    rcases List.mem_append.mp hx with hx | hx
    · exact (h.planned x hx).grows hcloses.grows
    · obtain rfl := List.mem_singleton.mp hx
      exact ⟨hcloses.lawful, hcloses.bound, fun m hm => (h.visited m hm).grows hcloses.grows⟩
  · intro q pass hq
    rw [invalidate_passes] at hq
    rw [invalidate_context]
    exact h.passes_place hcloses hq
  · intro q hq
    rw [invalidate_opened] at hq
    rw [invalidate_passes]
    dsimp only at hq ⊢
    exact fusable_of_place hcloses.place hq

theorem Reachable.lawful (h : Reachable env done seen d) : d.Lawful env done seen := by
  induction h with
  | empty => exact lawful_empty
  | visit _ hvisit _ ih => exact ih.visit hvisit
  | close _ hcloses ih => exact ih.close hcloses

end Draft

/-! ### Plans -/

/-- How the buffers of a plan are stored. -/
def Declarations.store (env : Declarations) : Handle → Storage
  | .buffer k => (env k).2
  | .temporary _ => .deviceScalar

theorem Argument.Declared.storage_eq {env : Declarations} {a : Argument} (h : a.Declared env) :
    a.storage = env.store a.handle := by
  obtain ⟨k, hk, henv⟩ := h
  rw [hk, Declarations.store, henv]

namespace Argument

/-- The argument is bound, and stored as its buffer is. -/
structure PlacedIn (env : Declarations) (reg : Registry) (a : Argument) : Prop where
  stored : a.storage = env.store a.handle
  bound : a.BoundIn reg

theorem PlacedIn.keeps {env : Declarations} {reg reg' : Registry} {a : Argument}
    (h : a.PlacedIn env reg) (hk : reg.Keeps reg') : a.PlacedIn env reg' :=
  ⟨h.stored, h.bound.keeps hk⟩

end Argument

/-- Everything that a walk through a bound term takes for an argument is bound. -/
theorem Term.BoundIn.arguments {env : Declarations} {ctx : Context} {t : Term}
    (h : t.BoundIn env ctx) :
    ∀ a ∈ t.arguments, a.PlacedIn env ctx.registry := by
  have pair : ∀ {xs ys : List Term} {t : Term}, t.argument? = none →
      (∀ a ∈ xs.filterMap argument?, a.PlacedIn env ctx.registry) →
      (∀ a ∈ ys.filterMap argument?, a.PlacedIn env ctx.registry) →
      ∀ a ∈ (xs ++ ys ++ [t]).filterMap argument?, a.PlacedIn env ctx.registry := by
    intro xs ys t ht hx hy a ha
    simp only [List.filterMap_append, List.filterMap_cons, ht, List.filterMap_nil,
      List.append_nil, List.mem_append] at ha
    exact ha.elim (hx a) (hy a)
  induction t with
  | leaf arg =>
    intro a ha
    obtain rfl : a = arg := by simpa [Term.arguments, walk, argument?] using ha
    exact ⟨h.1.storage_eq, h.2⟩
  | unary op sub ih =>
    intro a ha
    refine ih h a ?_
    simpa [Term.arguments, walk, argument?] using ha
  | binary op lhs rhs ihl ihr => exact pair rfl (ihl h.1) (ihr h.2)
  | matMat lhs rhs ihl ihr => exact pair rfl (ihl h.1) (ihr h.2)
  | matVec lhs rhs ihl ihr => exact pair rfl (ihl h.1) (ihr h.2)
  | inner lhs rhs computed temporary ihl ihr =>
    obtain ⟨hl, hr, cell, rfl, i, key, hhandle, -, -, -, hstorage, hcell⟩ := h
    cases computed with
    | none => exact pair rfl (ihl hl) (ihr hr)
    | some pass =>
      intro a ha
      obtain rfl : a = cell := by simpa [Term.arguments, walk, argument?] using ha
      exact ⟨by rw [hstorage, hhandle]; rfl, hcell⟩

theorem Alignment.ofWidth_width (a : Alignment) : Alignment.ofWidth a.width = .ok a := by
  cases a <;> rfl

/-- A bound argument can be widened. -/
theorem Argument.BoundIn.setAlignment_ok {a : Argument} {reg : Registry} (h : a.BoundIn reg)
    (alignment : Alignment) :
    ∃ reg', a.setAlignment reg alignment.width = .ok reg' ∧ reg.Keeps reg' := by
  obtain ⟨i, r, hi, hr, -⟩ := h
  refine ⟨reg.modify i (·.raiseAlignment alignment), ?_, ?_⟩
  · simp only [setAlignment, Alignment.ofWidth_width, Argument.id, hi,
      Registry.get_eq_ok_iff.mpr hr, Outcome.ok_bind, Outcome.pure_eq_ok]
  · intro j s hs
    by_cases hij : i = j
    · subst hij
      exact ⟨s.raiseAlignment alignment, by simp [Registry.modify, hs],
        ⟨rfl, rfl, rfl, rfl, fun _ _ h => h⟩⟩
    · exact ⟨s, by simp [Registry.modify, hij, hs], Record.Keeps.refl s⟩

theorem setAlignments_ok (alignment : Alignment) (args : List Argument) (reg : Registry)
    (h : ∀ a ∈ args, a.BoundIn reg) :
    ∃ reg', args.foldlM (fun reg a => a.setAlignment reg alignment.width) reg = .ok reg' ∧
      reg.Keeps reg' := by
  induction args generalizing reg with
  | nil => exact ⟨reg, rfl, Registry.Keeps.refl reg⟩
  | cons a args ih =>
    obtain ⟨reg₁, h₁, hk₁⟩ := (h a (List.mem_cons_self ..)).setAlignment_ok alignment
    obtain ⟨reg₂, h₂, hk₂⟩ := ih reg₁ fun b hb => (h b (List.mem_cons_of_mem a hb)).keeps hk₁
    exact ⟨reg₂, by rw [List.foldlM_cons, h₁, Outcome.ok_bind, h₂], hk₁.trans hk₂⟩

namespace Plan

/-- The plan comes from a reachable draft for the given statements; only widths have been
changed since. -/
structure Built (env : Declarations) (statements : List Statement) (plan : Plan)
    (d : Draft) : Prop where
  drafted : Draft.addStatements 0 statements .empty = .ok (plan.statements, d)
  widened : ∃ alignment, Plan.widen alignment ⟨plan.statements, d.passes, d.context⟩ = .ok plan
  reachable : Draft.Reachable env plan.statements [] d
  passes : plan.passes = d.passes
  keeps : d.context.registry.Keeps plan.registry
  source : plan.statements.map (fun s => { s with tree := s.tree.erase }) = statements

theorem widen_ok {env : Declarations} (plan : Plan) (alignment : Alignment)
    (h : ∀ s ∈ plan.statements, s.tree.BoundIn env plan.context) :
    ∃ reg, plan.widen alignment =
        .ok { plan with context := { plan.context with registry := reg } } ∧
      plan.registry.Keeps reg := by
  unfold widen
  split
  · exact ⟨plan.registry, rfl, Registry.Keeps.refl _⟩
  · obtain ⟨reg, hreg, hk⟩ := setAlignments_ok alignment plan.vectorLeaves plan.registry (by
      intro a ha
      obtain ⟨s, hs, ha⟩ := List.mem_flatMap.mp ha
      exact ((h s hs).arguments a (List.mem_filter.mp ha).1).bound)
    exact ⟨reg, by rw [hreg]; rfl, hk⟩

end Plan

/-- Lawful statements can be planned for every valid work-group size. -/
theorem schedule_ok {env : Declarations} {settings : Settings} {statements : List Statement}
    (hlocal : isLocalSize settings.localSize = true) (hlawful : ∀ s ∈ statements, s.Lawful env) :
    ∃ plan d, schedule settings statements = .ok plan ∧ plan.Built env statements d := by
  obtain ⟨planned, d, heq, hreach, hsource⟩ := Draft.addStatements_ok hlawful (.empty)
  rw [List.nil_append] at hreach
  obtain ⟨reg, hwiden, hkeeps⟩ := Plan.widen_ok ⟨planned, d.passes, d.context⟩ settings.alignment
    fun s hs => (hreach.lawful.planned s hs).bound
  rw [List.length_nil] at heq
  refine ⟨⟨planned, d.passes, { d.context with registry := reg }⟩, d, ?_, heq, ⟨_, hwiden⟩,
    hreach, rfl, hkeeps, hsource⟩
  simp only [schedule, Settings.checkLocalSize, hlocal, if_true, heq, Outcome.ok_bind, hwiden]

theorem Plan.built_of_schedule {env : Declarations} {settings : Settings}
    {statements : List Statement} {plan : Plan} (h : schedule settings statements = .ok plan)
    (hlawful : ∀ s ∈ statements, s.Lawful env) : ∃ d, plan.Built env statements d := by
  by_cases hlocal : isLocalSize settings.localSize = true
  · obtain ⟨plan', d, heq, hbuilt⟩ := schedule_ok hlocal hlawful
    obtain rfl : plan' = plan := Except.ok.inj (heq.symm.trans h)
    exact ⟨d, hbuilt⟩
  · simp [schedule, Settings.checkLocalSize, hlocal] at h

/-- The steps of planning a source text. -/
theorem planSource_eq_ok_iff {options : Options} {source : String} {plan : Plan} :
    planSource options source = .ok plan ↔ ∃ file statements, parseSource 0 source = .ok file ∧
      file.lower options.settings = .ok statements ∧ options.device.check statements = .ok () ∧
      schedule options.settings statements = .ok plan := by
  have hfault : ∀ (statements : List Statement) (x : Except Fault Plan),
      Checked.ofFault statements x = .ok plan ↔ x = .ok plan := by
    intro statements x
    cases x <;> simp [Checked.ofFault]
  simp only [planSource, Outcome.bind_eq_ok_iff, hfault]
  constructor
  · rintro ⟨file, hfile, statements, hlower, ⟨⟩, hcheck, hplan⟩
    exact ⟨file, statements, hfile, hlower, hcheck, hplan⟩
  · rintro ⟨file, statements, hfile, hlower, hcheck, hplan⟩
    exact ⟨file, hfile, statements, hlower, (), hcheck, hplan⟩

end LinearKernels
