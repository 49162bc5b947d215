import LinearKernels.Proofs.ParameterOrder
import LinearKernels.Proofs.Reductions

/-!
The shape of plans. Passes are numbered in order, and apart from the reductions they run
every statement once, in the order of the source. Statements that could share a pass do so.
A reduction computes an inner product after everything nested in it, and each inner product
of a statement is computed, by its own reduction or by one of an equal inner product, before
the statement runs.
-/

namespace LinearKernels

/-- The statements that passes run, apart from the reductions, in the order of the passes. -/
def runOrder (passes : List Pass) : List Nat :=
  (passes.filter (·.kind ≠ .reduction)).flatMap (·.statements)

theorem runOrder_append (passes more : List Pass) :
    runOrder (passes ++ more) = runOrder passes ++ runOrder more := by
  simp only [runOrder, List.filter_append, List.flatMap_append]

theorem runOrder_reduction {pass : Pass} (h : pass.kind = .reduction) : runOrder [pass] = [] := by
  simp [runOrder, h]

theorem runOrder_body {pass : Pass} (h : pass.kind ≠ .reduction) :
    runOrder [pass] = pass.statements := by
  simp [runOrder, h]

/-- What holds of the passes of a plan for `n` statements. -/
structure Plan.WellFormed (plan : Plan) (n : Nat) : Prop where
  statements : plan.statements.length = n
  index : ∀ (k : Nat) (pass : Pass), plan.passes[k]? = some pass → pass.index = k
  runs : runOrder plan.passes = List.range n
  single : ∀ pass ∈ plan.passes, pass.kind = .matVec ∨ pass.kind = .matMat →
    ∃ s, pass.statements = [s]
  alternates : ∀ (k : Nat) (pass pass' : Pass), plan.passes[k]? = some pass →
    plan.passes[k + 1]? = some pass' → pass.kind = pass'.kind → pass.kind.isFusable = false
  reduction : ∀ pass ∈ plan.passes, pass.kind = .reduction → ∃ s ordinal lhs rhs cell,
    pass.statements = [s] ∧ pass.reduction = some ordinal ∧
      plan.reduced? pass = some (.inner lhs rhs (some pass.index) (some cell)) ∧
      ∀ m ∈ (Term.inner lhs rhs (some pass.index) (some cell)).nestedProducts,
        ∃ q, m.computed? = some q ∧ q < pass.index
  computed : ∀ (s : Nat) (statement : Statement), plan.statements[s]? = some statement →
    ∀ m ∈ statement.tree.innerProducts, ∃ r reduction m' key i,
      m.computed? = some r ∧ plan.passes[r]? = some reduction ∧ reduction.kind = .reduction ∧
      plan.reduced? reduction = some m' ∧
      m'.key plan.registry = .ok key ∧ m.key plan.registry = .ok key ∧
      m'.handle? = some (.temporary i) ∧ m.handle? = some (.temporary i) ∧
      ∀ pass ∈ plan.passes, pass.kind ≠ .reduction → s ∈ pass.statements → r < pass.index

namespace Draft

variable {env : Declarations} {done : List Statement} {seen : List Term} {d d' : Draft}

/-! ### Statements and their passes -/

/-- The passes that run statements take them in order; neighbours cannot be joined, and a
last pass that could be joined is open. -/
structure Arranged (done : List Statement) (d : Draft) : Prop where
  runs : runOrder d.passes = List.range done.length
  alternates : ∀ (k : Nat) (pass pass' : Pass), d.passes[k]? = some pass →
    d.passes[k + 1]? = some pass' → pass.kind = pass'.kind → pass.kind.isFusable = false
  opened : ∀ before last, d.passes = before ++ [last] → last.kind.isFusable = true →
    d.opened = some before.length

theorem arranged_empty : Draft.empty.Arranged [] where
  runs := rfl
  alternates k pass pass' hpass := by simp [empty] at hpass
  opened before last hpasses := by simp [empty] at hpasses

/-- A pass at the end keeps neighbours apart, unless the last pass could have been joined. -/
theorem Arranged.alternates_append (h : d.Arranged done) {new : Pass}
    (hnew : ∀ before last, d.passes = before ++ [last] → last.kind = new.kind →
      last.kind.isFusable = false) (k : Nat) (pass pass' : Pass)
    (hpass : (d.passes ++ [new])[k]? = some pass)
    (hpass' : (d.passes ++ [new])[k + 1]? = some pass') (hkind : pass.kind = pass'.kind) :
    pass.kind.isFusable = false := by
  rcases Registry.getElem?_snoc hpass' with hpass' | ⟨hk, rfl⟩
  · have hlt := (List.getElem?_eq_some_iff.mp hpass').1
    rw [List.getElem?_append_left (by omega)] at hpass
    exact h.alternates k pass pass' hpass hpass' hkind
  · rw [List.getElem?_append_left (by omega)] at hpass
    obtain ⟨before, last, hlast⟩ : ∃ before last, d.passes = before ++ [last] :=
      ⟨_, _, (List.dropLast_concat_getLast (List.ne_nil_of_length_pos (by omega))).symm⟩
    have hkb : k = before.length := by
      rw [hlast, List.length_append, List.length_singleton] at hk
      omega
    rw [hlast, hkb, List.getElem?_concat_length] at hpass
    obtain rfl := Option.some.inj hpass
    exact hnew before last hlast hkind

/-- A reduction pass separates its neighbours. -/
theorem Arranged.reduced (h : d.Arranged done) (s n : Nat) (l r : Term)
    (ctx : Context) (key : String) :
    (d.reduced s n l r ctx key).Arranged done := by
  constructor
  · show runOrder (d.passes ++ [_]) = _
    rw [runOrder_append, runOrder_reduction rfl, List.append_nil]
    exact h.runs
  · refine h.alternates_append fun before last _ hkind => ?_
    rw [hkind]
    rfl
  · intro before last hpasses hfusable
    obtain ⟨-, hlast⟩ := List.append_inj' hpasses rfl
    obtain rfl := List.singleton_inj.mp hlast
    cases hfusable

/-- A statement joins the last pass, if that is open and of the same kind. -/
theorem place_joins {before : List Pass} {last : Pass} (s : Nat)
    (hpasses : d.passes = before ++ [last]) (hopened : d.opened = some before.length) :
    (d.place s last.kind).2.passes.length = d.passes.length := by
  have hjoin : d.opened.filter (d.canJoin last.kind) = some before.length := by
    rw [hopened, Option.filter_some]
    simp [canJoin, hpasses]
  unfold place
  rw [hjoin]
  exact List.length_modify ..

/-- The last pass stays of its kind when a statement joins it. -/
theorem alternates_join {before : List Pass} {last last' : Pass} (hkind : last'.kind = last.kind)
    (h : ∀ (k : Nat) (pass pass' : Pass), (before ++ [last])[k]? = some pass →
      (before ++ [last])[k + 1]? = some pass' → pass.kind = pass'.kind →
      pass.kind.isFusable = false)
    (k : Nat) (pass pass' : Pass) (hpass : (before ++ [last'])[k]? = some pass)
    (hpass' : (before ++ [last'])[k + 1]? = some pass') (heq : pass.kind = pass'.kind) :
    pass.kind.isFusable = false := by
  have hold : ∀ (q : Nat) (new : Pass), (before ++ [last'])[q]? = some new →
      ∃ old, (before ++ [last])[q]? = some old ∧ old.kind = new.kind := by
    intro q new hnew
    rcases Registry.getElem?_snoc hnew with hnew | ⟨rfl, rfl⟩
    · refine ⟨new, ?_, rfl⟩
      rw [List.getElem?_append_left (List.getElem?_eq_some_iff.mp hnew).1, hnew]
    · exact ⟨last, List.getElem?_concat_length, hkind.symm⟩
  obtain ⟨old, hget, hsame⟩ := hold k pass hpass
  obtain ⟨old', hget', hsame'⟩ := hold (k + 1) pass' hpass'
  rw [← hsame]
  exact h k old old' hget hget' (by rw [hsame, hsame', heq])

/-- Placing a statement keeps the passes arranged: a new pass is opened only if the last one
is of another kind or not fusable. -/
theorem Arranged.place {statement : Statement} (h : d.Arranged done) {p : Nat} {placed : Draft}
    {tree : Term} (hplace : d.place done.length (.ofTree tree) = (p, placed)) :
    placed.Arranged (done ++ [statement]) := by
  have hne := ofTree_ne_reduction tree
  have hrange : List.range (done ++ [statement]).length =
      List.range done.length ++ [done.length] := by
    rw [List.length_append, List.length_singleton, List.range_succ]
  have hopened : (PassKind.ofTree tree).isFusable = true → placed.opened = some p := by
    intro hfusable
    rw [place_opened hplace, if_pos hfusable]
  rcases place_cases hplace with ⟨before, last, hbefore, rfl, -, hkind, hplaced⟩ | ⟨rfl, hplaced⟩
  · have hlast : last.kind ≠ .reduction := hkind ▸ hne
    constructor
    · have hjoined : runOrder [{ last with statements := last.statements ++ [done.length] }] =
          runOrder [last] ++ [done.length] := by
        rw [runOrder_body hlast]
        exact runOrder_body hlast
      rw [hplaced, hrange, ← h.runs, hbefore, runOrder_append, runOrder_append, hjoined,
        List.append_assoc]
    · have halternates := h.alternates
      rw [hbefore] at halternates
      rw [hplaced]
      refine alternates_join ?_ halternates
      rfl
    · intro before' last' hpasses hfusable
      rw [hplaced] at hpasses
      obtain ⟨rfl, heq⟩ := List.append_inj' hpasses rfl
      obtain rfl := List.singleton_inj.mp heq
      exact hopened (hkind ▸ hfusable)
  · constructor
    · rw [hplaced, hrange, ← h.runs, runOrder_append, runOrder_body hne]
    · rw [hplaced]
      refine h.alternates_append fun before last hlast hkind =>
        Bool.eq_false_iff.mpr fun hfusable => ?_
      -- the last pass would be open, so the statement would have joined it
      have hjoin := place_joins done.length hlast (h.opened before last hlast hfusable)
      rw [hkind, hplace, hplaced, List.length_append, List.length_singleton] at hjoin
      omega
    · intro before last hpasses hfusable
      rw [hplaced] at hpasses
      obtain ⟨rfl, heq⟩ := List.append_inj' hpasses rfl
      obtain rfl := List.singleton_inj.mp heq
      exact hopened hfusable

theorem Reachable.arranged (h : Reachable env done seen d) : d.Arranged done := by
  induction h with
  | empty => exact arranged_empty
  | visit _ hvisit _ ih =>
    cases hvisit with
    | reuse => exact ⟨ih.runs, ih.alternates, ih.opened⟩
    | reduce => exact ih.reduced ..
  | @close done statement d placed p ctx _ hcloses ih =>
    have hplaced : placed.Arranged (done ++ [statement]) := ih.place hcloses.place
    constructor
    · rw [invalidate_passes]
      exact hplaced.runs
    · rw [invalidate_passes]
      exact hplaced.alternates
    · rw [invalidate_passes, invalidate_opened]
      exact hplaced.opened

/-! ### Inner products and their passes -/

/-- A reduction pass computes an inner product that has been visited. -/
theorem Lawful.exists_product (h : d.Lawful env done seen) {p c n : Nat}
    (hpass : d.passes[p]? = some (reductionPass p c n)) :
    ∃ m, productAt done seen c n = some m ∧ m.computed? = some p := by
  cases h.passes p _ hpass with
  | reduction product computed _ => exact ⟨_, product, computed⟩

/-- What a reduction pass computes comes after all that is nested in it. -/
theorem Reachable.nested_lt (h : Reachable env done seen d) {p c n : Nat} {m x : Term}
    (hpass : d.passes[p]? = some (reductionPass p c n)) (hm : productAt done seen c n = some m)
    (hx : x ∈ m.nestedProducts) : ∃ q, x.computed? = some q ∧ q < p := by
  induction h with
  | empty => simp [Draft.empty] at hpass
  | @visit done seen d d' last hreach hvisit hnested ih =>
    have hold : d.passes[p]? = some (reductionPass p c n) →
        ∃ q, x.computed? = some q ∧ q < p := by
      intro hget
      obtain ⟨m', hm', -⟩ := hreach.lawful.exists_product hget
      obtain rfl := Option.some.inj ((productAt_visit hm').symm.trans hm)
      exact ih hget hm'
    cases hvisit with
    | reuse => exact hold hpass
    | reduce =>
      rcases Registry.getElem?_snoc hpass with hget | ⟨rfl, heq⟩
      · exact hold hget
      · obtain ⟨-, -, hc, hn⟩ := Pass.mk.inj heq
        obtain rfl := List.singleton_inj.mp hc
        obtain rfl := Option.some.inj hn
        rw [productAt_last] at hm
        obtain rfl := Option.some.inj hm
        obtain ⟨e, -, -, hcomputed, c, y, hentry, -⟩ := hreach.entry_of_seen (hnested x hx)
        exact ⟨e.pass, hcomputed, hentry.lt⟩
  | @close done statement d placed p' ctx hreach hcloses ih =>
    rw [invalidate_passes] at hpass
    have hget := (reduction_of_placed hcloses.place rfl).mp hpass
    obtain ⟨m', hm', -⟩ := hreach.lawful.exists_product hget
    obtain rfl := Option.some.inj ((productAt_close hm').symm.trans hm)
    exact ih hget hm'

/-- The inner product `n` is read from the temporary of a reduction of `m`, which was written
alike. -/
def ReadFrom (done : List Statement) (seen : List Term) (passes : List Pass) (n : Term) (r : Nat)
    (m : Term) : Prop :=
  n.computed? = some r ∧ m.erase = n.erase ∧
    ∃ c k, passes[r]? = some (reductionPass r c k) ∧ productAt done seen c k = some m

theorem Reachable.readFrom_of_seen (h : Reachable env done seen d) {n : Term} (hn : n ∈ seen) :
    ∃ r m, ReadFrom done seen d.passes n r m := by
  obtain ⟨e, -, -, hcomputed, c, m, hentry, -, herase⟩ := h.entry_of_seen hn
  obtain ⟨k, hpass, hproduct⟩ := hentry.pass
  exact ⟨e.pass, m, hcomputed, herase, c, k, hpass, hproduct⟩

/-- Every inner product visited so far is read from some reduction. -/
theorem Reachable.readFrom (h : Reachable env done seen d) {s j : Nat} {n : Term}
    (hn : productAt done seen s j = some n) : ∃ r m, ReadFrom done seen d.passes n r m := by
  induction h with
  | empty =>
    rcases mem_of_productAt hn with ⟨statement, hget, -⟩ | ⟨-, hmem⟩
    · simp at hget
    · cases hmem
  | @visit done seen d d' last hreach hvisit hnested ih =>
    rcases mem_of_productAt hn with ⟨statement, hget, -⟩ | ⟨-, hmem⟩
    · rw [productAt_done hget] at hn
      obtain ⟨r, m, hcomputed, herase, c, k, hpass, hproduct⟩ :=
        ih ((productAt_done hget).trans hn)
      refine ⟨r, m, hcomputed, herase, c, k, ?_, productAt_visit hproduct⟩
      cases hvisit with
      | reuse => exact hpass
      | reduce =>
        rw [reduced, List.getElem?_append_left (List.getElem?_eq_some_iff.mp hpass).1, hpass]
    · exact (hreach.visit hvisit hnested).readFrom_of_seen hmem
  | @close done statement d placed p ctx hreach hcloses ih =>
    have hlift :
        ∀ {n : Term}, (∃ r m, ReadFrom done statement.tree.innerProducts d.passes n r m) →
        ∃ r m, ReadFrom (done ++ [statement]) []
          ({ placed with context := ctx }.invalidate statement.tree).passes n r m := by
      rintro n ⟨r, m, hcomputed, herase, c, k, hpass, hproduct⟩
      refine ⟨r, m, hcomputed, herase, c, k, ?_, productAt_close hproduct⟩
      rw [invalidate_passes]
      exact (reduction_of_placed hcloses.place rfl).mpr hpass
    rcases mem_of_productAt hn with ⟨statement', hget, hmem⟩ | ⟨-, hmem⟩
    · rw [productAt_done hget] at hn
      rcases Registry.getElem?_snoc hget with hget | ⟨-, rfl⟩
      · exact hlift (ih ((productAt_done hget).trans hn))
      · exact hlift (hreach.readFrom_of_seen hmem)
    · cases hmem

/-- A statement runs after the reductions that its inner products are read from. -/
def ComputedFirst (done : List Statement) (passes : List Pass) : Prop :=
  ∀ (p s : Nat) (pass : Pass) (statement : Statement), passes[p]? = some pass →
    pass.kind ≠ .reduction → s ∈ pass.statements → done[s]? = some statement →
    ∀ n ∈ statement.tree.innerProducts, ∃ r, n.computed? = some r ∧ r < p

theorem Lawful.lt_of_mem_statements (h : d.Lawful env done seen) {p s : Nat} {pass : Pass}
    (hpass : d.passes[p]? = some pass) (hkind : pass.kind ≠ .reduction)
    (hs : s ∈ pass.statements) :
    s < done.length := by
  cases h.passes p pass hpass with
  | reduction => exact absurd rfl hkind
  | body _ _ _ planned =>
    obtain ⟨statement, hget, -⟩ := planned s hs
    exact (List.getElem?_eq_some_iff.mp hget).1

/-- The pass that a statement is placed in comes after all reductions. -/
theorem reduction_lt_place {placed : Draft} {r s p : Nat} {tree : Term}
    (h : d.place s (.ofTree tree) = (p, placed)) {pass : Pass}
    (hr : d.passes[r]? = some pass) (hkind : pass.kind = .reduction) : r < p := by
  have hlt := (List.getElem?_eq_some_iff.mp hr).1
  rcases place_cases h with ⟨before, last, hbefore, rfl, -, hlast, -⟩ | ⟨rfl, -⟩
  · have hne : r ≠ before.length := by
      rintro rfl
      rw [hbefore, List.getElem?_concat_length] at hr
      obtain rfl := Option.some.inj hr
      exact ofTree_ne_reduction tree (hlast.symm.trans hkind)
    rw [hbefore, List.length_append, List.length_singleton] at hlt
    omega
  · exact hlt

/-- The reductions of the statement that is closed are not in the pass it joins. -/
theorem Reachable.computed_lt_place {statement : Statement}
    (h : Reachable env done statement.tree.innerProducts d) {p : Nat} {placed : Draft}
    (hplace : d.place done.length (.ofTree statement.tree) = (p, placed)) {n : Term}
    (hn : n ∈ statement.tree.innerProducts) : ∃ r, n.computed? = some r ∧ r < p := by
  obtain ⟨r, m, hcomputed, -, c, k, hpass, -⟩ := h.readFrom_of_seen hn
  exact ⟨r, hcomputed, reduction_lt_place hplace hpass rfl⟩

theorem Reachable.computedFirst (h : Reachable env done seen d) :
    ComputedFirst done d.passes := by
  induction h with
  | empty =>
    intro p s pass statement hpass
    simp [Draft.empty] at hpass
  | visit _ hvisit _ ih =>
    cases hvisit with
    | reuse => exact ih
    | reduce =>
      intro p s pass statement hpass hkind
      rcases Registry.getElem?_snoc hpass with hpass | ⟨-, rfl⟩
      · exact ih p s pass statement hpass hkind
      · exact absurd rfl hkind
  | @close done statement d placed p ctx hreach hcloses ih =>
    intro q s pass x hpass hkind hs hx n hn
    rw [invalidate_passes] at hpass
    have hold : ∀ (old : Pass), d.passes[q]? = some old → old.kind ≠ .reduction →
        s ∈ old.statements → ∃ r, n.computed? = some r ∧ r < q := by
      intro old hget hne hmem
      rw [List.getElem?_append_left (hreach.lawful.lt_of_mem_statements hget hne hmem)] at hx
      exact ih q s old x hget hne hmem hx n hn
    have hnew : q = p → s = done.length → ∃ r, n.computed? = some r ∧ r < q := by
      rintro rfl rfl
      rw [List.getElem?_concat_length] at hx
      obtain rfl := Option.some.inj hx
      exact hreach.computed_lt_place hcloses.place hn
    rcases place_cases hcloses.place with ⟨before, last, hbefore, hp, -, -,
      hplaced⟩ | ⟨hp, hplaced⟩
    · rw [hplaced] at hpass
      rcases Registry.getElem?_snoc hpass with hpass | ⟨rfl, rfl⟩
      · refine hold pass ?_ hkind hs
        rw [hbefore, List.getElem?_append_left (List.getElem?_eq_some_iff.mp hpass).1, hpass]
      · rcases List.mem_append.mp hs with hs | hs
        · refine hold last ?_ hkind hs
          rw [hbefore, List.getElem?_concat_length]
        · exact hnew hp.symm (List.mem_singleton.mp hs)
    · rw [hplaced] at hpass
      rcases Registry.getElem?_snoc hpass with hpass | ⟨rfl, rfl⟩
      · exact hold pass hpass hkind hs
      · exact hnew hp.symm (List.mem_singleton.mp hs)

end Draft

/-! ### Plans -/

namespace Term

variable {env : Declarations} {ctx : Context} {n m : Term}

theorem Visited.eq_inner (h : n.Visited env ctx) {p : Nat} (hp : n.computed? = some p) :
    ∃ lhs rhs cell, n = .inner lhs rhs (some p) (some cell) := by
  obtain ⟨-, -, lhs, rhs, p', cell, rfl⟩ := h
  obtain rfl := Option.some.inj hp
  exact ⟨lhs, rhs, cell, rfl⟩

/-- Inner products that were written alike have the same temporary. -/
theorem Visited.handle_eq (hs : ctx.Sound env) (hn : n.Visited env ctx) (hm : m.Visited env ctx)
    (h : m.erase = n.erase) :
    ∃ i, m.handle? = some (.temporary i) ∧ n.handle? = some (.temporary i) := by
  obtain ⟨i, key, hi, hkeys, hkey⟩ := hm.temporary
  obtain ⟨j, key', hj, hkeys', hkey'⟩ := hn.temporary
  have heq : key = key' := by
    have hsame := (hm.key_eq_iff hs hn).mpr h
    rw [hkey, hkey'] at hsame
    exact Except.ok.inj hsame
  obtain rfl : i = j := hs.distinct i j key hkeys (heq ▸ hkeys')
  exact ⟨i, hi, hj⟩

end Term

namespace Plan

variable {env : Declarations} {statements : List Statement} {plan : Plan} {d : Draft}

theorem reduced?_reductionPass {r c n : Nat} {m : Term}
    (h : Draft.productAt plan.statements [] c n = some m) :
    plan.reduced? (Draft.reductionPass r c n) = some m := by
  rcases Draft.mem_of_productAt h with ⟨statement, hget, -⟩ | ⟨-, hmem⟩
  · rw [Draft.productAt_done hget] at h
    simp [reduced?, Draft.reductionPass, hget, h]
  · cases hmem

/-- A reduction pass of a plan, with the inner product it computes. -/
theorem Built.reduction (h : plan.Built env statements d) {pass : Pass}
    (hpass : pass ∈ plan.passes) (hkind : pass.kind = .reduction) :
    ∃ c n lhs rhs cell, pass = Draft.reductionPass pass.index c n ∧
      plan.passes[pass.index]? = some pass ∧
      Draft.productAt plan.statements [] c n =
        some (.inner lhs rhs (some pass.index) (some cell)) := by
  obtain ⟨p, hp⟩ := List.getElem?_of_mem hpass
  cases h.passOf hp with
  | body kind_ne => exact absurd hkind kind_ne
  | @reduction c n m product computed =>
    obtain ⟨lhs, rhs, cell, rfl⟩ :=
      (h.reachable.lawful.visited_of_productAt product).eq_inner computed
    exact ⟨c, n, lhs, rhs, cell, rfl, hp, product⟩

theorem Built.key_eq (h : plan.Built env statements d) {n m : Term} (hn : n.Visited env d.context)
    (hm : m.Visited env d.context) (heq : m.erase = n.erase) :
    ∃ key, m.key plan.registry = .ok key ∧ n.key plan.registry = .ok key := by
  have hbound : ∀ {x : Term}, x.Visited env d.context → x.LeavesBound plan.registry := fun hx =>
    hx.2.1.leavesBound.keeps h.keeps
  obtain ⟨key, hkey⟩ := (hbound hm).exists_key
  refine ⟨key, hkey, ?_⟩
  rw [← Term.key_eq_of_erase_eq h.registry_sound (hbound hm) (hbound hn) heq]
  exact hkey

theorem Built.wellFormed (h : plan.Built env statements d) :
    plan.WellFormed statements.length := by
  have hlength : plan.statements.length = statements.length := by
    rw [← h.source, List.length_map]
  have hindex : ∀ (k : Nat) (pass : Pass), plan.passes[k]? = some pass → pass.index = k := by
    intro k pass hpass
    cases h.passOf hpass <;> rfl
  constructor
  case statements => exact hlength
  case index => exact hindex
  case runs =>
    rw [h.passes, ← hlength]
    exact h.reachable.arranged.runs
  case single =>
    intro pass hpass hkind
    obtain ⟨p, hp⟩ := List.getElem?_of_mem hpass
    cases h.passOf hp with
    | reduction => rcases hkind with hkind | hkind <;> cases hkind
    | body _ _ single =>
      refine List.length_eq_one_iff.mp (single ?_)
      rcases hkind with rfl | rfl <;> rfl
  case alternates =>
    rw [h.passes]
    exact h.reachable.arranged.alternates
  case reduction =>
    intro pass hpass hkind
    obtain ⟨c, n, lhs, rhs, cell, heq, hget, hproduct⟩ := h.reduction hpass hkind
    refine ⟨c, n, lhs, rhs, cell, by rw [heq]; rfl, by rw [heq]; rfl, ?_, fun m hm => ?_⟩
    · rw [heq]
      exact reduced?_reductionPass hproduct
    · rw [heq, h.passes] at hget
      exact h.reachable.nested_lt hget hproduct hm
  case computed =>
    intro s statement hget n hn
    obtain ⟨j, hj⟩ := List.getElem?_of_mem hn
    have hproduct : Draft.productAt plan.statements [] s j = some n :=
      (Draft.productAt_done hget).trans hj
    obtain ⟨r, m, hcomputed, herase, c, k, hpass, hm⟩ := h.reachable.readFrom hproduct
    have hvisited := h.reachable.lawful.visited_of_productAt hproduct
    have hvisited' := h.reachable.lawful.visited_of_productAt hm
    obtain ⟨key, hkey, hkey'⟩ := h.key_eq hvisited hvisited' herase
    obtain ⟨i, hi, hi'⟩ := hvisited.handle_eq h.reachable.sound hvisited' herase
    refine ⟨r, _, m, key, i, hcomputed, by rw [h.passes]; exact hpass, rfl,
      reduced?_reductionPass hm, hkey, hkey', hi, hi', fun pass hpass' hkind hs => ?_⟩
    obtain ⟨p, hp⟩ := List.getElem?_of_mem hpass'
    rw [hindex p pass hp]
    rw [h.passes] at hp
    obtain ⟨r', hcomputed', hlt⟩ :=
      h.reachable.computedFirst p s pass statement hp hkind hs hget n hn
    obtain rfl := Option.some.inj (hcomputed.symm.trans hcomputed')
    exact hlt

end Plan

/-- Plans of lowered sources are well formed. -/
theorem schedule_wellFormed {lowering planning : Settings} {file : SourceFile}
    {statements : List Statement} {plan : Plan} (hlower : file.lower lowering = .ok statements)
    (hplan : schedule planning statements = .ok plan) : plan.WellFormed statements.length := by
  obtain ⟨-, env, -, hlawful⟩ := SourceFile.lower_lawful hlower
  obtain ⟨d, hbuilt⟩ := Plan.built_of_schedule hplan hlawful
  exact hbuilt.wellFormed

/-- Nested inner products, and a matrix product before two statements that share a pass. -/
def interleavedSource : String :=
  "vector a, b; matrix m; a = dot(dot(a, b) * b, b) * b; b = m * a; b -= a; a = b;"

theorem schedule_wellFormed_interleaved :
    ∃ file statements plan, parseSource 0 interleavedSource = .ok file ∧
      file.lower .standard = .ok statements ∧ schedule .standard statements = .ok plan ∧
      plan.passes.map (fun pass => (pass.kind, pass.statements)) =
        [(.reduction, [0]), (.reduction, [0]), (.vector, [0]), (.matVec, [1]),
          (.vector, [2, 3])] ∧
      plan.WellFormed 4 := by
  obtain ⟨plan, hplan, hvalues⟩ := Outcome.exists_ok_of_any
    (x := planSource .standard interleavedSource)
    (p := fun plan => plan.statements.length = 4 &&
      plan.passes.map (fun pass => (pass.kind, pass.statements)) =
      [(.reduction, [0]), (.reduction, [0]), (.vector, [0]), (.matVec, [1]), (.vector, [2, 3])])
    (by decide +kernel)
  simp only [Bool.and_eq_true, decide_eq_true_eq] at hvalues
  obtain ⟨hlength, hpasses⟩ := hvalues
  obtain ⟨file, statements, hfile, hlower, -, hschedule⟩ := planSource_eq_ok_iff.mp hplan
  have hwell := schedule_wellFormed hlower hschedule
  rw [← hwell.statements, hlength] at hwell
  exact ⟨file, statements, plan, hfile, hlower, hschedule, hpasses, hwell⟩

end LinearKernels
