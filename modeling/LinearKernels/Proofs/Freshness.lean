import LinearKernels.Compile
import LinearKernels.Proofs.Execution
import LinearKernels.Proofs.Reductions

/-!
When a temporary holds what it stands for. A plan runs its passes in order: a reduction
writes the temporary of its inner product, every other pass assigns its statements. If no
inner product of a term has been computed before one that is nested in it, then every
temporary the term reads is up to date when its statement runs.
-/

namespace LinearKernels

/-- What a pass does to the memory. -/
inductive Action where
  | reduce (node : Term)
  | assign (s : Nat) (tree : Term)

namespace Action

variable {V : Type}

/-- Run an action; statement `s` is assigned over the range `ranges s`. -/
def run (M : Machine V) (ranges : Nat → List Index) (μ : Memory V) : Action → Memory V
  | reduce node => node.reduce M μ
  | assign s tree => tree.assignOver M (ranges s) μ

def runAll (M : Machine V) (ranges : Nat → List Index) (μ : Memory V)
    (actions : List Action) : Memory V :=
  actions.foldl (run M ranges) μ

/-- The statement that an action assigns. -/
def statement? : Action → Option Nat
  | reduce _ => none
  | assign s _ => some s

end Action

/-- The actions of a pass, given the inner products and the trees of the statements. -/
def Pass.actions (product : Nat → Nat → Option Term) (tree : Nat → Option Term) (pass : Pass) :
    List Action :=
  match pass.reduction, pass.statements with
  | some n, [c] => (product c n).toList.map .reduce
  | _, statements => statements.flatMap fun s => ((tree s).map (.assign s)).toList

namespace Plan

/-- All actions of a plan in the order of its passes. -/
def actions (plan : Plan) : List Action :=
  plan.passes.flatMap (Pass.actions
    (fun c n => plan.statements[c]?.bind (·.tree.innerProducts[n]?))
    fun s => plan.statements[s]?.map (·.tree))

/-- The memory that statement `s` finds when a plan is run. -/
def memoryBefore {V : Type} (plan : Plan) (M : Machine V) (ranges : Nat → List Index) (s : Nat)
    (μ : Memory V) : Memory V :=
  Action.runAll M ranges μ (plan.actions.takeWhile (·.statement? ≠ some s))

end Plan

namespace Draft

variable {env : Declarations} {done : List Statement} {seen : List Term} {d d' : Draft}

/-- The actions of a draft. -/
def actions (done : List Statement) (seen : List Term) (d : Draft) : List Action :=
  d.passes.flatMap (Pass.actions (productAt done seen) fun s => done[s]?.map (·.tree))

theorem actions_reduction (product : Nat → Nat → Option Term)
    (tree : Nat → Option Term) (p c n : Nat) :
    Pass.actions product tree ⟨p, .reduction, [c], some n⟩ = (product c n).toList.map .reduce :=
  rfl

theorem actions_body (product : Nat → Nat → Option Term) (tree : Nat → Option Term) (p : Nat)
    (kind : PassKind) (statements : List Nat) :
    Pass.actions product tree ⟨p, kind, statements, none⟩ =
      statements.flatMap fun s => ((tree s).map (.assign s)).toList :=
  rfl

theorem flatMap_eq_of_forall {α β : Type} {f g : α → List β} {xs : List α}
    (h : ∀ x ∈ xs, f x = g x) : xs.flatMap f = xs.flatMap g := by
  rw [List.flatMap_def, List.flatMap_def, List.map_congr_left h]

/-- The actions of a pass do not change when planning goes on. -/
theorem PassOf.actions_eq {done' : List Statement} {seen' : List Term} {reg : Registry} {p : Nat}
    {pass : Pass} (h : PassOf done seen reg p pass)
    (hproducts : ∀ c n m, productAt done seen c n = some m → productAt done' seen' c n = some m)
    (hdone : ∀ (s : Nat) (statement : Statement), done[s]? = some statement →
      done'[s]? = some statement) :
    pass.actions (productAt done' seen') (fun s => done'[s]?.map (·.tree)) =
      pass.actions (productAt done seen) fun s => done[s]?.map (·.tree) := by
  cases h with
  | reduction product _ _ =>
    rw [actions_reduction, actions_reduction, product, hproducts _ _ _ product]
  | body _ _ _ planned =>
    rw [actions_body, actions_body]
    refine flatMap_eq_of_forall fun s hs => ?_
    obtain ⟨statement, hget, -⟩ := planned s hs
    rw [hget, hdone s statement hget]

theorem Lawful.actions_eq (h : d.Lawful env done seen)
    {done' : List Statement} {seen' : List Term}
    (hproducts : ∀ c n m, productAt done seen c n = some m → productAt done' seen' c n = some m)
    (hdone : ∀ (s : Nat) (statement : Statement), done[s]? = some statement →
      done'[s]? = some statement) :
    d.passes.flatMap (Pass.actions (productAt done' seen') fun s => done'[s]?.map (·.tree)) =
      actions done seen d := by
  refine flatMap_eq_of_forall fun pass hpass => ?_
  obtain ⟨p, hp⟩ := List.getElem?_of_mem hpass
  exact (h.passes p pass hp).actions_eq hproducts hdone

theorem actions_reuse (h : d.Lawful env done seen) (m : Term) (ctx : Context) :
    actions done (seen ++ [m]) { d with context := ctx } = actions done seen d :=
  h.actions_eq (fun _ _ _ => productAt_visit) fun _ _ h => h

theorem actions_reduced (h : d.Lawful env done seen) (l r : Term) (computed : Option Nat)
    (temporary : Option Argument) (ctx : Context) (key : String) :
    actions done (seen ++ [.inner l r computed temporary])
        (d.reduced done.length seen.length l r ctx key) =
      actions done seen d ++ [.reduce (.inner l r computed temporary)] := by
  rw [actions, reduced]
  dsimp only
  rw [List.flatMap_append, h.actions_eq (fun _ _ _ => productAt_visit) fun _ _ h => h,
    List.flatMap_singleton, actions_reduction, productAt_last]
  rfl

theorem actions_close {statement : Statement} (h : d.Lawful env done statement.tree.innerProducts)
    {p : Nat} {placed : Draft} {ctx : Context}
    (hcloses : Closes env done.length statement.tree d p placed ctx) :
    actions (done ++ [statement]) [] ({ placed with context := ctx }.invalidate statement.tree) =
      actions done statement.tree.innerProducts d ++ [.assign done.length statement.tree] := by
  have hdone : ∀ (s : Nat) (x : Statement), done[s]? = some x →
      (done ++ [statement])[s]? = some x :=
    fun s x hx => by rw [List.getElem?_append_left (List.getElem?_eq_some_iff.mp hx).1, hx]
  have hold : d.passes.flatMap (Pass.actions (productAt (done ++ [statement]) [])
      fun s => (done ++ [statement])[s]?.map (·.tree)) =
        actions done statement.tree.innerProducts d :=
    h.actions_eq (fun _ _ _ => productAt_close) hdone
  have hlast : ((done ++ [statement])[done.length]?.map (·.tree)) = some statement.tree := by
    rw [List.getElem?_concat_length]
    rfl
  rw [actions, invalidate_passes]
  dsimp only
  rcases place_cases hcloses.place with ⟨before, last, hbefore, rfl, hopened, hkind,
    hplaced⟩ | ⟨rfl, hplaced⟩
  · rw [hbefore, List.flatMap_append, List.flatMap_singleton] at hold
    rw [hplaced, ← hold, List.flatMap_append, List.append_assoc, List.flatMap_singleton]
    congr 1
    have hget : d.passes[before.length]? = some last := by
      rw [hbefore, List.getElem?_concat_length]
    cases h.passes before.length last hget with
    | reduction => exact absurd hkind.symm (ofTree_ne_reduction statement.tree)
    | body =>
      rw [actions_body, actions_body, List.flatMap_append, List.flatMap_singleton, hlast]; rfl
  · rw [hplaced, List.flatMap_append, hold, List.flatMap_singleton, actions_body,
      List.flatMap_singleton, hlast]
    rfl

/-! ### Up-to-date temporaries -/

end Draft

namespace Term

instance (n : Term) : Decidable n.OperandsEarlier :=
  decidable_of_iff
    (∀ m ∈ n.nestedProducts, (m.computed?.any fun q => n.computed?.any fun r => q < r) = true) (by
      simp [OperandsEarlier, Option.any_eq_true])

theorem innerProducts_eq_nested {n : Term} (h : n.isInner = true) :
    n.innerProducts = n.nestedProducts ++ [n] := by
  cases n with
  | inner l r computed temporary => simp [innerProducts, nestedProducts, children]
  | leaf | unary | binary | matMat | matVec => simp [isInner] at h

theorem mem_nestedProducts_of_nested {n m x : Term} (hm : m ∈ n.nestedProducts)
    (hx : x ∈ m.nestedProducts) : x ∈ n.nestedProducts := by
  obtain ⟨child, hchild, hm⟩ := List.mem_flatMap.mp hm
  exact List.mem_flatMap.mpr ⟨child, hchild, mem_innerProducts_of_nested hm hx⟩

theorem map_computed_eq {xs ys : List Term} (h : xs.map erase = ys.map erase)
    (hc : ∀ x ∈ xs, ∀ y ∈ ys, x.erase = y.erase → x.computed? = y.computed?) :
    xs.map computed? = ys.map computed? := by
  induction xs generalizing ys with
  | nil =>
    obtain rfl := List.map_eq_nil_iff.mp h.symm
    rfl
  | cons x xs ih =>
    cases ys with
    | nil => simp at h
    | cons y ys =>
      obtain ⟨hxy, hrest⟩ := List.cons.inj h
      rw [List.map_cons, List.map_cons,
        hc x (List.mem_cons_self ..) y (List.mem_cons_self ..) hxy,
        ih hrest fun a ha b hb => hc a (List.mem_cons_of_mem x ha) b (List.mem_cons_of_mem y hb)]

/-- The leaves of a bound term are buffers. -/
theorem BoundIn.buffer_leaves {env : Declarations} {ctx : Context} {t : Term}
    (h : t.BoundIn env ctx) :
    ∀ w ∈ t.leafHandles, ∃ k, w = .buffer k := by
  have pair : ∀ {l r : Term}, (∀ w ∈ l.leafHandles, ∃ k, w = .buffer k) →
      (∀ w ∈ r.leafHandles, ∃ k, w = .buffer k) →
      ∀ w ∈ (l.leaves ++ r.leaves).map (·.handle), ∃ k, w = .buffer k := by
    intro l r hl hr w hw
    rw [List.map_append] at hw
    exact (List.mem_append.mp hw).elim (hl w) (hr w)
  induction t with
  | leaf arg =>
    intro w hw
    obtain ⟨k, hk, -⟩ := h.1
    obtain rfl : w = arg.handle := by simpa [leafHandles, leaves] using hw
    exact ⟨k, hk⟩
  | unary op sub ih => exact ih h
  | binary op lhs rhs ihl ihr => exact pair (ihl h.1) (ihr h.2)
  | matMat lhs rhs ihl ihr => exact pair (ihl h.1) (ihr h.2)
  | matVec lhs rhs ihl ihr => exact pair (ihl h.1) (ihr h.2)
  | inner lhs rhs computed temporary ihl ihr => exact pair (ihl h.1) (ihr h.2.1)

/-- A computed inner product is read from the temporary of its key, and its reduction writes
this temporary. -/
theorem BoundIn.temporary {env : Declarations} {ctx : Context} {l r : Term} {pass : Nat}
    {cell : Argument} (h : (inner l r (some pass) (some cell)).BoundIn env ctx) :
    ∃ i key, ctx.temporaries.keys[i]? = some key ∧
      (inner l r (some pass) (some cell)).key ctx.registry = .ok key ∧
      ∀ {V : Type} (M : Machine V) (μ : Memory V),
        (∀ ix, (inner l r (some pass) (some cell)).value M μ ix = μ (.temporary i) (0, 0)) ∧
        (inner l r (some pass) (some cell)).reduce M μ =
          μ.write (.temporary i) (0, 0) ((inner l r none none).value M μ (0, 0)) := by
  obtain ⟨-, -, cell', heq, i, key, hi, hkey, hpair, -, hstorage, -⟩ := h
  obtain rfl := Option.some.inj heq
  refine ⟨i, key, hkey, hpair, fun M μ => ⟨fun ix => ?_, ?_⟩⟩
  · rw [value, Argument.read, hi, hstorage]
    rfl
  · rw [reduce, hi]

/-- The term's element read from the temporaries is what a full evaluation gives. -/
def UpToDate {V : Type} (M : Machine V) (μ : Memory V) (t : Term) : Prop :=
  ∀ ix, t.value M μ ix = t.fullValue M μ ix

end Term

namespace Draft

variable {env : Declarations} {done : List Statement} {seen : List Term} {d d' : Draft} {V : Type}
  {M : Machine V} {μ μ' : Memory V}

/-- What is nested in the inner product has its operands earlier, and still its entries. -/
def Backed (d : Draft) (m : Term) : Prop :=
  ∀ x ∈ m.nestedProducts, x.OperandsEarlier ∧
    ∃ e ∈ d.reductions, x.key d.context.registry = .ok e.key ∧ x.computed? = some e.pass

/-- Whatever entry of the table is backed is up to date. -/
def Current (M : Machine V) (μ : Memory V) (done : List Statement) (seen : List Term)
    (d : Draft) : Prop :=
  ∀ e ∈ d.reductions, ∀ c m, Entry done seen d e c m → Backed d m → m.UpToDate M μ

/-- The entry of an inner product whose operands come earlier was made for just this inner
product: the same passes compute what is nested in it. -/
theorem Reachable.entry_eq (h : Reachable env done seen d) {n : Term} (hn : n ∈ seen)
    (hearlier : n.OperandsEarlier) : ∃ e ∈ d.reductions, ∃ c, Entry done seen d e c n := by
  obtain ⟨e, he, hkey, hcomputed, c, m, hentry, hm, herase⟩ := h.entry_of_seen hn
  have hvisited := h.lawful.visited n hn
  obtain ⟨k, -, hproduct⟩ := hentry.pass
  refine ⟨e, he, c, ?_⟩
  have hnested : m.nestedProducts.map Term.computed? = n.nestedProducts.map Term.computed? := by
    refine Term.map_computed_eq ?_ fun y hy x hx hyx => ?_
    · rw [← Term.nestedProducts_erase, herase, Term.nestedProducts_erase]
    · obtain ⟨e', he', hkey', hcomputed'⟩ := h.table.seen x (h.nested_seen n hn x hx)
      obtain ⟨q, r, hq, hr, hqr⟩ := hearlier x hx
      obtain rfl : q = e'.pass := Option.some.inj (hq.symm.trans hcomputed')
      obtain rfl : r = e.pass := Option.some.inj (hr.symm.trans hcomputed)
      have hkeys := ((h.visited_of_nested hproduct hy).key_eq_iff h.sound
        (h.lawful.visited x (h.nested_seen n hn x hx))).mpr hyx
      rw [hentry.earlier y hy e' he' (hkeys.trans hkey') hqr, hcomputed']
  have heq : m = n := hm.2.1.eq_of_erase_eq h.sound hvisited.2.1 herase (by
    rw [Term.innerProducts_eq_nested hm.isInner, Term.innerProducts_eq_nested hvisited.isInner,
      List.map_append, List.map_append, hnested, List.map_singleton, List.map_singleton,
      hentry.computed, hcomputed])
  exact heq ▸ hentry

/-- The inner products of the current statement are up to date if the operands of each come
earlier. -/
theorem Current.upToDate_seen (hreach : Reachable env done seen d) (h : Current M μ done seen d)
    {n : Term} (hn : n ∈ seen) (hearlier : ∀ x ∈ n :: n.nestedProducts, x.OperandsEarlier) :
    n.UpToDate M μ := by
  obtain ⟨e, he, c, hentry⟩ := hreach.entry_eq hn (hearlier n (List.mem_cons_self ..))
  refine h e he c n hentry fun x hx => ⟨hearlier x (List.mem_cons_of_mem n hx), ?_⟩
  exact hreach.table.seen x (hreach.nested_seen n hn x hx)

theorem Reachable.computed_lt (h : Reachable env done seen d) {c n q : Nat} {m x : Term}
    (hm : productAt done seen c n = some m) (hx : x ∈ m.nestedProducts)
    (hq : x.computed? = some q) :
    q < d.passes.length := by
  have hexplained : ∃ s, Explained done d.passes s x := by
    rcases mem_of_productAt hm with ⟨statement, hget, hmem⟩ | ⟨rfl, hmem⟩
    · obtain ⟨k, hk⟩ := List.getElem?_of_mem (Term.mem_innerProducts_of_nested hmem hx)
      exact ⟨c, h.explained ((productAt_done hget).trans hk)⟩
    · exact ⟨_, h.explained_seen (h.nested_seen m hmem x hx)⟩
  obtain ⟨s, r, c', k, hr, hpass, -⟩ := hexplained
  obtain rfl : r = q := Option.some.inj (hr.symm.trans hq)
  exact (List.getElem?_eq_some_iff.mp hpass).1

/-- An entry stands for one inner product. -/
theorem Entry.eq {e : Reduction} {c c' : Nat} {m m' : Term} (h : Entry done seen d e c m)
    (h' : Entry done seen d e c' m') : m = m' := by
  obtain ⟨n, hpass, hproduct⟩ := h.pass
  obtain ⟨n', hpass', hproduct'⟩ := h'.pass
  obtain ⟨hc, hn⟩ : c = c' ∧ n = n' := by
    simpa [reductionPass] using Option.some.inj (hpass.symm.trans hpass')
  rw [hc, hn, hproduct'] at hproduct
  exact (Option.some.inj hproduct).symm

/-- What is backed after a visit was backed before. -/
theorem Backed.of_extend {m : Term} (h : Backed d' m) (hreach : Reachable env done seen d)
    (hg : d.context.Grows d'.context)
    (hnew : ∀ e ∈ d'.reductions, e ∈ d.reductions ∨ d.passes.length ≤ e.pass) {c n : Nat}
    (hm : productAt done seen c n = some m) : Backed d m := by
  intro x hx
  obtain ⟨hearlier, e, he, hkey, hcomputed⟩ := h x hx
  refine ⟨hearlier, e, ?_, ?_, hcomputed⟩
  · rcases hnew e he with he | hle
    · exact he
    · have := hreach.computed_lt hm hx hcomputed
      omega
  · rw [← (hreach.visited_of_nested hm hx).key_grows hg, hkey]

theorem Current.reuse (hreach : Reachable env done seen d)
    (h : Current M μ done seen d) (m : Term) {ctx : Context} (hg : d.context.Grows ctx) :
    Current M μ done (seen ++ [m]) { d with context := ctx } := by
  intro e he c x hentry hbacked
  obtain ⟨c', x', hold⟩ := hreach.table.entries e he
  obtain rfl :=
    hentry.eq (hold.extend hreach m hg (fun _ _ h => h) (fun _ h => h) fun _ h => .inl h)
  obtain ⟨n, -, hproduct⟩ := hold.pass
  exact h e he c' x hold (hbacked.of_extend hreach hg (fun _ h => .inl h) hproduct)

/-- Writing a temporary changes no full evaluation. -/
theorem fullValue_write_temporary {ctx : Context} {t : Term} (h : t.BoundIn env ctx) (j : Nat)
    (cell : Nat × Nat) (v : V) (ix : Index) :
    t.fullValue M (μ.write (.temporary j) cell v) ix = t.fullValue M μ ix := by
  refine Term.fullValue_congr (fun w hw => ?_) ix
  obtain ⟨k, rfl⟩ := h.buffer_leaves w hw
  funext c
  simp [Memory.write]

/-- Writing the temporary of another key leaves an inner product up to date. -/
theorem upToDate_write {ctx : Context} {x : Term} (hx : x.Visited env d.context)
    (hg : d.context.Grows ctx) {j : Nat} {key : String} (hj : ctx.temporaries.keys[j]? = some key)
    (hne : x.key d.context.registry ≠ .ok key) (h : x.UpToDate M μ) (v : V) :
    x.UpToDate M (μ.write (.temporary j) (0, 0) v) := by
  obtain ⟨-, hbound, l, r, pass, cell, rfl⟩ := hx
  obtain ⟨i, key', hi, hkey', hvalue⟩ := hbound.temporary
  have hij : i ≠ j := by
    rintro rfl
    have := Option.some.inj ((hg.getElem?_keys hi).symm.trans hj)
    exact hne (this ▸ hkey')
  intro ix
  rw [fullValue_write_temporary hbound, (hvalue M _).1, ← h ix, (hvalue M μ).1]
  simp [Memory.write, hij]

/-- A reduction that reads up-to-date temporaries is up to date. -/
theorem upToDate_reduce {ctx : Context} {l r : Term} {pass : Nat} {cell : Argument}
    (hbound : (Term.inner l r (some pass) (some cell)).BoundIn env ctx)
    (hnested : ∀ x ∈ (Term.inner l r (some pass) (some cell)).nestedProducts, x.UpToDate M μ) :
    (Term.inner l r (some pass) (some cell)).UpToDate M
      ((Term.inner l r (some pass) (some cell)).reduce M μ) := by
  simp only [Term.nestedProducts, Term.children, List.flatMap_cons, List.flatMap_nil,
    List.append_nil] at hnested
  obtain ⟨hl, hr⟩ := List.forall_mem_append.mp hnested
  obtain ⟨j, key, -, -, hvalue⟩ := hbound.temporary
  intro ix
  rw [(hvalue M _).1, (hvalue M μ).2, fullValue_write_temporary hbound, Memory.write,
    if_pos ⟨rfl, rfl⟩, Term.value_uncomputed, Term.fullValue]
  congr 1
  refine List.map_congr_left fun k _ => ?_
  rw [Term.value_eq_fullValue hl, Term.value_eq_fullValue hr]

theorem Current.reduce (hreach : Reachable env done seen d)
    (h : Current M μ done seen d) {l r : Term} {cell : Argument}
    {ctx : Context} {key : String} (prepared : d.Prepared env l r cell ctx key)
    (missing : d.reductions.find? (·.key = key) = none)
    (hnested : ∀ x ∈ (Term.inner l r (some d.passes.length) (some cell)).nestedProducts,
      x ∈ seen) :
    Current M ((Term.inner l r (some d.passes.length) (some cell)).reduce M μ) done
      (seen ++ [.inner l r (some d.passes.length) (some cell)])
      (d.reduced done.length seen.length l r ctx key) := by
  have hbound : (Term.inner l r (some d.passes.length) (some cell)).BoundIn env ctx :=
    prepared.bound
  intro e he c x hentry hbacked
  rcases List.mem_append.mp he with he | he
  · -- an entry from before: its own temporary is another one
    obtain ⟨c', x', hold⟩ := hreach.table.entries e he
    have hnew : ∀ e' ∈ (d.reduced done.length seen.length l r ctx key).reductions,
        e' ∈ d.reductions ∨ d.passes.length ≤ e'.pass := by
      intro e' he'
      rcases List.mem_append.mp he' with he' | he'
      · exact .inl he'
      · obtain rfl := List.mem_singleton.mp he'
        exact .inr (Nat.le_refl _)
    obtain rfl := hentry.eq (hold.extend hreach _ prepared.grows (fun p pass hp => by
      rw [reduced, List.getElem?_append_left (List.getElem?_eq_some_iff.mp hp).1, hp])
      (fun _ h => List.mem_append_left _ h) hnew)
    obtain ⟨n, -, hproduct⟩ := hold.pass
    have hupToDate := h e he c' x hold (hbacked.of_extend hreach prepared.grows hnew hproduct)
    obtain ⟨j, key', hj, hkey', hvalue⟩ := hbound.temporary
    obtain rfl : key = key' := Except.ok.inj (prepared.key.symm.trans hkey')
    rw [(hvalue M μ).2]
    refine upToDate_write (hreach.lawful.visited_of_productAt hproduct)
      prepared.grows hj ?_ hupToDate _
    rw [hold.key]
    intro heq
    have := List.find?_eq_none.mp missing e he
    exact this (by simpa using Except.ok.inj heq)
  · obtain rfl := List.mem_singleton.mp he
    obtain rfl := hentry.eq (hreach.table.entry_reduced hreach prepared hnested)
    refine upToDate_reduce hbound fun y hy => h.upToDate_seen hreach (hnested y hy) fun z hz => ?_
    rcases List.mem_cons.mp hz with rfl | hz
    · exact (hbacked z hy).1
    · exact (hbacked z (Term.mem_nestedProducts_of_nested hy hz)).1

/-- An assignment changes its target only. -/
theorem assignOver_of_ne {tree : Term} {h : Handle} (hh : written? tree = some h)
    (range : List Index) {w : Handle} (hw : w ≠ h) : tree.assignOver M range μ w = μ w := by
  unfold Term.assignOver
  split
  · next op target value =>
    obtain rfl : target.handle = h := Option.some.inj hh
    funext cell
    simp [hw]
  · rfl

/-- Entries that survive an assignment do not read its target, and neither does what is
nested in them as long as it is backed. -/
theorem Current.close {statement : Statement}
    (hreach : Reachable env done statement.tree.innerProducts d)
    (h : Current M μ done statement.tree.innerProducts d) {p : Nat} {placed : Draft}
    {ctx : Context} (hcloses : Closes env done.length statement.tree d p placed ctx)
    (range : List Index) :
    Current M (statement.tree.assignOver M range μ) (done ++ [statement]) []
      ({ placed with context := ctx }.invalidate statement.tree) := by
  obtain ⟨k, hk⟩ := written_of_lawful hcloses.lawful
  intro e he c x hentry hbacked
  obtain ⟨he, hread⟩ := (mem_reductions_close hcloses hk).mp he
  obtain ⟨c', x', hold⟩ := hreach.table.entries e he
  obtain rfl := hentry.eq (hold.close hreach hreach.table hcloses hk hread)
  obtain ⟨n, -, hproduct⟩ := hold.pass
  have hvisited := hreach.lawful.visited_of_productAt hproduct
  have hentries : ∀ y ∈ x.nestedProducts, ∃ e' ∈ d.reductions, .buffer k ∉ e'.reads ∧
      y.key d.context.registry = .ok e'.key ∧ y.computed? = some e'.pass := by
    intro y hy
    obtain ⟨-, e', he', hkey, hcomputed⟩ := hbacked y hy
    obtain ⟨he', hread'⟩ := (mem_reductions_close hcloses hk).mp he'
    rw [invalidate_context] at hkey
    exact ⟨e', he', hread',
      ((hreach.visited_of_nested hproduct hy).key_grows hcloses.grows).symm.trans hkey, hcomputed⟩
  have hupToDate : x.UpToDate M μ := h e he c' x hold fun y hy => by
    obtain ⟨e', he', -, hkey, hcomputed⟩ := hentries y hy
    exact ⟨(hbacked y hy).1, e', he', hkey, hcomputed⟩
  have hleaves : .buffer k ∉ x.leafHandles := by
    rw [Term.mem_leafHandles_inner_iff hvisited.isInner]
    rintro (hown | ⟨y, hy, hown⟩)
    · exact hread ((hold.reads k).mpr hown)
    · obtain ⟨e', he', hread', hkey, -⟩ := hentries y hy
      obtain ⟨c'', y', hentry'⟩ := hreach.table.entries e' he'
      obtain ⟨n', -, hproduct'⟩ := hentry'.pass
      have herase :
          y'.erase = y.erase := ((hreach.lawful.visited_of_productAt hproduct').key_eq_iff
        hreach.sound (hreach.visited_of_nested hproduct hy)).mp (hentry'.key.trans hkey.symm)
      rw [← Term.ownHandles_eq_of_erase_eq herase] at hown
      exact hread' ((hentry'.reads k).mpr hown)
  obtain ⟨-, hbound, l, r, pass, cell, rfl⟩ := hvisited
  obtain ⟨i, key, -, -, hvalue⟩ := hbound.temporary
  intro ix
  rw [(hvalue M _).1, assignOver_of_ne hk range (by simp), ← (hvalue M μ).1 ix, hupToDate ix]
  refine Term.fullValue_congr (fun w hw => (assignOver_of_ne hk range ?_).symm) ix
  rintro rfl
  exact hleaves hw

/-- Along every run of a draft the backed entries are up to date. -/
theorem Reachable.current (h : Reachable env done seen d)
    (M : Machine V) (ranges : Nat → List Index) (μ : Memory V) :
    Current M (Action.runAll M ranges μ (actions done seen d)) done seen d := by
  induction h with
  | empty =>
    intro e he
    cases he
  | visit hreach hvisit hnested ih =>
    cases hvisit with
    | reuse prepared found =>
      rw [actions_reuse hreach.lawful]
      exact ih.reuse hreach _ prepared.grows
    | reduce prepared missing =>
      rw [actions_reduced hreach.lawful, Action.runAll, List.foldl_append]
      exact ih.reduce hreach prepared missing hnested
  | close hreach hcloses ih =>
    rw [actions_close hreach.lawful hcloses, Action.runAll, List.foldl_append]
    exact ih.close hreach hcloses _

theorem statement_lt_of_mem (h : Reachable env done seen d) {a : Action}
    (ha : a ∈ actions done seen d) {s : Nat} (hs : a.statement? = some s) : s < done.length := by
  obtain ⟨pass, hpass, ha⟩ := List.mem_flatMap.mp ha
  obtain ⟨p, hp⟩ := List.getElem?_of_mem hpass
  cases h.lawful.passes p pass hp with
  | reduction product _ _ =>
    rw [actions_reduction, product] at ha
    obtain rfl : a = .reduce _ := by simpa using ha
    cases hs
  | body _ _ _ planned =>
    rw [actions_body] at ha
    obtain ⟨t, ht, ha⟩ := List.mem_flatMap.mp ha
    obtain ⟨statement, hget, -⟩ := planned t ht
    rw [hget] at ha
    obtain rfl : a = .assign t statement.tree := by simpa using ha
    obtain rfl : t = s := Option.some.inj hs
    exact (List.getElem?_eq_some_iff.mp hget).1

/-- A planned statement is assigned after the actions of the draft it was planned from. -/
theorem Reachable.before (h : Reachable env done seen d) {s : Nat} {statement : Statement}
    (hs : done[s]? = some statement) :
    ∃ earlier d₀ after, Reachable env earlier statement.tree.innerProducts d₀ ∧
      earlier.length = s ∧ actions done seen d =
        actions earlier statement.tree.innerProducts d₀ ++ .assign s statement.tree :: after := by
  induction h with
  | empty => simp at hs
  | @visit done seen d d' m hreach hvisit hnested ih =>
    obtain ⟨earlier, d₀, after, hreach₀, hlength, heq⟩ := ih hs
    cases hvisit with
    | reuse =>
      exact ⟨earlier, d₀, after, hreach₀, hlength, by rw [actions_reuse hreach.lawful, heq]⟩
    | @reduce l r cell ctx key _ _ =>
      refine ⟨earlier, d₀, after ++ [.reduce (.inner l r (some d.passes.length) (some cell))],
        hreach₀, hlength, ?_⟩
      rw [actions_reduced hreach.lawful, heq, List.append_assoc, List.cons_append]
  | @close done statement' d placed p ctx hreach hcloses ih =>
    rcases Registry.getElem?_snoc hs with hs | ⟨rfl, rfl⟩
    · obtain ⟨earlier, d₀, after, hreach₀, hlength, heq⟩ := ih hs
      refine ⟨earlier, d₀, after ++ [.assign done.length statement'.tree], hreach₀, hlength, ?_⟩
      rw [actions_close hreach.lawful hcloses, heq, List.append_assoc, List.cons_append]
    · exact ⟨done, d, [], hreach, rfl, actions_close hreach.lawful hcloses⟩

end Draft

namespace Plan

/-- Statement `t` assigns one of the given buffers. -/
def Writes (plan : Plan) (t : Nat) (handles : List Handle) : Prop :=
  ∃ statement h, plan.statements[t]? = some statement ∧ Draft.written? statement.tree = some h ∧
    h ∈ handles

variable {env : Declarations} {statements : List Statement} {plan : Plan} {d : Draft}

theorem productAt_nil (done : List Statement) (c n : Nat) :
    Draft.productAt done [] c n = done[c]?.bind (·.tree.innerProducts[n]?) := by
  cases hget : done[c]? with
  | some statement => rw [Draft.productAt_done hget, Option.bind_some]
  | none =>
    cases hproduct : Draft.productAt done [] c n with
    | none => rfl
    | some x =>
      rcases Draft.mem_of_productAt hproduct with ⟨statement, hget', -⟩ | ⟨-, hx⟩
      · rw [hget] at hget'
        cases hget'
      · cases hx

theorem Built.actions_eq (h : plan.Built env statements d) :
    plan.actions = Draft.actions plan.statements [] d := by
  have hproduct : (fun c n => plan.statements[c]?.bind (·.tree.innerProducts[n]?)) =
      Draft.productAt plan.statements [] := by
    funext c n
    exact (productAt_nil plan.statements c n).symm
  rw [actions, hproduct, h.passes]
  rfl

/-- A statement finds its inner products up to date if the operands of each come earlier. -/
theorem Built.upToDate (h : plan.Built env statements d) {s : Nat} {statement : Statement}
    (hs : plan.statements[s]? = some statement) {n : Term} (hn : n ∈ statement.tree.innerProducts)
    (hearlier : ∀ m ∈ n :: n.nestedProducts, m.OperandsEarlier) {V : Type} (M : Machine V)
    (ranges : Nat → List Index) (μ : Memory V) :
    n.UpToDate M (plan.memoryBefore M ranges s μ) := by
  obtain ⟨earlier, d₀, after, hreach, rfl, heq⟩ := h.reachable.before hs
  have hbefore : plan.actions.takeWhile (·.statement? ≠ some earlier.length) =
      Draft.actions earlier statement.tree.innerProducts d₀ := by
    rw [h.actions_eq, heq, List.takeWhile_append_of_pos]
    · simp [Action.statement?]
    · intro a ha
      have := Draft.statement_lt_of_mem hreach ha (s := earlier.length)
      simpa using this
  rw [memoryBefore, hbefore]
  exact (hreach.current M ranges μ).upToDate_seen hreach hn hearlier

theorem Built.explained (h : plan.Built env statements d) {s : Nat} {statement : Statement}
    (hs : plan.statements[s]? = some statement) {n : Term}
    (hn : n ∈ statement.tree.innerProducts) :
    Draft.Explained plan.statements plan.passes s n := by
  obtain ⟨k, hk⟩ := List.getElem?_of_mem hn
  rw [h.passes]
  exact h.reachable.explained ((Draft.productAt_done hs).trans hk)

end Plan

/-- Every inner product of a plan is computed by a reduction pass made for its own or an
earlier statement. Since then no leaf below it has been assigned exactly if the inner
products nested in it are computed by earlier passes; in particular this holds whenever
nothing is nested in it. If it holds at every level, the statement reads the value that the
inner product has when it is evaluated there and then. -/
theorem reused_reduction_fresh_iff {settings settings' : Settings} {file : SourceFile}
    {statements : List Statement} {plan : Plan} (hlower : file.lower settings = .ok statements)
    (hplan : schedule settings' statements = .ok plan) {s : Nat} {statement : Statement}
    (hs : plan.statements[s]? = some statement) {n : Term}
    (hn : n ∈ statement.tree.innerProducts) :
    (∃ r c k, n.computed? = some r ∧ plan.passes[r]? = some ⟨r, .reduction, [c], some k⟩ ∧ c ≤ s ∧
      ((∀ t, c ≤ t → t < s → ¬ plan.Writes t n.leafHandles) ↔ n.OperandsEarlier)) ∧
    ((∀ m ∈ n :: n.nestedProducts, m.OperandsEarlier) →
      ∀ {V : Type} (M : Machine V) (ranges : Nat → List Index) (μ : Memory V),
        n.UpToDate M (plan.memoryBefore M ranges s μ)) := by
  obtain ⟨-, env, -, hlawful⟩ := SourceFile.lower_lawful hlower
  obtain ⟨d, hbuilt⟩ := Plan.built_of_schedule hplan hlawful
  refine ⟨hbuilt.explained hs hn, fun hearlier V M ranges μ => ?_⟩
  exact hbuilt.upToDate hs hn hearlier M ranges μ

/-- Two statements with the same nested inner product, and an assignment between them. -/
def nestedTwice (between : String) : String :=
  "vector a, b, x, y, z; scalar s, t; s = dot(dot(a, b) * x, y); " ++ between ++
    " t = dot(dot(a, b) * x, y);"

/-- Natural numbers, and vectors of one element. -/
def unitMachine : Machine Nat where
  zero := 0
  unary _ v := v
  binary op v w := if op = .mul then v * w else v + w
  total := List.foldr Nat.add 0
  length _ := 1
  columns _ := 1

/-- Looking at one inner product of a planned source. -/
theorem exists_product_of_any (source : String) (s k : Nat) (p : Plan → Term → Bool)
    (h : ((planSource .standard source).toOption.any fun plan =>
      plan.statements[s]?.any fun statement =>
      statement.tree.innerProducts[k]?.any (p plan)) = true) :
    ∃ plan statement n, planSource .standard source = .ok plan ∧ plan.statements[s]? =
      some statement ∧ n ∈ statement.tree.innerProducts ∧ p plan n = true := by
  obtain ⟨plan, hplan, h⟩ := Outcome.exists_ok_of_any h
  obtain ⟨statement, hs, h⟩ := (Option.any_eq_true _ _).mp h
  obtain ⟨n, hn, hp⟩ := (Option.any_eq_true _ _).mp h
  exact ⟨plan, statement, n, hplan, hs, List.mem_of_getElem? hn, hp⟩

/-- An inner product that is used again while nothing it depends on has been assigned. -/
theorem reused_reduction_fresh_iff_nestedTwice :
    ∃ plan statement n, planSource .standard (nestedTwice "z = b;") = .ok plan ∧
      plan.statements[2]? = some statement ∧ n ∈ statement.tree.innerProducts ∧
      n.computed? = some 1 ∧ (∀ m ∈ n :: n.nestedProducts, m.OperandsEarlier) ∧
      (∃ r c k, n.computed? = some r ∧ plan.passes[r]? = some ⟨r, .reduction, [c], some k⟩ ∧
        c ≤ 2 ∧ ((∀ t, c ≤ t → t < 2 → ¬ plan.Writes t n.leafHandles) ↔ n.OperandsEarlier)) ∧
      ∀ {V : Type} (M : Machine V) (ranges : Nat → List Index) (μ : Memory V),
        n.UpToDate M (plan.memoryBefore M ranges 2 μ) := by
  obtain ⟨plan, statement, n, hplan, hs, hn, hvalues⟩ :=
    exists_product_of_any (nestedTwice "z = b;") 2 1
      (fun _ n => n.computed? = some 1 && (n :: n.nestedProducts).all (·.OperandsEarlier))
        (by decide +kernel)
  simp only [Bool.and_eq_true, decide_eq_true_eq, List.all_eq_true] at hvalues
  obtain ⟨hcomputed, hearlier⟩ := hvalues
  obtain ⟨file, statements, -, hlower, -, hschedule⟩ := planSource_eq_ok_iff.mp hplan
  obtain ⟨hexplained, hupToDate⟩ := reused_reduction_fresh_iff hlower hschedule hs hn
  exact ⟨plan, statement, n, hplan, hs, hn, hcomputed, hearlier, hexplained, hupToDate hearlier⟩

/-- A reduction is used again although a buffer below it has been assigned, and its temporary
does not hold the value any more. -/
theorem nested_reduction_outdated :
    ∃ plan statement n, planSource .standard (nestedTwice "a = b;") = .ok plan ∧
      plan.statements[2]? = some statement ∧ n ∈ statement.tree.innerProducts ∧
      n.computed? = some 1 ∧ plan.passes[1]? = some ⟨1, .reduction, [0], some 1⟩ ∧
      plan.Writes 1 n.leafHandles ∧
      ∃ (ranges : Nat → List Index) (μ : Memory Nat),
        ¬ n.UpToDate unitMachine (plan.memoryBefore unitMachine ranges 2 μ) := by
  let ranges : Nat → List Index := fun _ => [(0, 0)]
  let μ : Memory Nat := fun h _ => if h = .buffer 1 then 1 else 2
  obtain ⟨plan, statement, n, hplan, hs, hn, hvalues⟩ :=
    exists_product_of_any (nestedTwice "a = b;") 2 1
      (fun plan n => n.computed? = some 1 && plan.passes[1]? = some ⟨1, .reduction, [0],
        some 1⟩ && plan.statements[1]?.bind (Draft.written? ·.tree) = some (.buffer 1) &&
        n.leafHandles = [.buffer 1, .buffer 2, .buffer 3, .buffer 4] &&
        n.value unitMachine (plan.memoryBefore unitMachine ranges 2 μ) (0, 0) = 8 &&
        n.fullValue unitMachine (plan.memoryBefore unitMachine ranges 2 μ) (0, 0) = 16)
      (by decide +kernel)
  simp only [Bool.and_eq_true, decide_eq_true_eq] at hvalues
  obtain ⟨⟨⟨⟨⟨hcomputed, hpass⟩, hwritten⟩, hleaves⟩, hvalue⟩, hfull⟩ := hvalues
  obtain ⟨statement', hs', hwritten⟩ := Option.bind_eq_some_iff.mp hwritten
  refine ⟨plan, statement, n, hplan, hs, hn, hcomputed, hpass, ⟨statement', _, hs', hwritten, ?_⟩,
    ranges, μ, fun hupToDate => ?_⟩
  · rw [hleaves]
    exact List.mem_cons_self ..
  · have := hupToDate (0, 0)
    rw [hvalue, hfull] at this
    exact absurd this (by decide)

end LinearKernels
