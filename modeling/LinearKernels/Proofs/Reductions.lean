import LinearKernels.Proofs.Passes

/-!
The table of reductions. An entry stands for the inner product its pass computes; since then
none of the buffers this inner product reads itself has been assigned. What is nested in it
has an older entry of its own, unless one of its buffers has been assigned since. So a
reduction that is used again is out of date exactly if one of the inner products nested in
it has been computed again after it.
-/

namespace LinearKernels

/-- The inner products nested in this one are computed by earlier passes. -/
def Term.OperandsEarlier (n : Term) : Prop :=
  ∀ m ∈ n.nestedProducts, ∃ q r, m.computed? = some q ∧ n.computed? = some r ∧ q < r

namespace Draft

/-- Statement `t` assigns one of the given buffers. -/
def Writes (done : List Statement) (t : Nat) (handles : List Handle) : Prop :=
  ∃ statement h, done[t]? = some statement ∧ written? statement.tree = some h ∧ h ∈ handles

theorem Writes.lt {done : List Statement} {t : Nat} {hs : List Handle} (h : Writes done t hs) :
    t < done.length := by
  obtain ⟨statement, -, hget, -⟩ := h
  exact (List.getElem?_eq_some_iff.mp hget).1

theorem writes_append {done : List Statement} {statement : Statement}
    {t : Nat} (ht : t < done.length) {hs : List Handle} :
    Writes (done ++ [statement]) t hs ↔ Writes done t hs := by
  unfold Writes
  rw [List.getElem?_append_left ht]

variable {env : Declarations} {done : List Statement} {seen : List Term} {d d' : Draft}

/-! ### Reduction passes stay where they are -/

theorem reduction_of_placed {placed : Draft} {s p q : Nat} {tree : Term} {pass : Pass}
    (h : d.place s (.ofTree tree) = (p, placed)) (hpass : pass.kind = .reduction) :
    placed.passes[q]? = some pass ↔ d.passes[q]? = some pass := by
  rcases place_cases h with ⟨before, last, hbefore, rfl, -, hkind, hplaced⟩ | ⟨rfl, hplaced⟩
  · rw [hplaced, hbefore]
    by_cases hq : q < before.length
    · rw [List.getElem?_append_left hq, List.getElem?_append_left hq]
    · have hlast : last.kind ≠ .reduction := hkind ▸ ofTree_ne_reduction tree
      constructor <;> intro hget <;> rcases Registry.getElem?_snoc hget with hget | ⟨-, rfl⟩
      · exact absurd (List.getElem?_eq_some_iff.mp hget).1 hq
      · exact absurd hpass hlast
      · exact absurd (List.getElem?_eq_some_iff.mp hget).1 hq
      · exact absurd hpass hlast
  · rw [hplaced]
    constructor
    · intro hget
      rcases Registry.getElem?_snoc hget with hget | ⟨-, rfl⟩
      · exact hget
      · exact absurd hpass (ofTree_ne_reduction tree)
    · intro hget
      rw [List.getElem?_append_left (List.getElem?_eq_some_iff.mp hget).1, hget]

/-- The reduction pass of an inner product of statement `c`. -/
def reductionPass (r c n : Nat) : Pass :=
  ⟨r, .reduction, [c], some n⟩

/-- Reductions come in the order of the statements they were made for. -/
structure InOrder (done : List Statement) (d : Draft) : Prop where
  le : ∀ r c n, d.passes[r]? = some (reductionPass r c n) → c ≤ done.length
  mono : ∀ q r c c' n n', q < r → d.passes[q]? = some (reductionPass q c' n') →
    d.passes[r]? = some (reductionPass r c n) → c' ≤ c

theorem Reachable.inOrder (h : Reachable env done seen d) : d.InOrder done := by
  induction h with
  | empty =>
    exact ⟨fun r c n h => by simp [Draft.empty] at h,
      fun q r c c' n n' _ h => by simp [Draft.empty] at h⟩
  | @visit done seen d d' m _ hvisit _ ih =>
    cases hvisit with
    | reuse => exact ⟨ih.le, ih.mono⟩
    | reduce =>
      refine ⟨fun r c n hget => ?_, fun q r c c' n n' hqr hq hr => ?_⟩
      · rcases Registry.getElem?_snoc hget with hget | ⟨-, heq⟩
        · exact ih.le r c n hget
        · have hc : done.length = c := List.singleton_inj.mp (congrArg Pass.statements heq)
          exact Nat.le_of_eq hc.symm
      · rcases Registry.getElem?_snoc hr with hr | ⟨rfl, heq⟩
        · rcases Registry.getElem?_snoc hq with hq | ⟨rfl, -⟩
          · exact ih.mono q r c c' n n' hqr hq hr
          · have := (List.getElem?_eq_some_iff.mp hr).1
            omega
        · have hc : done.length = c := List.singleton_inj.mp (congrArg Pass.statements heq)
          rcases Registry.getElem?_snoc hq with hq | ⟨rfl, -⟩
          · exact hc ▸ ih.le q c' n' hq
          · omega
  | @close done statement d placed p ctx _ hcloses ih =>
    have hpass : ∀ r c n, ({ placed with context := ctx }.invalidate statement.tree).passes[r]? =
        some (reductionPass r c n) ↔ d.passes[r]? = some (reductionPass r c n) := by
      intro r c n
      rw [invalidate_passes]
      dsimp only
      exact reduction_of_placed hcloses.place rfl
    refine ⟨fun r c n hget => ?_, fun q r c c' n n' hqr hq hr => ?_⟩
    · have := ih.le r c n ((hpass r c n).mp hget)
      rw [List.length_append]
      omega
    · exact ih.mono q r c c' n n' hqr ((hpass q c' n').mp hq) ((hpass r c n).mp hr)

/-! ### Visited inner products -/

theorem Lawful.visited_of_productAt (h : d.Lawful env done seen) {c n : Nat} {x : Term}
    (hx : productAt done seen c n = some x) : x.Visited env d.context := by
  rcases mem_of_productAt hx with ⟨statement, hstatement, hx⟩ | ⟨-, hx⟩
  · exact (h.planned statement (List.mem_of_getElem? hstatement)).products x hx
  · exact h.visited x hx

/-- Whatever is nested in a visited inner product has been visited. -/
theorem Lawful.visited_of_nested (h : d.Lawful env done seen)
    (hnested : ∀ m ∈ seen, ∀ x ∈ m.nestedProducts, x ∈ seen) {c n : Nat} {m x : Term}
    (hm : productAt done seen c n = some m) (hx : x ∈ m.nestedProducts) :
    x.Visited env d.context := by
  rcases mem_of_productAt hm with ⟨statement, hstatement, hm⟩ | ⟨-, hm⟩
  · exact (h.planned statement (List.mem_of_getElem? hstatement)).products x
      (Term.mem_innerProducts_of_nested hm hx)
  · exact h.visited x (hnested m hm x hx)

theorem Reachable.nested_seen (h : Reachable env done seen d) :
    ∀ m ∈ seen, ∀ x ∈ m.nestedProducts, x ∈ seen := by
  induction h with
  | empty =>
    intro m hm
    cases hm
  | visit _ _ hnested ih =>
    intro m hm x hx
    rcases List.mem_append.mp hm with hm | hm
    · exact List.mem_append_left _ (ih m hm x hx)
    · obtain rfl := List.mem_singleton.mp hm
      exact List.mem_append_left _ (hnested x hx)
  | close _ _ _ =>
    intro m hm
    cases hm

theorem Reachable.visited_of_nested (h : Reachable env done seen d) {c n : Nat} {m x : Term}
    (hm : productAt done seen c n = some m) (hx : x ∈ m.nestedProducts) :
    x.Visited env d.context :=
  h.lawful.visited_of_nested h.nested_seen hm hx

end Draft

namespace Term

variable {env : Declarations} {ctx ctx' : Context} {x y : Term}

theorem Visited.isInner (h : x.Visited env ctx) : x.isInner = true := by
  obtain ⟨-, -, l, r, pass, cell, rfl⟩ := h
  rfl

theorem Visited.key_grows (h : x.Visited env ctx) (hg : ctx.Grows ctx') :
    x.key ctx'.registry = x.key ctx.registry :=
  h.2.1.leavesBound.key_grows hg.registry

/-- Visited inner products with the same key were written alike, and the other way round. -/
theorem Visited.key_eq_iff (hs : ctx.Sound env) (hx : x.Visited env ctx)
    (hy : y.Visited env ctx) :
    x.key ctx.registry = y.key ctx.registry ↔ x.erase = y.erase := by
  obtain ⟨k, hk⟩ := hx.2.1.leavesBound.key_ok
  have hk := hk _ (Registry.Grows.refl _)
  constructor
  · intro h
    exact erase_eq_of_key_eq hs.registry hx.2.1.leavesBound hy.2.1.leavesBound hx.1 hy.1 hk
      (h.symm.trans hk)
  · exact key_eq_of_erase_eq hs.registry hx.2.1.leavesBound hy.2.1.leavesBound

theorem ownHandles_eq_of_erase_eq (h : x.erase = y.erase) : x.ownHandles = y.ownHandles := by
  rw [← ownHandles_erase, h, ownHandles_erase]

/-- Nested inner products of alike terms correspond. -/
theorem exists_nested_of_erase_eq (h : x.erase = y.erase) {m : Term} (hm : m ∈ x.nestedProducts) :
    ∃ m' ∈ y.nestedProducts, m'.erase = m.erase := by
  have hmem : m.erase ∈ x.erase.nestedProducts := by
    rw [nestedProducts_erase]
    exact List.mem_map_of_mem hm
  rw [h, nestedProducts_erase] at hmem
  obtain ⟨m', hm', heq⟩ := List.mem_map.mp hmem
  exact ⟨m', hm', heq⟩

/-- The handles that a reduction pass reads, among the buffers. -/
theorem buffer_mem_reads_iff {l r : Term} {computed : Option Nat} {temporary : Option Argument}
    (h : ∀ m ∈ (inner l r computed temporary).nestedProducts, m.Visited env ctx) (k : Nat) :
    Handle.buffer k ∈ l.handles ++ r.handles ↔
      Handle.buffer k ∈ (inner l r computed temporary).ownHandles := by
  have hcell : ∀ m : Term, m.Visited env ctx → ∃ i, m.handle? = some (.temporary i) := by
    intro m hm
    obtain ⟨i, -, hi, -⟩ := hm.temporary
    exact ⟨i, hi⟩
  simp only [nestedProducts, children, List.flatMap_cons, List.flatMap_nil, List.append_nil] at h
  obtain ⟨hl, hr⟩ := List.forall_mem_append.mp h
  rw [ownHandles, List.mem_append, List.mem_append,
    buffer_mem_handles_iff fun m hm => hcell m (hl m hm),
    buffer_mem_handles_iff fun m hm => hcell m (hr m hm)]

end Term

namespace Draft

variable {env : Declarations} {done : List Statement} {seen : List Term} {d d' : Draft}

/-! ### Entries -/

/-- Entry `e` of the table stands for the inner product `m`, computed for statement `c`. -/
structure Entry (done : List Statement) (seen : List Term) (d : Draft) (e : Reduction) (c : Nat)
    (m : Term) : Prop where
  pass : ∃ n, d.passes[e.pass]? = some (reductionPass e.pass c n) ∧
    productAt done seen c n = some m
  computed : m.computed? = some e.pass
  key : m.key d.context.registry = .ok e.key
  reads : ∀ k, .buffer k ∈ e.reads ↔ .buffer k ∈ m.ownHandles
  unwritten : ∀ t, c ≤ t → ¬ Writes done t m.ownHandles
  operands : ∀ x ∈ m.nestedProducts,
    (∃ e' ∈ d.reductions, x.key d.context.registry = .ok e'.key ∧ e'.pass < e.pass) ∨
      ∃ t, c ≤ t ∧ Writes done t x.ownHandles
  earlier : ∀ x ∈ m.nestedProducts, ∀ e' ∈ d.reductions, x.key d.context.registry = .ok e'.key →
    e'.pass < e.pass → x.computed? = some e'.pass

/-- What holds of the table: every entry stands for an inner product, no two for the same
one, and all inner products of the current statement are in it. -/
structure Table (done : List Statement) (seen : List Term) (d : Draft) : Prop where
  entries : ∀ e ∈ d.reductions, ∃ c m, Entry done seen d e c m
  unique : ∀ e ∈ d.reductions, ∀ e' ∈ d.reductions, e.key = e'.key → e = e'
  seen : ∀ m ∈ seen, ∃ e ∈ d.reductions, m.key d.context.registry = .ok e.key ∧
    m.computed? = some e.pass

theorem Entry.lt {e : Reduction} {c : Nat} {m : Term} (h : Entry done seen d e c m) :
    e.pass < d.passes.length := by
  obtain ⟨n, hn, -⟩ := h.pass
  exact (List.getElem?_eq_some_iff.mp hn).1

theorem table_empty : Table [] [] Draft.empty := by
  constructor
  · intro e he
    cases he
  · intro e he
    cases he
  · intro m hm
    cases hm

/-- An entry stays what it is while later reductions are added. -/
theorem Entry.extend (hreach : Reachable env done seen d) {e : Reduction} {c : Nat} {m : Term}
    (h : Entry done seen d e c m) (x : Term) (hg : d.context.Grows d'.context)
    (hpasses : ∀ (p : Nat) (pass : Pass), d.passes[p]? = some pass → d'.passes[p]? = some pass)
    (hold : ∀ e' ∈ d.reductions, e' ∈ d'.reductions)
    (hnew : ∀ e' ∈ d'.reductions, e' ∈ d.reductions ∨ d.passes.length ≤ e'.pass) :
    Entry done (seen ++ [x]) d' e c m := by
  obtain ⟨n, hpass, hproduct⟩ := h.pass
  have hkeys : ∀ y ∈ m.nestedProducts, y.key d'.context.registry = y.key d.context.registry :=
    fun y hy => (hreach.visited_of_nested hproduct hy).key_grows hg
  refine ⟨⟨n, hpasses _ _ hpass, productAt_visit hproduct⟩, h.computed, ?_, h.reads,
    h.unwritten, ?_, ?_⟩
  · rw [(hreach.lawful.visited_of_productAt hproduct).key_grows hg, h.key]
  · intro y hy
    rcases h.operands y hy with ⟨e', he', hkey, hlt⟩ | hwrites
    · exact .inl ⟨e', hold e' he', (hkeys y hy).trans hkey, hlt⟩
    · exact .inr hwrites
  · intro y hy e' he' hkey hlt
    rcases hnew e' he' with he' | hle
    · exact h.earlier y hy e' he' ((hkeys y hy).symm.trans hkey) hlt
    · have := h.lt
      omega

/-- The inner products of the current statement keep their entries. -/
theorem Table.seen_grows (hreach : Reachable env done seen d) (h : Table done seen d)
    (hg : d.context.Grows d'.context) (hold : ∀ e ∈ d.reductions, e ∈ d'.reductions) {m : Term}
    (hm : m ∈ seen) :
    ∃ e ∈ d'.reductions, m.key d'.context.registry = .ok e.key ∧ m.computed? = some e.pass := by
  obtain ⟨e, he, hkey, hcomputed⟩ := h.seen m hm
  exact ⟨e, hold e he, by rw [(hreach.lawful.visited m hm).key_grows hg, hkey], hcomputed⟩

/-- A new reduction has its entry. -/
theorem Table.entry_reduced (hreach : Reachable env done seen d) (h : Table done seen d)
    {l r : Term} {cell : Argument} {ctx : Context} {key : String}
    (prepared : d.Prepared env l r cell ctx key)
    (hnested : ∀ x ∈ (Term.inner l r (some d.passes.length) (some cell)).nestedProducts,
      x ∈ seen) :
    Entry done (seen ++ [.inner l r (some d.passes.length) (some cell)])
      (d.reduced done.length seen.length l r ctx key)
      ⟨key, d.passes.length, l.handles ++ r.handles⟩ done.length
      (.inner l r (some d.passes.length) (some cell)) := by
  have hkeys : ∀ x ∈ seen, x.key ctx.registry = x.key d.context.registry :=
    fun x hx => (hreach.lawful.visited x hx).key_grows prepared.grows
  refine ⟨⟨seen.length, List.getElem?_concat_length, productAt_last done seen _⟩,
    rfl, prepared.key,
    Term.buffer_mem_reads_iff fun x hx => hreach.lawful.visited x (hnested x hx), ?_, ?_, ?_⟩
  · intro t ht hwrites
    have := hwrites.lt
    omega
  · intro x hx
    obtain ⟨e, he, hkey, -⟩ := h.seen x (hnested x hx)
    obtain ⟨c, m, hentry⟩ := h.entries e he
    exact .inl ⟨e, List.mem_append_left _ he, (hkeys x (hnested x hx)).trans hkey, hentry.lt⟩
  · intro x hx e' he' hkey hlt
    obtain ⟨e, he, hkey', hcomputed⟩ := h.seen x (hnested x hx)
    rcases List.mem_append.mp he' with he' | he'
    · have hsame : e'.key = e.key :=
        Except.ok.inj (hkey.symm.trans ((hkeys x (hnested x hx)).trans hkey'))
      rw [h.unique e' he' e he hsame]
      exact hcomputed
    · obtain rfl := List.mem_singleton.mp he'
      omega

theorem Table.visit (hreach : Reachable env done seen d) (h : Table done seen d) {m : Term}
    (hvisit : Visit env done.length seen.length d m d')
    (hnested : ∀ x ∈ m.nestedProducts, x ∈ seen) :
    Table done (seen ++ [m]) d' := by
  have hg := hvisit.context.1
  cases hvisit with
  | @reuse l r cell ctx key red prepared found =>
    refine ⟨fun e he => ?_, h.unique, fun x hx => ?_⟩
    · obtain ⟨c, m, hentry⟩ := h.entries e he
      exact ⟨c, m, hentry.extend hreach _ hg (fun _ _ h => h) (fun _ h => h) fun _ h => .inl h⟩
    · rcases List.mem_append.mp hx with hx | hx
      · exact h.seen_grows hreach hg (fun _ h => h) hx
      · obtain rfl := List.mem_singleton.mp hx
        have hkey : red.key = key := by simpa using List.find?_some found
        exact ⟨red, List.mem_of_find?_eq_some found, hkey ▸ prepared.key, rfl⟩
  | @reduce l r cell ctx key prepared missing =>
    have hmissing : ∀ e ∈ d.reductions, e.key ≠ key := fun e he => by
      simpa using List.find?_eq_none.mp missing e he
    refine ⟨fun e he => ?_, fun e he e' he' heq => ?_, fun x hx => ?_⟩
    · rcases List.mem_append.mp he with he | he
      · obtain ⟨c, m, hentry⟩ := h.entries e he
        refine ⟨c, m, hentry.extend hreach _ hg (fun p pass hp => ?_)
          (fun _ h => List.mem_append_left _ h) fun e' he' => ?_⟩
        · rw [reduced, List.getElem?_append_left (List.getElem?_eq_some_iff.mp hp).1, hp]
        · rcases List.mem_append.mp he' with he' | he'
          · exact .inl he'
          · obtain rfl := List.mem_singleton.mp he'
            exact .inr (Nat.le_refl _)
      · obtain rfl := List.mem_singleton.mp he
        exact ⟨done.length, _, h.entry_reduced hreach prepared hnested⟩
    · rcases List.mem_append.mp he with he | he <;> rcases List.mem_append.mp he' with he' | he'
      · exact h.unique e he e' he' heq
      · obtain rfl := List.mem_singleton.mp he'
        exact absurd heq (hmissing e he)
      · obtain rfl := List.mem_singleton.mp he
        exact absurd heq.symm (hmissing e' he')
      · rw [List.mem_singleton.mp he, List.mem_singleton.mp he']
    · rcases List.mem_append.mp hx with hx | hx
      · exact h.seen_grows hreach hg (fun _ h => List.mem_append_left _ h) hx
      · obtain rfl := List.mem_singleton.mp hx
        exact ⟨_, List.mem_append_right _ (List.mem_singleton_self _), prepared.key, rfl⟩

@[simp] theorem place_reductions (d : Draft) (s : Nat) (kind : PassKind) :
    (d.place s kind).2.reductions = d.reductions := by
  unfold place
  split <;> rfl

/-- A planned statement assigns a buffer. -/
theorem written_of_lawful {tree : Term}
    (h : ∃ op target value, Term.Assigns (·.Declared env) tree.erase op target value) :
    ∃ k, written? tree = some (.buffer k) := by
  obtain ⟨op, target, value, hassigns⟩ := h
  obtain ⟨target', value', rfl, rfl, -⟩ := hassigns.of_erase
  obtain ⟨k, hk, -⟩ := hassigns.target_admitted.leaves _ (List.mem_singleton_self _)
  exact ⟨k, by rw [← hk]; rfl⟩

/-- What closing a statement does to the table: entries that read what it assigns go. -/
theorem mem_reductions_close {s p : Nat} {tree : Term} {placed : Draft} {ctx : Context} {k : Nat}
    (hcloses : Closes env s tree d p placed ctx)
    (hk : written? tree = some (.buffer k)) {e : Reduction} :
    e ∈ ({ placed with context := ctx }.invalidate tree).reductions ↔
      e ∈ d.reductions ∧ .buffer k ∉ e.reads := by
  have hplaced : placed.reductions = d.reductions := by
    have := place_reductions d s (.ofTree tree)
    rwa [hcloses.place] at this
  simp [invalidate, hk, hplaced]

theorem Entry.close {statement : Statement}
    (hreach : Reachable env done statement.tree.innerProducts d)
    (h : Table done statement.tree.innerProducts d) {p : Nat} {placed : Draft}
    {ctx : Context} (hcloses : Closes env done.length statement.tree d p placed ctx) {k : Nat}
    (hk : written? statement.tree = some (.buffer k)) {e : Reduction} (he : .buffer k ∉ e.reads)
    {c : Nat} {m : Term} (hentry : Entry done statement.tree.innerProducts d e c m) :
    Entry (done ++ [statement]) []
      ({ placed with context := ctx }.invalidate statement.tree) e c m := by
  obtain ⟨n, hpass, hproduct⟩ := hentry.pass
  have hvisited : ∀ y ∈ m.nestedProducts, y.Visited env d.context := fun y hy =>
    hreach.visited_of_nested hproduct hy
  have hlast : (done ++ [statement])[done.length]? = some statement := List.getElem?_concat_length
  refine ⟨⟨n, ?_, productAt_close hproduct⟩, hentry.computed, ?_, hentry.reads, ?_, ?_, ?_⟩
  · rw [invalidate_passes]
    dsimp only
    exact (reduction_of_placed hcloses.place rfl).mpr hpass
  · rw [invalidate_context]
    rw [(hreach.lawful.visited_of_productAt hproduct).key_grows hcloses.grows, hentry.key]
  · intro t ht hwrites
    have hlt := hwrites.lt
    rw [List.length_append, List.length_singleton] at hlt
    by_cases htd : t < done.length
    · exact hentry.unwritten t ht ((writes_append htd).mp hwrites)
    · obtain rfl : t = done.length := by omega
      obtain ⟨statement', h', hget, hwritten, hmem⟩ := hwrites
      obtain rfl := Option.some.inj (hlast.symm.trans hget)
      obtain rfl := Option.some.inj (hk.symm.trans hwritten)
      exact he ((hentry.reads k).mpr hmem)
  · intro y hy
    rw [invalidate_context]
    rcases hentry.operands y hy with ⟨e', he', hkey, hlt⟩ | ⟨t, ht, hwrites⟩
    · by_cases hread : .buffer k ∈ e'.reads
      · obtain ⟨c', m', hentry'⟩ := h.entries e' he'
        obtain ⟨n', -, hproduct'⟩ := hentry'.pass
        have herase :
            m'.erase = y.erase := ((hreach.lawful.visited_of_productAt hproduct').key_eq_iff
          hreach.sound (hvisited y hy)).mp (hentry'.key.trans hkey.symm)
        refine .inr ⟨done.length, hreach.inOrder.le _ _ _ hpass, statement,
          .buffer k, hlast, hk, ?_⟩
        rw [← Term.ownHandles_eq_of_erase_eq herase]
        exact (hentry'.reads k).mp hread
      · refine .inl ⟨e', (mem_reductions_close hcloses hk).mpr ⟨he', hread⟩, ?_, hlt⟩
        exact ((hvisited y hy).key_grows hcloses.grows).trans hkey
    · exact .inr ⟨t, ht, (writes_append hwrites.lt).mpr hwrites⟩
  · intro y hy e' he' hkey hlt
    rw [invalidate_context] at hkey
    exact hentry.earlier y hy e' ((mem_reductions_close hcloses hk).mp he').1
      (((hvisited y hy).key_grows hcloses.grows).symm.trans hkey) hlt

theorem Reachable.table (h : Reachable env done seen d) : Table done seen d := by
  induction h with
  | empty => exact table_empty
  | visit hreach hvisit hnested ih => exact ih.visit hreach hvisit hnested
  | close hreach hcloses ih =>
    obtain ⟨k, hk⟩ := written_of_lawful hcloses.lawful
    refine ⟨fun e he => ?_, fun e he e' he' heq => ?_, fun m hm => ?_⟩
    · obtain ⟨he, hread⟩ := (mem_reductions_close hcloses hk).mp he
      obtain ⟨c, m, hentry⟩ := ih.entries e he
      exact ⟨c, m, hentry.close hreach ih hcloses hk hread⟩
    · exact ih.unique e ((mem_reductions_close hcloses hk).mp he).1 e'
        ((mem_reductions_close hcloses hk).mp he').1 heq
    · cases hm

/-! ### Which reductions are up to date -/

/-- The reduction that an inner product of statement `s` uses: since it was made, no leaf of
the inner product has been assigned exactly if its operands come earlier. -/
def Explained (done : List Statement) (passes : List Pass) (s : Nat) (n : Term) : Prop :=
  ∃ r c k, n.computed? = some r ∧ passes[r]? = some (reductionPass r c k) ∧ c ≤ s ∧
    ((∀ t, c ≤ t → t < s → ¬ Writes done t n.leafHandles) ↔ n.OperandsEarlier)

/-- An inner product of the current statement, with the entry it uses. -/
theorem Reachable.entry_of_seen (h : Reachable env done seen d) {n : Term} (hn : n ∈ seen) :
    ∃ e ∈ d.reductions, n.key d.context.registry = .ok e.key ∧ n.computed? = some e.pass ∧
      ∃ c m, Entry done seen d e c m ∧ m.Visited env d.context ∧ m.erase = n.erase := by
  obtain ⟨e, he, hkey, hcomputed⟩ := h.table.seen n hn
  obtain ⟨c, m, hentry⟩ := h.table.entries e he
  obtain ⟨k, -, hproduct⟩ := hentry.pass
  have hm := h.lawful.visited_of_productAt hproduct
  exact ⟨e, he, hkey, hcomputed, c, m, hentry, hm,
    (hm.key_eq_iff h.sound (h.lawful.visited n hn)).mp (hentry.key.trans hkey.symm)⟩

theorem Reachable.explained_seen (h : Reachable env done seen d) {n : Term} (hn : n ∈ seen) :
    Explained done d.passes done.length n := by
  obtain ⟨e, he, hkey, hcomputed, c, m, hentry, hm, herase⟩ := h.entry_of_seen hn
  obtain ⟨k, hpass, hproduct⟩ := hentry.pass
  have hinner := (h.lawful.visited n hn).isInner
  refine ⟨e.pass, c, k, hcomputed, hpass, h.inOrder.le _ _ _ hpass, ?_, ?_⟩
  · intro hunwritten x hx
    obtain ⟨e', he', hkey', hcomputed'⟩ := h.table.seen x (h.nested_seen n hn x hx)
    refine ⟨e'.pass, e.pass, hcomputed', hcomputed, ?_⟩
    obtain ⟨y, hy, hyx⟩ := Term.exists_nested_of_erase_eq herase.symm hx
    have hkeys := ((h.visited_of_nested hproduct hy).key_eq_iff h.sound
      (h.lawful.visited x (h.nested_seen n hn x hx))).mpr hyx
    rcases hentry.operands y hy with ⟨e'', he'', hkey'', hlt⟩ | ⟨t, ht, hwrites⟩
    · have hsame : e''.key = e'.key := Except.ok.inj (hkey''.symm.trans (hkeys.trans hkey'))
      rwa [h.table.unique e'' he'' e' he' hsame] at hlt
    · refine absurd ?_ (hunwritten t ht hwrites.lt)
      obtain ⟨statement, w, hget, hw, hmem⟩ := hwrites
      refine ⟨statement, w, hget, hw, ?_⟩
      rw [Term.ownHandles_eq_of_erase_eq hyx] at hmem
      exact (Term.mem_leafHandles_inner_iff hinner w).mpr (.inr ⟨x, hx, hmem⟩)
  · intro hearlier t ht hlt hwrites
    obtain ⟨statement, w, hget, hw, hmem⟩ := hwrites
    rcases (Term.mem_leafHandles_inner_iff hinner w).mp hmem with hown | ⟨x, hx, hown⟩
    · refine hentry.unwritten t ht ⟨statement, w, hget, hw, ?_⟩
      rwa [Term.ownHandles_eq_of_erase_eq herase]
    · obtain ⟨q, r, hq, hr, hqr⟩ := hearlier x hx
      obtain ⟨e', he', -, hcomputed', c', m', hentry', -, herase'⟩ :=
        h.entry_of_seen (h.nested_seen n hn x hx)
      obtain rfl : q = e'.pass := Option.some.inj (hq.symm.trans hcomputed')
      obtain rfl : r = e.pass := Option.some.inj (hr.symm.trans hcomputed)
      obtain ⟨k', hpass', -⟩ := hentry'.pass
      have hc : c' ≤ c := h.inOrder.mono _ _ _ _ _ _ hqr hpass' hpass
      refine hentry'.unwritten t (Nat.le_trans hc ht) ⟨statement, w, hget, hw, ?_⟩
      rwa [Term.ownHandles_eq_of_erase_eq herase']

theorem Explained.mono {done' : List Statement} {passes passes' : List Pass} {s : Nat} {n : Term}
    (h : Explained done passes s n)
    (hwrites : ∀ t < s, ∀ hs, Writes done' t hs ↔ Writes done t hs)
    (hpasses : ∀ r c k, passes[r]? = some (reductionPass r c k) →
      passes'[r]? = some (reductionPass r c k)) : Explained done' passes' s n := by
  obtain ⟨r, c, k, hcomputed, hpass, hle, hiff⟩ := h
  refine ⟨r, c, k, hcomputed, hpasses r c k hpass, hle, Iff.trans ?_ hiff⟩
  exact forall_congr' fun t => forall_congr' fun _ => forall_congr' fun ht =>
    not_congr (hwrites t ht _)

/-- Every inner product visited so far uses a reduction that is explained. -/
theorem Reachable.explained (h : Reachable env done seen d) {s k : Nat} {n : Term}
    (hn : productAt done seen s k = some n) : Explained done d.passes s n := by
  induction h with
  | empty =>
    rcases mem_of_productAt hn with ⟨statement, hget, -⟩ | ⟨-, hmem⟩
    · simp at hget
    · cases hmem
  | @visit done seen d d' m hreach hvisit hnested ih =>
    rcases mem_of_productAt hn with ⟨statement, hget, -⟩ | ⟨rfl, hmem⟩
    · rw [productAt_done hget] at hn
      refine (ih ((productAt_done hget).trans hn)).mono (fun _ _ _ => Iff.rfl) fun r c k hr => ?_
      cases hvisit with
      | reuse => exact hr
      | reduce => rw [reduced, List.getElem?_append_left (List.getElem?_eq_some_iff.mp hr).1, hr]
    · exact (hreach.visit hvisit hnested).explained_seen hmem
  | @close done statement d placed p ctx hreach hcloses ih =>
    have hpasses : ∀ r c k, d.passes[r]? = some (reductionPass r c k) →
        ({ placed with context := ctx }.invalidate statement.tree).passes[r]? =
          some (reductionPass r c k) := by
      intro r c k hr
      rw [invalidate_passes]
      exact (reduction_of_placed hcloses.place rfl).mpr hr
    rcases mem_of_productAt hn with ⟨statement', hget, hmem⟩ | ⟨-, hmem⟩
    · rw [productAt_done hget] at hn
      rcases Registry.getElem?_snoc hget with hget | ⟨rfl, rfl⟩
      · have hlt := (List.getElem?_eq_some_iff.mp hget).1
        exact (ih ((productAt_done hget).trans hn)).mono
          (fun t ht hs => writes_append (Nat.lt_trans ht hlt)) hpasses
      · exact (hreach.explained_seen hmem).mono (fun t ht hs => writes_append ht) hpasses
    · cases hmem

end Draft

end LinearKernels
