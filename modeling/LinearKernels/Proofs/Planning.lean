import LinearKernels.Schedule
import LinearKernels.Proofs.Lowered

/-!
Planning as a sequence of steps. A draft is built by visiting the inner products of a
statement one after the other, operands first, and then closing the statement. A visit
either finds a reduction of the same key or adds a reduction pass; closing places the
statement, binds it for its pass and forgets the reductions that read what it writes.
Planning lawful statements never fails, and goes through reachable drafts only, so
whatever the two steps preserve holds of every plan.
-/

namespace LinearKernels

namespace Context

theorem grows_withPass (ctx : Context) (pass : Nat) : ctx.Grows (ctx.withPass pass) :=
  ⟨Registry.Grows.refl _, [], (List.append_nil _).symm⟩

theorem Sound.withPass {env : Declarations} {ctx : Context} (h : ctx.Sound env) (pass : Nat) :
    (ctx.withPass pass).Sound env := by
  refine ⟨h.registry, h.distinct, h.buffers, fun i rec j hi hj => ?_⟩
  obtain ⟨lhs, rhs, key, hcell⟩ := h.cells i rec j hi hj
  exact ⟨lhs, rhs, key, hcell.grows (ctx.grows_withPass pass) (Record.Grows.refl rec)⟩

end Context

namespace Term

/-- The leaves do not show that they have been bound. -/
theorem declared_of_erase_eq {env : Declarations} {s t : Term} (h : s.erase = t.erase)
    (hs : ∀ a ∈ s.leaves, a.Declared env) : ∀ a ∈ t.leaves, a.Declared env := by
  intro a ha
  have hmem : a.erase ∈ t.erase.leaves := by
    rw [leaves_erase]
    exact List.mem_map_of_mem ha
  rw [← h, leaves_erase] at hmem
  obtain ⟨b, hb, heq⟩ := List.mem_map.mp hmem
  exact (hs b hb).of_erase_eq heq

theorem productsOutside_erase (t : Term) : t.erase.ProductsOutside ↔ t.ProductsOutside := by
  simp only [ProductsOutside, innerProducts_erase, List.forall_mem_map, matrixProducts_erase,
    List.map_eq_nil_iff]

/-- A walk counts the matrix products of a term. -/
theorem count_eq_countP {t : Term} (ht : t.ProductsOutside) {kind : TermKind}
    (hkind : ∀ s, kind.admits s = true → s.product?.isSome = true) :
    t.count kind = t.matrixProducts.countP kind.admits := by
  rw [count, ← filter_walk_product ht, List.countP_filter]
  refine List.countP_congr fun s _ => ?_
  simpa using hkind s

/-- The kind of pass a statement needs does not depend on how it is bound. -/
theorem ofTree_eq_of_erase_eq {s t : Term} (hs : s.ProductsOutside) (h : s.erase = t.erase) :
    PassKind.ofTree s = PassKind.ofTree t := by
  have ht : t.ProductsOutside := by
    rw [← productsOutside_erase, ← h, productsOutside_erase]
    exact hs
  have hproducts : s.matrixProducts.map erase = t.matrixProducts.map erase := by
    rw [← matrixProducts_erase, h, matrixProducts_erase]
  have hcount : ∀ kind : TermKind, (∀ x, kind.admits x = true → x.product?.isSome = true) →
      (∀ x, kind.admits x.erase = kind.admits x) → s.count kind = t.count kind := by
    intro kind hkind herase
    have hmap : ∀ xs : List Term, (xs.map erase).countP kind.admits = xs.countP kind.admits := by
      intro xs
      rw [List.countP_map]
      exact List.countP_congr fun x _ => by simp [herase]
    rw [count_eq_countP hs hkind, count_eq_countP ht hkind, ← hmap, hproducts, hmap]
  unfold PassKind.ofTree
  rw [hcount .matVec (by intro x; cases x <;> simp [TermKind.admits, product?])
    (by intro x; cases x <;> rfl),
    hcount .matMat (by intro x; cases x <;> simp [TermKind.admits, product?])
      (by intro x; cases x <;> rfl), shape_eq_of_erase_eq h]

/-- With its inner products bound and its leaves declared a term can be bound. -/
theorem bindable_of_products {env : Declarations} {ctx : Context} {t : Term}
    (hleaves : ∀ a ∈ t.leaves, a.Declared env)
    (hproducts : ∀ m ∈ t.innerProducts, m.BoundIn env ctx) : t.Bindable env ctx := by
  have pair : ∀ {l r : Term}, (∀ a ∈ l.leaves ++ r.leaves, a.Declared env) →
      (∀ a ∈ l.leaves, a.Declared env) ∧ ∀ a ∈ r.leaves, a.Declared env := fun h =>
    ⟨fun a ha => h a (List.mem_append_left _ ha), fun a ha => h a (List.mem_append_right _ ha)⟩
  induction t with
  | leaf arg => exact hleaves arg (List.mem_singleton_self arg)
  | unary op sub ih => exact ih hleaves hproducts
  | binary op lhs rhs ihl ihr =>
    obtain ⟨hl, hr⟩ := List.forall_mem_append.mp hproducts
    exact ⟨ihl (pair hleaves).1 hl, ihr (pair hleaves).2 hr⟩
  | matMat lhs rhs ihl ihr =>
    obtain ⟨hl, hr⟩ := List.forall_mem_append.mp hproducts
    exact ⟨ihl (pair hleaves).1 hl, ihr (pair hleaves).2 hr⟩
  | matVec lhs rhs ihl ihr =>
    obtain ⟨hl, hr⟩ := List.forall_mem_append.mp hproducts
    exact ⟨ihl (pair hleaves).1 hl, ihr (pair hleaves).2 hr⟩
  | inner lhs rhs computed temporary ihl ihr =>
    exact (hproducts _ (self_mem_innerProducts lhs rhs computed temporary)).bindable

end Term

namespace Draft

/-- The inner product with operands `l` and `r` and the temporary `cell` is bound for the
pass that comes next. -/
structure Prepared (env : Declarations) (d : Draft) (l r : Term) (cell : Argument) (ctx : Context)
    (key : String) : Prop where
  typed : (Term.inner l r none none).WellTyped
  sound : ctx.Sound env
  grows : d.context.Grows ctx
  bound : (Term.inner l r none (some cell)).BoundIn env ctx
  named : (Term.inner l r none (some cell)).NamedIn ctx.registry d.passes.length
  key : (Term.inner l r none (some cell)).key ctx.registry = .ok key

/-- The draft with one more reduction, for the `n`th inner product of statement `s`. -/
def reduced (d : Draft) (s n : Nat) (l r : Term) (ctx : Context) (key : String) : Draft :=
  { d with
    passes := d.passes ++ [⟨d.passes.length, .reduction, [s], some n⟩]
    context := ctx
    reductions := d.reductions ++ [⟨key, d.passes.length, l.handles ++ r.handles⟩] }

/-- The `n`th inner product of statement `s` is computed: by a reduction that is still
valid, or by a new one. -/
inductive Visit (env : Declarations) (s n : Nat) (d : Draft) : Term → Draft → Prop
  | reuse {l r : Term} {cell : Argument} {ctx : Context} {key : String} {red : Reduction}
      (prepared : d.Prepared env l r cell ctx key)
      (found : d.reductions.find? (·.key = key) = some red) :
      Visit env s n d (.inner l r (some red.pass) (some cell)) { d with context := ctx }
  | reduce {l r : Term} {cell : Argument} {ctx : Context} {key : String}
      (prepared : d.Prepared env l r cell ctx key)
      (missing : d.reductions.find? (·.key = key) = none) :
      Visit env s n d (.inner l r (some d.passes.length) (some cell)) (d.reduced s n l r ctx key)

variable {env : Declarations} {d d' : Draft} {s n : Nat} {m : Term}

theorem Visit.context (h : Visit env s n d m d') :
    d.context.Grows d'.context ∧ d'.context.Sound env ∧ m.BoundIn env d'.context := by
  cases h with
  | reuse prepared _ => exact ⟨prepared.grows, prepared.sound, prepared.bound⟩
  | reduce prepared _ => exact ⟨prepared.grows, prepared.sound, prepared.bound⟩

/-- Inner products are visited one after the other. -/
inductive Visits (env : Declarations) (s : Nat) : Nat → Draft → List Term → Draft → Prop
  | nil (n : Nat) (d : Draft) : Visits env s n d [] d
  | cons {n : Nat} {d d' d'' : Draft} {m : Term} {ms : List Term} :
      Visit env s n d m d' → Visits env s (n + 1) d' ms d'' → Visits env s n d (m :: ms) d''

theorem Visits.append {n : Nat} {d d' d'' : Draft} {xs ys : List Term}
    (hx : Visits env s n d xs d') (hy : Visits env s (n + xs.length) d' ys d'') :
    Visits env s n d (xs ++ ys) d'' := by
  induction hx with
  | nil n d => exact hy
  | cons hvisit _ ih =>
    refine .cons hvisit (ih ?_)
    rw [List.length_cons] at hy
    simpa [Nat.add_assoc, Nat.add_comm 1] using hy

theorem Visits.context {n : Nat} {d d' : Draft} {ms : List Term} (h : Visits env s n d ms d')
    (hs : d.context.Sound env) :
    d.context.Grows d'.context ∧ d'.context.Sound env ∧ ∀ m ∈ ms, m.BoundIn env d'.context := by
  induction h with
  | nil n d => exact ⟨Context.Grows.refl _, hs, fun m hm => by cases hm⟩
  | cons hvisit _ ih =>
    obtain ⟨hgrows, hsound, hbound⟩ := hvisit.context
    obtain ⟨hgrows', hsound', hbound'⟩ := ih hsound
    refine ⟨hgrows.trans hgrows', hsound', fun m hm => ?_⟩
    rcases List.mem_cons.mp hm with rfl | hm
    · exact hbound.grows hgrows'
    · exact hbound' m hm

/-- An inner product whose operands have been visited is visited. -/
theorem addInner_ok (s n : Nat) {l r : Term} (hs : d.context.Sound env)
    (wt : (Term.inner l r none none).WellTyped)
    (hleaves : ∀ a ∈ (Term.inner l r none none).leaves, a.Declared env)
    (hproducts : ∀ m ∈ l.innerProducts ++ r.innerProducts, m.BoundIn env d.context) :
    ∃ m d', d.addInner s n (.inner l r none none) = .ok (m, d') ∧ Visit env s n d m d' ∧
      m.innerProducts = l.innerProducts ++ r.innerProducts ++ [m] ∧
      m.erase = (Term.inner l r none none).erase := by
  have hgrow := d.context.grows_withPass d.passes.length
  obtain ⟨hlp, hrp⟩ := List.forall_mem_append.mp hproducts
  have hlp' : ∀ m ∈ l.innerProducts, m.BoundIn env (d.context.withPass d.passes.length) :=
    fun m hm => (hlp m hm).grows hgrow
  have hrp' : ∀ m ∈ r.innerProducts, m.BoundIn env (d.context.withPass d.passes.length) :=
    fun m hm => (hrp m hm).grows hgrow
  have hl := Term.bindable_of_products (fun a ha => hleaves a (List.mem_append_left _ ha)) hlp'
  have hr := Term.bindable_of_products (fun a ha => hleaves a (List.mem_append_right _ ha)) hrp'
  obtain ⟨l', ctx₁, hbl⟩ := Term.bind_ok wt.1 (hs.withPass d.passes.length) hl
  obtain ⟨r', ctx₂, hbr⟩ := Term.bind_ok wt.2.1 hbl.sound (hr.grows hbl.grows)
  obtain ⟨cell, ctx, hb⟩ := hbl.inner hbr none none wt (fun cell hcell => by cases hcell)
  obtain ⟨key, hkey⟩ := hb.bound.leavesBound.key_ok
  have hkey := hkey _ (Registry.Grows.refl _)
  have hprepared : d.Prepared env l' r' cell ctx key :=
    ⟨Term.WellTyped.of_erase_eq (t := .inner l' r' none none) hb.erase.symm wt, hb.sound,
      hgrow.trans hb.grows, hb.bound, hb.named, hkey⟩
  have hips : l'.innerProducts ++ r'.innerProducts = l.innerProducts ++ r.innerProducts := by
    rw [hbl.kept hlp', hbr.kept fun m hm => (hrp' m hm).grows hbl.grows]
  cases hfind : d.reductions.find? (·.key = key) with
  | some red =>
    refine ⟨_, _, ?_, .reuse hprepared hfind, ?_, hb.erase⟩
    · simp only [addInner, hb.bindAll, hkey, hfind, Outcome.ok_bind, Term.markComputed,
        Outcome.pure_eq_ok]
    · rw [Term.innerProducts, hips]
  | none =>
    refine ⟨_, _, ?_, .reduce hprepared hfind, ?_, hb.erase⟩
    · simp only [addInner, hb.bindAll, hkey, hfind, Outcome.ok_bind, Term.markComputed,
        Term.operands?, Outcome.pure_eq_ok, reduced]
    · rw [Term.innerProducts, hips]

/-- What visiting all inner products of a term leaves behind. -/
structure AddsInners (env : Declarations) (s : Nat) (t : Term) (n : Nat) (d : Draft) (t' : Term)
    (d' : Draft) : Prop where
  eq : addInners s t n d = .ok (t', n + t'.innerProducts.length, d')
  visits : Visits env s n d t'.innerProducts d'
  erase : t'.erase = t.erase

/-- The inner products of two operands are visited one after the other. -/
theorem AddsInners.pair {l r l' r' : Term} {d₁ d₂ : Draft} (hl : AddsInners env s l n d l' d₁)
    (hr : AddsInners env s r (n + l'.innerProducts.length) d₁ r' d₂) :
    addInners s r (n + l'.innerProducts.length) d₁ =
        .ok (r', n + (l'.innerProducts ++ r'.innerProducts).length, d₂) ∧
      Visits env s n d (l'.innerProducts ++ r'.innerProducts) d₂ := by
  refine ⟨?_, hl.visits.append hr.visits⟩
  rw [hr.eq, List.length_append, Nat.add_assoc]

theorem AddsInners.join {l r l' r' : Term} {d₁ d₂ : Draft} (hl : AddsInners env s l n d l' d₁)
    (hr : AddsInners env s r (n + l'.innerProducts.length) d₁ r' d₂) {join : Term → Term → Term}
    (hj : Term.Joins join)
    (hadd : addInners s (join l r) n d =
      addInners s l n d >>= fun (l, n, d) => addInners s r n d >>= fun (r, n, d) =>
        return (join l r, n, d)) :
    AddsInners env s (join l r) n d (join l' r') d₂ := by
  obtain ⟨heq, hvisits⟩ := hl.pair hr
  refine ⟨?_, ?_, ?_⟩
  · simp only [hadd, hl.eq, heq, Outcome.ok_bind, Outcome.pure_eq_ok, hj.products]
  · rw [hj.products]
    exact hvisits
  · rw [hj.erase, hj.erase, hl.erase, hr.erase]

/-- All inner products of a declared and well-typed term can be visited. -/
theorem addInners_ok (s : Nat) {t : Term} (wt : t.WellTyped) (hbare : t.erase = t)
    (hleaves : ∀ a ∈ t.leaves, a.Declared env) (n : Nat) {d : Draft} (hs : d.context.Sound env) :
    ∃ t' d', AddsInners env s t n d t' d' := by
  have left : ∀ {l r : Term}, (∀ a ∈ l.leaves ++ r.leaves, a.Declared env) →
      ∀ a ∈ l.leaves, a.Declared env := fun h a ha => h a (List.mem_append_left _ ha)
  have right : ∀ {l r : Term}, (∀ a ∈ l.leaves ++ r.leaves, a.Declared env) →
      ∀ a ∈ r.leaves, a.Declared env := fun h a ha => h a (List.mem_append_right _ ha)
  induction t generalizing n d with
  | leaf arg => exact ⟨_, d, rfl, .nil n d, rfl⟩
  | unary op sub ih =>
    obtain ⟨sub', d', h⟩ := ih wt.1 (Term.unary.inj hbare).2 hleaves n hs
    refine ⟨.unary op sub', d', ?_, h.visits, by rw [Term.erase, h.erase, Term.erase]⟩
    rw [addInners, h.eq]
    rfl
  | binary op lhs rhs ihl ihr =>
    obtain ⟨-, hbl, hbr⟩ := Term.binary.inj hbare
    obtain ⟨l', d₁, hl⟩ := ihl wt.1 hbl (left hleaves) n hs
    obtain ⟨r', d₂, hr⟩ := ihr wt.2.1 hbr (right hleaves) (n + l'.innerProducts.length)
      (hl.visits.context hs).2.1
    exact ⟨_, d₂, hl.join hr (Term.joins_binary op) rfl⟩
  | matMat lhs rhs ihl ihr =>
    obtain ⟨hbl, hbr⟩ := Term.matMat.inj hbare
    obtain ⟨l', d₁, hl⟩ := ihl wt.1 hbl (left hleaves) n hs
    obtain ⟨r', d₂, hr⟩ := ihr wt.2.1 hbr (right hleaves) (n + l'.innerProducts.length)
      (hl.visits.context hs).2.1
    exact ⟨_, d₂, hl.join hr Term.joins_matMat rfl⟩
  | matVec lhs rhs ihl ihr =>
    obtain ⟨hbl, hbr⟩ := Term.matVec.inj hbare
    obtain ⟨l', d₁, hl⟩ := ihl wt.1 hbl (left hleaves) n hs
    obtain ⟨r', d₂, hr⟩ := ihr wt.2.1 hbr (right hleaves) (n + l'.innerProducts.length)
      (hl.visits.context hs).2.1
    exact ⟨_, d₂, hl.join hr Term.joins_matVec rfl⟩
  | inner lhs rhs computed temporary ihl ihr =>
    obtain ⟨hbl, hbr, rfl, rfl⟩ := Term.inner.inj hbare
    obtain ⟨l', d₁, hl⟩ := ihl wt.1 hbl (left hleaves) n hs
    obtain ⟨r', d₂, hr⟩ := ihr wt.2.1 hbr (right hleaves) (n + l'.innerProducts.length)
      (hl.visits.context hs).2.1
    obtain ⟨heq, hvisits⟩ := hl.pair hr
    obtain ⟨-, hs₂, hbound⟩ := hvisits.context hs
    have herase : (Term.inner lhs rhs none none).erase = (Term.inner l' r' none none).erase := by
      rw [Term.erase, Term.erase, hl.erase, hr.erase]
    obtain ⟨m, d', hadd, hvisit, hips, herase'⟩ := addInner_ok s
      (n + (l'.innerProducts ++ r'.innerProducts).length) hs₂ (wt.of_erase_eq herase)
      (Term.declared_of_erase_eq herase hleaves) hbound
    refine ⟨m, d', ?_, ?_, herase'.trans herase.symm⟩
    · have hlength : m.innerProducts.length =
          (l'.innerProducts ++ r'.innerProducts).length + 1 := by
        rw [hips, List.length_append, List.length_singleton]
      simp only [addInners, hl.eq, heq, hadd, Outcome.ok_bind, Outcome.pure_eq_ok, hlength,
        Nat.add_assoc]
    · rw [hips]
      exact hvisits.append (.cons hvisit (.nil _ _))

/-- Statement `s` is placed into pass `p` and bound for it. -/
structure Closes (env : Declarations) (s : Nat) (tree : Term) (d : Draft) (p : Nat)
    (placed : Draft) (ctx : Context) : Prop where
  place : d.place s (.ofTree tree) = (p, placed)
  lawful : ∃ op target value, Term.Assigns (·.Declared env) tree.erase op target value
  sound : ctx.Sound env
  grows : d.context.Grows ctx
  bound : tree.BoundIn env ctx
  named : tree.NamedIn ctx.registry p

@[simp] theorem place_context (d : Draft) (s : Nat) (kind : PassKind) :
    (d.place s kind).2.context = d.context := by
  unfold place
  split <;> rfl

/-- A lawful statement can be planned. -/
theorem addStatement_ok (s : Nat) {statement : Statement} (hlawful : statement.Lawful env)
    (hs : d.context.Sound env) :
    ∃ tree d₁ p placed ctx,
      d.addStatement s statement =
        .ok ({ statement with tree := tree }, { placed with context := ctx }.invalidate tree) ∧
      Visits env s 0 d tree.innerProducts d₁ ∧ Closes env s tree d₁ p placed ctx ∧
      tree.erase = statement.tree := by
  obtain ⟨op, target, value, hassigns⟩ := hlawful
  have hadmitted : statement.tree.Admitted (·.Declared env) := by
    rw [hassigns.eq]
    exact hassigns.target_admitted.binary hassigns.value_admitted
      (if_pos (hassigns.eq ▸ hassigns.typed).2.2)
  obtain ⟨t₁, d₁, h₁⟩ := addInners_ok s hadmitted.typed hadmitted.bare hadmitted.leaves 0 hs
  obtain ⟨hgrows, hsound, hproducts⟩ := h₁.visits.context hs
  let p := (d₁.place s (.ofTree t₁)).1
  let placed := (d₁.place s (.ofTree t₁)).2
  have hpass : d₁.context.Grows (placed.context.withPass p) := by
    rw [place_context]
    exact d₁.context.grows_withPass p
  have hsound' : (placed.context.withPass p).Sound env := by
    rw [place_context]
    exact hsound.withPass p
  obtain ⟨tree, ctx, hb⟩ := Term.bind_ok (hadmitted.typed.of_erase_eq h₁.erase.symm) hsound'
    (Term.bindable_of_products (Term.declared_of_erase_eq h₁.erase.symm hadmitted.leaves)
      fun m hm => (hproducts m hm).grows hpass)
  have htree : tree.erase = statement.tree := by rw [hb.erase, h₁.erase, hadmitted.bare]
  have houtside : tree.ProductsOutside := by
    rw [← Term.productsOutside_erase, htree]
    exact hadmitted.outside
  have hkind : PassKind.ofTree tree = PassKind.ofTree t₁ :=
    Term.ofTree_eq_of_erase_eq houtside hb.erase
  have hkept : tree.innerProducts = t₁.innerProducts :=
    hb.kept fun m hm => (hproducts m hm).grows hpass
  refine ⟨tree, d₁, p, placed, ctx, ?_, ?_, ⟨by rw [hkind], ⟨op, target, value, ?_⟩, hb.sound, ?_,
    hb.bound, hb.named⟩, htree⟩
  · simp only [addStatement, h₁.eq, Outcome.ok_bind, hb.bindAll, p, placed, Outcome.pure_eq_ok]
  · rw [hkept]
    exact h₁.visits
  · rw [htree]
    exact hassigns
  · exact hpass.trans hb.grows

/-! ### Reachable drafts -/

/-- The drafts that planning goes through, with the statements planned so far and the inner
products of the next statement visited so far. -/
inductive Reachable (env : Declarations) : List Statement → List Term → Draft → Prop
  | empty : Reachable env [] [] .empty
  | visit {done : List Statement} {seen : List Term} {d d' : Draft} {m : Term} :
      Reachable env done seen d → Visit env done.length seen.length d m d' →
      (∀ x ∈ m.nestedProducts, x ∈ seen) → Reachable env done (seen ++ [m]) d'
  | close {done : List Statement} {statement : Statement} {d placed : Draft}
      {p : Nat} {ctx : Context} :
      Reachable env done statement.tree.innerProducts d →
      Closes env done.length statement.tree d p placed ctx →
      Reachable env (done ++ [statement]) []
        ({ placed with context := ctx }.invalidate statement.tree)

@[simp] theorem invalidate_context (tree : Term) (d : Draft) :
    (d.invalidate tree).context = d.context := by
  unfold invalidate
  split <;> rfl

@[simp] theorem invalidate_passes (tree : Term) (d : Draft) :
    (d.invalidate tree).passes = d.passes := by
  unfold invalidate
  split <;> rfl

@[simp] theorem invalidate_opened (tree : Term) (d : Draft) :
    (d.invalidate tree).opened = d.opened := by
  unfold invalidate
  split <;> rfl

theorem Reachable.sound {done : List Statement} {seen : List Term}
    (h : Reachable env done seen d) :
    d.context.Sound env := by
  cases h with
  | empty => exact Context.sound_empty env
  | visit _ hvisit _ => exact hvisit.context.2.1
  | close _ hcloses =>
    rw [invalidate_context]
    exact hcloses.sound

/-- Inner products that are listed operands first can be visited in their order. -/
theorem Reachable.visits {done : List Statement} {seen ms : List Term} {n : Nat}
    (h : Reachable env done seen d) (hn : n = seen.length)
    (hvisits : Visits env done.length n d ms d') (hfirst : Term.OperandsFirst (seen ++ ms)) :
    Reachable env done (seen ++ ms) d' := by
  induction hvisits generalizing seen with
  | nil n d =>
    rw [List.append_nil]
    exact h
  | @cons n d d₁ d₂ m ms hvisit _ ih =>
    subst hn
    have hstep := h.visit hvisit (hfirst seen m ms rfl)
    rw [List.append_cons] at hfirst ⊢
    exact ih hstep (by simp) hfirst

/-- Lawful statements can be planned from every reachable draft. -/
theorem addStatements_ok {statements : List Statement} (hlawful : ∀ s ∈ statements, s.Lawful env)
    {done : List Statement} {d : Draft} (h : Reachable env done [] d) :
    ∃ planned d', addStatements done.length statements d = .ok (planned, d') ∧
      Reachable env (done ++ planned) [] d' ∧
      planned.map (fun s => { s with tree := s.tree.erase }) = statements := by
  induction statements generalizing done d with
  | nil => exact ⟨[], d, rfl, by rwa [List.append_nil], rfl⟩
  | cons statement rest ih =>
    obtain ⟨tree, d₁, p, placed, ctx, heq, hvisits, hcloses, herase⟩ :=
      addStatement_ok done.length (hlawful statement (List.mem_cons_self ..)) h.sound
    have hvisited := h.visits rfl hvisits (Term.operandsFirst_innerProducts tree)
    have hclosed : Reachable env (done ++ [{ statement with tree := tree }]) []
        ({ placed with context := ctx }.invalidate tree) := .close hvisited hcloses
    obtain ⟨planned, d', heq', hreach, hmap⟩ :=
      ih (fun s hs => hlawful s (List.mem_cons_of_mem statement hs)) hclosed
    refine ⟨{ statement with tree := tree } :: planned, d', ?_, ?_, ?_⟩
    · rw [List.length_append, List.length_singleton] at heq'
      simp only [addStatements, heq, Outcome.ok_bind, heq', Outcome.pure_eq_ok]
    · rw [List.append_cons]
      exact hreach
    · rw [List.map_cons, hmap, herase]

end Draft

end LinearKernels
