import LinearKernels.Proofs.Freshness
import LinearKernels.Proofs.PlanShape
import LinearKernels.Proofs.SharedTemporaries
import Mathlib.Data.List.Dedup

/-!
What is computed again, and what has a temporary. A reduction is repeated only after a
statement has assigned one of the buffers that its inner product reads itself: as long as no
statement does, the entry of the reduction is in the table, and is found. Temporaries are
claimed for inner products only, so a plan has one for each key of an inner product.
-/

namespace LinearKernels

/-! ### Repeated reductions -/

namespace Draft

/-- Some pass after pass `p` and before pass `q` runs a statement that assigns one of the
given buffers. -/
def AssignedBetween (done : List Statement) (passes : List Pass) (p q : Nat)
    (handles : List Handle) : Prop :=
  ∃ b pass s, p < b ∧ b < q ∧ passes[b]? = some pass ∧ pass.kind ≠ .reduction ∧
    s ∈ pass.statements ∧ Writes done s handles

/-- Passes stay where they are, and keep the statements they run. -/
def PassesGrow (passes passes' : List Pass) : Prop :=
  ∀ (p : Nat) (pass : Pass), passes[p]? = some pass →
    ∃ pass', passes'[p]? = some pass' ∧ pass'.kind = pass.kind ∧
      ∀ s ∈ pass.statements, s ∈ pass'.statements

theorem PassesGrow.append (passes more : List Pass) : PassesGrow passes (passes ++ more) := by
  intro p pass hp
  refine ⟨pass, ?_, rfl, fun _ hs => hs⟩
  rw [List.getElem?_append_left (List.getElem?_eq_some_iff.mp hp).1, hp]

variable {env : Declarations} {done done' : List Statement} {seen : List Term}
  {d d' placed : Draft}
variable {p q r s : Nat} {handles : List Handle}

theorem PassesGrow.length_le {passes passes' : List Pass} (h : PassesGrow passes passes') :
    passes.length ≤ passes'.length := by
  cases hlast : passes.length with
  | zero => exact Nat.zero_le _
  | succ n =>
    have hn : n < passes.length := by omega
    obtain ⟨pass', hpass', -⟩ := h n _ (List.getElem?_eq_getElem hn)
    exact (List.getElem?_eq_some_iff.mp hpass').1

theorem passesGrow_of_place {kind : PassKind} (h : d.place s kind = (p, placed)) :
    PassesGrow d.passes placed.passes := by
  rcases place_cases h with ⟨before, last, hbefore, -, -, -, hplaced⟩ | ⟨-, hplaced⟩
  · rw [hbefore, hplaced]
    intro q pass hq
    rcases Registry.getElem?_snoc hq with hq | ⟨rfl, rfl⟩
    · obtain ⟨pass', hpass', hkept⟩ := PassesGrow.append before
        [{ last with statements := last.statements ++ [s] }] q pass hq
      exact ⟨pass', hpass', hkept⟩
    · exact ⟨_, List.getElem?_concat_length, rfl, fun _ hs => List.mem_append_left _ hs⟩
  · rw [hplaced]
    exact PassesGrow.append _ _

/-- The pass that a statement is placed in runs it. -/
theorem mem_of_place {tree : Term} (h : d.place s (.ofTree tree) = (p, placed)) :
    ∃ pass, placed.passes[p]? = some pass ∧ pass.kind ≠ .reduction ∧ s ∈ pass.statements := by
  rcases place_cases h with ⟨before, last, -, rfl, -, hlast, hplaced⟩ | ⟨rfl, hplaced⟩
  · rw [hplaced]
    exact ⟨_, List.getElem?_concat_length, hlast ▸ ofTree_ne_reduction tree,
      List.mem_append_right _ (List.mem_singleton_self s)⟩
  · rw [hplaced]
    exact ⟨_, List.getElem?_concat_length, ofTree_ne_reduction tree, List.mem_singleton_self s⟩

theorem AssignedBetween.mono {passes passes' : List Pass}
    (h : AssignedBetween done passes p q handles) (hgrow : PassesGrow passes passes')
    (hwrites : ∀ t, Writes done t handles → Writes done' t handles) {q' : Nat} (hq : q ≤ q') :
    AssignedBetween done' passes' p q' handles := by
  obtain ⟨b, pass, t, hpb, hbq, hpass, hkind, ht, hwrite⟩ := h
  obtain ⟨pass', hpass', hkind', hstatements⟩ := hgrow b pass hpass
  exact ⟨b, pass', t, hpb, Nat.lt_of_lt_of_le hbq hq, hpass', hkind' ▸ hkind,
    hstatements t ht, hwrites t hwrite⟩

/-- Pass `r` computes the inner product `m`. -/
def Computes (done : List Statement) (seen : List Term) (passes : List Pass) (r : Nat)
    (m : Term) : Prop :=
  ∃ c n, passes[r]? = some (reductionPass r c n) ∧ productAt done seen c n = some m

theorem Computes.visited {m : Term} (hreach : Reachable env done seen d)
    (h : Computes done seen d.passes r m) :
    m.Visited env d.context := by
  obtain ⟨c, n, -, hm⟩ := h
  exact hreach.lawful.visited_of_productAt hm

theorem Computes.unique {passes : List Pass} {m m' : Term} (h : Computes done seen passes r m)
    (h' : Computes done seen passes r m') : m = m' := by
  obtain ⟨c, n, hpass, hm⟩ := h
  obtain ⟨c', n', hpass', hm'⟩ := h'
  obtain ⟨-, -, hc, hn⟩ := Pass.mk.inj (Option.some.inj (hpass.symm.trans hpass'))
  obtain rfl := List.singleton_inj.mp hc
  obtain rfl := Option.some.inj hn
  exact Option.some.inj (hm.symm.trans hm')

/-- Reductions that are in the draft later were there before, if their passes were. -/
theorem Computes.lower {seen' : List Term} {passes' : List Pass} {m : Term}
    (hreach : Reachable env done seen d)
    (hproducts : ∀ c n x, productAt done seen c n = some x → productAt done' seen' c n = some x)
    (hpasses : ∀ c n, passes'[r]? = some (reductionPass r c n) →
      d.passes[r]? = some (reductionPass r c n)) (h : Computes done' seen' passes' r m) :
    Computes done seen d.passes r m := by
  obtain ⟨c, n, hpass, hm⟩ := h
  have hget := hpasses c n hpass
  obtain ⟨m', hm', -⟩ := hreach.lawful.exists_product hget
  obtain rfl := Option.some.inj ((hproducts c n m' hm').symm.trans hm)
  exact ⟨c, n, hget, hm'⟩

/-- A reduction has its entry in the table, or what it reads has been assigned since; so what
an earlier reduction reads has been assigned before the same inner product was computed again. -/
structure Separated (done : List Statement) (seen : List Term) (d : Draft) : Prop where
  entered : ∀ r m, Computes done seen d.passes r m →
    (∃ e ∈ d.reductions, e.pass = r) ∨
    AssignedBetween done d.passes r d.passes.length m.ownHandles
  repeated : ∀ r r' m m', r < r' → Computes done seen d.passes r m →
    Computes done seen d.passes r' m' →
    m.erase = m'.erase → AssignedBetween done d.passes r r' m.ownHandles

theorem separated_empty : Separated [] [] Draft.empty := by
  have hnone : ∀ r m, ¬ Computes [] [] Draft.empty.passes r m := by
    rintro r m ⟨c, n, hpass, -⟩
    simp [Draft.empty] at hpass
  exact ⟨fun r m hm => absurd hm (hnone r m), fun r _ m _ _ hm => absurd hm (hnone r m)⟩

/-- The entry of a reduction has the key of its inner product. -/
theorem Reachable.key_of_entry (h : Reachable env done seen d) {e : Reduction}
    (he : e ∈ d.reductions) {m : Term} (hm : Computes done seen d.passes e.pass m) :
    m.key d.context.registry = .ok e.key ∧ ∀ k, .buffer k ∈ e.reads ↔
      .buffer k ∈ m.ownHandles := by
  obtain ⟨c, x, hentry⟩ := h.table.entries e he
  obtain ⟨n, hpass, hproduct⟩ := hentry.pass
  obtain rfl := hm.unique ⟨c, n, hpass, hproduct⟩
  exact ⟨hentry.key, hentry.reads⟩

theorem Separated.visit {x : Term} (hreach : Reachable env done seen d)
    (h : Separated done seen d) (hvisit : Visit env done.length seen.length d x d') :
    Separated done (seen ++ [x]) d' := by
  have hvisited := hvisit.visited
  cases hvisit with
  | reuse =>
    have hlower : ∀ {x : Term} {r m}, Computes done (seen ++ [x]) d.passes r m →
        Computes done seen d.passes r m :=
      fun hm => hm.lower hreach (fun _ _ _ => productAt_visit) fun _ _ hget => hget
    exact ⟨fun r m hm => h.entered r m (hlower hm),
      fun r r' m m' hlt hm hm' => h.repeated r r' m m' hlt (hlower hm) (hlower hm')⟩
  | @reduce lhs rhs cell ctx key prepared missing =>
    have hgrow : PassesGrow d.passes (d.reduced done.length seen.length lhs rhs ctx key).passes :=
      .append _ _
    have hcases : ∀ r m,
        Computes done (seen ++ [.inner lhs rhs (some d.passes.length) (some cell)])
          (d.reduced done.length seen.length lhs rhs ctx key).passes r m →
        Computes done seen d.passes r m ∨
          r = d.passes.length ∧ m = .inner lhs rhs (some d.passes.length) (some cell) := by
      intro r m hm
      obtain ⟨c, n, hpass, hproduct⟩ := id hm
      rcases Registry.getElem?_snoc hpass with hget | ⟨rfl, heq⟩
      · refine .inl (hm.lower hreach (fun _ _ _ => productAt_visit) fun c n hpass => ?_)
        rwa [reduced, List.getElem?_append_left (List.getElem?_eq_some_iff.mp hget).1] at hpass
      · obtain ⟨-, -, hc, hn⟩ := Pass.mk.inj heq
        obtain rfl := List.singleton_inj.mp hc
        obtain rfl := Option.some.inj hn
        rw [productAt_last] at hproduct
        exact .inr ⟨rfl, (Option.some.inj hproduct).symm⟩
    constructor
    · intro r m hm
      rcases hcases r m hm with hold | ⟨rfl, rfl⟩
      · rcases h.entered r m hold with ⟨e, he, hpass⟩ | hassigned
        · exact .inl ⟨e, List.mem_append_left _ he, hpass⟩
        · exact .inr (hassigned.mono hgrow (fun _ hw => hw) hgrow.length_le)
      · exact .inl ⟨_, List.mem_append_right _ (List.mem_singleton_self _), rfl⟩
    · intro r r' m m' hlt hm hm' herase
      have hold : Computes done seen d.passes r m := by
        rcases hcases r m hm with hold | ⟨rfl, -⟩
        · exact hold
        · obtain ⟨c, n, hpass, -⟩ := hm'
          have := (List.getElem?_eq_some_iff.mp hpass).1
          rw [reduced, List.length_append, List.length_singleton] at this
          omega
      rcases hcases r' m' hm' with hold' | ⟨rfl, rfl⟩
      · exact (h.repeated r r' m m' hlt hold hold' herase).mono hgrow
          (fun _ hw => hw) (Nat.le_refl _)
      · rcases h.entered r m hold with ⟨e, he, rfl⟩ | hassigned
        · -- the entry would have been found
          have hm := hold.visited hreach
          have hkey := (hreach.key_of_entry he hold).1
          rw [← hm.key_grows prepared.grows,
            ((hm.grows prepared.grows).key_eq_iff prepared.sound hvisited).mpr herase] at hkey
          have hsame : e.key = key := Except.ok.inj (hkey.symm.trans prepared.key)
          exact absurd hsame (by simpa using List.find?_eq_none.mp missing e he)
        · exact hassigned.mono hgrow (fun _ hw => hw) (Nat.le_refl _)

theorem Separated.close {statement : Statement} {ctx : Context}
    (hreach : Reachable env done statement.tree.innerProducts d)
    (h : Separated done statement.tree.innerProducts d)
    (hcloses : Closes env done.length statement.tree d p placed ctx) :
    Separated (done ++ [statement]) []
      ({ placed with context := ctx }.invalidate statement.tree) := by
  obtain ⟨k, hk⟩ := written_of_lawful hcloses.lawful
  have hgrow := passesGrow_of_place hcloses.place
  have hwrites : ∀ handles t, Writes done t handles → Writes (done ++ [statement]) t handles :=
    fun _ _ hw => (writes_append hw.lt).mpr hw
  have hlower : ∀ r m, Computes (done ++ [statement]) [] placed.passes r m →
      Computes done statement.tree.innerProducts d.passes r m := fun r m hm =>
    hm.lower hreach (fun _ _ _ => productAt_close) fun _ _ =>
      (reduction_of_placed hcloses.place rfl).mp
  constructor <;> rw [invalidate_passes]
  · intro r m hm
    have hold := hlower r m hm
    rcases h.entered r m hold with ⟨e, he, rfl⟩ | hassigned
    · by_cases hread : .buffer k ∈ e.reads
      · obtain ⟨pass, hpass, hkind, hmem⟩ := mem_of_place hcloses.place
        obtain ⟨c, n, hget, -⟩ := hold
        refine .inr ⟨p, pass, done.length, reduction_lt_place hcloses.place hget rfl,
          (List.getElem?_eq_some_iff.mp hpass).1, hpass, hkind, hmem, statement, .buffer k,
          List.getElem?_concat_length, hk, ?_⟩
        exact ((hreach.key_of_entry he (hlower _ m hm)).2 k).mp hread
      · exact .inl ⟨e, (mem_reductions_close hcloses hk).mpr ⟨he, hread⟩, rfl⟩
    · exact .inr (hassigned.mono hgrow (hwrites _) hgrow.length_le)
  · intro r r' m m' hlt hm hm' herase
    exact (h.repeated r r' m m' hlt (hlower r m hm) (hlower r' m' hm') herase).mono hgrow
      (hwrites _) (Nat.le_refl _)

theorem Reachable.separated (h : Reachable env done seen d) : Separated done seen d := by
  induction h with
  | empty => exact separated_empty
  | visit hreach hvisit _ ih => exact ih.visit hreach hvisit
  | close hreach hcloses ih => exact ih.close hreach hcloses

end Draft

/-! ### Temporaries -/

theorem Temporaries.mem_claim {t : Temporaries} {key key' : String}
    (h : key' ∈ (t.claim key).2.keys) :
    key' ∈ t.keys ∨ key' = key := by
  unfold claim at h
  split at h
  · exact .inl h
  · simpa using h

/-- Between two contexts only keys of the given inner products have got temporaries. -/
structure Context.Claims (ctx : Context) (products : List Term) (ctx' : Context) : Prop where
  orderly : ctx'.Orderly
  grows : ctx.Grows ctx'
  keys : ∀ key ∈ ctx'.temporaries.keys,
    key ∈ ctx.temporaries.keys ∨ ∃ m ∈ products, m.KeyIn ctx'.registry key

namespace Context.Claims

variable {ctx ctx₁ ctx' : Context} {ms ns : List Term}

theorem withPass (ho : ctx.Orderly) (pass : Nat) : ctx.Claims [] (ctx.withPass pass) :=
  ⟨⟨ho.sound, ho.distinct⟩, ctx.grows_withPass pass, fun _ hkey => .inl hkey⟩

theorem trans (h : ctx.Claims ms ctx₁) (h' : ctx₁.Claims ns ctx') :
    ctx.Claims (ms ++ ns) ctx' where
  orderly := h'.orderly
  grows := h.grows.trans h'.grows
  keys key hkey := by
    rcases h'.keys key hkey with hkey | ⟨m, hm, hin⟩
    · rcases h.keys key hkey with hkey | ⟨m, hm, hin⟩
      · exact .inl hkey
      · exact .inr ⟨m, List.mem_append_left _ hm, hin.grows h'.grows.registry⟩
    · exact .inr ⟨m, List.mem_append_right _ hm, hin⟩

/-- Inner products count as they were written. -/
theorem of_erase (h : ctx.Claims ms ctx') (hms : ∀ m ∈ ms, ∃ n ∈ ns, n.erase = m.erase) :
    ctx.Claims ns ctx' where
  orderly := h.orderly
  grows := h.grows
  keys key hkey := by
    rcases h.keys key hkey with hkey | ⟨m, hm, hin⟩
    · exact .inl hkey
    · obtain ⟨n, hn, herase⟩ := hms m hm
      exact .inr ⟨n, hn, hin.of_erase_eq herase⟩

end Context.Claims

namespace Term

variable {ctx ctx' : Context} {t t' : Term}

theorem erase_erase (t : Term) : t.erase.erase = t.erase := by
  induction t with
  | leaf arg => rfl
  | unary op sub ih => rw [erase, erase, ih]
  | binary op l r ihl ihr | matMat l r ihl ihr | matVec l r ihl ihr | inner l r _ _ ihl ihr =>
    rw [erase, erase, ihl, ihr]

theorem exists_product_of_erase_eq (h : t.erase = t'.erase) {m : Term}
    (hm : m ∈ t.innerProducts) :
    ∃ n ∈ t'.innerProducts, n.erase = m.erase := by
  have hmem : m.erase ∈ t.erase.innerProducts := by
    rw [innerProducts_erase]
    exact List.mem_map_of_mem hm
  rw [h, innerProducts_erase] at hmem
  exact List.mem_map.mp hmem

@[simp] theorem erase_markComputed (pass : Nat) (t : Term) :
    (t.markComputed pass).erase = t.erase := by
  cases t <;> rfl

theorem claims_bindTemporary {l r : Term} {computed : Option Nat} {temporary : Option Argument}
    (ho : ctx.Orderly) (hb : (inner l r computed temporary).LeavesBound ctx.registry)
    (h : bindTemporary l r computed temporary ctx = ⟨t', ctx', none⟩) :
    ctx.Claims [inner l r computed temporary] ctx' := by
  obtain ⟨horderly, hgrows, -⟩ := bindTemporary_rebound ho hb h
  obtain ⟨key, hkey⟩ := hb.exists_key
  refine ⟨horderly, hgrows, fun key' hkey' => ?_⟩
  simp only [bindTemporary, hkey] at h
  split at h
  · cases h
  · next cell ctx₁ hbind =>
    obtain ⟨-, rfl, -⟩ := Bound.mk.inj h
    have hsound :
        (Context.mk ctx.registry (ctx.temporaries.claim key).2 ctx.pass).registry.Sound :=
      ho.sound
    obtain ⟨reg', rfl, -⟩ := Argument.binds_of_bind hsound hbind
    rcases Temporaries.mem_claim hkey' with hold | rfl
    · exact .inl hold
    · exact .inr ⟨_, List.mem_singleton_self _, (keyIn_of_key hb hkey).grows hgrows.registry⟩

/-- Binding claims temporaries for the inner products of the term. -/
theorem claims_of_bind (ho : ctx.Orderly) (h : t.bind ctx = ⟨t', ctx', none⟩) :
    ctx.Claims t.innerProducts ctx' := by
  induction t generalizing ctx ctx' t' with
  | leaf arg =>
    have hrebinds := rebinds_of_bind ho h
    rw [bind] at h
    split at h
    · cases h
    · next arg' ctx₁ hbind =>
      obtain ⟨rfl, rfl, -⟩ := Bound.mk.inj h
      obtain ⟨reg', rfl, -⟩ := Argument.binds_of_bind ho.sound hbind
      exact ⟨hrebinds.orderly, hrebinds.grows, fun _ hkey => .inl hkey⟩
  | unary op sub ih =>
    obtain ⟨rfl, rfl, hfault⟩ := Bound.mk.inj h
    have hsub : sub.bind ctx = ⟨(sub.bind ctx).term, (sub.bind ctx).context, none⟩ := by
      rw [← hfault]
    exact ih ho hsub
  | binary op l r ihl ihr | matMat l r ihl ihr | matVec l r ihl ihr =>
    obtain ⟨l', ctx₁, r', hl, hr, -⟩ := andThen_eq_iff.mp h
    have hl := ihl ho hl
    exact hl.trans (ihr hl.orderly hr)
  | inner l r computed temporary ihl ihr =>
    obtain ⟨l', ctx₁, r', ctx₂, hl, hr, hcell⟩ := bind_inner_eq_iff.mp h
    have hbl := rebinds_of_bind ho hl
    have hbr := rebinds_of_bind hbl.orderly hr
    have hbound : (Term.inner l' r' computed temporary).LeavesBound ctx₂.registry :=
      leavesBound_operands.mpr ⟨hbl.leaves.keeps hbr.grows.registry.keeps, hbr.leaves⟩
    have hlast : ctx₂.Claims [inner l r computed temporary] ctx' := by
      refine (claims_bindTemporary hbr.orderly hbound hcell).of_erase fun m hm => ?_
      obtain rfl := List.mem_singleton.mp hm
      refine ⟨_, List.mem_singleton_self _, ?_⟩
      rw [Term.erase, Term.erase, hbl.erase, hbr.erase]
    exact ((ihl ho hl).trans (ihr hbl.orderly hr)).trans hlast

end Term

namespace Draft

variable {d d' : Draft} {s n n' : Nat} {t t' : Term}

theorem claims_addInner (ho : d.context.Orderly) (h : d.addInner s n t = .ok (t', d')) :
    d.context.Claims t.innerProducts d'.context ∧ t'.erase = t.erase := by
  have hnext := Context.Claims.withPass ho d.passes.length
  obtain ⟨⟨x, ctx⟩, hbind, h⟩ := Outcome.bind_eq_ok_iff.mp h
  obtain ⟨key, -, h⟩ := Outcome.bind_eq_ok_iff.mp h
  have hbind := Workbench.bindAll_eq_ok hbind
  have hclaims := hnext.trans (Term.claims_of_bind hnext.orderly hbind)
  have herase := (Term.rebinds_of_bind hnext.orderly hbind).erase
  dsimp only at h
  split at h
  · obtain ⟨rfl, rfl⟩ := Prod.mk.inj (Except.ok.inj h)
    exact ⟨hclaims, by rw [Term.erase_markComputed, herase]⟩
  · obtain ⟨rfl, rfl⟩ := Prod.mk.inj (Except.ok.inj h)
    exact ⟨hclaims, by rw [Term.erase_markComputed, herase]⟩

/-- What visiting the inner products of a term does to the temporaries. -/
theorem claims_addInners (ho : d.context.Orderly) (h : addInners s t n d = .ok (t', n', d')) :
    d.context.Claims t.innerProducts d'.context ∧ t'.erase = t.erase := by
  induction t generalizing n d t' n' d' with
  | leaf arg =>
    obtain ⟨rfl, heq⟩ := Prod.mk.inj (Except.ok.inj h)
    obtain ⟨-, rfl⟩ := Prod.mk.inj heq
    exact ⟨⟨ho, Context.Grows.refl _, fun _ hkey => .inl hkey⟩, rfl⟩
  | unary op sub ih =>
    obtain ⟨⟨sub', n₁, d₁⟩, hsub, h⟩ := Outcome.bind_eq_ok_iff.mp h
    obtain ⟨rfl, heq⟩ := Prod.mk.inj (Except.ok.inj h)
    obtain ⟨-, rfl⟩ := Prod.mk.inj heq
    obtain ⟨hclaims, herase⟩ := ih ho hsub
    exact ⟨hclaims, congrArg (Term.unary op) herase⟩
  | binary op l r ihl ihr | matMat l r ihl ihr | matVec l r ihl ihr =>
    obtain ⟨⟨l', n₁, d₁⟩, hl, h⟩ := Outcome.bind_eq_ok_iff.mp h
    obtain ⟨⟨r', n₂, d₂⟩, hr, h⟩ := Outcome.bind_eq_ok_iff.mp h
    obtain ⟨rfl, heq⟩ := Prod.mk.inj (Except.ok.inj h)
    obtain ⟨-, rfl⟩ := Prod.mk.inj heq
    obtain ⟨hl, herasel⟩ := ihl ho hl
    obtain ⟨hr, heraser⟩ := ihr hl.orderly hr
    refine ⟨hl.trans hr, ?_⟩
    rw [Term.erase, Term.erase, herasel, heraser]
  | inner l r computed temporary ihl ihr =>
    obtain ⟨⟨l', n₁, d₁⟩, hl, h⟩ := Outcome.bind_eq_ok_iff.mp h
    obtain ⟨⟨r', n₂, d₂⟩, hr, h⟩ := Outcome.bind_eq_ok_iff.mp h
    obtain ⟨⟨x, d₃⟩, hinner, h⟩ := Outcome.bind_eq_ok_iff.mp h
    obtain ⟨rfl, heq⟩ := Prod.mk.inj (Except.ok.inj h)
    obtain ⟨-, rfl⟩ := Prod.mk.inj heq
    obtain ⟨hl, herasel⟩ := ihl ho hl
    obtain ⟨hr, heraser⟩ := ihr hl.orderly hr
    obtain ⟨hlast, herase⟩ := claims_addInner hr.orderly hinner
    have hsame : (Term.inner l' r' computed temporary).erase =
        (Term.inner l r computed temporary).erase := by
      rw [Term.erase, Term.erase, herasel, heraser]
    refine ⟨((hl.trans hr).trans hlast).of_erase fun m hm => ?_, herase.trans hsame⟩
    rcases List.mem_append.mp hm with hm | hm
    · exact ⟨m, List.mem_append_left _ hm, rfl⟩
    · exact Term.exists_product_of_erase_eq hsame hm

theorem claims_addStatement {statement statement' : Statement} (ho : d.context.Orderly)
    (h : d.addStatement s statement = .ok (statement', d')) :
    d.context.Claims statement.tree.innerProducts d'.context := by
  obtain ⟨⟨tree, n, d₁⟩, hinners, h⟩ := Outcome.bind_eq_ok_iff.mp h
  obtain ⟨hclaims, herase⟩ := claims_addInners ho hinners
  dsimp only at h
  obtain ⟨⟨tree', ctx⟩, hbind, h⟩ := Outcome.bind_eq_ok_iff.mp h
  obtain ⟨-, rfl⟩ := Prod.mk.inj (Except.ok.inj h)
  rw [place_context] at hbind
  have hnext := hclaims.trans (.withPass hclaims.orderly (d₁.place s (.ofTree tree)).1)
  have hlast := hnext.trans (Term.claims_of_bind hnext.orderly (Workbench.bindAll_eq_ok hbind))
  rw [invalidate_context]
  refine hlast.of_erase fun m hm => ?_
  rcases List.mem_append.mp hm with hm | hm
  · exact ⟨m, by simpa using hm, rfl⟩
  · exact Term.exists_product_of_erase_eq herase hm

/-- What planning does to the temporaries. -/
theorem claims_addStatements {statements planned : List Statement} (ho : d.context.Orderly)
    (h : addStatements s statements d = .ok (planned, d')) :
    d.context.Claims (statements.flatMap (·.tree.innerProducts)) d'.context := by
  induction statements generalizing s d planned with
  | nil =>
    obtain ⟨-, rfl⟩ := Prod.mk.inj (Except.ok.inj h)
    exact ⟨ho, Context.Grows.refl _, fun _ hkey => .inl hkey⟩
  | cons statement rest ih =>
    obtain ⟨⟨statement', d₁⟩, hfirst, h⟩ := Outcome.bind_eq_ok_iff.mp h
    obtain ⟨⟨rest', d₂⟩, hrest, h⟩ := Outcome.bind_eq_ok_iff.mp h
    obtain ⟨-, rfl⟩ := Prod.mk.inj (Except.ok.inj h)
    have hclaims := claims_addStatement ho hfirst
    exact hclaims.trans (ih hclaims.orderly hrest)

end Draft

/-! ### Counting keys -/

namespace Outcome

variable {ε α β γ : Type}

theorem mem_of_mapM {g : α → Except ε β} {xs : List α} {ys : List β}
    (h : xs.mapM g = .ok ys) {y : β} :
    y ∈ ys ↔ ∃ x ∈ xs, g x = .ok y := by
  rw [eq_filterMap_of_mapM h, List.mem_filterMap]
  simp only [toOption_eq_some_iff]

/-- Results that coincide for the same entries are equally many. -/
theorem length_dedup_of_mapM [DecidableEq β] [DecidableEq γ] {g : α → Except ε β}
    {g' : α → Except ε γ} {xs : List α} {ys : List β} {ys' : List γ} (h : xs.mapM g = .ok ys)
    (h' : xs.mapM g' = .ok ys') (hsame : ∀ x ∈ xs, ∀ x' ∈ xs, g x = g x' ↔ g' x = g' x') :
    ys.dedup.length = ys'.dedup.length := by
  induction xs generalizing ys ys' with
  | nil =>
    obtain rfl := Except.ok.inj h
    obtain rfl := Except.ok.inj h'
    rfl
  | cons x xs ih =>
    obtain ⟨y, ys, hy, hys, rfl⟩ := mapM_cons_eq_ok h
    obtain ⟨y', ys', hy', hys', rfl⟩ := mapM_cons_eq_ok h'
    have hlength := ih hys hys' fun a ha b hb =>
      hsame a (List.mem_cons_of_mem x ha) b (List.mem_cons_of_mem x hb)
    have hmem : y ∈ ys ↔ y' ∈ ys' := by
      rw [mem_of_mapM hys, mem_of_mapM hys', ← hy, ← hy']
      constructor
      · rintro ⟨a, ha, heq⟩
        exact ⟨a, ha, (hsame a (List.mem_cons_of_mem x ha) x (List.mem_cons_self ..)).mp heq⟩
      · rintro ⟨a, ha, heq⟩
        exact ⟨a, ha, (hsame a (List.mem_cons_of_mem x ha) x (List.mem_cons_self ..)).mpr heq⟩
    by_cases hin : y ∈ ys
    · rw [List.dedup_cons_of_mem hin, List.dedup_cons_of_mem (hmem.mp hin), hlength]
    · rw [List.dedup_cons_of_notMem hin, List.dedup_cons_of_notMem (mt hmem.mpr hin),
        List.length_cons, List.length_cons, hlength]

end Outcome

theorem Temporaries.Distinct.nodup {t : Temporaries} (h : t.Distinct) : t.keys.Nodup := by
  refine List.nodup_iff_getElem?_ne_getElem?.mpr fun i j hij hj heq => ?_
  have hkey := List.getElem?_eq_getElem hj
  exact absurd (h i j _ (heq.trans hkey) hkey) (Nat.ne_of_lt hij)

namespace Plan

/-- The inner products of all statements. -/
def innerProducts (plan : Plan) : List Term :=
  plan.statements.flatMap (·.tree.innerProducts)

/-- The keys of all inner products. -/
def productKeys (plan : Plan) : Except Fault (List String) :=
  plan.innerProducts.mapM (·.key plan.registry)

/-- Nothing is computed or stored without need. An inner product is computed again only if a
statement between the two reductions assigns one of the buffers it reads itself, and inner
products with the same key have one temporary. -/
structure Economical (plan : Plan) : Prop where
  separated : ∀ pass ∈ plan.passes, ∀ pass' ∈ plan.passes, pass.kind = .reduction →
    pass'.kind = .reduction → pass.index < pass'.index → ∃ m m' key key',
      plan.reduced? pass = some m ∧ plan.reduced? pass' = some m' ∧
      m.key plan.registry = .ok key ∧ m'.key plan.registry = .ok key' ∧
      (key = key' → ∃ between ∈ plan.passes, between.kind ≠ .reduction ∧
        pass.index < between.index ∧
        between.index < pass'.index ∧ ∃ s ∈ between.statements, plan.Writes s m'.ownHandles)
  counted : ∃ keys, plan.productKeys = .ok keys ∧
    plan.context.temporaries.count = keys.dedup.length

variable {env : Declarations} {statements : List Statement} {plan : Plan} {d : Draft}

theorem Built.visited (h : plan.Built env statements d) {m : Term} (hm : m ∈ plan.innerProducts) :
    m.Visited env d.context := by
  obtain ⟨statement, hs, hm⟩ := List.mem_flatMap.mp hm
  exact (h.reachable.lawful.planned statement hs).products m hm

theorem Built.product_leavesBound (h : plan.Built env statements d) {m : Term}
    (hm : m.Visited env d.context) :
    m.LeavesBound plan.registry :=
  hm.2.1.leavesBound.keeps h.keeps

/-- Keys in the plan tell inner products apart as they were written. -/
theorem Built.key_eq_iff (h : plan.Built env statements d)
    {m m' : Term} (hm : m.Visited env d.context) (hm' : m'.Visited env d.context) :
    m.key plan.registry = m'.key plan.registry ↔ m.erase = m'.erase := by
  obtain ⟨key, hkey⟩ := (h.product_leavesBound hm).exists_key
  constructor
  · intro heq
    exact Term.erase_eq_of_key_eq h.registry_sound (h.product_leavesBound hm)
      (h.product_leavesBound hm') hm.1 hm'.1 hkey (heq.symm.trans hkey)
  · exact Term.key_eq_of_erase_eq h.registry_sound (h.product_leavesBound hm)
      (h.product_leavesBound hm')

theorem Built.temporaries (h : plan.Built env statements d) :
    plan.context.temporaries = d.context.temporaries := by
  obtain ⟨alignment, hwiden⟩ := h.widened
  unfold widen at hwiden
  split at hwiden
  · rw [← Except.ok.inj hwiden]
  · obtain ⟨reg, -, hwiden⟩ := Outcome.bind_eq_ok_iff.mp hwiden
    rw [← Except.ok.inj hwiden]

/-- The keys with a temporary are those of the inner products. -/
theorem Built.mem_keys_iff (h : plan.Built env statements d) {key : String} :
    key ∈ d.context.temporaries.keys ↔
      ∃ m ∈ plan.innerProducts, m.key d.context.registry = .ok key := by
  constructor
  · intro hkey
    have hempty : Draft.empty.context.Orderly := by
      have := Context.sound_empty env
      exact ⟨this.registry, this.distinct⟩
    rcases (Draft.claims_addStatements hempty h.drafted).keys key hkey with hkey | ⟨x, hx, hin⟩
    · cases hkey
    · rw [← h.source, List.flatMap_map] at hx
      obtain ⟨statement, hs, hx⟩ := List.mem_flatMap.mp hx
      rw [Term.innerProducts_erase] at hx
      obtain ⟨m, hm, rfl⟩ := List.mem_map.mp hx
      have hmem : m ∈ plan.innerProducts := List.mem_flatMap.mpr ⟨statement, hs, hm⟩
      have hleaves := (h.visited hmem).2.1.leavesBound
      obtain ⟨key', hkey'⟩ := hleaves.exists_key
      obtain rfl := (hin.of_erase_eq (Term.erase_erase m).symm).unique h.sound
        (Term.keyIn_of_key hleaves hkey')
      exact ⟨m, hmem, hkey'⟩
  · rintro ⟨m, hm, hkey⟩
    obtain ⟨i, key', -, hi, hkey'⟩ := (h.visited hm).temporary
    obtain rfl := Except.ok.inj (hkey.symm.trans hkey')
    exact List.mem_of_getElem? hi

theorem Built.economical (h : plan.Built env statements d) : plan.Economical := by
  constructor
  · intro pass hpass pass' hpass' hkind hkind' hlt
    obtain ⟨c, n, lhs, rhs, cell, heq, hget, hm⟩ := h.reduction hpass hkind
    obtain ⟨c', n', lhs', rhs', cell', heq', hget', hm'⟩ := h.reduction hpass' hkind'
    have hvisited := h.reachable.lawful.visited_of_productAt hm
    have hvisited' := h.reachable.lawful.visited_of_productAt hm'
    obtain ⟨key, hkey⟩ := (h.product_leavesBound hvisited).exists_key
    obtain ⟨key', hkey'⟩ := (h.product_leavesBound hvisited').exists_key
    refine ⟨_, _, key, key', by rw [heq]; exact reduced?_reductionPass hm,
      by rw [heq']; exact reduced?_reductionPass hm', hkey, hkey', ?_⟩
    rintro rfl
    have herase := (h.key_eq_iff hvisited hvisited').mp (hkey.trans hkey'.symm)
    rw [heq, h.passes] at hget
    rw [heq', h.passes] at hget'
    obtain ⟨b, between, s, hpb, hbq, hbetween, hne, hs, hwrites⟩ :=
      h.reachable.separated.repeated _ _ _ _ hlt ⟨c, n, hget, hm⟩ ⟨c', n', hget', hm'⟩ herase
    rw [← h.passes] at hbetween
    obtain rfl := h.wellFormed.index b between hbetween
    rw [Term.ownHandles_eq_of_erase_eq herase] at hwrites
    exact ⟨between, List.mem_of_getElem? hbetween, hne, hpb, hbq, s, hs, hwrites⟩
  · obtain ⟨keys, hkeys⟩ :=
      Outcome.mapM_ok fun m hm => (h.product_leavesBound (h.visited (m := m) hm)).exists_key
    obtain ⟨keys', hkeys'⟩ :=
      Outcome.mapM_ok fun m hm => (h.visited (m := m) hm).2.1.leavesBound.exists_key
    refine ⟨keys, hkeys, ?_⟩
    have hperm : d.context.temporaries.keys.Perm keys'.dedup := by
      refine (List.perm_ext_iff_of_nodup h.reachable.sound.distinct.nodup
        (List.nodup_dedup _)).mpr fun key => ?_
      rw [List.mem_dedup, h.mem_keys_iff, Outcome.mem_of_mapM hkeys']
    calc plan.context.temporaries.count = d.context.temporaries.keys.length := by
          rw [h.temporaries, Temporaries.count]
      _ = keys'.dedup.length := hperm.length_eq
      _ = keys.dedup.length := Outcome.length_dedup_of_mapM hkeys' hkeys fun m hm m' hm' =>
          ((h.visited hm).key_eq_iff h.reachable.sound (h.visited hm')).trans
            (h.key_eq_iff (h.visited hm) (h.visited hm')).symm

end Plan

/-- Plans of lowered sources compute no inner product twice without need, and have one
temporary for each key. -/
theorem schedule_economical {lowering planning : Settings} {file : SourceFile}
    {statements : List Statement} {plan : Plan} (hlower : file.lower lowering = .ok statements)
    (hplan : schedule planning statements = .ok plan) : plan.Economical := by
  obtain ⟨-, env, -, hlawful⟩ := SourceFile.lower_lawful hlower
  obtain ⟨d, hbuilt⟩ := Plan.built_of_schedule hplan hlawful
  exact hbuilt.economical

/-- The second statement uses the reduction of the first one; the last statement does not,
since `a` has been assigned. -/
def repeatedSource : String :=
  "vector a, b, c; b = dot(a, a) * b; c = dot(a, a) * c; a = b; c = dot(dot(a, a) * b, c) * c;"

theorem schedule_economical_repeated :
    ∃ file statements plan, parseSource 0 repeatedSource = .ok file ∧
      file.lower .standard = .ok statements ∧ schedule .standard statements = .ok plan ∧
      plan.passes.map (fun pass => (pass.kind, pass.statements)) =
        [(.reduction, [0]), (.vector, [0, 1, 2]), (.reduction, [3]),
          (.reduction, [3]), (.vector, [3])] ∧
      plan.innerProducts.length = 4 ∧ plan.context.temporaries.count = 2 ∧ plan.Economical := by
  obtain ⟨plan, hplan, hvalues⟩ := Outcome.exists_ok_of_any
    (x := planSource .standard repeatedSource)
    (p := fun plan => plan.passes.map (fun pass => (pass.kind, pass.statements)) =
        [(.reduction, [0]), (.vector, [0, 1, 2]), (.reduction, [3]), (.reduction, [3]),
          (.vector, [3])] &&
      plan.innerProducts.length = 4 && plan.context.temporaries.count = 2)
    (by decide +kernel)
  simp only [Bool.and_eq_true, decide_eq_true_eq] at hvalues
  obtain ⟨⟨hpasses, hproducts⟩, htemporaries⟩ := hvalues
  obtain ⟨file, statements, hfile, hlower, -, hschedule⟩ := planSource_eq_ok_iff.mp hplan
  exact ⟨file, statements, plan, hfile, hlower, hschedule, hpasses, hproducts, htemporaries,
    schedule_economical hlower hschedule⟩

end LinearKernels
