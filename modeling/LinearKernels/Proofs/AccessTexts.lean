import LinearKernels.Proofs.Contexts
import LinearKernels.Proofs.PlanKeys

/-!
How buffers are reached. A record notes for every kernel the text by which its buffer is
reached there. Planning only ever binds terms, and binding notes the text that the storage of
the argument gives. All arguments of one record have one signature and so one storage, hence
in a plan every buffer is reached by the usual text of its storage. The argument is made for
every property of registries that binding keeps.
-/

namespace LinearKernels

/-! ### Storage and signature -/

/-- The signature tells the storage. -/
theorem Storage.eq_of_signature_eq {s s' : Storage}
    (h : s.signature = s'.signature) : s = s' := by
  have hlist := congrArg String.toList h
  cases s with
  | hostScalar => cases s' <;> simp [signature] at hlist ⊢
  | deviceScalar => cases s' <;> simp [signature] at hlist ⊢
  | vector v =>
    cases s' with
    | vector w =>
      simp only [signature, String.toList_append, List.append_assoc,
        List.append_cancel_left_eq] at hlist
      obtain ⟨hstride, hrest⟩ := decimal_append_cancel (stopsNumeral_cons (by decide))
        (stopsNumeral_cons (by decide)) hlist
      have hdigits : (decimal v.start).toList = (decimal w.start).toList :=
        (List.cons.inj hrest).2
      have hstart := congrArg decimalValue hdigits
      rw [decimalValue_toList_decimal, decimalValue_toList_decimal] at hstart
      cases v
      cases w
      simp_all
    | _ => simp [signature] at hlist
  | matrix l =>
    cases s' with
    | matrix m =>
      obtain ⟨a, b⟩ := l
      obtain ⟨c, d⟩ := m
      cases a <;> cases b <;> cases c <;> cases d <;> simp [signature] at hlist ⊢
    | _ => simp [signature] at hlist

/-! ### Usual texts -/

/-- Every text of the record is the one that its storage gives. -/
def Record.Usual (r : Record) : Prop :=
  ∀ pass text, r.accessName? pass = some text →
    ∃ s : Storage, s.signature = r.signature ∧ text = s.access r.name

/-- A kernel's text is the one it had, or the one it is given now. -/
theorem Record.accessName?_of_ensure {r : Record} {pass other : Nat} {text found : String}
    (h : (r.ensureAccessName pass text).accessName? other = some found) :
    r.accessName? other = some found ∨ found = text := by
  unfold ensureAccessName at h
  cases hnamed : r.accessName? pass with
  | some _ =>
    rw [hnamed] at h
    exact .inl h
  | none =>
    rw [hnamed] at h
    simp only [accessName?, setAccessName, List.lookup_cons] at h
    by_cases hother : other = pass
    · subst hother
      simp only [beq_self_eq_true] at h
      exact .inr (Option.some.inj h).symm
    · have hbeq : (other == pass) = false := by simpa using hother
      simp only [hbeq, lookup_filter_ne hother] at h
      exact .inl h

namespace Registry

def Usual (reg : Registry) : Prop :=
  ∀ (i : Nat) (r : Record), reg.records[i]? = some r → r.Usual

theorem usual_empty : Registry.empty.Usual := by
  intro i r h
  simp [empty] at h

theorem Usual.register {reg reg' : Registry} (hu : reg.Usual) {h : Handle} {e : ElementType}
    {signature : String} {i : Nat} (heq : reg.register h e signature = .ok (i, reg')) :
    reg'.Usual := by
  rcases register_cases heq with ⟨r, -, -, -, -, rfl⟩ | ⟨-, -, rfl⟩
  · exact hu
  · intro j r hr
    rcases getElem?_snoc hr with hr | ⟨-, rfl⟩
    · exact hu j r hr
    · intro pass text htext
      simp [Record.accessName?] at htext

/-- The record that registering gives has the signature asked for. -/
theorem signature_of_register {reg reg' : Registry} (hs : reg.Sound)
    {h : Handle} {e : ElementType} {signature : String}
    {i : Nat} (heq : reg.register h e signature = .ok (i, reg')) {r : Record}
    (hr : reg'.records[i]? = some r) : r.signature = signature := by
  rcases register_cases heq with ⟨s, hfind, -, hsignature, rfl, rfl⟩ | ⟨-, rfl, rfl⟩
  · obtain ⟨k, hk, -⟩ := exists_of_find? hfind
    rw [hs.numbered k s hk, hk] at hr
    obtain rfl := Option.some.inj hr
    exact hsignature
  · rw [size, List.getElem?_concat_length] at hr
    obtain rfl := Option.some.inj hr
    rfl

theorem Usual.modify {reg : Registry} (hu : reg.Usual) {i : Nat} {s : Storage}
    (hi : ∀ r, reg.records[i]? = some r → r.signature = s.signature) (pass : Nat) :
    (reg.modify i fun r => r.ensureAccessName pass (s.access r.name)).Usual := by
  intro j r' hr' other found hfound
  simp only [Registry.modify, List.getElem?_modify] at hr'
  obtain ⟨r, hr, heq⟩ := Option.map_eq_some_iff.mp hr'
  by_cases hij : i = j
  · subst hij
    rw [if_pos rfl] at heq
    subst heq
    have hgrows := r.grows_ensureAccessName pass (s.access r.name)
    have hname : (r.ensureAccessName pass (s.access r.name)).name = r.name :=
      congrArg (fun id => "arg" ++ decimal id) hgrows.id
    rw [hgrows.signature, hname]
    rcases Record.accessName?_of_ensure hfound with hold | rfl
    · exact hu i r hr other found hold
    · exact ⟨s, (hi r hr).symm, rfl⟩
  · rw [if_neg hij] at heq
    subst heq
    exact hu j r hr other found hfound

end Registry

/-! ### What binding keeps -/

/-- Binding an argument keeps the property. -/
def Registry.KeptByBinding (P : Registry → Prop) : Prop :=
  ∀ (a a' : Argument) (ctx ctx' : Context), ctx.registry.Sound → P ctx.registry →
    a.bind ctx = .ok (a', ctx') → P ctx'.registry

theorem Registry.usual_kept : KeptByBinding Usual := by
  intro a a' ctx ctx' hs hu h
  obtain ⟨⟨i, reg⟩, hregister, h⟩ := Outcome.bind_eq_ok_iff.mp h
  obtain ⟨-, rfl⟩ := Prod.mk.inj (Except.ok.inj h)
  exact (hu.register hregister).modify
    (fun r hr => signature_of_register hs hregister hr) ctx.pass

namespace Registry.KeptByBinding

variable {P : Registry → Prop}

theorem bindTemporary (hkept : KeptByBinding P) {l r : Term} {ctx : Context}
    (hs : ctx.registry.Sound) (hP : P ctx.registry) (computed : Option Nat)
    (temporary : Option Argument) :
    P (Term.bindTemporary l r computed temporary ctx).context.registry := by
  unfold Term.bindTemporary
  cases (Term.inner l r computed temporary).key ctx.registry with
  | error f => exact hP
  | ok key =>
    let claimed : Context := { ctx with temporaries := (ctx.temporaries.claim key).2 }
    dsimp only
    split
    · exact hP
    · next cell ctx' hbind => exact hkept _ cell claimed ctx' hs hP hbind

/-- What binding an argument keeps, binding a term keeps. -/
theorem bind (hkept : KeptByBinding P) (t : Term) {ctx : Context} (hs : ctx.registry.Sound)
    (hP : P ctx.registry) : P (t.bind ctx).context.registry := by
  have pair : ∀ {b : Bound} {r : Term} (join : Term → Term → Term), P b.context.registry →
      P (r.bind b.context).context.registry → P (b.andThen r.bind join r).context.registry := by
    intro b r join hl hr
    unfold Bound.andThen
    split
    · exact hl
    · exact hr
  induction t generalizing ctx with
  | leaf arg =>
    unfold Term.bind
    split
    · exact hP
    · next arg' ctx' hbind => exact hkept arg arg' ctx ctx' hs hP hbind
  | unary op sub ih => exact ih hs hP
  | binary op l r ihl ihr =>
    exact pair (.binary op) (ihl hs hP) (ihr (l.bind_grown hs).sound (ihl hs hP))
  | matMat l r ihl ihr => exact pair .matMat (ihl hs hP) (ihr (l.bind_grown hs).sound (ihl hs hP))
  | matVec l r ihl ihr => exact pair .matVec (ihl hs hP) (ihr (l.bind_grown hs).sound (ihl hs hP))
  | inner l r computed temporary ihl ihr =>
    have hl := ihl hs hP
    have hsound := (l.bind_grown hs).sound
    have hr := ihr hsound hl
    unfold Term.bind
    dsimp only
    split
    · exact hl
    · split
      · exact hr
      · exact hkept.bindTemporary (r.bind_grown hsound).sound hr computed temporary

end Registry.KeptByBinding

/-! ### Contexts of planning -/

namespace Context

/-- A term is bound, or another kernel becomes the current one. -/
inductive PlanStep (ctx : Context) : Context → Prop
  | bind (t : Term) : PlanStep ctx (t.bind ctx).context
  | withPass (pass : Nat) : PlanStep ctx (ctx.withPass pass)

/-- The second context comes from the first by any number of such steps. -/
abbrev PlanRun : Context → Context → Prop :=
  Relation.ReflTransGen PlanStep

theorem PlanStep.kept {P : Registry → Prop} (hkept : Registry.KeptByBinding P)
    {ctx ctx' : Context} (h : ctx.PlanStep ctx') (hs : ctx.registry.Sound) (hP : P ctx.registry) :
    ctx'.registry.Sound ∧ P ctx'.registry := by
  cases h with
  | bind t => exact ⟨(t.bind_grown hs).sound, hkept.bind t hs hP⟩
  | withPass pass => exact ⟨hs, hP⟩

/-- What binding keeps holds in every context of planning, if it holds at first. -/
theorem PlanRun.kept {P : Registry → Prop} (hkept : Registry.KeptByBinding P) (hempty : P .empty)
    {ctx : Context} (h : Context.empty.PlanRun ctx) : ctx.registry.Sound ∧ P ctx.registry := by
  induction h with
  | refl => exact ⟨Registry.sound_empty, hempty⟩
  | tail _ hstep ih => exact hstep.kept hkept ih.1 ih.2

theorem planRun_bindAll {t t' : Term} {ctx ctx' : Context} {pass : Nat}
    (h : t.bindAll (ctx.withPass pass) = .ok (t', ctx')) : ctx.PlanRun ctx' := by
  unfold Term.bindAll at h
  cases hfault : (t.bind (ctx.withPass pass)).fault with
  | some f => simp [hfault] at h
  | none =>
    simp only [hfault] at h
    obtain ⟨-, rfl⟩ := Prod.mk.inj (Except.ok.inj h)
    exact (Relation.ReflTransGen.single (.withPass pass)).tail (.bind t)

end Context

namespace Draft

variable {d d' : Draft} {s n m : Nat} {t t' : Term}

theorem planRun_addInner (h : d.addInner s n t = .ok (t', d')) :
    d.context.PlanRun d'.context := by
  obtain ⟨⟨t₁, ctx⟩, hbind, h⟩ := Outcome.bind_eq_ok_iff.mp h
  obtain ⟨key, -, h⟩ := Outcome.bind_eq_ok_iff.mp h
  have hrun := Context.planRun_bindAll hbind
  dsimp only at h
  split at h
  all_goals
    obtain ⟨-, rfl⟩ := Prod.mk.inj (Except.ok.inj h)
    exact hrun

theorem planRun_addInners (h : addInners s t n d = .ok (t', m, d')) :
    d.context.PlanRun d'.context := by
  -- The operands of an operation are planned one after the other.
  have pair : ∀ {l r : Term} {join : Term → Term → Term} {n m : Nat} {d d' : Draft} {t' : Term},
      (∀ {n m d' t'}, addInners s l n d = .ok (t', m, d') → d.context.PlanRun d'.context) →
      (∀ {n m d d' t'}, addInners s r n d = .ok (t', m, d') → d.context.PlanRun d'.context) →
      (addInners s l n d >>= fun x => addInners s r x.2.1 x.2.2 >>= fun y =>
        .ok (join x.1 y.1, y.2)) = .ok (t', m, d') → d.context.PlanRun d'.context := by
    intro l r join n m d d' t' hl hr h
    obtain ⟨⟨l', n₁, d₁⟩, h₁, h⟩ := Outcome.bind_eq_ok_iff.mp h
    obtain ⟨⟨r', n₂, d₂⟩, h₂, h⟩ := Outcome.bind_eq_ok_iff.mp h
    obtain ⟨-, -, rfl⟩ := by simpa using Except.ok.inj h
    exact (hl h₁).trans (hr h₂)
  induction t generalizing n m d d' t' with
  | leaf arg =>
    obtain ⟨-, -, rfl⟩ := by simpa using Except.ok.inj h
    exact .refl
  | unary op sub ih =>
    obtain ⟨⟨sub', n₁, d₁⟩, h₁, h⟩ := Outcome.bind_eq_ok_iff.mp h
    obtain ⟨-, -, rfl⟩ := by simpa using Except.ok.inj h
    exact ih h₁
  | binary op l r ihl ihr => exact pair ihl ihr h
  | matMat l r ihl ihr => exact pair ihl ihr h
  | matVec l r ihl ihr => exact pair ihl ihr h
  | inner l r computed temporary ihl ihr =>
    obtain ⟨⟨l', n₁, d₁⟩, h₁, h⟩ := Outcome.bind_eq_ok_iff.mp h
    obtain ⟨⟨r', n₂, d₂⟩, h₂, h⟩ := Outcome.bind_eq_ok_iff.mp h
    obtain ⟨⟨t₃, d₃⟩, h₃, h⟩ := Outcome.bind_eq_ok_iff.mp h
    obtain ⟨-, -, rfl⟩ := by simpa using Except.ok.inj h
    exact ((ihl h₁).trans (ihr h₂)).trans (planRun_addInner h₃)

theorem planRun_addStatement {statement planned : Statement}
    (h : d.addStatement s statement = .ok (planned, d')) : d.context.PlanRun d'.context := by
  obtain ⟨⟨tree, n₁, d₁⟩, h₁, h⟩ := Outcome.bind_eq_ok_iff.mp h
  have hcontext := place_context d₁ s (.ofTree tree)
  dsimp only at h
  generalize d₁.place s (.ofTree tree) = placed at h hcontext
  obtain ⟨⟨tree', ctx⟩, hbind, h⟩ := Outcome.bind_eq_ok_iff.mp h
  obtain ⟨-, rfl⟩ := Prod.mk.inj (Except.ok.inj h)
  rw [hcontext] at hbind
  rw [invalidate_context]
  exact (planRun_addInners h₁).trans (Context.planRun_bindAll hbind)

theorem planRun_addStatements {statements planned : List Statement}
    (h : addStatements s statements d = .ok (planned, d')) : d.context.PlanRun d'.context := by
  induction statements generalizing s d planned with
  | nil =>
    obtain ⟨-, rfl⟩ := Prod.mk.inj (Except.ok.inj h)
    exact .refl
  | cons statement rest ih =>
    obtain ⟨⟨first, d₁⟩, h₁, h⟩ := Outcome.bind_eq_ok_iff.mp h
    obtain ⟨⟨others, d₂⟩, h₂, h⟩ := Outcome.bind_eq_ok_iff.mp h
    obtain ⟨-, rfl⟩ := Prod.mk.inj (Except.ok.inj h)
    exact (planRun_addStatement h₁).trans (ih h₂)

end Draft

/-! ### Access texts of a plan -/

theorem Registry.Widened.usual {args : List Argument} {reg reg' : Registry}
    (h : reg.Widened args reg') (hu : reg.Usual) : reg'.Usual := by
  intro i r' hr' pass text htext
  rcases h i with ⟨-, hnone⟩ | ⟨r, x, hr, hsome, -⟩
  · rw [hnone] at hr'
    cases hr'
  · obtain rfl := Option.some.inj (hsome.symm.trans hr')
    exact hu i r hr pass text htext

theorem Plan.Built.usual {env : Declarations} {statements : List Statement} {plan : Plan}
    {d : Draft} (h : plan.Built env statements d) : plan.registry.Usual := by
  obtain ⟨alignment, hwiden⟩ := h.widened
  obtain ⟨-, -, hwidened⟩ := widened_of_widen hwiden
  exact hwidened.usual
    ((Draft.planRun_addStatements h.drafted).kept Registry.usual_kept Registry.usual_empty).2

/-- An argument with a name for the kernel is reached by the text of its storage. -/
theorem Argument.BoundIn.accessName_eq {a : Argument} {reg : Registry} {pass : Nat}
    (h : a.BoundIn reg) (hu : reg.Usual) (hnamed : a.NamedIn reg pass) :
    ∃ r, a.info reg = .ok r ∧ a.accessName reg pass = .ok (a.storage.access r.name) := by
  obtain ⟨i, r, hi, hr, -, -, hsignature⟩ := h
  obtain ⟨j, r', text, hj, hr', htext⟩ := hnamed
  obtain rfl : i = j := Option.some.inj (hi.symm.trans hj)
  obtain rfl : r = r' := Option.some.inj (hr.symm.trans hr')
  have hinfo : a.info reg = .ok r := info_eq_ok_iff.mpr ⟨i, hi, hr⟩
  obtain ⟨s, hs, rfl⟩ := hu i r hr pass text htext
  obtain rfl : s = a.storage := Storage.eq_of_signature_eq (hs.trans hsignature)
  refine ⟨r, hinfo, ?_⟩
  rw [accessName, hinfo, Outcome.ok_bind, Record.accessName, htext]

end LinearKernels
