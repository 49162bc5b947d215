import LinearKernels.Schedule
import LinearKernels.Proofs.Outcome

/-!
Other handles for the same buffers. A renaming gives every buffer another handle and leaves
the temporaries alone. Keys and codes do not mention handles, and binding and planning
compare them for equality only; so the plan of renamed statements is the renamed plan.
-/

namespace LinearKernels

/-- Handles for buffers, different ones for different buffers. -/
structure Renaming where
  toFun : Nat → Nat
  inj : ∀ a b, toFun a = toFun b → a = b

def Handle.rename (f : Renaming) : Handle → Handle
  | buffer k => buffer (f.toFun k)
  | temporary i => temporary i

def Argument.rename (f : Renaming) (a : Argument) : Argument :=
  { a with handle := a.handle.rename f }

def Term.rename (f : Renaming) : Term → Term
  | leaf arg => leaf (arg.rename f)
  | unary op sub => unary op (sub.rename f)
  | binary op lhs rhs => binary op (lhs.rename f) (rhs.rename f)
  | matMat lhs rhs => matMat (lhs.rename f) (rhs.rename f)
  | matVec lhs rhs => matVec (lhs.rename f) (rhs.rename f)
  | inner lhs rhs computed temporary =>
    inner (lhs.rename f) (rhs.rename f) computed (temporary.map (·.rename f))

def Record.rename (f : Renaming) (r : Record) : Record :=
  { r with handle := r.handle.rename f }

def Registry.rename (f : Renaming) (reg : Registry) : Registry :=
  ⟨reg.records.map (·.rename f)⟩

def Context.rename (f : Renaming) (ctx : Context) : Context :=
  { ctx with registry := ctx.registry.rename f }

def Reduction.rename (f : Renaming) (r : Reduction) : Reduction :=
  { r with reads := r.reads.map (·.rename f) }

def Draft.rename (f : Renaming) (d : Draft) : Draft :=
  { d with context := d.context.rename f, reductions := d.reductions.map (·.rename f) }

variable {f : Renaming}

theorem Handle.rename_inj {h h' : Handle} : h.rename f = h'.rename f ↔ h = h' := by
  constructor
  · intro heq
    cases h <;> cases h' <;> simp only [rename, buffer.injEq, temporary.injEq,
      reduceCtorEq] at heq
    · rw [f.inj _ _ heq]
    · rw [heq]
  · intro heq
    rw [heq]

/-! ### Records -/

theorem Record.ensureAccessName_rename (r : Record) (pass : Nat) (text : String) :
    (r.rename f).ensureAccessName pass text = (r.ensureAccessName pass text).rename f := by
  simp only [ensureAccessName, accessName?, rename]
  cases r.access.lookup pass <;> rfl

namespace Registry

theorem getElem?_rename (reg : Registry) (i : Nat) :
    (reg.rename f).records[i]? = reg.records[i]?.map (·.rename f) := by
  simp [rename]

theorem get_rename (reg : Registry) (i : Nat) :
    (reg.rename f).get i = Record.rename f <$> reg.get i := by
  rw [get, get, getElem?_rename]
  cases reg.records[i]? <;> rfl

theorem find?_rename (reg : Registry) (h : Handle) :
    (reg.rename f).find? (h.rename f) = (reg.find? h).map (·.rename f) := by
  simp only [find?, rename, List.find?_map]
  congr 2
  funext r
  exact decide_eq_decide.mpr Handle.rename_inj

/-- Changes that do not touch the handle can be made before or after. -/
theorem modify_rename (reg : Registry) (i : Nat) {g : Record → Record}
    (hg : ∀ r, g (r.rename f) = (g r).rename f) :
    (reg.rename f).modify i g = (reg.modify i g).rename f := by
  simp only [modify, rename, mk.injEq]
  refine List.ext_getElem? fun j => ?_
  simp only [List.getElem?_modify, List.getElem?_map]
  cases reg.records[j]? with
  | none => simp
  | some r => by_cases hij : i = j <;> simp [hij, hg]

theorem register_rename {reg reg' : Registry} {h : Handle} {e : ElementType} {signature : String}
    {i : Nat} (heq : reg.register h e signature = .ok (i, reg')) :
    (reg.rename f).register (h.rename f) e signature = .ok (i, reg'.rename f) := by
  rw [register] at heq ⊢
  rw [find?_rename]
  cases hfind : reg.find? h with
  | some r =>
    rw [hfind] at heq
    dsimp only at heq
    split at heq
    · next hagree =>
      obtain ⟨rfl, rfl⟩ := Prod.mk.inj (Except.ok.inj heq)
      exact if_pos hagree
    · cases heq
  | none =>
    rw [hfind] at heq
    obtain ⟨rfl, rfl⟩ := Prod.mk.inj (Except.ok.inj heq)
    simp [size, rename, Record.rename]

end Registry

namespace Argument

variable (a : Argument) (reg : Registry)

theorem info_rename : (a.rename f).info (reg.rename f) = Record.rename f <$> a.info reg := by
  rw [info, info]
  simp only [id, rename]
  cases a.record with
  | none => rfl
  | some i => exact reg.get_rename i

/-- A text that is made from the storage, the element type and the record of an argument. -/
theorem text_rename {α : Type} {g : Record → Except Fault α}
    (hg : ∀ r : Record, g (r.rename f) = g r) :
    ((a.rename f).info (reg.rename f) >>= g) = (a.info reg >>= g) := by
  rw [info_rename]
  cases a.info reg with
  | error e => rfl
  | ok r => exact hg r

theorem key_rename : (a.rename f).key (reg.rename f) = a.key reg :=
  a.text_rename reg fun _ => rfl

theorem name_rename : (a.rename f).name (reg.rename f) = a.name reg :=
  a.text_rename reg fun _ => rfl

theorem accessName_rename (pass : Nat) :
    (a.rename f).accessName (reg.rename f) pass = a.accessName reg pass :=
  a.text_rename reg fun _ => rfl

theorem declaration_rename : (a.rename f).declaration (reg.rename f) = a.declaration reg :=
  a.text_rename reg fun _ => rfl

theorem vectorElement_rename (i : String) :
    (a.rename f).vectorElement (reg.rename f) i = a.vectorElement reg i := by
  rw [vectorElement, vectorElement, name_rename]
  rfl

theorem matrixElement_rename (i j : String) :
    (a.rename f).matrixElement (reg.rename f) i j = a.matrixElement reg i j := by
  rw [matrixElement, matrixElement, name_rename]
  rfl

variable {a}

theorem bind_rename {ctx ctx' : Context} {a' : Argument} (h : a.bind ctx = .ok (a', ctx')) :
    (a.rename f).bind (ctx.rename f) = .ok (a'.rename f, ctx'.rename f) := by
  obtain ⟨⟨i, reg⟩, hreg, heq⟩ := Outcome.bind_eq_ok_iff.mp h
  obtain ⟨rfl, rfl⟩ := Prod.mk.inj (Except.ok.inj heq)
  have hregister : (ctx.rename f).registry.register (a.rename f).handle (a.rename f).element
      (a.rename f).storage.signature = .ok (i, reg.rename f) := Registry.register_rename hreg
  rw [bind, hregister]
  simp only [Outcome.ok_bind]
  rw [Registry.modify_rename]
  · rfl
  · exact fun r => r.ensureAccessName_rename _ _

end Argument

/-! ### Terms -/

namespace Term

@[simp] theorem shape_rename (t : Term) : (t.rename f).shape = t.shape := by
  induction t with
  | leaf arg => rfl
  | unary op sub ih => simpa only [rename, shape] using ih
  | binary op lhs rhs ihl ihr => cases op <;> simp only [rename, shape, ihl, ihr]
  | matMat lhs rhs ihl ihr => rfl
  | matVec lhs rhs ihl ihr => rfl
  | inner lhs rhs computed temporary ihl ihr => rfl

@[simp] theorem element_rename (t : Term) : (t.rename f).element = t.element := by
  induction t with
  | leaf arg => rfl
  | unary op sub ih => simpa only [rename, element] using ih
  | binary op lhs rhs ihl ihr => simpa only [rename, element] using ihl
  | matMat lhs rhs ihl ihr => simpa only [rename, element] using ihl
  | matVec lhs rhs ihl ihr => simpa only [rename, element] using ihl
  | inner lhs rhs computed temporary ihl ihr => simpa only [rename, element] using ihl

theorem argument?_rename (t : Term) : (t.rename f).argument? = t.argument?.map (·.rename f) := by
  cases t with
  | inner lhs rhs computed temporary => cases computed <;> rfl
  | leaf | unary | binary | matMat | matVec => rfl

theorem handle?_rename (t : Term) : (t.rename f).handle? = t.handle?.map (·.rename f) := by
  rw [handle?, handle?, argument?_rename, Option.map_map, Option.map_map]
  rfl

theorem operands?_rename (t : Term) : (t.rename f).operands? =
    t.operands?.map fun (op, lhs, rhs) => (op, lhs.rename f, rhs.rename f) := by
  cases t <;> rfl

theorem product?_rename (t : Term) : (t.rename f).product? =
    t.product?.map fun (lhs, rhs) => (lhs.rename f, rhs.rename f) := by
  cases t <;> rfl

theorem admits_rename (kind : TermKind) (t : Term) :
    kind.admits (t.rename f) = kind.admits t := by
  cases kind with
  | argument => simp [TermKind.admits, argument?_rename]
  | any | binary | unary | matMat | matVec | inner => cases t <;> rfl

theorem walk_rename (t : Term) : (t.rename f).walk = t.walk.map (·.rename f) := by
  induction t with
  | leaf arg => rfl
  | unary op sub ih => simp only [rename, walk, ih, List.map_append, List.map_cons, List.map_nil]
  | binary op lhs rhs ihl ihr =>
    simp only [rename, walk, ihl, ihr, List.map_append, List.map_cons, List.map_nil]
  | matMat lhs rhs ihl ihr =>
    simp only [rename, walk, ihl, ihr, List.map_append, List.map_cons, List.map_nil]
  | matVec lhs rhs ihl ihr =>
    simp only [rename, walk, ihl, ihr, List.map_append, List.map_cons, List.map_nil]
  | inner lhs rhs computed temporary ihl ihr =>
    cases computed <;> cases temporary <;>
      simp only [rename, walk, ihl, ihr, List.map_append, List.map_cons, List.map_nil, Option.map]

theorem innerProducts_rename (t : Term) :
    (t.rename f).innerProducts = t.innerProducts.map (·.rename f) := by
  induction t with
  | leaf arg => rfl
  | unary op sub ih => simpa only [rename, innerProducts] using ih
  | binary op lhs rhs ihl ihr => simp only [rename, innerProducts, ihl, ihr, List.map_append]
  | matMat lhs rhs ihl ihr => simp only [rename, innerProducts, ihl, ihr, List.map_append]
  | matVec lhs rhs ihl ihr => simp only [rename, innerProducts, ihl, ihr, List.map_append]
  | inner lhs rhs computed temporary ihl ihr =>
    simp only [rename, innerProducts, ihl, ihr, List.map_append, List.map_cons, List.map_nil]

theorem handles_rename (t : Term) : (t.rename f).handles = t.handles.map (·.rename f) := by
  rw [handles, handles, walk_rename, List.filterMap_map, List.map_filterMap]
  congr 1
  funext s
  exact handle?_rename s

theorem count_rename (kind : TermKind) (t : Term) : (t.rename f).count kind = t.count kind := by
  rw [count, count, walk_rename, List.countP_map]
  congr 1
  funext s
  exact admits_rename kind s

theorem ofTree_rename (t : Term) : PassKind.ofTree (t.rename f) = PassKind.ofTree t := by
  simp only [PassKind.ofTree, count_rename, shape_rename]

variable (reg : Registry) (pass : Nat)

theorem key_rename (t : Term) : (t.rename f).key (reg.rename f) = t.key reg := by
  induction t with
  | leaf arg => exact arg.key_rename reg
  | unary op sub ih => simp only [rename, key, ih]
  | binary op lhs rhs ihl ihr => simp only [rename, key, ihl, ihr]
  | matMat lhs rhs ihl ihr => simp only [rename, key, ihl, ihr]
  | matVec lhs rhs ihl ihr => simp only [rename, key, ihl, ihr]
  | inner lhs rhs computed temporary ihl ihr => simp only [rename, key, ihl, ihr]

theorem shortKey_rename (t : Term) : (t.rename f).shortKey (reg.rename f) = t.shortKey reg := by
  induction t with
  | leaf arg => exact arg.key_rename reg
  | unary op sub ih => simp only [rename, shortKey, ih]
  | binary op lhs rhs ihl ihr => simp only [rename, shortKey, ihl, ihr, key_rename]
  | matMat lhs rhs ihl ihr => simp only [rename, shortKey, ihl, ihr]
  | matVec lhs rhs ihl ihr => simp only [rename, shortKey, ihl, ihr]
  | inner lhs rhs computed temporary ihl ihr => simp only [rename, shortKey, key_rename]

theorem code_rename (t : Term) : (t.rename f).code (reg.rename f) pass = t.code reg pass := by
  induction t with
  | leaf arg => exact arg.accessName_rename reg pass
  | unary op sub ih => simp only [rename, code, ih]
  | binary op lhs rhs ihl ihr => simp only [rename, code, ihl, ihr]
  | matMat lhs rhs ihl ihr => simp only [rename, code, key_rename]
  | matVec lhs rhs ihl ihr => simp only [rename, code, key_rename]
  | inner lhs rhs computed temporary ihl ihr =>
    cases computed with
    | none => simp only [rename, code, ihl, ihr]
    | some p =>
      cases temporary with
      | none => rfl
      | some cell => exact cell.accessName_rename reg pass

theorem pairCode_rename (op : BinaryOp) (lhs rhs : Term) :
    pairCode (reg.rename f) pass op (lhs.rename f) (rhs.rename f) =
      pairCode reg pass op lhs rhs := by
  simp only [pairCode, code_rename]

/-! ### Binding -/

variable {reg}

/-- Both operands have been bound if the pair has. -/
theorem andThen_eq_iff {b : Bound} {next : Context → Bound} {join : Term → Term → Term}
    {rhs t : Term} {ctx : Context} : b.andThen next join rhs = ⟨t, ctx, none⟩ ↔
      ∃ l ctx₁ r, b = ⟨l, ctx₁, none⟩ ∧ next ctx₁ = ⟨r, ctx, none⟩ ∧ join l r = t := by
  obtain ⟨l, ctx₁, fault⟩ := b
  cases fault with
  | some e => simp [Bound.andThen]
  | none =>
    simp only [Bound.andThen, Bound.mk.injEq]
    constructor
    · rintro ⟨rfl, rfl, hfault⟩
      exact ⟨l, ctx₁, _, ⟨rfl, rfl, trivial⟩, by rw [← hfault], rfl⟩
    · rintro ⟨l', ctx₁', r, ⟨rfl, rfl, -⟩, hnext, rfl⟩
      simp [hnext]

theorem claim_rename (temporaries : Temporaries) (key : String) :
    (temporaries.claim key).1.rename f = (temporaries.claim key).1 := by
  unfold Temporaries.claim
  split <;> rfl

theorem bindTemporary_rename {lhs rhs t : Term} {computed : Option Nat}
    {temporary : Option Argument} {ctx ctx' : Context}
    (h : bindTemporary lhs rhs computed temporary ctx = ⟨t, ctx', none⟩) :
    bindTemporary (lhs.rename f) (rhs.rename f) computed (temporary.map (·.rename f))
        (ctx.rename f) =
      ⟨t.rename f, ctx'.rename f, none⟩ := by
  cases hkey : (inner lhs rhs computed temporary).key ctx.registry with
  | error e => simp [bindTemporary, hkey] at h
  | ok key =>
    have hkey' : (inner (lhs.rename f) (rhs.rename f) computed (temporary.map (·.rename f))).key
        (ctx.rename f).registry = .ok key := (key_rename ctx.registry _).trans hkey
    have hcell : (temporary.map (·.rename f)).getD
          (.ofHandle (ctx.temporaries.claim key).1 (lhs.rename f).element .deviceScalar) =
        (temporary.getD
          (.ofHandle (ctx.temporaries.claim key).1 lhs.element .deviceScalar)).rename f := by
      cases temporary with
      | some cell => rfl
      | none => simp only [Option.map_none, Option.getD_none, Argument.ofHandle, Argument.rename,
          element_rename, claim_rename]
    simp only [bindTemporary, hkey] at h
    simp only [bindTemporary, hkey']
    cases hbind :
      (temporary.getD (.ofHandle (ctx.temporaries.claim key).1 lhs.element .deviceScalar)).bind
        { ctx with temporaries := (ctx.temporaries.claim key).2 } with
    | error e => simp [hbind] at h
    | ok result =>
      obtain ⟨cell, ctx₁⟩ := result
      rw [hbind] at h
      obtain ⟨rfl, rfl, -⟩ := Bound.mk.inj h
      have hrenamed : Argument.bind ((temporary.map (·.rename f)).getD
            (.ofHandle ((ctx.rename f).temporaries.claim key).1
              (lhs.rename f).element .deviceScalar))
          { ctx.rename f with temporaries := ((ctx.rename f).temporaries.claim key).2 } =
            .ok (cell.rename f, ctx₁.rename f) :=
        (congrArg (Argument.bind · _) hcell).trans (Argument.bind_rename hbind)
      rw [hrenamed]
      rfl

theorem bind_inner_eq_iff {lhs rhs t : Term} {computed : Option Nat} {temporary : Option Argument}
    {ctx ctx' : Context} : (inner lhs rhs computed temporary).bind ctx = ⟨t, ctx', none⟩ ↔
      ∃ l ctx₁ r ctx₂, lhs.bind ctx = ⟨l, ctx₁, none⟩ ∧ rhs.bind ctx₁ = ⟨r, ctx₂, none⟩ ∧
        bindTemporary l r computed temporary ctx₂ = ⟨t, ctx', none⟩ := by
  rw [bind]
  obtain ⟨l, ctx₁, fault⟩ := lhs.bind ctx
  cases fault with
  | some e => simp
  | none =>
    dsimp only
    cases hr : rhs.bind ctx₁ with
    | mk r ctx₂ fault =>
      cases fault with
      | some e => simp [hr]
      | none =>
        constructor
        · intro h
          exact ⟨l, ctx₁, r, ctx₂, rfl, hr, h⟩
        · rintro ⟨l', ctx₁', r', ctx₂', hl, hr', h⟩
          obtain ⟨rfl, rfl, -⟩ := Bound.mk.inj hl
          obtain ⟨rfl, rfl, -⟩ := Bound.mk.inj (hr.symm.trans hr')
          exact h

theorem bind_rename {t t' : Term} {ctx ctx' : Context} (h : t.bind ctx = ⟨t', ctx', none⟩) :
    (t.rename f).bind (ctx.rename f) = ⟨t'.rename f, ctx'.rename f, none⟩ := by
  have pair : ∀ {lhs rhs : Term} {join : Term → Term → Term} {t' : Term} {ctx ctx' : Context},
      (∀ {ctx ctx' t'}, lhs.bind ctx = ⟨t', ctx', none⟩ →
        (lhs.rename f).bind (ctx.rename f) = ⟨t'.rename f, ctx'.rename f, none⟩) →
      (∀ {ctx ctx' t'}, rhs.bind ctx = ⟨t', ctx', none⟩ →
        (rhs.rename f).bind (ctx.rename f) = ⟨t'.rename f, ctx'.rename f, none⟩) →
      (∀ l r, join (l.rename f) (r.rename f) = (join l r).rename f) →
      (lhs.bind ctx).andThen rhs.bind join rhs = ⟨t', ctx', none⟩ →
      ((lhs.rename f).bind (ctx.rename f)).andThen (rhs.rename f).bind join (rhs.rename f) =
        ⟨t'.rename f, ctx'.rename f, none⟩ := by
    intro lhs rhs join t' ctx ctx' hl hr hjoin h
    obtain ⟨l, ctx₁, r, hlhs, hrhs, rfl⟩ := andThen_eq_iff.mp h
    exact andThen_eq_iff.mpr ⟨_, _, _, hl hlhs, hr hrhs, hjoin l r⟩
  induction t generalizing t' ctx ctx' with
  | leaf arg =>
    rw [bind] at h
    cases hbind : arg.bind ctx with
    | error e => simp [hbind] at h
    | ok result =>
      obtain ⟨a, ctx₁⟩ := result
      rw [hbind] at h
      obtain ⟨rfl, rfl, -⟩ := Bound.mk.inj h
      rw [rename, bind, Argument.bind_rename hbind]
      rfl
  | unary op sub ih =>
    obtain ⟨rfl, rfl, hfault⟩ := Bound.mk.inj h
    have hsub : sub.bind ctx = ⟨(sub.bind ctx).term, (sub.bind ctx).context, none⟩ := by
      rw [← hfault]
    rw [rename, bind, ih hsub]
    rfl
  | binary op lhs rhs ihl ihr => exact pair ihl ihr (fun _ _ => rfl) h
  | matMat lhs rhs ihl ihr => exact pair ihl ihr (fun _ _ => rfl) h
  | matVec lhs rhs ihl ihr => exact pair ihl ihr (fun _ _ => rfl) h
  | inner lhs rhs computed temporary ihl ihr =>
    obtain ⟨l, ctx₁, r, ctx₂, hl, hr, ht⟩ := bind_inner_eq_iff.mp h
    exact bind_inner_eq_iff.mpr ⟨_, _, _, _, ihl hl, ihr hr, bindTemporary_rename ht⟩

theorem bindAll_rename {t t' : Term} {ctx ctx' : Context} (h : t.bindAll ctx = .ok (t', ctx')) :
    (t.rename f).bindAll (ctx.rename f) = .ok (t'.rename f, ctx'.rename f) := by
  have hbind : t.bind ctx = ⟨t', ctx', none⟩ := by
    rw [bindAll] at h
    cases hb : t.bind ctx with
    | mk t₁ ctx₁ fault =>
      rw [hb] at h
      cases fault with
      | some e => cases h
      | none =>
        obtain ⟨rfl, rfl⟩ := Prod.mk.inj (Except.ok.inj h)
        rfl
  rw [bindAll, bind_rename hbind]

theorem markComputed_rename (pass : Nat) (t : Term) :
    (t.rename f).markComputed pass = (t.markComputed pass).rename f := by
  cases t <;> rfl

end Term

/-! ### Planning -/

namespace Draft

theorem find?_reductions_rename (reductions : List Reduction) (key : String) :
    (reductions.map (·.rename f)).find? (·.key = key) =
      (reductions.find? (·.key = key)).map (·.rename f) := by
  rw [List.find?_map]
  rfl

theorem addInner_rename {s n : Nat} {t t' : Term} {d d' : Draft}
    (h : d.addInner s n t = .ok (t', d')) :
    (d.rename f).addInner s n (t.rename f) = .ok (t'.rename f, d'.rename f) := by
  obtain ⟨⟨t₁, ctx⟩, hbind, h⟩ := Outcome.bind_eq_ok_iff.mp h
  obtain ⟨key, hkey, h⟩ := Outcome.bind_eq_ok_iff.mp h
  have hbind' : (t.rename f).bindAll ((d.rename f).context.withPass (d.rename f).passes.length) =
      .ok (t₁.rename f, ctx.rename f) := Term.bindAll_rename hbind
  have hkey' : (t₁.rename f).key (ctx.rename f).registry = .ok key :=
    (Term.key_rename ctx.registry t₁).trans hkey
  have hfind := find?_reductions_rename (f := f) d.reductions key
  rw [addInner]
  simp only [hbind', hkey', Outcome.ok_bind]
  dsimp only at h
  cases hr : d.reductions.find? (·.key = key) with
  | some r =>
    rw [hr] at h
    obtain ⟨rfl, rfl⟩ := Prod.mk.inj (Except.ok.inj h)
    have hr' : (d.rename f).reductions.find? (·.key = key) = some (r.rename f) :=
      hfind.trans (by rw [hr]; rfl)
    simp only [hr', Term.markComputed_rename]
    rfl
  | none =>
    rw [hr] at h
    obtain ⟨rfl, rfl⟩ := Prod.mk.inj (Except.ok.inj h)
    have hr' : (d.rename f).reductions.find? (·.key = key) = none := hfind.trans (by rw [hr]; rfl)
    simp only [hr', Term.markComputed_rename]
    cases t₁ <;>
      simp [rename, Reduction.rename, Term.rename, Term.operands?, Term.handles_rename]

theorem addInners_rename {s n n' : Nat} {t t' : Term} {d d' : Draft}
    (h : addInners s t n d = .ok (t', n', d')) :
    addInners s (t.rename f) n (d.rename f) = .ok (t'.rename f, n', d'.rename f) := by
  induction t generalizing n d t' n' d' with
  | leaf arg =>
    cases h
    rfl
  | unary op sub ih =>
    obtain ⟨⟨sub', n₁, d₁⟩, hsub, h⟩ := Outcome.bind_eq_ok_iff.mp h
    cases h
    simp only [Term.rename, addInners, ih hsub, Outcome.ok_bind, Outcome.pure_eq_ok]
  | binary op lhs rhs ihl ihr | matMat lhs rhs ihl ihr | matVec lhs rhs ihl ihr =>
    obtain ⟨⟨l, n₁, d₁⟩, hl, h⟩ := Outcome.bind_eq_ok_iff.mp h
    obtain ⟨⟨r, n₂, d₂⟩, hr, h⟩ := Outcome.bind_eq_ok_iff.mp h
    cases h
    simp only [Term.rename, addInners, ihl hl, ihr hr, Outcome.ok_bind, Outcome.pure_eq_ok]
  | inner lhs rhs computed temporary ihl ihr =>
    obtain ⟨⟨l, n₁, d₁⟩, hl, h⟩ := Outcome.bind_eq_ok_iff.mp h
    obtain ⟨⟨r, n₂, d₂⟩, hr, h⟩ := Outcome.bind_eq_ok_iff.mp h
    obtain ⟨⟨m, d₃⟩, hm, h⟩ := Outcome.bind_eq_ok_iff.mp h
    cases h
    have hm' := addInner_rename (f := f) hm
    rw [Term.rename] at hm'
    simp only [Term.rename, addInners, ihl hl, ihr hr, hm', Outcome.ok_bind, Outcome.pure_eq_ok]

theorem place_rename (d : Draft) (s : Nat) (kind : PassKind) :
    (d.rename f).place s kind = ((d.place s kind).1, (d.place s kind).2.rename f) := by
  have hopened : (d.rename f).opened.filter ((d.rename f).canJoin kind) =
      d.opened.filter (d.canJoin kind) := rfl
  rw [place, place, hopened]
  cases d.opened.filter (d.canJoin kind) <;> rfl

theorem written?_rename (tree : Term) :
    written? (tree.rename f) = (written? tree).map (·.rename f) := by
  rw [written?, written?, Term.operands?_rename]
  cases tree.operands? with
  | none => rfl
  | some operands => exact Term.handle?_rename _

theorem contains_rename (reads : List Handle) (h : Handle) :
    (reads.map (·.rename f)).contains (h.rename f) = reads.contains h := by
  rw [Bool.eq_iff_iff, List.contains_iff_mem, List.contains_iff_mem, List.mem_map]
  constructor
  · rintro ⟨h', hmem, heq⟩
    rwa [← Handle.rename_inj.mp heq]
  · intro hmem
    exact ⟨h, hmem, rfl⟩

theorem invalidate_rename (tree : Term) (d : Draft) :
    (d.rename f).invalidate (tree.rename f) = (d.invalidate tree).rename f := by
  rw [invalidate, invalidate, written?_rename]
  cases written? tree with
  | none => rfl
  | some h =>
    simp only [Option.map_some, rename, List.filter_map, Draft.mk.injEq, true_and, and_true]
    congr 2
    funext r
    simp only [Function.comp, Reduction.rename, contains_rename]

theorem addStatement_rename {s : Nat} {statement statement' planned : Statement} {d d' : Draft}
    (htree : statement'.tree = statement.tree.rename f)
    (h : d.addStatement s statement = .ok (planned, d')) :
    ∃ planned', (d.rename f).addStatement s statement' = .ok (planned', d'.rename f) ∧
      planned'.tree = planned.tree.rename f := by
  obtain ⟨⟨tree, n, d₁⟩, hinners, h⟩ := Outcome.bind_eq_ok_iff.mp h
  obtain ⟨p, placed, hplace⟩ : ∃ p placed, d₁.place s (.ofTree tree) = (p, placed) := ⟨_, _, rfl⟩
  simp only [hplace] at h
  obtain ⟨⟨bound, ctx⟩, hbind, h⟩ := Outcome.bind_eq_ok_iff.mp h
  obtain ⟨rfl, rfl⟩ := Prod.mk.inj (Except.ok.inj h)
  have hplace' : (d₁.rename f).place s (.ofTree (tree.rename f)) = (p, placed.rename f) := by
    rw [Term.ofTree_rename, place_rename, hplace]
  have hbind' : (tree.rename f).bindAll ((placed.rename f).context.withPass p) =
      .ok (bound.rename f, ctx.rename f) := Term.bindAll_rename hbind
  refine ⟨{ statement' with tree := bound.rename f }, ?_, rfl⟩
  simp only [addStatement, htree, addInners_rename hinners, hplace', hbind', Outcome.ok_bind,
    Outcome.pure_eq_ok, ← invalidate_rename]
  rfl

/-- Planning renamed statements leaves a renamed draft and renamed trees. -/
theorem addStatements_rename {s : Nat} {statements statements' planned : List Statement}
    {d d' : Draft} (htrees : statements'.map (·.tree) = statements.map (·.tree.rename f))
    (h : addStatements s statements d = .ok (planned, d')) :
    ∃ planned', addStatements s statements' (d.rename f) = .ok (planned', d'.rename f) ∧
      planned'.map (·.tree) = planned.map (·.tree.rename f) := by
  induction statements generalizing s statements' planned d with
  | nil =>
    obtain rfl : statements' = [] := by simpa using htrees
    cases h
    exact ⟨[], rfl, rfl⟩
  | cons statement rest ih =>
    cases statements' with
    | nil => simp at htrees
    | cons statement' rest' =>
      obtain ⟨htree, htrees⟩ := List.cons.inj htrees
      obtain ⟨⟨first, d₁⟩, hfirst, h⟩ := Outcome.bind_eq_ok_iff.mp h
      obtain ⟨⟨more, d₂⟩, hmore, h⟩ := Outcome.bind_eq_ok_iff.mp h
      cases h
      obtain ⟨first', hfirst', htree'⟩ := addStatement_rename htree hfirst
      obtain ⟨more', hmore', htrees'⟩ := ih htrees hmore
      refine ⟨first' :: more', ?_, ?_⟩
      · simp only [addStatements, hfirst', hmore', Outcome.ok_bind, Outcome.pure_eq_ok]
      · simp only [List.map_cons, htree', htrees']

end Draft

end LinearKernels
