import LinearKernels.Proofs.Contexts
import LinearKernels.Proofs.Renaming
import Mathlib.Data.List.Forall2

/-!
Which temporary an inner product has. Terms are made, copied and bound in several contexts, in
any order. Every binding makes the context hold a temporary for the key of each inner product;
but an inner product that has its temporary keeps it. So its temporary is the one that the
context in which it was bound first holds for its key there, whatever was bound since and
wherever; among inner products with one first context, a temporary is shared exactly by those
with the same key.
-/

namespace LinearKernels

namespace Temporaries

/-- The temporary of a key, if it has one. -/
def handle? (t : Temporaries) (key : String) : Option Handle :=
  (t.keys.idxOf? key).map .temporary

theorem handle?_eq_some_iff {t : Temporaries} (hd : t.Distinct) {key : String} {h : Handle} :
    t.handle? key = some h ↔ ∃ i, h = .temporary i ∧ t.keys[i]? = some key := by
  rw [handle?, Option.map_eq_some_iff]
  constructor
  · rintro ⟨i, hidx, rfl⟩
    exact ⟨i, rfl, getElem?_of_idxOf? hidx⟩
  · rintro ⟨i, rfl, hi⟩
    cases hidx : t.keys.idxOf? key with
    | none => exact absurd (List.mem_of_getElem? hi) (List.idxOf?_eq_none_iff.mp hidx)
    | some j => exact ⟨j, rfl, by rw [hd i j key hi (getElem?_of_idxOf? hidx)]⟩

/-- Different keys have different temporaries. -/
theorem key_eq_of_handle? {t : Temporaries} (hd : t.Distinct) {key key' : String} {h : Handle}
    (hkey : t.handle? key = some h) (hkey' : t.handle? key' = some h) : key = key' := by
  obtain ⟨i, rfl, hi⟩ := (handle?_eq_some_iff hd).mp hkey
  obtain ⟨j, hj, hi'⟩ := (handle?_eq_some_iff hd).mp hkey'
  obtain rfl := Handle.temporary.inj hj
  exact Option.some.inj (hi.symm.trans hi')

theorem handle?_claim {t : Temporaries} (hd : t.Distinct) (key : String) :
    (t.claim key).2.Distinct ∧ (∃ more, (t.claim key).2.keys = t.keys ++ more) ∧
      (t.claim key).2.handle? key = some (t.claim key).1 := by
  obtain ⟨i, t', hclaim, hd', hi, hmore⟩ := claim_ok hd key
  rw [hclaim]
  exact ⟨hd', hmore, (handle?_eq_some_iff hd').mpr ⟨i, rfl, hi⟩⟩

end Temporaries

/-! ### Binding inner products -/

namespace Term

/-- The handle of the temporary of an inner product. -/
def cellHandle? : Term → Option Handle
  | inner _ _ _ temporary => temporary.map (·.handle)
  | _ => none

/-- The key of the term where its leaves are bound in the registry. -/
def KeyIn (reg : Registry) (t : Term) (key : String) : Prop :=
  ∃ s : Term, s.erase = t.erase ∧ s.LeavesBound reg ∧ s.key reg = .ok key

theorem KeyIn.of_erase_eq {reg : Registry} {t t' : Term} {key : String} (h : t.KeyIn reg key)
    (herase : t'.erase = t.erase) : t'.KeyIn reg key := by
  obtain ⟨s, hs, hbound, hkey⟩ := h
  exact ⟨s, hs.trans herase.symm, hbound, hkey⟩

theorem KeyIn.unique {reg : Registry} (hs : reg.Sound) {t : Term} {key key' : String}
    (h : t.KeyIn reg key) (h' : t.KeyIn reg key') : key = key' := by
  obtain ⟨s, herase, hbound, hkey⟩ := h
  obtain ⟨s', herase', hbound', hkey'⟩ := h'
  rw [key_eq_of_erase_eq hs hbound hbound' (herase.trans herase'.symm)] at hkey
  exact Except.ok.inj (hkey.symm.trans hkey')

/-- Where both are bound, terms have the same key exactly if they are written alike. -/
theorem KeyIn.eq_iff {reg : Registry} (hs : reg.Sound) {t t' : Term} (wt : t.WellTyped)
    (wt' : t'.WellTyped) {key key' : String} (h : t.KeyIn reg key) (h' : t'.KeyIn reg key') :
    key = key' ↔ t.erase = t'.erase := by
  constructor
  · rintro rfl
    obtain ⟨s, herase, hbound, hkey⟩ := h
    obtain ⟨s', herase', hbound', hkey'⟩ := h'
    have hsame := erase_eq_of_key_eq hs hbound hbound' (wt.of_erase_eq herase.symm)
      (wt'.of_erase_eq herase'.symm) hkey hkey'
    rw [← herase, hsame, herase']
  · intro herase
    exact (h.of_erase_eq herase.symm).unique hs h'

theorem keyIn_of_key {reg : Registry} {t : Term} {key : String} (hb : t.LeavesBound reg)
    (h : t.key reg = .ok key) : t.KeyIn reg key :=
  ⟨t, rfl, hb, h⟩

theorem KeyIn.grows {reg reg' : Registry} {t : Term} {key : String} (h : t.KeyIn reg key)
    (hg : reg.Grows reg') : t.KeyIn reg' key := by
  obtain ⟨s, herase, hbound, hkey⟩ := h
  exact ⟨s, herase, hbound.keeps hg.keeps, (hbound.key_grows hg).trans hkey⟩

end Term

/-- The context holds the temporary `h` for the key of the term. -/
def Context.Holds (ctx : Context) (t : Term) (h : Handle) : Prop :=
  ∃ key, t.KeyIn ctx.registry key ∧ ctx.temporaries.handle? key = some h

/-- Records are in order, and no key has two temporaries. -/
structure Context.Orderly (ctx : Context) : Prop where
  sound : ctx.registry.Sound
  distinct : ctx.temporaries.Distinct

theorem Context.Holds.grows {ctx ctx' : Context} {t : Term} {h : Handle} (hh : ctx.Holds t h)
    (hd : ctx.temporaries.Distinct) (hg : ctx.Grows ctx') (hd' : ctx'.temporaries.Distinct) :
    ctx'.Holds t h := by
  obtain ⟨key, hkey, hhandle⟩ := hh
  obtain ⟨i, rfl, hi⟩ := (Temporaries.handle?_eq_some_iff hd).mp hhandle
  exact ⟨key, hkey.grows hg.registry, (Temporaries.handle?_eq_some_iff hd').mpr
    ⟨i, rfl, hg.getElem?_keys hi⟩⟩

namespace Term

/-- What binding makes of an inner product: the context holds a temporary for its key, which
it takes unless it has one. -/
structure Rebound (ctx : Context) (m m' : Term) : Prop where
  erase : m'.erase = m.erase
  bound : m'.LeavesBound ctx.registry
  taken : ∃ h, ctx.Holds m' h ∧ m'.cellHandle? = some (m.cellHandle?.getD h)

theorem Rebound.grows {ctx ctx' : Context} {m m' : Term} (h : Rebound ctx m m') (ho : ctx.Orderly)
    (hg : ctx.Grows ctx') (ho' : ctx'.Orderly) : Rebound ctx' m m' := by
  obtain ⟨handle, hholds, hcell⟩ := h.taken
  exact ⟨h.erase, h.bound.keeps hg.registry.keeps, handle,
    hholds.grows ho.distinct hg ho'.distinct, hcell⟩

/-- What binding a term makes of the context and of the inner products of the term. -/
structure Rebinds (t : Term) (ctx : Context) (t' : Term) (ctx' : Context) : Prop where
  orderly : ctx'.Orderly
  grows : ctx.Grows ctx'
  erase : t'.erase = t.erase
  leaves : t'.LeavesBound ctx'.registry
  products : List.Forall₂ (Rebound ctx') t.innerProducts t'.innerProducts

variable {ctx ctx' ctx₁ ctx₂ : Context} {l l' r r' t t' : Term}

theorem Rebinds.append (hl : l.Rebinds ctx l' ctx₁) (hr : r.Rebinds ctx₁ r' ctx₂) :
    List.Forall₂ (Rebound ctx₂) (l.innerProducts ++ r.innerProducts)
      (l'.innerProducts ++ r'.innerProducts) :=
  List.rel_append (hl.products.imp fun _ _ h => h.grows hl.orderly hr.grows hr.orderly)
    hr.products

/-- Operands are bound one after the other. -/
theorem Rebinds.pair (hl : l.Rebinds ctx l' ctx₁)
    (hr : r.Rebinds ctx₁ r' ctx₂) {join : Term → Term → Term} (hj : Joins join)
    (hleaves : ∀ l r, (join l r).leaves = l.leaves ++ r.leaves) :
    (join l r).Rebinds ctx (join l' r') ctx₂ where
  orderly := hr.orderly
  grows := hl.grows.trans hr.grows
  erase := by rw [hj.erase, hj.erase, hl.erase, hr.erase]
  leaves a ha := by
    rw [hleaves] at ha
    rcases List.mem_append.mp ha with ha | ha
    · exact (hl.leaves.keeps hr.grows.registry.keeps) a ha
    · exact hr.leaves a ha
  products := by
    rw [hj.products, hj.products]
    exact hl.append hr

theorem bindTemporary_rebound (ho : ctx.Orderly) {computed : Option Nat}
    {temporary : Option Argument} (hb : (inner l r computed temporary).LeavesBound ctx.registry)
    (h : bindTemporary l r computed temporary ctx = ⟨t', ctx', none⟩) :
    ctx'.Orderly ∧ ctx.Grows ctx' ∧ t'.innerProducts = l.innerProducts ++ r.innerProducts ++
      [t'] ∧ Rebound ctx' (inner l r computed temporary) t' := by
  obtain ⟨key, hkeys⟩ := hb.key_ok
  have hkey := hkeys ctx.registry (Registry.Grows.refl _)
  obtain ⟨hdistinct, hmore, hclaimed⟩ := Temporaries.handle?_claim ho.distinct key
  simp only [bindTemporary, hkey] at h
  split at h
  · cases h
  · next cell ctx₁ hbind =>
    obtain ⟨rfl, rfl, -⟩ := Bound.mk.inj h
    have hsound :
        (Context.mk ctx.registry (ctx.temporaries.claim key).2 ctx.pass).registry.Sound :=
      ho.sound
    obtain ⟨reg', rfl, hbinds⟩ := Argument.binds_of_bind hsound hbind
    have hgrows := hbinds.grows
    have hhandle := (Argument.eq_of_erase_eq hbinds.erase).1
    have hbound : (inner l r computed (some cell)).LeavesBound reg' :=
      leavesBound_operands.mpr (leavesBound_operands.mp (hb.keeps hgrows.keeps))
    refine ⟨⟨hbinds.sound, hdistinct⟩, ⟨hgrows, hmore⟩, rfl, rfl, hbound, _,
      ⟨key, keyIn_of_key hbound (hkeys reg' hgrows), hclaimed⟩, ?_⟩
    cases temporary with
    | none => exact congrArg some hhandle
    | some old => exact congrArg some hhandle

/-- Binding any term, if it succeeds. -/
theorem rebinds_of_bind (ho : ctx.Orderly) (h : t.bind ctx = ⟨t', ctx', none⟩) :
    t.Rebinds ctx t' ctx' := by
  induction t generalizing ctx ctx' t' with
  | leaf arg =>
    rw [bind] at h
    split at h
    · cases h
    · next arg' ctx₁ hbind =>
      obtain ⟨rfl, rfl, -⟩ := Bound.mk.inj h
      obtain ⟨reg', rfl, hbinds⟩ := Argument.binds_of_bind ho.sound hbind
      refine ⟨⟨hbinds.sound, ho.distinct⟩, ⟨hbinds.grows, [], (List.append_nil _).symm⟩,
        congrArg leaf hbinds.erase, fun a ha => ?_, .nil⟩
      obtain rfl := List.mem_singleton.mp ha
      exact hbinds.bound
  | unary op sub ih =>
    obtain ⟨rfl, rfl, hfault⟩ := Bound.mk.inj h
    have hsub : sub.bind ctx = ⟨(sub.bind ctx).term, (sub.bind ctx).context, none⟩ := by
      rw [← hfault]
    have hs := ih ho hsub
    exact ⟨hs.orderly, hs.grows, congrArg (unary op) hs.erase, hs.leaves, hs.products⟩
  | binary op l r ihl ihr =>
    obtain ⟨l', ctx₁, r', hl, hr, rfl⟩ := andThen_eq_iff.mp h
    have hl := ihl ho hl
    exact hl.pair (ihr hl.orderly hr) (joins_binary op) fun _ _ => rfl
  | matMat l r ihl ihr =>
    obtain ⟨l', ctx₁, r', hl, hr, rfl⟩ := andThen_eq_iff.mp h
    have hl := ihl ho hl
    exact hl.pair (ihr hl.orderly hr) joins_matMat fun _ _ => rfl
  | matVec l r ihl ihr =>
    obtain ⟨l', ctx₁, r', hl, hr, rfl⟩ := andThen_eq_iff.mp h
    have hl := ihl ho hl
    exact hl.pair (ihr hl.orderly hr) joins_matVec fun _ _ => rfl
  | inner l r computed temporary ihl ihr =>
    obtain ⟨l', ctx₁, r', ctx₂, hl, hr, hcell⟩ := bind_inner_eq_iff.mp h
    have hl := ihl ho hl
    have hr := ihr hl.orderly hr
    have hbound : (Term.inner l' r' computed temporary).LeavesBound ctx₂.registry :=
      leavesBound_operands.mpr ⟨hl.leaves.keeps hr.grows.registry.keeps, hr.leaves⟩
    obtain ⟨horderly, hgrows, hproducts, hrebound⟩ :=
      bindTemporary_rebound hr.orderly hbound hcell
    have herase : (Term.inner l' r' computed temporary).erase =
        (Term.inner l r computed temporary).erase := by
      rw [Term.erase, Term.erase, hl.erase, hr.erase]
    have hself : Rebound ctx' (Term.inner l r computed temporary) t' :=
      ⟨hrebound.erase.trans herase, hrebound.bound, hrebound.taken⟩
    refine ⟨horderly, (hl.grows.trans hr.grows).trans hgrows, hself.erase, hself.bound, ?_⟩
    rw [hproducts]
    exact List.rel_append ((hl.append hr).imp fun _ _ h => h.grows hr.orderly hgrows horderly)
      (.cons hself .nil)

end Term

/-! ### Several contexts -/

namespace Workbench

/-- The contexts in which an inner product was bound first and last. -/
structure Trace where
  first : Nat
  last : Nat
deriving DecidableEq

/-- A term with the traces of its inner products, which are bare until they are bound. -/
structure Node where
  term : Term
  traces : List (Option Trace)
deriving DecidableEq

/-- One call. Terms are made from copies of the nodes with the given numbers. -/
inductive Call where
  | context
  | leaf (handle : Handle) (element : ElementType) (storage : Storage)
  | copy (k : Nat)
  | unary (op : UnaryOp) (k : Nat)
  | binary (op : BinaryOp) (j k : Nat)
  | matMat (j k : Nat)
  | matVec (j k : Nat)
  | inner (j k : Nat)
  | bind (k c : Nat)
  | setPass (c pass : Nat)
deriving DecidableEq

/-- The trace of an inner product after it is bound in context `c`. -/
def Trace.bound (c : Nat) (before : Option Trace) : Trace :=
  ⟨(before.map (·.first)).getD c, c⟩

end Workbench

/-- Contexts, and terms that are made and bound in them. -/
structure Workbench where
  contexts : List Context
  nodes : List Workbench.Node
deriving DecidableEq

namespace Workbench

def empty : Workbench := ⟨[], []⟩

def add (w : Workbench) (x : Node) : Workbench :=
  { w with nodes := w.nodes ++ [x] }

/-- Make a term of two operands. `own` is the trace of the new term, if it is an inner product. -/
def join (w : Workbench) (make : Term → Term → Except Fault Term)
    (own : List (Option Trace)) (j k : Nat) :
    Option Workbench := do
  let x ← w.nodes[j]?
  let y ← w.nodes[k]?
  let t ← (make x.term y.term).toOption
  return w.add ⟨t, x.traces ++ y.traces ++ own⟩

/-- The workbench after a call that succeeds. -/
def call (w : Workbench) : Call → Option Workbench
  | .context => some { w with contexts := w.contexts ++ [.empty] }
  | .leaf handle element storage => some (w.add ⟨.leaf (.ofHandle handle element storage), []⟩)
  | .copy k => w.nodes[k]?.map w.add
  | .unary op k => do
    let x ← w.nodes[k]?
    let t ← (Term.mkUnary op x.term).toOption
    return w.add ⟨t, x.traces⟩
  | .binary op j k => w.join (Term.mkBinary op) [] j k
  | .matMat j k => w.join Term.mkMatMat [] j k
  | .matVec j k => w.join Term.mkMatVec [] j k
  | .inner j k => w.join Term.mkInner [none] j k
  | .bind k c => do
    let x ← w.nodes[k]?
    let ctx ← w.contexts[c]?
    let bound ← (x.term.bindAll ctx).toOption
    return ⟨w.contexts.set c bound.2, w.nodes.set k
      ⟨bound.1, x.traces.map fun o => some (.bound c o)⟩⟩
  | .setPass c pass => some { w with contexts := w.contexts.modify c (·.withPass pass) }

/-- The workbench after successful calls. -/
def run (w : Workbench) (calls : List Call) : Option Workbench :=
  calls.foldlM call w

/-- An inner product of a node, and its trace. -/
def Placed (w : Workbench) (m : Term) (trace : Trace) : Prop :=
  ∃ x ∈ w.nodes, (m, some trace) ∈ x.term.innerProducts.zip x.traces

/-- A trace tells where the temporary of an inner product comes from, and where its leaves
are bound. -/
def Tells (contexts : List Context) (m : Term) : Option Trace → Prop
  | none => m.cellHandle? = none
  | some trace =>
    (∃ ctx h, contexts[trace.first]? = some ctx ∧ ctx.Holds m h ∧ m.cellHandle? = some h) ∧
      ∃ ctx h, contexts[trace.last]? = some ctx ∧ m.LeavesBound ctx.registry ∧ ctx.Holds m h

structure Lawful (w : Workbench) : Prop where
  orderly : ∀ ctx ∈ w.contexts, ctx.Orderly
  typed : ∀ x ∈ w.nodes, x.term.WellTyped
  traced : ∀ x ∈ w.nodes, List.Forall₂ (Tells w.contexts) x.term.innerProducts x.traces

/-- Each context has grown into the one at its place. -/
structure Grows (contexts contexts' : List Context) : Prop where
  orderly : ∀ ctx ∈ contexts', ctx.Orderly
  grown : ∀ (c : Nat) (ctx : Context), contexts[c]? = some ctx →
    ∃ ctx', contexts'[c]? = some ctx' ∧ ctx.Grows ctx'

variable {w w' : Workbench}

theorem Tells.grows {contexts contexts' : List Context} (ho : ∀ ctx ∈ contexts, ctx.Orderly)
    (hg : Grows contexts contexts') {m : Term} {o : Option Trace} (h : Tells contexts m o) :
    Tells contexts' m o := by
  have hheld : ∀ {c : Nat} {ctx : Context} {h : Handle}, contexts[c]? = some ctx → ctx.Holds m h →
      ∃ ctx', contexts'[c]? = some ctx' ∧ ctx.Grows ctx' ∧ ctx'.Holds m h := by
    intro c ctx h hc hholds
    obtain ⟨ctx', hc', hgrows⟩ := hg.grown c ctx hc
    exact ⟨ctx', hc', hgrows, hholds.grows (ho ctx (List.mem_of_getElem? hc)).distinct hgrows
      (hg.orderly ctx' (List.mem_of_getElem? hc')).distinct⟩
  cases o with
  | none => exact h
  | some trace =>
    obtain ⟨⟨first, h₁, hfirst, hholds, hcell⟩, last, h₂, hlast, hleaves, hholds'⟩ := h
    obtain ⟨first', hfirst', -, hheld₁⟩ := hheld hfirst hholds
    obtain ⟨last', hlast', hgrows, hheld₂⟩ := hheld hlast hholds'
    exact ⟨⟨first', h₁, hfirst', hheld₁, hcell⟩, last', h₂, hlast',
      hleaves.keeps hgrows.registry.keeps, hheld₂⟩

/-- Contexts may grow while nodes stay as they are. -/
theorem Lawful.grow (h : w.Lawful) {contexts : List Context} (hg : Grows w.contexts contexts) :
    Lawful ⟨contexts, w.nodes⟩ :=
  ⟨hg.orderly, h.typed, fun x hx => (h.traced x hx).imp fun _ _ ht => ht.grows h.orderly hg⟩

theorem Lawful.add (h : w.Lawful) {x : Node} (htyped : x.term.WellTyped)
    (hx : List.Forall₂ (Tells w.contexts) x.term.innerProducts x.traces) : (w.add x).Lawful := by
  refine ⟨h.orderly, fun y hy => ?_, fun y hy => ?_⟩
  · rcases List.mem_append.mp hy with hy | hy
    · exact h.typed y hy
    · rwa [List.mem_singleton.mp hy]
  · rcases List.mem_append.mp hy with hy | hy
    · exact h.traced y hy
    · rwa [List.mem_singleton.mp hy]

/-- A term made of two operands has their inner products, and itself if it is one. -/
theorem Lawful.join (h : w.Lawful) {make : Term → Term → Except Fault Term}
    {own : List (Option Trace)} {j k : Nat}
    (hmake : ∀ l r t, make l r = .ok t → (l.WellTyped → r.WellTyped → t.WellTyped) ∧
      ∃ ms, t.innerProducts = l.innerProducts ++ r.innerProducts ++ ms ∧ List.Forall₂
      (Tells w.contexts) ms own)
    (heq : w.join make own j k = some w') : w'.Lawful := by
  obtain ⟨x, hx, heq⟩ := Option.bind_eq_some_iff.mp heq
  obtain ⟨y, hy, heq⟩ := Option.bind_eq_some_iff.mp heq
  obtain ⟨t, ht, heq⟩ := Option.bind_eq_some_iff.mp heq
  obtain rfl := Option.some.inj heq
  have hxmem := List.mem_of_getElem? hx
  have hymem := List.mem_of_getElem? hy
  obtain ⟨htyped, ms, hproducts, hms⟩ :=
    hmake x.term y.term t (Outcome.toOption_eq_some_iff.mp ht)
  refine h.add (htyped (h.typed x hxmem) (h.typed y hymem)) ?_
  rw [hproducts]
  exact List.rel_append (List.rel_append (h.traced x hxmem) (h.traced y hymem)) hms

theorem Lawful.join_plain (h : w.Lawful) {make : Term → Term → Except Fault Term} {j k : Nat}
    (hmake : ∀ l r t, make l r = .ok t → (l.WellTyped → r.WellTyped → t.WellTyped) ∧
      t.innerProducts = l.innerProducts ++ r.innerProducts)
    (heq : w.join make [] j k = some w') : w'.Lawful := by
  refine h.join (fun l r t ht => ?_) heq
  obtain ⟨htyped, hproducts⟩ := hmake l r t ht
  exact ⟨htyped, [], by rw [hproducts, List.append_nil], .nil⟩

theorem Lawful.setContext (h : w.Lawful) {c : Nat} {ctx ctx' : Context}
    (hc : w.contexts[c]? = some ctx) (ho : ctx'.Orderly) (hg : ctx.Grows ctx') :
    Grows w.contexts (w.contexts.set c ctx') := by
  constructor
  · intro x hx
    rcases List.mem_or_eq_of_mem_set hx with hx | rfl
    · exact h.orderly x hx
    · exact ho
  · intro i x hi
    by_cases hic : c = i
    · subst i
      obtain rfl : ctx = x := Option.some.inj (hc.symm.trans hi)
      exact ⟨ctx', List.getElem?_set_self (List.getElem?_eq_some_iff.mp hc).1, hg⟩
    · exact ⟨x, by rw [List.getElem?_set_ne hic, hi], Context.Grows.refl x⟩

/-- What a trace tells of an inner product that is bound once more. -/
theorem Tells.rebound {contexts contexts' : List Context} (ho : ∀ ctx ∈ contexts, ctx.Orderly)
    (hg : Grows contexts contexts') {c : Nat} {ctx : Context} (hc : contexts'[c]? = some ctx)
    {m m' : Term} {o : Option Trace} (h : Tells contexts m o) (hm : Term.Rebound ctx m m') :
    Tells contexts' m' (some (.bound c o)) := by
  obtain ⟨handle, hholds, hcell⟩ := hm.taken
  refine ⟨?_, ctx, handle, hc, hm.bound, hholds⟩
  have hold := h.grows ho hg
  cases o with
  | none =>
    rw [h, Option.getD_none] at hcell
    exact ⟨ctx, handle, hc, hholds, hcell⟩
  | some trace =>
    obtain ⟨first, old, hfirst, ⟨key, hkey, hheld⟩, hcell'⟩ := hold.1
    rw [hcell', Option.getD_some] at hcell
    exact ⟨first, old, hfirst, ⟨key, hkey.of_erase_eq hm.erase, hheld⟩, hcell⟩

theorem forall₂_tells_rebound {contexts contexts' : List Context}
    (ho : ∀ ctx ∈ contexts, ctx.Orderly) (hg : Grows contexts contexts') {c : Nat} {ctx : Context}
    (hc : contexts'[c]? = some ctx) {ms ms' : List Term} {os : List (Option Trace)}
    (hms : List.Forall₂ (Term.Rebound ctx) ms ms') (hos : List.Forall₂ (Tells contexts) ms os) :
    List.Forall₂ (Tells contexts') ms' (os.map fun o => some (.bound c o)) := by
  induction hms generalizing os with
  | nil =>
    cases hos
    exact .nil
  | cons hm _ ih =>
    cases hos with
    | cons ho' hos => exact .cons (ho'.rebound ho hg hc hm) (ih hos)

theorem bindAll_eq_ok {t t' : Term} {ctx ctx' : Context} (h : t.bindAll ctx = .ok (t', ctx')) :
    t.bind ctx = ⟨t', ctx', none⟩ := by
  unfold Term.bindAll at h
  cases hb : t.bind ctx with
  | mk term context fault =>
    cases fault with
    | some f => simp [hb] at h
    | none =>
      simp only [hb, Except.ok.injEq, Prod.mk.injEq] at h
      rw [h.1, h.2]

theorem Lawful.bind (h : w.Lawful) {k c : Nat} (heq : w.call (.bind k c) = some w') :
    w'.Lawful := by
  obtain ⟨x, hx, heq⟩ := Option.bind_eq_some_iff.mp heq
  obtain ⟨ctx, hc, heq⟩ := Option.bind_eq_some_iff.mp heq
  obtain ⟨⟨t, ctx'⟩, hbound, heq⟩ := Option.bind_eq_some_iff.mp heq
  obtain rfl := Option.some.inj heq
  have hrebinds := Term.rebinds_of_bind (h.orderly ctx (List.mem_of_getElem? hc))
    (bindAll_eq_ok (Outcome.toOption_eq_some_iff.mp hbound))
  have hg := h.setContext hc hrebinds.orderly hrebinds.grows
  have hxmem := List.mem_of_getElem? hx
  refine ⟨hg.orderly, fun y hy => ?_, fun y hy => ?_⟩
  · rcases List.mem_or_eq_of_mem_set hy with hy | rfl
    · exact h.typed y hy
    · exact (h.typed x hxmem).of_erase_eq hrebinds.erase.symm
  · rcases List.mem_or_eq_of_mem_set hy with hy | rfl
    · exact (h.grow hg).traced y hy
    · have hc' : (w.contexts.set c ctx')[c]? = some ctx' :=
        List.getElem?_set_self (List.getElem?_eq_some_iff.mp hc).1
      exact forall₂_tells_rebound h.orderly hg hc' hrebinds.products (h.traced x hxmem)

theorem grows_context (h : w.Lawful) : Grows w.contexts (w.contexts ++ [.empty]) := by
  constructor
  · intro ctx hctx
    rcases List.mem_append.mp hctx with hctx | hctx
    · exact h.orderly ctx hctx
    · obtain rfl := List.mem_singleton.mp hctx
      exact ⟨Registry.sound_empty,
        fun i j key hi => by simp [Context.empty, Temporaries.empty] at hi⟩
  · intro c ctx hc
    exact ⟨ctx, by rw [List.getElem?_append_left (List.getElem?_eq_some_iff.mp hc).1, hc],
      Context.Grows.refl ctx⟩

theorem Lawful.setPass (h : w.Lawful) (c pass : Nat) :
    Lawful { w with contexts := w.contexts.modify c (·.withPass pass) } := by
  cases hc : w.contexts[c]? with
  | none =>
    rw [List.modify_eq_self (List.getElem?_eq_none_iff.mp hc)]
    exact h
  | some ctx =>
    have hset : w.contexts.modify c (·.withPass pass) = w.contexts.set c (ctx.withPass pass) := by
      rw [List.modify_eq_set_getElem?, hc]
      rfl
    have ho := h.orderly ctx (List.mem_of_getElem? hc)
    have hg : ctx.Grows (ctx.withPass pass) :=
      ⟨Registry.Grows.refl _, [], (List.append_nil _).symm⟩
    rw [hset]
    exact h.grow (h.setContext hc ⟨ho.sound, ho.distinct⟩ hg)

theorem Lawful.call (h : w.Lawful) {a : Call} (heq : w.call a = some w') : w'.Lawful := by
  cases a with
  | context =>
    obtain rfl := Option.some.inj heq
    exact h.grow (grows_context h)
  | leaf handle element storage =>
    obtain rfl := Option.some.inj heq
    exact h.add trivial .nil
  | copy k =>
    obtain ⟨x, hx, rfl⟩ := Option.map_eq_some_iff.mp heq
    have hmem := List.mem_of_getElem? hx
    exact h.add (h.typed x hmem) (h.traced x hmem)
  | unary op k =>
    obtain ⟨x, hx, heq⟩ := Option.bind_eq_some_iff.mp heq
    obtain ⟨t, ht, heq⟩ := Option.bind_eq_some_iff.mp heq
    obtain rfl := Option.some.inj heq
    obtain ⟨hfloat, rfl⟩ := Term.mkUnary_eq_ok_iff.mp (Outcome.toOption_eq_some_iff.mp ht)
    have hmem := List.mem_of_getElem? hx
    exact h.add ⟨h.typed x hmem, hfloat⟩ (h.traced x hmem)
  | binary op j k =>
    refine h.join_plain (fun l r t ht => ?_) heq
    obtain ⟨haccepts, rfl⟩ := Term.mkBinary_eq_ok_iff.mp ht
    exact ⟨fun hl hr => ⟨hl, hr, haccepts⟩, rfl⟩
  | matMat j k =>
    refine h.join_plain (fun l r t ht => ?_) heq
    obtain ⟨htypes, rfl⟩ := Term.mkMatMat_eq_ok_iff.mp ht
    exact ⟨fun hl hr => ⟨hl, hr, htypes⟩, rfl⟩
  | matVec j k =>
    refine h.join_plain (fun l r t ht => ?_) heq
    obtain ⟨htypes, rfl⟩ := Term.mkMatVec_eq_ok_iff.mp ht
    exact ⟨fun hl hr => ⟨hl, hr, htypes⟩, rfl⟩
  | inner j k =>
    refine h.join (fun l r t ht => ?_) heq
    obtain ⟨htypes, rfl⟩ := Term.mkInner_eq_ok_iff.mp ht
    exact ⟨fun hl hr => ⟨hl, hr, htypes⟩, [.inner l r none none], rfl, .cons rfl .nil⟩
  | bind k c => exact h.bind heq
  | setPass c pass =>
    obtain rfl := Option.some.inj heq
    exact h.setPass c pass

theorem Lawful.run {calls : List Call} (h : w.Lawful)
    (heq : w.run calls = some w') : w'.Lawful := by
  induction calls generalizing w with
  | nil =>
    obtain rfl := Option.some.inj heq
    exact h
  | cons a calls ih =>
    obtain ⟨w₁, hfirst, hrest⟩ := Option.bind_eq_some_iff.mp heq
    exact ih (h.call hfirst) hrest

theorem lawful_empty : Workbench.empty.Lawful :=
  ⟨fun _ hctx => (List.not_mem_nil hctx).elim, fun _ hx => (List.not_mem_nil hx).elim,
    fun _ hx => (List.not_mem_nil hx).elim⟩

theorem Lawful.placed (h : w.Lawful) {m : Term} {trace : Trace} (hm : w.Placed m trace) :
    Tells w.contexts m (some trace) := by
  obtain ⟨x, hx, hmem⟩ := hm
  exact List.forall₂_zip (h.traced x hx) hmem

/-- The context of the first binding, and the key there. -/
theorem Lawful.first (h : w.Lawful) {m : Term} {trace : Trace} (hm : w.Placed m trace) :
    ∃ ctx key handle, w.contexts[trace.first]? = some ctx ∧ m.KeyIn ctx.registry key ∧
      ctx.temporaries.handle? key = some handle ∧ m.cellHandle? = some handle := by
  obtain ⟨⟨ctx, handle, hc, ⟨key, hkey, hheld⟩, hcell⟩, -⟩ := h.placed hm
  exact ⟨ctx, key, handle, hc, hkey, hheld, hcell⟩

/-- The context of the last binding, and the key there. -/
theorem Lawful.last (h : w.Lawful) {m : Term} {trace : Trace} (hm : w.Placed m trace) :
    ∃ ctx key handle, w.contexts[trace.last]? = some ctx ∧ m.LeavesBound ctx.registry ∧
      m.key ctx.registry = .ok key ∧ ctx.temporaries.handle? key = some handle := by
  obtain ⟨-, ctx, handle, hc, hbound, key, hkey, hheld⟩ := h.placed hm
  obtain ⟨own, hown⟩ := hbound.key_ok
  have hown := hown ctx.registry (Registry.Grows.refl _)
  have hsound := (h.orderly ctx (List.mem_of_getElem? hc)).sound
  obtain rfl := (Term.keyIn_of_key hbound hown).unique hsound hkey
  exact ⟨ctx, own, handle, hc, hbound, hown, hheld⟩

theorem Lawful.wellTyped (h : w.Lawful) {m : Term} {trace : Trace}
    (hm : w.Placed m trace) : m.WellTyped := by
  obtain ⟨x, hx, hmem⟩ := hm
  exact (h.typed x hx).innerProducts m (List.of_mem_zip hmem).1

/-- Inner products that were bound first in one context share a temporary exactly if they are
written alike. -/
theorem Lawful.shared_iff (h : w.Lawful) {m m' : Term} {trace trace' : Trace}
    (hm : w.Placed m trace) (hm' : w.Placed m' trace') (hfirst : trace.first = trace'.first) :
    m.cellHandle? = m'.cellHandle? ↔ m.erase = m'.erase := by
  obtain ⟨ctx, key, handle, hc, hkey, hheld, hcell⟩ := h.first hm
  obtain ⟨ctx', key', handle', hc', hkey', hheld', hcell'⟩ := h.first hm'
  obtain rfl : ctx = ctx' := Option.some.inj (hc.symm.trans (hfirst ▸ hc'))
  have ho := h.orderly ctx (List.mem_of_getElem? hc)
  rw [← hkey.eq_iff ho.sound (h.wellTyped hm) (h.wellTyped hm') hkey', hcell, hcell']
  constructor
  · intro heq
    obtain rfl := Option.some.inj heq
    exact Temporaries.key_eq_of_handle? ho.distinct hheld hheld'
  · rintro rfl
    exact hheld.symm.trans hheld'

/-- Right after a binding, all inner products of the node have been bound last there. -/
theorem Lawful.placed_of_bind (h : w.Lawful) {k c : Nat} (heq : w.call (.bind k c) = some w') :
    ∃ x, w'.nodes[k]? = some x ∧ ∀ m ∈ x.term.innerProducts, ∃ trace, w'.Placed m trace ∧
      trace.last = c := by
  have hlawful := h.bind heq
  obtain ⟨x, hx, heq⟩ := Option.bind_eq_some_iff.mp heq
  obtain ⟨ctx, hc, heq⟩ := Option.bind_eq_some_iff.mp heq
  obtain ⟨⟨t, ctx'⟩, hbound, heq⟩ := Option.bind_eq_some_iff.mp heq
  obtain rfl := Option.some.inj heq
  have hnode := List.getElem?_set_self (a := Node.mk t (x.traces.map fun o => some (.bound c o)))
    (List.getElem?_eq_some_iff.mp hx).1
  refine ⟨_, hnode, fun m hm => ?_⟩
  have hlength := (hlawful.traced _ (List.mem_of_getElem? hnode)).length_eq
  rw [← List.map_fst_zip (Nat.le_of_eq hlength)] at hm
  obtain ⟨⟨_, o⟩, ho, rfl⟩ := List.mem_map.mp hm
  obtain ⟨before, -, rfl⟩ := List.mem_map.mp (List.of_mem_zip ho).2
  exact ⟨.bound c before, ⟨_, List.mem_of_getElem? hnode, ho⟩, rfl⟩

end Workbench

/-- The temporary of an inner product is the one that the context of its first binding holds for
its key there. The context of the last binding holds one for its key too, which is the same if it
is the context of the first one. Inner products that were bound first in one context and last in
one context share a temporary exactly if they have the same key in the last one. -/
theorem temporary_of_first_context {calls : List Workbench.Call} {w : Workbench}
    (h : Workbench.empty.run calls = some w) :
    (∀ k c w', w.call (.bind k c) = some w' → ∃ x, w'.nodes[k]? = some x ∧
      ∀ m ∈ x.term.innerProducts, ∃ trace, w'.Placed m trace ∧ trace.last = c) ∧
    (∀ m trace, w.Placed m trace → ∃ first last key key' handle,
      w.contexts[trace.first]? = some first ∧ w.contexts[trace.last]? = some last ∧
      m.KeyIn first.registry key ∧ first.temporaries.handle? key = some handle ∧
      m.cellHandle? = some handle ∧ m.key last.registry = .ok key' ∧
      (last.temporaries.handle? key').isSome = true ∧ (trace.first = trace.last → key = key')) ∧
    ∀ m m' trace trace' ctx, w.Placed m trace → w.Placed m' trace' → trace.first = trace'.first →
      trace.last = trace'.last → w.contexts[trace.last]? = some ctx →
      (m.cellHandle? = m'.cellHandle? ↔ m.key ctx.registry = m'.key ctx.registry) := by
  have hlawful := Workbench.lawful_empty.run h
  refine ⟨fun k c w' hbind => hlawful.placed_of_bind hbind, fun m trace hm => ?_, ?_⟩
  · obtain ⟨first, key, handle, hfirst, hkey, hheld, hcell⟩ := hlawful.first hm
    obtain ⟨last, key', handle', hlast, hbound, hkey', hheld'⟩ := hlawful.last hm
    refine ⟨first, last, key, key', handle, hfirst, hlast, hkey, hheld, hcell, hkey',
      by rw [hheld']; rfl, ?_⟩
    intro hsame
    rw [hsame] at hfirst
    obtain rfl : last = first := Option.some.inj (hlast.symm.trans hfirst)
    have hsound := (hlawful.orderly last (List.mem_of_getElem? hlast)).sound
    exact hkey.unique hsound (Term.keyIn_of_key hbound hkey')
  · intro m m' trace trace' ctx hm hm' hfirst hlast hc
    obtain ⟨ctx₁, key, -, hc₁, hbound, hkey, -⟩ := hlawful.last hm
    obtain ⟨ctx₂, key', -, hc₂, hbound', hkey', -⟩ := hlawful.last hm'
    obtain rfl : ctx = ctx₁ := Option.some.inj (hc.symm.trans hc₁)
    obtain rfl : ctx = ctx₂ := Option.some.inj (hc.symm.trans (hlast ▸ hc₂))
    have hsound := (hlawful.orderly ctx (List.mem_of_getElem? hc)).sound
    rw [hlawful.shared_iff hm hm' hfirst, hkey, hkey', Except.ok.injEq]
    exact ((Term.keyIn_of_key hbound hkey).eq_iff hsound (hlawful.wellTyped hm)
      (hlawful.wellTyped hm') (Term.keyIn_of_key hbound' hkey')).symm

/-- The inner products of the vectors 1, 2 and of 1, 3, the first with a copy, in two contexts.
The first one is bound in one context and the second one in the other. -/
def dotCalls : List Workbench.Call :=
  [.context, .context, .leaf (.buffer 1) .float (.vector .whole),
    .leaf (.buffer 2) .float (.vector .whole),
    .leaf (.buffer 3) .float (.vector .whole), .inner 0 1, .copy 3, .inner 0 2,
    .bind 3 0, .bind 5 1]

/-- Bound in the other context as well, the first inner product has the temporary that belongs to
the second one there. -/
theorem temporary_of_other_context :
    ∃ w n m ctx, Workbench.empty.run (dotCalls ++ [.bind 3 1]) = some w ∧ w.nodes[3]? = some n ∧
      w.nodes[5]? = some m ∧ w.contexts[1]? = some ctx ∧
      n.term.key ctx.registry = .ok "p_vec_float_0mulvec_float_3_p" ∧
      m.term.key ctx.registry = .ok "p_vec_float_0mulvec_float_1_p" ∧
      ctx.temporaries.handle? "p_vec_float_0mulvec_float_3_p" = some (.temporary 1) ∧
      n.term.cellHandle? = some (.temporary 0) ∧ m.term.cellHandle? = some (.temporary 0) := by
  have hrun :
      ((Workbench.empty.run (dotCalls ++ [.bind 3 1])).bind fun w => w.nodes[3]?.bind fun n =>
      w.nodes[5]?.bind fun m => w.contexts[1]?.map fun ctx =>
        ((n.term.key ctx.registry).toOption, (m.term.key ctx.registry).toOption,
          ctx.temporaries.handle? "p_vec_float_0mulvec_float_3_p", n.term.cellHandle?,
          m.term.cellHandle?)) =
      some (some "p_vec_float_0mulvec_float_3_p", some "p_vec_float_0mulvec_float_1_p",
        some (.temporary 1), some (.temporary 0), some (.temporary 0)) := by
    decide +kernel
  obtain ⟨w, hw, hrun⟩ := Option.bind_eq_some_iff.mp hrun
  obtain ⟨n, hn, hrun⟩ := Option.bind_eq_some_iff.mp hrun
  obtain ⟨m, hm, hrun⟩ := Option.bind_eq_some_iff.mp hrun
  obtain ⟨ctx, hctx, hrun⟩ := Option.map_eq_some_iff.mp hrun
  simp only [Prod.mk.injEq, Outcome.toOption_eq_some_iff] at hrun
  exact ⟨w, n, m, ctx, hw, hn, hm, hctx, hrun⟩

/-- The first inner product and its copy, both bound in the one context and then in the other. -/
theorem temporary_of_first_context_copy :
    ∃ w n n' ctx, Workbench.empty.run (dotCalls ++ [.bind 4 0, .bind 3 1, .bind 4 1]) = some w ∧
      w.Placed n ⟨0, 1⟩ ∧ w.Placed n' ⟨0, 1⟩ ∧ w.contexts[1]? = some ctx ∧
      n.key ctx.registry = .ok "p_vec_float_0mulvec_float_3_p" ∧
      n.cellHandle? = some (.temporary 0) ∧
      (n.cellHandle? = n'.cellHandle? ↔ n.key ctx.registry = n'.key ctx.registry) := by
  have hrun : ((Workbench.empty.run (dotCalls ++ [.bind 4 0, .bind 3 1, .bind 4 1])).bind fun w =>
      w.nodes[3]?.bind fun x => w.nodes[4]?.bind fun y => w.contexts[1]?.map fun ctx =>
        ((x.term.key ctx.registry).toOption, x.term.cellHandle?,
          decide ((x.term, some ⟨0, 1⟩) ∈ x.term.innerProducts.zip x.traces),
          decide ((y.term, some ⟨0, 1⟩) ∈ y.term.innerProducts.zip y.traces))) =
      some (some "p_vec_float_0mulvec_float_3_p", some (.temporary 0), true, true) := by
    decide +kernel
  obtain ⟨w, hw, hrun⟩ := Option.bind_eq_some_iff.mp hrun
  obtain ⟨x, hx, hrun⟩ := Option.bind_eq_some_iff.mp hrun
  obtain ⟨y, hy, hrun⟩ := Option.bind_eq_some_iff.mp hrun
  obtain ⟨ctx, hctx, hrun⟩ := Option.map_eq_some_iff.mp hrun
  simp only [Prod.mk.injEq, Outcome.toOption_eq_some_iff, decide_eq_true_iff] at hrun
  obtain ⟨hkey, hcell, hx', hy'⟩ := hrun
  have hn : w.Placed x.term ⟨0, 1⟩ := ⟨x, List.mem_of_getElem? hx, hx'⟩
  have hn' : w.Placed y.term ⟨0, 1⟩ := ⟨y, List.mem_of_getElem? hy, hy'⟩
  exact ⟨w, x.term, y.term, ctx, hw, hn, hn', hctx, hkey, hcell,
    (temporary_of_first_context hw).2.2 _ _ _ _ ctx hn hn' rfl rfl hctx⟩

end LinearKernels
