import LinearKernels.TermBind
import LinearKernels.Proofs.KeyReading
import LinearKernels.Proofs.Records

/-!
Binding of declared terms. Every buffer is bound as it is declared and every temporary as the
cell of one key, so binding never meets a conflict, gives everything a name for the current
kernel, and changes nothing in a term that is bound already.
-/

namespace LinearKernels

/-- What the buffers of the caller are declared as. -/
abbrev Declarations := Nat → ElementType × Storage

/-- The argument refers to a buffer as it is declared. -/
def Argument.Declared (env : Declarations) (a : Argument) : Prop :=
  ∃ k, a.handle = .buffer k ∧ env k = (a.element, a.storage)

theorem Argument.Declared.of_erase_eq {env : Declarations} {a b : Argument}
    (h : a.erase = b.erase) (ha : a.Declared env) : b.Declared env := by
  obtain ⟨hhandle, helement, hstorage⟩ := eq_of_erase_eq h
  obtain ⟨k, hk, henv⟩ := ha
  exact ⟨k, hhandle ▸ hk, by rw [henv, helement, hstorage]⟩

namespace Temporaries

/-- Every key has one temporary only. -/
def Distinct (t : Temporaries) : Prop :=
  ∀ (i j : Nat) (key : String), t.keys[i]? = some key → t.keys[j]? = some key → i = j

theorem getElem?_of_idxOf? {t : Temporaries} {i : Nat} {key : String}
    (h : t.keys.idxOf? key = some i) : t.keys[i]? = some key := by
  obtain ⟨hlt, heq, -⟩ := List.idxOf?_eq_some_iff.mp h
  rw [List.getElem?_eq_getElem hlt, heq]

/-- A key that has its temporary is not given another. -/
theorem claim_of_getElem? {t : Temporaries} (hd : t.Distinct) {i : Nat} {key : String}
    (h : t.keys[i]? = some key) : t.claim key = (.temporary i, t) := by
  unfold claim
  cases hidx : t.keys.idxOf? key with
  | none => exact absurd (List.mem_of_getElem? h) (List.idxOf?_eq_none_iff.mp hidx)
  | some j => rw [hd i j key h (getElem?_of_idxOf? hidx)]

/-- A claimed key has its temporary; the temporaries before keep theirs. -/
theorem claim_ok {t : Temporaries} (hd : t.Distinct) (key : String) :
    ∃ i t', t.claim key = (.temporary i, t') ∧ t'.Distinct ∧ t'.keys[i]? = some key ∧
      ∃ more, t'.keys = t.keys ++ more := by
  cases hidx : t.keys.idxOf? key with
  | some i =>
    have hi := getElem?_of_idxOf? hidx
    exact ⟨i, t, claim_of_getElem? hd hi, hd, hi, [], (List.append_nil _).symm⟩
  | none =>
    have hfresh : ∀ j : Nat, t.keys[j]? ≠ some key := fun j hj =>
      List.idxOf?_eq_none_iff.mp hidx (List.mem_of_getElem? hj)
    refine ⟨t.count, ⟨t.keys ++ [key]⟩, by rw [claim, hidx], ?_, List.getElem?_concat_length,
      [key], rfl⟩
    intro i j other hi hj
    rcases Registry.getElem?_snoc hi with hi | ⟨rfl, rfl⟩ <;>
      rcases Registry.getElem?_snoc hj with hj | ⟨rfl, heq⟩
    · exact hd i j other hi hj
    · exact absurd (heq ▸ hi) (hfresh i)
    · exact absurd hj (hfresh j)
    · rfl

end Temporaries

namespace Context

/-- Records and temporaries are still there. -/
structure Grows (ctx ctx' : Context) : Prop where
  registry : ctx.registry.Grows ctx'.registry
  keys : ∃ more, ctx'.temporaries.keys = ctx.temporaries.keys ++ more

theorem Grows.refl (ctx : Context) : ctx.Grows ctx :=
  ⟨Registry.Grows.refl ctx.registry, [], (List.append_nil _).symm⟩

theorem Grows.trans {a b c : Context} (h : a.Grows b) (h' : b.Grows c) : a.Grows c := by
  obtain ⟨more, hmore⟩ := h.keys
  obtain ⟨more', hmore'⟩ := h'.keys
  exact ⟨h.registry.trans h'.registry, more ++ more', by rw [hmore', hmore, List.append_assoc]⟩

theorem Grows.getElem?_keys {ctx ctx' : Context} (h : ctx.Grows ctx') {i : Nat} {key : String}
    (hi : ctx.temporaries.keys[i]? = some key) : ctx'.temporaries.keys[i]? = some key := by
  obtain ⟨more, hmore⟩ := h.keys
  rw [hmore, List.getElem?_append_left (List.getElem?_eq_some_iff.mp hi).1, hi]

/-- The argument is the bound cell of an inner product with the given operands. -/
def HoldsCell (ctx : Context) (lhs rhs : Term) (cell : Argument) : Prop :=
  ∃ i key, cell.handle = .temporary i ∧ ctx.temporaries.keys[i]? = some key ∧
    Term.pairKey ctx.registry .mul lhs rhs = .ok key ∧ cell.element = lhs.element ∧
    cell.storage = .deviceScalar ∧ cell.BoundIn ctx.registry

end Context

namespace Term

/-- All leaves, also those below inner products, are bound. -/
def LeavesBound (reg : Registry) (t : Term) : Prop :=
  ∀ a ∈ t.leaves, a.BoundIn reg

/-- All leaves are declared and bound, and all inner products have their cells. -/
def BoundIn (env : Declarations) (ctx : Context) : Term → Prop
  | leaf arg => arg.Declared env ∧ arg.BoundIn ctx.registry
  | unary _ sub => sub.BoundIn env ctx
  | binary _ lhs rhs | matMat lhs rhs | matVec lhs rhs =>
    lhs.BoundIn env ctx ∧ rhs.BoundIn env ctx
  | inner lhs rhs _ temporary =>
    lhs.BoundIn env ctx ∧ rhs.BoundIn env ctx ∧ ∃ cell, temporary = some cell ∧
      ctx.HoldsCell lhs rhs cell

/-- All leaves and all cells have names for the kernel. -/
def NamedIn (reg : Registry) (pass : Nat) : Term → Prop
  | leaf arg => arg.NamedIn reg pass
  | unary _ sub => sub.NamedIn reg pass
  | binary _ lhs rhs | matMat lhs rhs | matVec lhs rhs =>
    lhs.NamedIn reg pass ∧ rhs.NamedIn reg pass
  | inner lhs rhs _ temporary =>
    lhs.NamedIn reg pass ∧ rhs.NamedIn reg pass ∧ ∀ cell, temporary = some cell →
      cell.NamedIn reg pass

/-- All leaves are declared, and inner products either have no cell yet or are bound. -/
def Bindable (env : Declarations) (ctx : Context) : Term → Prop
  | leaf arg => arg.Declared env
  | unary _ sub => sub.Bindable env ctx
  | binary _ lhs rhs | matMat lhs rhs | matVec lhs rhs =>
    lhs.Bindable env ctx ∧ rhs.Bindable env ctx
  | inner lhs rhs _ none => lhs.Bindable env ctx ∧ rhs.Bindable env ctx
  | inner lhs rhs computed (some cell) => (inner lhs rhs computed (some cell)).BoundIn env ctx

theorem BoundIn.bindable {env : Declarations} {ctx : Context} {t : Term}
    (h : t.BoundIn env ctx) : t.Bindable env ctx := by
  induction t with
  | leaf arg => exact h.1
  | unary op sub ih => exact ih h
  | binary op lhs rhs ihl ihr => exact ⟨ihl h.1, ihr h.2⟩
  | matMat lhs rhs ihl ihr => exact ⟨ihl h.1, ihr h.2⟩
  | matVec lhs rhs ihl ihr => exact ⟨ihl h.1, ihr h.2⟩
  | inner lhs rhs computed temporary ihl ihr =>
    obtain ⟨cell, rfl, hcell⟩ := h.2.2
    exact h

theorem BoundIn.leavesBound {env : Declarations} {ctx : Context} {t : Term}
    (h : t.BoundIn env ctx) : t.LeavesBound ctx.registry := by
  induction t with
  | leaf arg =>
    intro a ha
    obtain rfl : a = arg := by simpa [leaves] using ha
    exact h.2
  | unary op sub ih => exact ih h
  | binary op lhs rhs ihl ihr =>
    exact fun a ha => (List.mem_append.mp ha).elim (ihl h.1 a) (ihr h.2 a)
  | matMat lhs rhs ihl ihr =>
    exact fun a ha => (List.mem_append.mp ha).elim (ihl h.1 a) (ihr h.2 a)
  | matVec lhs rhs ihl ihr =>
    exact fun a ha => (List.mem_append.mp ha).elim (ihl h.1 a) (ihr h.2 a)
  | inner lhs rhs computed temporary ihl ihr =>
    exact fun a ha => (List.mem_append.mp ha).elim (ihl h.1 a) (ihr h.2.1 a)

/-- A term whose leaves are bound has a key, which stays while the registry grows. -/
theorem LeavesBound.key_ok {reg : Registry} {t : Term} (h : t.LeavesBound reg) :
    ∃ k, ∀ reg', reg.Grows reg' → t.key reg' = .ok k := by
  induction t with
  | leaf arg =>
    obtain ⟨i, r, hi, hr, -⟩ := h arg (by simp [leaves])
    refine ⟨arg.storage.keyText r, fun reg' hg => ?_⟩
    obtain ⟨r', hr', hgrow⟩ := hg i r hr
    exact Argument.key_eq_ok_iff.mpr
      ⟨r', Argument.info_eq_ok_iff.mpr ⟨i, hi, hr'⟩, (hgrow.keyText arg.storage).symm⟩
  | unary op sub ih =>
    obtain ⟨k, hk⟩ := ih h
    exact ⟨_, fun reg' hg => key_unary_iff.mpr ⟨k, hk reg' hg, rfl⟩⟩
  | binary op lhs rhs ihl ihr =>
    obtain ⟨kl, hl⟩ := ihl fun a ha => h a (List.mem_append_left _ ha)
    obtain ⟨kr, hr⟩ := ihr fun a ha => h a (List.mem_append_right _ ha)
    exact ⟨_, fun reg' hg => (key_operands_iff rfl).mpr ⟨kl, kr, hl reg' hg, hr reg' hg, rfl⟩⟩
  | matMat lhs rhs ihl ihr =>
    obtain ⟨kl, hl⟩ := ihl fun a ha => h a (List.mem_append_left _ ha)
    obtain ⟨kr, hr⟩ := ihr fun a ha => h a (List.mem_append_right _ ha)
    exact ⟨_, fun reg' hg => (key_operands_iff rfl).mpr ⟨kl, kr, hl reg' hg, hr reg' hg, rfl⟩⟩
  | matVec lhs rhs ihl ihr =>
    obtain ⟨kl, hl⟩ := ihl fun a ha => h a (List.mem_append_left _ ha)
    obtain ⟨kr, hr⟩ := ihr fun a ha => h a (List.mem_append_right _ ha)
    exact ⟨_, fun reg' hg => (key_operands_iff rfl).mpr ⟨kl, kr, hl reg' hg, hr reg' hg, rfl⟩⟩
  | inner lhs rhs computed temporary ihl ihr =>
    obtain ⟨kl, hl⟩ := ihl fun a ha => h a (List.mem_append_left _ ha)
    obtain ⟨kr, hr⟩ := ihr fun a ha => h a (List.mem_append_right _ ha)
    exact ⟨_, fun reg' hg => (key_operands_iff rfl).mpr ⟨kl, kr, hl reg' hg, hr reg' hg, rfl⟩⟩

theorem LeavesBound.key_grows {reg reg' : Registry} {t : Term} (h : t.LeavesBound reg)
    (hg : reg.Grows reg') : t.key reg' = t.key reg := by
  obtain ⟨k, hk⟩ := h.key_ok
  rw [hk reg' hg, hk reg (Registry.Grows.refl reg)]

theorem leavesBound_operands {reg : Registry} {l r : Term} {computed : Option Nat}
    {temporary : Option Argument} :
    (inner l r computed temporary).LeavesBound reg ↔ l.LeavesBound reg ∧ r.LeavesBound reg := by
  simp only [LeavesBound, leaves, List.mem_append, or_imp, forall_and]

theorem LeavesBound.keeps {reg reg' : Registry} {t : Term} (h : t.LeavesBound reg)
    (hk : reg.Keeps reg') : t.LeavesBound reg' :=
  fun a ha => (h a ha).keeps hk

/-- Within one registry equal keys come from equally written terms. -/
theorem erase_eq_of_key_eq {reg : Registry} (hs : reg.Sound) {t t' : Term} {k : String}
    (ht : t.LeavesBound reg) (ht' : t'.LeavesBound reg) (wt : t.WellTyped) (wt' : t'.WellTyped)
    (hk : t.key reg = .ok k) (hk' : t'.key reg = .ok k) : t.erase = t'.erase := by
  refine erase_eq_of_alike (R := fun a b => a = b) (fun a b h => congrArg Argument.erase h)
    ((alike_of_key_eq hk hk' wt wt').mono ?_)
  rintro a ha b hb ⟨hstorage, r, r', hr, hr', hid, -⟩
  obtain ⟨i, ri, hi, hri, hagree⟩ := ht a ha
  obtain ⟨j, rj, hj, hrj, hagree'⟩ := ht' b hb
  obtain ⟨i', hi', hr⟩ := Argument.info_eq_ok_iff.mp hr
  obtain ⟨j', hj', hr'⟩ := Argument.info_eq_ok_iff.mp hr'
  obtain rfl : i = i' := Option.some.inj (hi.symm.trans hi')
  obtain rfl : j = j' := Option.some.inj (hj.symm.trans hj')
  obtain rfl : ri = r := Option.some.inj (hri.symm.trans hr)
  obtain rfl : rj = r' := Option.some.inj (hrj.symm.trans hr')
  obtain rfl : i = j := by rw [← hs.numbered i ri hri, hid, hs.numbered j rj hrj]
  obtain rfl : ri = rj := Option.some.inj (hri.symm.trans hrj)
  obtain ⟨handle, element, storage, record⟩ := a
  obtain ⟨handle', element', storage', record'⟩ := b
  obtain rfl : handle = handle' := hagree.1.symm.trans hagree'.1
  obtain rfl : element = element' := hagree.2.1.symm.trans hagree'.2.1
  obtain rfl : storage = storage' := hstorage
  obtain rfl : record = record' := hi.trans hj.symm
  rfl

end Term

/-! ### Sound contexts -/

namespace Context

/-- The temporary of a record belongs to the key of an inner product, from which the record
has its element type. -/
structure CellOf (ctx : Context) (j : Nat) (rec : Record) (lhs rhs : Term)
    (key : String) : Prop where
  key_at : ctx.temporaries.keys[j]? = some key
  typed : (Term.inner lhs rhs none none).WellTyped
  bound : (Term.inner lhs rhs none none).LeavesBound ctx.registry
  key_eq : (Term.inner lhs rhs none none).key ctx.registry = .ok key
  element : rec.element = lhs.element
  signature : rec.signature = Storage.deviceScalar.signature

/-- Records of buffers are as declared, records of temporaries as their keys say. -/
structure Sound (env : Declarations) (ctx : Context) : Prop where
  registry : ctx.registry.Sound
  distinct : ctx.temporaries.Distinct
  buffers : ∀ (i : Nat) (rec : Record) (k : Nat), ctx.registry.records[i]? = some rec →
    rec.handle = .buffer k → rec.element = (env k).1 ∧ rec.signature = (env k).2.signature
  cells : ∀ (i : Nat) (rec : Record) (j : Nat), ctx.registry.records[i]? = some rec →
    rec.handle = .temporary j → ∃ lhs rhs key, ctx.CellOf j rec lhs rhs key

theorem sound_empty (env : Declarations) : Context.empty.Sound env where
  registry := Registry.sound_empty
  distinct i j key h := by simp [empty, Temporaries.empty] at h
  buffers i rec k h := by simp [empty, Registry.empty] at h
  cells i rec j h := by simp [empty, Registry.empty] at h

theorem CellOf.grows {ctx ctx' : Context} {j : Nat} {rec rec' : Record}
    {lhs rhs : Term} {key : String} (h : ctx.CellOf j rec lhs rhs key) (hg : ctx.Grows ctx')
    (hr : rec.Grows rec') :
    ctx'.CellOf j rec' lhs rhs key where
  key_at := hg.getElem?_keys h.key_at
  typed := h.typed
  bound := h.bound.keeps hg.registry.keeps
  key_eq := (h.bound.key_grows hg.registry).trans h.key_eq
  element := hr.element.trans h.element
  signature := hr.signature.trans h.signature

theorem HoldsCell.grows {ctx ctx' : Context} {lhs rhs : Term} {cell : Argument}
    (h : ctx.HoldsCell lhs rhs cell)
    (hl : (Term.inner lhs rhs none none).LeavesBound ctx.registry) (hg : ctx.Grows ctx') :
    ctx'.HoldsCell lhs rhs cell := by
  obtain ⟨i, key, hi, hkey, hpair, helement, hstorage, hbound⟩ := h
  exact ⟨i, key, hi, hg.getElem?_keys hkey, (hl.key_grows hg.registry).trans hpair, helement,
    hstorage, hbound.keeps hg.registry.keeps⟩

theorem Sound.claim {env : Declarations} {ctx : Context} (hs : ctx.Sound env)
    {temporaries : Temporaries} (hd : temporaries.Distinct)
    (hmore : ∃ more, temporaries.keys = ctx.temporaries.keys ++ more) :
    Context.Sound env { ctx with temporaries := temporaries } := by
  refine ⟨hs.registry, hd, hs.buffers, fun i rec j hi hj => ?_⟩
  obtain ⟨lhs, rhs, key, hcell⟩ := hs.cells i rec j hi hj
  exact ⟨lhs, rhs, key, hcell.grows ⟨Registry.Grows.refl _, hmore⟩ (Record.Grows.refl rec)⟩

/-- A sound context stays sound when one argument is bound in it, if the argument is a
declared buffer or the cell of an inner product. -/
theorem Sound.bindArgument {env : Declarations} {ctx : Context}
    (hs : ctx.Sound env) {a a' : Argument} {reg' : Registry}
    (h : a.Binds ctx a' reg') (hbuffer : ∀ k, a.handle = .buffer k → a.Declared env)
    (hcell : ∀ j, a.handle = .temporary j → ∀ rec : Record, rec.Agrees a →
      ∃ lhs rhs key, ctx.CellOf j rec lhs rhs key) :
    Context.Sound env { ctx with registry := reg' } := by
  have hg : ctx.Grows { ctx with registry := reg' } := ⟨h.grows, [], (List.append_nil _).symm⟩
  refine ⟨h.sound, hs.distinct, ?_, ?_⟩
  · intro i rec k hi hk
    rcases h.origin i rec hi with hagree | ⟨old, hold, hgrow⟩
    · obtain ⟨k', hk', henv⟩ := hbuffer k (hagree.1.symm.trans hk)
      obtain rfl : k = k' := Handle.buffer.inj (hk.symm.trans (hagree.1.trans hk'))
      rw [henv]
      exact hagree.2
    · rw [hgrow.element, hgrow.signature]
      exact hs.buffers i old k hold (hgrow.handle.symm.trans hk)
  · intro i rec j hi hj
    rcases h.origin i rec hi with hagree | ⟨old, hold, hgrow⟩
    · obtain ⟨lhs, rhs, key, hcell⟩ := hcell j (hagree.1.symm.trans hj) rec hagree
      exact ⟨lhs, rhs, key, hcell.grows hg (Record.Grows.refl rec)⟩
    · obtain ⟨lhs, rhs, key, hcell⟩ := hs.cells i old j hold (hgrow.handle.symm.trans hj)
      exact ⟨lhs, rhs, key, hcell.grows hg hgrow⟩

end Context

/-! ### Binding terms -/

namespace Term

theorem BoundIn.grows {env : Declarations} {ctx ctx' : Context} {t : Term} (h : t.BoundIn env ctx)
    (hg : ctx.Grows ctx') : t.BoundIn env ctx' := by
  induction t with
  | leaf arg => exact ⟨h.1, h.2.keeps hg.registry.keeps⟩
  | unary op sub ih => exact ih h
  | binary op lhs rhs ihl ihr => exact ⟨ihl h.1, ihr h.2⟩
  | matMat lhs rhs ihl ihr => exact ⟨ihl h.1, ihr h.2⟩
  | matVec lhs rhs ihl ihr => exact ⟨ihl h.1, ihr h.2⟩
  | inner lhs rhs computed temporary ihl ihr =>
    obtain ⟨hl, hr, cell, hcell, hholds⟩ := h
    exact ⟨ihl hl, ihr hr, cell, hcell,
      hholds.grows (leavesBound_operands.mpr ⟨hl.leavesBound, hr.leavesBound⟩) hg⟩

theorem NamedIn.keeps {reg reg' : Registry} {pass : Nat} {t : Term} (h : t.NamedIn reg pass)
    (hk : reg.Keeps reg') : t.NamedIn reg' pass := by
  induction t with
  | leaf arg => exact Argument.NamedIn.keeps h hk
  | unary op sub ih => exact ih h
  | binary op lhs rhs ihl ihr => exact ⟨ihl h.1, ihr h.2⟩
  | matMat lhs rhs ihl ihr => exact ⟨ihl h.1, ihr h.2⟩
  | matVec lhs rhs ihl ihr => exact ⟨ihl h.1, ihr h.2⟩
  | inner lhs rhs computed temporary ihl ihr =>
    exact ⟨ihl h.1, ihr h.2.1, fun cell hcell => (h.2.2 cell hcell).keeps hk⟩

theorem Bindable.grows {env : Declarations} {ctx ctx' : Context} {t : Term}
    (h : t.Bindable env ctx) (hg : ctx.Grows ctx') : t.Bindable env ctx' := by
  induction t with
  | leaf arg => exact h
  | unary op sub ih => exact ih h
  | binary op lhs rhs ihl ihr => exact ⟨ihl h.1, ihr h.2⟩
  | matMat lhs rhs ihl ihr => exact ⟨ihl h.1, ihr h.2⟩
  | matVec lhs rhs ihl ihr => exact ⟨ihl h.1, ihr h.2⟩
  | inner lhs rhs computed temporary ihl ihr =>
    cases temporary with
    | none => exact ⟨ihl h.1, ihr h.2⟩
    | some cell => exact BoundIn.grows (t := inner lhs rhs computed (some cell)) h hg

/-- What binding a term leaves behind. -/
structure Binds (env : Declarations) (t : Term) (ctx : Context) (t' : Term)
    (ctx' : Context) : Prop where
  eq : t.bind ctx = ⟨t', ctx', none⟩
  sound : ctx'.Sound env
  grows : ctx.Grows ctx'
  pass : ctx'.pass = ctx.pass
  bound : t'.BoundIn env ctx'
  named : t'.NamedIn ctx'.registry ctx.pass
  erase : t'.erase = t.erase
  kept : (∀ m ∈ t.innerProducts, m.BoundIn env ctx) → t'.innerProducts = t.innerProducts
  unchanged : t.BoundIn env ctx → t' = t

/-- The term does nothing but join two operands, as far as binding goes. -/
structure Joins (join : Term → Term → Term) : Prop where
  bind : ∀ l r ctx, (join l r).bind ctx = (l.bind ctx).andThen r.bind join r
  bound : ∀ env ctx l r, (join l r).BoundIn env ctx ↔ l.BoundIn env ctx ∧ r.BoundIn env ctx
  named : ∀ reg pass l r, (join l r).NamedIn reg pass ↔ l.NamedIn reg pass ∧ r.NamedIn reg pass
  erase : ∀ l r, (join l r).erase = join l.erase r.erase
  products : ∀ l r, (join l r).innerProducts = l.innerProducts ++ r.innerProducts

theorem joins_binary (op : BinaryOp) : Joins (binary op) :=
  ⟨fun _ _ _ => rfl, fun _ _ _ _ => Iff.rfl, fun _ _ _ _ => Iff.rfl,
    fun _ _ => rfl, fun _ _ => rfl⟩

theorem joins_matMat : Joins matMat :=
  ⟨fun _ _ _ => rfl, fun _ _ _ _ => Iff.rfl, fun _ _ _ _ => Iff.rfl,
    fun _ _ => rfl, fun _ _ => rfl⟩

theorem joins_matVec : Joins matVec :=
  ⟨fun _ _ _ => rfl, fun _ _ _ _ => Iff.rfl, fun _ _ _ _ => Iff.rfl,
    fun _ _ => rfl, fun _ _ => rfl⟩

/-- Operands are bound one after the other. -/
theorem Binds.pair {env : Declarations} {l r l' r' : Term} {ctx ctx₁ ctx₂ : Context}
    (hl : l.Binds env ctx l' ctx₁) (hr : r.Binds env ctx₁ r' ctx₂) {join : Term → Term → Term}
    (hj : Joins join) : (join l r).Binds env ctx (join l' r') ctx₂ where
  eq := by
    rw [hj.bind, hl.eq, Bound.andThen]
    simp only [hr.eq]
  sound := hr.sound
  grows := hl.grows.trans hr.grows
  pass := hr.pass.trans hl.pass
  bound := (hj.bound env ctx₂ l' r').mpr ⟨hl.bound.grows hr.grows, hr.bound⟩
  named := (hj.named _ _ l' r').mpr ⟨hl.named.keeps hr.grows.registry.keeps, hl.pass ▸ hr.named⟩
  erase := by rw [hj.erase, hj.erase, hl.erase, hr.erase]
  kept h := by
    rw [hj.products] at h
    obtain ⟨h₁, h₂⟩ := List.forall_mem_append.mp h
    rw [hj.products, hj.products, hl.kept h₁, hr.kept fun m hm => (h₂ m hm).grows hl.grows]
  unchanged h := by
    obtain ⟨h₁, h₂⟩ := (hj.bound env ctx l r).mp h
    rw [hl.unchanged h₁, hr.unchanged (h₂.grows hl.grows)]

/-- What binding the temporary of an inner product with bound operands leaves behind. -/
structure BindsCell (env : Declarations) (l r : Term) (temporary : Option Argument)
    (ctx : Context) (cell : Argument) (ctx' : Context) : Prop where
  sound : ctx'.Sound env
  grows : ctx.Grows ctx'
  pass : ctx'.pass = ctx.pass
  holds : ctx'.HoldsCell l r cell
  named : cell.NamedIn ctx'.registry ctx.pass
  kept : ∀ old, temporary = some old → cell = old

/-- The argument is described like the cell of an inner product. -/
def IsCell (l : Term) (i : Nat) (cell : Argument) : Prop :=
  cell.handle = .temporary i ∧ cell.element = l.element ∧ cell.storage = .deviceScalar

/-- A cell for a key that has its temporary can be bound: whatever inner product the record
of the temporary comes from has the same key, so the same element type. -/
theorem bindCell_ok {env : Declarations} {ctx : Context} (hs : ctx.Sound env) {l r : Term}
    (wt : (inner l r none none).WellTyped)
    (hb : (inner l r none none).LeavesBound ctx.registry) {key : String}
    (hkey : (inner l r none none).key ctx.registry = .ok key) {i : Nat}
    (hi : ctx.temporaries.keys[i]? = some key) {cell : Argument} (hcell : IsCell l i cell) :
    ∃ cell' reg', cell.Binds ctx cell' reg' ∧ Context.Sound env { ctx with registry := reg' } ∧
      Context.HoldsCell { ctx with registry := reg' } l r cell' := by
  obtain ⟨hhandle, helement, hstorage⟩ := hcell
  obtain ⟨cell', reg', hbind⟩ := Argument.bind_ok hs.registry cell (by
    intro j rec hrec hsame
    obtain ⟨l₀, r₀, key₀, h₀⟩ := hs.cells j rec i hrec (hsame.trans hhandle)
    obtain rfl : key₀ = key := Option.some.inj (h₀.key_at.symm.trans hi)
    have herase := erase_eq_of_key_eq hs.registry h₀.bound hb h₀.typed wt h₀.key_eq hkey
    have hl : l₀.erase = l.erase := (inner.inj herase).1
    refine ⟨hsame, ?_, ?_⟩
    · rw [h₀.element, helement, element_eq_of_erase_eq hl]
    · rw [h₀.signature, hstorage])
  refine ⟨cell', reg', hbind, hs.bindArgument hbind ?_ ?_, i, key, ?_, hi, ?_,
    ?_, ?_, hbind.bound⟩
  · intro k hk
    rw [hhandle] at hk
    cases hk
  · intro j hj rec hagree
    obtain rfl : i = j := Handle.temporary.inj (hhandle.symm.trans hj)
    exact ⟨l, r, key, hi, wt, hb, hkey, hagree.2.1.trans helement,
      hagree.2.2.trans (by rw [hstorage])⟩
  · exact (Argument.eq_of_erase_eq hbind.erase).1.trans hhandle
  · exact (hb.key_grows hbind.grows).trans hkey
  · exact (Argument.eq_of_erase_eq hbind.erase).2.1.trans helement
  · exact (Argument.eq_of_erase_eq hbind.erase).2.2.trans hstorage

theorem bindTemporary_ok {env : Declarations} {ctx : Context} (hs : ctx.Sound env) {l r : Term}
    (computed : Option Nat) {temporary : Option Argument} (wt : (inner l r none none).WellTyped)
    (hb : (inner l r none none).LeavesBound ctx.registry)
    (ht : ∀ cell, temporary = some cell → ctx.HoldsCell l r cell) :
    ∃ cell ctx', bindTemporary l r computed temporary ctx =
        ⟨inner l r computed (some cell), ctx', none⟩ ∧
      BindsCell env l r temporary ctx cell ctx' := by
  obtain ⟨key, hkeys⟩ := hb.key_ok
  have hkey : (inner l r none none).key ctx.registry = .ok key := hkeys _ (Registry.Grows.refl _)
  obtain ⟨i, temporaries, hclaim, hd, hi, hmore⟩ := Temporaries.claim_ok hs.distinct key
  have hcell :
      IsCell l i (temporary.getD (.ofHandle (.temporary i) l.element .deviceScalar)) := by
    cases temporary with
    | none => exact ⟨rfl, rfl, rfl⟩
    | some cell =>
      obtain ⟨j, key', hj, hkey', hpair, helement, hstorage, -⟩ := ht cell rfl
      obtain rfl : key' = key := Except.ok.inj (hpair.symm.trans hkey)
      have hsame := (Temporaries.claim_of_getElem? hs.distinct hkey').symm.trans hclaim
      exact ⟨hj.trans (congrArg Prod.fst hsame), helement, hstorage⟩
  have hgrow : ctx.Grows { ctx with temporaries := temporaries } := ⟨Registry.Grows.refl _, hmore⟩
  obtain ⟨cell, reg, hbind, hsound, hholds⟩ :=
    bindCell_ok (hs.claim hd hmore) wt hb hkey hi hcell
  refine ⟨cell, { ctx with temporaries := temporaries, registry := reg }, ?_, hsound,
    hgrow.trans ⟨hbind.grows, [], (List.append_nil _).symm⟩, rfl, hholds, hbind.named, ?_⟩
  · have hkey' : (inner l r computed temporary).key ctx.registry = .ok key := hkey
    simp only [bindTemporary, hkey', hclaim, hbind.eq]
  · rintro old rfl
    obtain ⟨-, -, -, -, -, -, -, hbound⟩ := ht old rfl
    exact hbind.kept hbound

/-- An inner product is bound after its operands. -/
theorem Binds.inner {env : Declarations} {l r l' r' : Term} {ctx ctx₁ ctx₂ : Context}
    (hl : l.Binds env ctx l' ctx₁) (hr : r.Binds env ctx₁ r' ctx₂) (computed : Option Nat)
    (temporary : Option Argument) (wt : (Term.inner l r none none).WellTyped)
    (ht : ∀ cell, temporary = some cell → (Term.inner l r computed (some cell)).BoundIn env ctx) :
    ∃ cell ctx', (Term.inner l r computed temporary).Binds env ctx
      (Term.inner l' r' computed (some cell)) ctx' := by
  have hl' : l'.BoundIn env ctx₂ := hl.bound.grows hr.grows
  have hb : (Term.inner l' r' none none).LeavesBound ctx₂.registry :=
    leavesBound_operands.mpr ⟨hl'.leavesBound, hr.bound.leavesBound⟩
  have herase : (Term.inner l' r' none none).erase = (Term.inner l r none none).erase := by
    simp only [Term.erase, hl.erase, hr.erase]
  have hgrows : ctx.Grows ctx₂ := hl.grows.trans hr.grows
  have hsame : ∀ cell, temporary = some cell → l' = l ∧ r' = r := fun cell hcell =>
    ⟨hl.unchanged (ht cell hcell).1, hr.unchanged ((ht cell hcell).2.1.grows hl.grows)⟩
  obtain ⟨cell, ctx', heq, hcell⟩ := bindTemporary_ok hr.sound computed
    (wt.of_erase_eq herase.symm) hb (by
      intro cell hcell
      obtain ⟨rfl, rfl⟩ := hsame cell hcell
      obtain ⟨-, -, cell', heq, hholds⟩ := (ht cell hcell).grows hgrows
      obtain rfl := Option.some.inj heq
      exact hholds)
  refine ⟨cell, ctx', ?_, hcell.sound, hgrows.trans hcell.grows, ?_, ?_, ?_, ?_, ?_, ?_⟩
  · simp only [Term.bind, hl.eq, hr.eq, heq]
  · rw [hcell.pass, hr.pass, hl.pass]
  · exact ⟨hl'.grows hcell.grows, hr.bound.grows hcell.grows, cell, rfl, hcell.holds⟩
  · have hpass : ctx₂.pass = ctx.pass := hr.pass.trans hl.pass
    refine ⟨hl.named.keeps (hr.grows.trans hcell.grows).registry.keeps, ?_, ?_⟩
    · rw [← hl.pass]
      exact hr.named.keeps hcell.grows.registry.keeps
    · intro cell' hcell'
      obtain rfl := Option.some.inj hcell'
      rw [← hpass]
      exact hcell.named
  · simp only [Term.erase, hl.erase, hr.erase]
  · intro h
    have hself := h _ (self_mem_innerProducts l r computed temporary)
    obtain ⟨-, -, old, rfl, -⟩ := hself
    obtain ⟨rfl, rfl⟩ := hsame old rfl
    rw [hcell.kept old rfl]
  · rintro ⟨-, -, old, rfl, -⟩
    obtain ⟨rfl, rfl⟩ := hsame old rfl
    rw [hcell.kept old rfl]

/-- A declared and well-typed term can be bound in every sound context. -/
theorem bind_ok {env : Declarations} {t : Term} (wt : t.WellTyped) {ctx : Context}
    (hs : ctx.Sound env) (ht : t.Bindable env ctx) : ∃ t' ctx', t.Binds env ctx t' ctx' := by
  induction t generalizing ctx with
  | leaf arg =>
    obtain ⟨k, hk, henv⟩ := id ht
    obtain ⟨arg', reg', hbind⟩ := Argument.bind_ok hs.registry arg (by
      intro i rec hi hhandle
      obtain ⟨helement, hsignature⟩ := hs.buffers i rec k hi (hhandle.trans hk)
      rw [henv] at helement hsignature
      exact ⟨hhandle, helement, hsignature⟩)
    have hdeclared : arg'.Declared env := Argument.Declared.of_erase_eq hbind.erase.symm ht
    refine ⟨leaf arg', { ctx with registry := reg' }, ?_,
      hs.bindArgument hbind (fun _ _ => ht) ?_,
      ⟨hbind.grows, [], (List.append_nil _).symm⟩, rfl, ⟨hdeclared, hbind.bound⟩,
      hbind.named, ?_, ?_, ?_⟩
    · rw [Term.bind, hbind.eq]
    · intro j hj
      rw [hk] at hj
      cases hj
    · simp only [erase, hbind.erase]
    · intro _
      rfl
    · intro h
      rw [hbind.kept h.2]
  | unary op sub ih =>
    obtain ⟨sub', ctx', hsub⟩ := ih wt.1 hs ht
    refine ⟨unary op sub', ctx', ?_, hsub.sound, hsub.grows, hsub.pass, hsub.bound, hsub.named,
      ?_, hsub.kept, ?_⟩
    · rw [Term.bind, hsub.eq]
    · simp only [erase, hsub.erase]
    · intro h
      rw [hsub.unchanged h]
  | binary op lhs rhs ihl ihr =>
    obtain ⟨l', ctx₁, hl⟩ := ihl wt.1 hs ht.1
    obtain ⟨r', ctx₂, hr⟩ := ihr wt.2.1 hl.sound (ht.2.grows hl.grows)
    exact ⟨_, _, hl.pair hr (joins_binary op)⟩
  | matMat lhs rhs ihl ihr =>
    obtain ⟨l', ctx₁, hl⟩ := ihl wt.1 hs ht.1
    obtain ⟨r', ctx₂, hr⟩ := ihr wt.2.1 hl.sound (ht.2.grows hl.grows)
    exact ⟨_, _, hl.pair hr joins_matMat⟩
  | matVec lhs rhs ihl ihr =>
    obtain ⟨l', ctx₁, hl⟩ := ihl wt.1 hs ht.1
    obtain ⟨r', ctx₂, hr⟩ := ihr wt.2.1 hl.sound (ht.2.grows hl.grows)
    exact ⟨_, _, hl.pair hr joins_matVec⟩
  | inner lhs rhs computed temporary ihl ihr =>
    have hoperands : lhs.Bindable env ctx ∧ rhs.Bindable env ctx := by
      cases temporary with
      | none => exact ht
      | some cell => exact ⟨BoundIn.bindable ht.1, BoundIn.bindable ht.2.1⟩
    obtain ⟨l', ctx₁, hl⟩ := ihl wt.1 hs hoperands.1
    obtain ⟨r', ctx₂, hr⟩ := ihr wt.2.1 hl.sound (hoperands.2.grows hl.grows)
    obtain ⟨cell, ctx', h⟩ := hl.inner hr computed temporary wt (by
      rintro cell rfl
      exact ht)
    exact ⟨_, ctx', h⟩

theorem Binds.bindAll {env : Declarations} {t t' : Term} {ctx ctx' : Context}
    (h : t.Binds env ctx t' ctx') : t.bindAll ctx = .ok (t', ctx') := by
  simp only [Term.bindAll, h.eq]

/-! ### Bound terms that are written alike -/

/-- Bound leaves are determined by how they were written. -/
theorem leaf_eq_of_erase_eq {reg : Registry} (hs : reg.Sound) {a b : Argument}
    (ha : a.BoundIn reg) (hb : b.BoundIn reg) (h : a.erase = b.erase) : a = b := by
  obtain ⟨hhandle, helement, hstorage⟩ := Argument.eq_of_erase_eq h
  have hrecord := ha.record_eq hs hb hhandle
  obtain ⟨ha₁, ha₂, ha₃, ha₄⟩ := a
  obtain ⟨hb₁, hb₂, hb₃, hb₄⟩ := b
  simp only at hhandle helement hstorage hrecord
  rw [hhandle, helement, hstorage, hrecord]

/-- Bound terms that were written alike have the same key. -/
theorem key_eq_of_erase_eq {reg : Registry} (hs : reg.Sound)
    {t t' : Term} (ht : t.LeavesBound reg) (ht' : t'.LeavesBound reg) (h : t.erase = t'.erase) :
    t.key reg = t'.key reg := by
  have left : ∀ {l r : Term}, (∀ a ∈ l.leaves ++ r.leaves, a.BoundIn reg) → l.LeavesBound reg :=
    fun h a ha => h a (List.mem_append_left _ ha)
  have right : ∀ {l r : Term}, (∀ a ∈ l.leaves ++ r.leaves, a.BoundIn reg) → r.LeavesBound reg :=
    fun h a ha => h a (List.mem_append_right _ ha)
  induction t generalizing t' with
  | leaf a =>
    cases t' with
    | leaf b =>
      rw [leaf_eq_of_erase_eq hs (ht a (List.mem_singleton_self a))
        (ht' b (List.mem_singleton_self b)) (leaf.inj h)]
    | unary | binary | matMat | matVec | inner => simp [erase] at h
  | unary op sub ih =>
    cases t' with
    | unary op' sub' =>
      obtain ⟨rfl, hsub⟩ := unary.inj h
      have hbound : sub'.LeavesBound reg := ht'
      rw [key, key, ih ht hbound hsub]
    | leaf | binary | matMat | matVec | inner => simp [erase] at h
  | binary op l r ihl ihr =>
    cases t' with
    | binary op' l' r' =>
      obtain ⟨rfl, hl, hr⟩ := binary.inj h
      rw [key, key, ihl (left ht) (left ht') hl, ihr (right ht) (right ht') hr]
    | leaf | unary | matMat | matVec | inner => simp [erase] at h
  | matMat l r ihl ihr =>
    cases t' with
    | matMat l' r' =>
      obtain ⟨hl, hr⟩ := matMat.inj h
      rw [key, key, ihl (left ht) (left ht') hl, ihr (right ht) (right ht') hr]
    | leaf | unary | binary | matVec | inner => simp [erase] at h
  | matVec l r ihl ihr =>
    cases t' with
    | matVec l' r' =>
      obtain ⟨hl, hr⟩ := matVec.inj h
      rw [key, key, ihl (left ht) (left ht') hl, ihr (right ht) (right ht') hr]
    | leaf | unary | binary | matMat | inner => simp [erase] at h
  | inner l r computed temporary ihl ihr =>
    cases t' with
    | inner l' r' computed' temporary' =>
      obtain ⟨hl, hr, -, -⟩ := inner.inj h
      rw [key, key, ihl (left ht) (left ht') hl, ihr (right ht) (right ht') hr]
    | leaf | unary | binary | matMat | matVec => simp [erase] at h

/-- The cells of inner products with the same key are the same. -/
theorem cell_eq_of_key_eq {env : Declarations} {ctx : Context}
    (hs : ctx.Sound env) {l r l' r' : Term} {cell cell' : Argument}
    (h : ctx.HoldsCell l r cell) (h' : ctx.HoldsCell l' r' cell')
    (hkey : pairKey ctx.registry .mul l r = pairKey ctx.registry .mul l' r')
    (helement : l.element = l'.element) : cell = cell' := by
  obtain ⟨i, key, hi, hat, hpair, he, hst, hb⟩ := h
  obtain ⟨j, key', hj, hat', hpair', he', hst', hb'⟩ := h'
  obtain rfl : key = key' := Except.ok.inj (hpair.symm.trans (hkey.trans hpair'))
  obtain rfl : i = j := hs.distinct i j key hat hat'
  refine leaf_eq_of_erase_eq hs.registry hb hb' ?_
  rw [Argument.erase, Argument.erase, hi, hj, he, he', hst, hst', helement]

/-- Terms that were written alike have equally many inner products. -/
theorem map_computed_pair {l r l' r' : Term} (hl : l.erase = l'.erase)
    (h : (l.innerProducts ++ r.innerProducts).map computed? =
      (l'.innerProducts ++ r'.innerProducts).map computed?) :
    l.innerProducts.map computed? = l'.innerProducts.map computed? ∧
      r.innerProducts.map computed? = r'.innerProducts.map computed? := by
  rw [List.map_append, List.map_append] at h
  refine List.append_inj h ?_
  have := congrArg (fun t => t.innerProducts.length) hl
  simpa [innerProducts_erase] using this

/-- Bound terms that were written alike and whose inner products are computed by the same
passes are the same. -/
theorem BoundIn.eq_of_erase_eq {env : Declarations} {ctx : Context} (hs : ctx.Sound env)
    {t t' : Term} (ht : t.BoundIn env ctx) (ht' : t'.BoundIn env ctx) (h : t.erase = t'.erase)
    (hcomputed : t.innerProducts.map computed? = t'.innerProducts.map computed?) : t = t' := by
  induction t generalizing t' with
  | leaf a =>
    cases t' with
    | leaf b => rw [leaf_eq_of_erase_eq hs.registry ht.2 ht'.2 (leaf.inj h)]
    | unary | binary | matMat | matVec | inner => simp [erase] at h
  | unary op sub ih =>
    cases t' with
    | unary op' sub' =>
      obtain ⟨rfl, hsub⟩ := unary.inj h
      have hbound : sub'.BoundIn env ctx := ht'
      rw [ih ht hbound hsub hcomputed]
    | leaf | binary | matMat | matVec | inner => simp [erase] at h
  | binary op l r ihl ihr =>
    cases t' with
    | binary op' l' r' =>
      obtain ⟨rfl, hl, hr⟩ := binary.inj h
      obtain ⟨hcl, hcr⟩ := map_computed_pair hl hcomputed
      rw [ihl ht.1 ht'.1 hl hcl, ihr ht.2 ht'.2 hr hcr]
    | leaf | unary | matMat | matVec | inner => simp [erase] at h
  | matMat l r ihl ihr =>
    cases t' with
    | matMat l' r' =>
      obtain ⟨hl, hr⟩ := matMat.inj h
      obtain ⟨hcl, hcr⟩ := map_computed_pair hl hcomputed
      rw [ihl ht.1 ht'.1 hl hcl, ihr ht.2 ht'.2 hr hcr]
    | leaf | unary | binary | matVec | inner => simp [erase] at h
  | matVec l r ihl ihr =>
    cases t' with
    | matVec l' r' =>
      obtain ⟨hl, hr⟩ := matVec.inj h
      obtain ⟨hcl, hcr⟩ := map_computed_pair hl hcomputed
      rw [ihl ht.1 ht'.1 hl hcl, ihr ht.2 ht'.2 hr hcr]
    | leaf | unary | binary | matMat | inner => simp [erase] at h
  | inner l r computed temporary ihl ihr =>
    cases t' with
    | inner l' r' computed' temporary' =>
      obtain ⟨hl, hr, -, -⟩ := inner.inj h
      simp only [Term.innerProducts, List.map_append] at hcomputed
      obtain ⟨hoperands, hself⟩ := List.append_inj' hcomputed rfl
      rw [← List.map_append, ← List.map_append] at hoperands
      obtain ⟨hcl, hcr⟩ := map_computed_pair hl hoperands
      obtain rfl := ihl ht.1 ht'.1 hl hcl
      obtain rfl := ihr ht.2.1 ht'.2.1 hr hcr
      obtain ⟨cell, rfl, hholds⟩ := ht.2.2
      obtain ⟨cell', rfl, hholds'⟩ := ht'.2.2
      obtain rfl : computed = computed' := by simpa [computed?] using hself
      rw [cell_eq_of_key_eq hs hholds hholds' rfl rfl]
    | leaf | unary | binary | matMat | matVec => simp [erase] at h

end Term

end LinearKernels
