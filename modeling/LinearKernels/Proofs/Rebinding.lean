import LinearKernels.Proofs.RegistryRuns

/-!
Binding a term again. A term that has been bound is settled: its leaves and temporaries have
their records, and the keys of its inner products have their temporaries. Binding a settled term
leaves it as it is and adds nothing but access names for the current kernel, to those records of
its leaves and temporaries that have none. Such names are read by the code of that kernel only.
-/

namespace LinearKernels

/-! ### Adding names -/

/-- The record in both registries is the same, but may have one name more in the second: the
usual one for the kernel, which had none, as one of the arguments gives it. -/
def Record.Gains (pass : Nat) (args : List Argument) (i : Nat) (r r' : Record) : Prop :=
  r' = r ∨ r.accessName? pass = none ∧
    ∃ a ∈ args, a.record = some i ∧ r' = r.setAccessName pass (a.storage.access r.name)

namespace Record

variable {pass i : Nat} {args args' : List Argument} {r r' r'' : Record}

theorem gains_refl (pass : Nat) (args : List Argument) (i : Nat) (r : Record) :
    Gains pass args i r r :=
  .inl rfl

theorem Gains.mono (h : Gains pass args i r r') (hsub : ∀ a ∈ args, a ∈ args') :
    Gains pass args' i r r' := by
  rcases h with rfl | ⟨hnone, a, ha, hrecord, rfl⟩
  · exact gains_refl ..
  · exact .inr ⟨hnone, a, hsub a ha, hrecord, rfl⟩

theorem accessName?_setAccessName (r : Record) (pass : Nat) (text : String) :
    (r.setAccessName pass text).accessName? pass = some text := by
  simp [setAccessName, accessName?]

/-- A name is added once only. -/
theorem Gains.trans (h : Gains pass args i r r') (h' : Gains pass args i r' r'') :
    Gains pass args i r r'' := by
  rcases h with rfl | ⟨hnone, a, ha, hrecord, rfl⟩
  · exact h'
  · rcases h' with rfl | ⟨hnone', -⟩
    · exact .inr ⟨hnone, a, ha, hrecord, rfl⟩
    · rw [accessName?_setAccessName] at hnone'
      cases hnone'

theorem ensureAccessName_of_none {text : String} (h : r.accessName? pass = none) :
    r.ensureAccessName pass text = r.setAccessName pass text := by
  unfold ensureAccessName
  rw [h]

theorem Gains.grows (h : Gains pass args i r r') : r.Grows r' := by
  rcases h with rfl | ⟨hnone, a, -, -, rfl⟩
  · exact Grows.refl r'
  · rw [← ensureAccessName_of_none hnone]
    exact grows_ensureAccessName r pass _

theorem Gains.accessName? (h : Gains pass args i r r') {p : Nat} (hp : p ≠ pass) :
    r'.accessName? p = r.accessName? p := by
  rcases h with rfl | ⟨-, a, -, -, rfl⟩
  · rfl
  · have hbeq : (p == pass) = false := by simpa using hp
    simp only [Record.accessName?, setAccessName, List.lookup_cons, hbeq]
    exact lookup_filter_ne hp r.access

end Record

/-- The second registry is the first one with names added for the kernel, by the arguments. -/
structure Registry.Gains (pass : Nat) (args : List Argument) (reg reg' : Registry) : Prop where
  length : reg'.records.length = reg.records.length
  record : ∀ (i : Nat) (r r' : Record), reg.records[i]? = some r → reg'.records[i]? = some r' →
    r.Gains pass args i r'

namespace Registry

variable {pass : Nat} {args args' : List Argument} {reg reg' reg'' : Registry}

theorem Gains.exists_record (h : Gains pass args reg reg') {i : Nat} {r : Record}
    (hr : reg.records[i]? = some r) :
    ∃ r', reg'.records[i]? = some r' ∧ r.Gains pass args i r' := by
  have hlt : i < reg'.records.length := by
    rw [h.length]
    exact (List.getElem?_eq_some_iff.mp hr).1
  have hr' := List.getElem?_eq_getElem hlt
  exact ⟨_, hr', h.record i r _ hr hr'⟩

theorem Gains.mono (h : Gains pass args reg reg') (hsub : ∀ a ∈ args, a ∈ args') :
    Gains pass args' reg reg' :=
  ⟨h.length, fun i r r' hr hr' => (h.record i r r' hr hr').mono hsub⟩

theorem Gains.trans (h : Gains pass args reg reg') (h' : Gains pass args reg' reg'') :
    Gains pass args reg reg'' := by
  refine ⟨h'.length.trans h.length, fun i r r'' hr hr'' => ?_⟩
  obtain ⟨r', hr', hgains⟩ := h.exists_record hr
  exact hgains.trans (h'.record i r' r'' hr' hr'')

theorem Gains.append (h : Gains pass args reg reg') (h' : Gains pass args' reg' reg'') :
    Gains pass (args ++ args') reg reg'' :=
  (h.mono fun _ ha => List.mem_append_left _ ha).trans
    (h'.mono fun _ ha => List.mem_append_right _ ha)

theorem Gains.grows (h : Gains pass args reg reg') : reg.Grows reg' := by
  intro i r hr
  obtain ⟨r', hr', hgains⟩ := h.exists_record hr
  exact ⟨r', hr', hgains.grows⟩

theorem Gains.sound (h : Gains pass args reg reg') (hs : reg.Sound) : reg'.Sound := by
  refine hs.of_origin fun i r' hr' => ?_
  have hlt : i < reg.records.length := by
    rw [← h.length]
    exact (List.getElem?_eq_some_iff.mp hr').1
  have hr := List.getElem?_eq_getElem hlt
  have hgrows := (h.record i _ r' hr hr').grows
  exact ⟨_, hr, hgrows.id, hgrows.handle⟩

/-- Nothing is added if all names are there. -/
theorem Gains.eq_of_named (h : Gains pass args reg reg')
    (hnamed : ∀ a ∈ args, a.NamedIn reg pass) : reg' = reg := by
  have hrecords : reg'.records = reg.records := by
    refine List.ext_getElem? fun i => ?_
    cases hr : reg.records[i]? with
    | none =>
      rw [List.getElem?_eq_none_iff] at hr ⊢
      rwa [h.length]
    | some r =>
      obtain ⟨r', hr', hgains⟩ := h.exists_record hr
      rcases hgains with rfl | ⟨hnone, a, ha, hrecord, -⟩
      · exact hr'
      · obtain ⟨j, s, text, hj, hs, htext⟩ := hnamed a ha
        obtain rfl : i = j := Option.some.inj (hrecord.symm.trans hj)
        obtain rfl : r = s := Option.some.inj (hr.symm.trans hs)
        rw [hnone] at htext
        cases htext
  cases reg'
  cases reg
  exact congrArg Registry.mk hrecords

end Registry

/-- Binding an argument that has its record. -/
theorem Argument.BoundIn.bind {a : Argument} {ctx : Context} (hs : ctx.registry.Sound)
    (h : a.BoundIn ctx.registry) :
    ∃ reg', a.bind ctx = .ok (a, { ctx with registry := reg' }) ∧
      Registry.Gains ctx.pass [a] ctx.registry reg' ∧ a.NamedIn reg' ctx.pass := by
  obtain ⟨i, r, hi, hr, hagrees⟩ := h
  have hregister : ctx.registry.register a.handle a.element a.storage.signature =
      .ok (i, ctx.registry) := by
    have hfind := hs.find?_eq hr
    rw [hagrees.1] at hfind
    rw [Registry.register, hfind]
    simp only [if_pos (And.intro hagrees.2.1 hagrees.2.2), hs.numbered i r hr]
  have hself : { a with record := some i } = a := by rw [← hi]
  refine ⟨ctx.registry.modify i fun r => r.ensureAccessName ctx.pass
    (a.storage.access r.name), ?_, ?_, ?_⟩
  · rw [Argument.bind, hregister]
    exact congrArg (fun b => Except.ok (b, _)) hself
  · refine ⟨List.length_modify .., fun j s s' hs hs' => ?_⟩
    simp only [Registry.modify, List.getElem?_modify, hs, Option.map_eq_map, Option.map_some,
      Option.some.injEq] at hs'
    by_cases hij : i = j
    · subst hij
      rw [if_pos rfl] at hs'
      unfold Record.ensureAccessName at hs'
      cases hname : s.accessName? ctx.pass with
      | some text =>
        simp only [hname] at hs'
        exact .inl hs'.symm
      | none =>
        simp only [hname] at hs'
        exact .inr ⟨hname, a, List.mem_singleton.mpr rfl, hi, hs'.symm⟩
    · rw [if_neg hij] at hs'
      exact .inl hs'.symm
  · obtain ⟨text, htext⟩ := r.accessName?_ensure ctx.pass (a.storage.access r.name)
    exact ⟨i, _, text, hi, by simp [Registry.modify, hr], htext⟩

/-! ### Settled terms -/

namespace Term

variable {ctx ctx' : Context} {reg' : Registry} {l r t t' : Term}

/-- The leaves and the temporaries of a term, in the order in which they are bound. -/
def references : Term → List Argument
  | leaf arg => [arg]
  | unary _ sub => sub.references
  | binary _ lhs rhs | matMat lhs rhs | matVec lhs rhs => lhs.references ++ rhs.references
  | inner lhs rhs _ temporary => lhs.references ++ rhs.references ++ temporary.toList

/-- All leaves and temporaries have their records, and the keys of all inner products have a
temporary. -/
def SettledIn (ctx : Context) : Term → Prop
  | leaf arg => arg.BoundIn ctx.registry
  | unary _ sub => sub.SettledIn ctx
  | binary _ lhs rhs | matMat lhs rhs | matVec lhs rhs => lhs.SettledIn ctx ∧ rhs.SettledIn ctx
  | inner lhs rhs _ temporary =>
    (lhs.SettledIn ctx ∧ rhs.SettledIn ctx) ∧
      (∃ cell, temporary = some cell ∧ cell.BoundIn ctx.registry) ∧
      ∃ (i : Nat) (key : String), ctx.temporaries.keys[i]? = some key ∧
        pairKey ctx.registry .mul lhs rhs = .ok key

theorem leaves_subset_references (t : Term) : t.leaves ⊆ t.references := by
  induction t with
  | leaf arg => exact List.Subset.refl _
  | unary op sub ih => exact ih
  | binary op l r ihl ihr | matMat l r ihl ihr | matVec l r ihl ihr =>
    exact List.append_subset.mpr ⟨List.Subset.trans ihl (List.subset_append_left _ _),
      List.Subset.trans ihr (List.subset_append_right _ _)⟩
  | inner l r computed temporary ihl ihr =>
    refine List.append_subset.mpr ⟨List.Subset.trans ihl ?_,
      List.Subset.trans ihr ?_⟩ <;> simp [references]

theorem SettledIn.references (h : t.SettledIn ctx) :
    ∀ a ∈ t.references, a.BoundIn ctx.registry := by
  induction t with
  | leaf arg => exact List.forall_mem_singleton.mpr h
  | unary op sub ih => exact ih h
  | binary op l r ihl ihr | matMat l r ihl ihr | matVec l r ihl ihr =>
    exact List.forall_mem_append.mpr ⟨ihl h.1, ihr h.2⟩
  | inner l r computed temporary ihl ihr =>
    obtain ⟨⟨hl, hr⟩, ⟨cell, rfl, hcell⟩, -⟩ := h
    exact List.forall_mem_append.mpr
      ⟨List.forall_mem_append.mpr ⟨ihl hl, ihr hr⟩, List.forall_mem_singleton.mpr hcell⟩

theorem SettledIn.leavesBound (h : t.SettledIn ctx) : t.LeavesBound ctx.registry :=
  fun a ha => h.references a (t.leaves_subset_references ha)

/-- All inner products of a settled term have temporaries. -/
theorem SettledIn.exists_cell (h : t.SettledIn ctx) :
    ∀ m ∈ t.innerProducts, ∃ lhs rhs computed cell, m = inner lhs rhs computed (some cell) := by
  induction t with
  | leaf arg => exact List.forall_mem_nil _
  | unary op sub ih => exact ih h
  | binary op l r ihl ihr | matMat l r ihl ihr | matVec l r ihl ihr =>
    exact List.forall_mem_append.mpr ⟨ihl h.1, ihr h.2⟩
  | inner l r computed temporary ihl ihr =>
    obtain ⟨⟨hl, hr⟩, ⟨cell, rfl, -⟩, -⟩ := h
    exact List.forall_mem_append.mpr ⟨List.forall_mem_append.mpr ⟨ihl hl, ihr hr⟩,
      List.forall_mem_singleton.mpr ⟨l, r, computed, cell, rfl⟩⟩

theorem SettledIn.grows (h : t.SettledIn ctx) (hg : ctx.Grows ctx') : t.SettledIn ctx' := by
  induction t with
  | leaf arg => exact Argument.BoundIn.keeps h hg.registry.keeps
  | unary op sub ih => exact ih h
  | binary op l r ihl ihr => exact ⟨ihl h.1, ihr h.2⟩
  | matMat l r ihl ihr => exact ⟨ihl h.1, ihr h.2⟩
  | matVec l r ihl ihr => exact ⟨ihl h.1, ihr h.2⟩
  | inner l r computed temporary ihl ihr =>
    obtain ⟨⟨hl, hr⟩, ⟨cell, hcell, hbound⟩, i, key, hi, hkey⟩ := h
    have hleaves : (Term.inner l r none none).LeavesBound ctx.registry :=
      leavesBound_operands.mpr ⟨hl.leavesBound, hr.leavesBound⟩
    exact ⟨⟨ihl hl, ihr hr⟩, ⟨cell, hcell, hbound.keeps hg.registry.keeps⟩, i, key,
      hg.getElem?_keys hi, (hleaves.key_grows hg.registry).trans hkey⟩

/-- Binding leaves the term and the temporaries as they are, and names the references of the
term. -/
structure Rebinding (ctx : Context) (t : Term) (reg' : Registry) : Prop where
  eq : t.bind ctx = ⟨t, { ctx with registry := reg' }, none⟩
  gains : Registry.Gains ctx.pass t.references ctx.registry reg'
  named : ∀ a ∈ t.references, a.NamedIn reg' ctx.pass

theorem Rebinding.pair {reg'' : Registry} (hl : l.Rebinding ctx reg')
    (hr : r.Rebinding { ctx with registry := reg' } reg'')
    {join : Term → Term → Term} (hj : Joins join)
    (hreferences : ∀ l r, (join l r).references = l.references ++ r.references) :
    (join l r).Rebinding ctx reg'' where
  eq := by
    rw [hj.bind, hl.eq, Bound.andThen]
    simp only [hr.eq]
  gains := by
    rw [hreferences]
    exact hl.gains.append hr.gains
  named a ha := by
    rw [hreferences] at ha
    rcases List.mem_append.mp ha with ha | ha
    · exact (hl.named a ha).keeps hr.gains.grows.keeps
    · exact hr.named a ha

/-- Wherever the term is settled, it can be bound again. -/
def Rebindable (t : Term) : Prop :=
  ∀ ctx : Context, ctx.Orderly → t.SettledIn ctx → ∃ reg', t.Rebinding ctx reg'

/-- The second operand is bound in the registry that the first one leaves behind. -/
theorem Rebindable.pair (hl : l.Rebindable) (hr : r.Rebindable) (ho : ctx.Orderly)
    (h : l.SettledIn ctx ∧ r.SettledIn ctx) :
    ∃ reg' reg'', l.Rebinding ctx reg' ∧ r.Rebinding { ctx with registry := reg' } reg'' := by
  obtain ⟨reg', hleft⟩ := hl ctx ho h.1
  have hgrows : ctx.Grows { ctx with registry := reg' } :=
    ⟨hleft.gains.grows, [], (List.append_nil _).symm⟩
  obtain ⟨reg'', hright⟩ :=
    hr { ctx with registry := reg' } ⟨hleft.gains.sound ho.sound, ho.distinct⟩ (h.2.grows hgrows)
  exact ⟨reg', reg'', hleft, hright⟩

theorem rebindable_inner {computed : Option Nat} {temporary : Option Argument} (hl : l.Rebindable)
    (hr : r.Rebindable) : (inner l r computed temporary).Rebindable := by
  intro ctx ho h
  obtain ⟨hoperands, ⟨cell, rfl, hbound⟩, i, key, hi, hkey⟩ := h
  obtain ⟨reg', reg'', hleft, hright⟩ := hl.pair hr ho hoperands
  have hgains := hleft.gains.append hright.gains
  have hleaves : (inner l r computed (some cell)).LeavesBound ctx.registry :=
    leavesBound_operands.mpr ⟨hoperands.1.leavesBound, hoperands.2.leavesBound⟩
  have hkey'' : (inner l r computed (some cell)).key reg'' = .ok key :=
    (hleaves.key_grows hgains.grows).trans hkey
  have hsound : ({ ctx with registry := reg'' } : Context).registry.Sound := hgains.sound ho.sound
  obtain ⟨reg₃, hbind, hcell, hnamed⟩ :=
    Argument.BoundIn.bind hsound (hbound.keeps hgains.grows.keeps)
  refine ⟨reg₃, ?_, hgains.append hcell, fun a ha => ?_⟩
  · refine bind_inner_eq_iff.mpr ⟨l, _, r, _, hleft.eq, hright.eq, ?_⟩
    simp only [bindTemporary, hkey'', Temporaries.claim_of_getElem? ho.distinct hi,
      Option.getD_some, hbind]
  · rcases List.mem_append.mp ha with ha | ha
    · rcases List.mem_append.mp ha with ha | ha
      · exact (hleft.named a ha).keeps (hright.gains.grows.trans hcell.grows).keeps
      · exact (hright.named a ha).keeps hcell.grows.keeps
    · obtain rfl : a = cell := by simpa using ha
      exact hnamed

theorem rebindable (t : Term) : t.Rebindable := by
  induction t with
  | leaf arg =>
    intro ctx ho h
    obtain ⟨reg', hbind, hgains, hnamed⟩ := Argument.BoundIn.bind ho.sound h
    refine ⟨reg', ?_, hgains, fun a ha => ?_⟩
    · rw [bind, hbind]
    · obtain rfl := List.mem_singleton.mp ha
      exact hnamed
  | unary op sub ih =>
    intro ctx ho h
    obtain ⟨reg', hsub⟩ := ih ctx ho h
    refine ⟨reg', ?_, hsub.gains, hsub.named⟩
    rw [bind, hsub.eq]
  | binary op l r ihl ihr =>
    intro ctx ho h
    obtain ⟨reg', reg'', hl, hr⟩ := ihl.pair ihr ho h
    exact ⟨reg'', hl.pair hr (joins_binary op) fun _ _ => rfl⟩
  | matMat l r ihl ihr =>
    intro ctx ho h
    obtain ⟨reg', reg'', hl, hr⟩ := ihl.pair ihr ho h
    exact ⟨reg'', hl.pair hr joins_matMat fun _ _ => rfl⟩
  | matVec l r ihl ihr =>
    intro ctx ho h
    obtain ⟨reg', reg'', hl, hr⟩ := ihl.pair ihr ho h
    exact ⟨reg'', hl.pair hr joins_matVec fun _ _ => rfl⟩
  | inner l r computed temporary ihl ihr => exact rebindable_inner ihl ihr

/-! ### Bound terms are settled -/

/-- What binding makes of a term: it is settled, and its references have names. -/
structure Settles (ctx : Context) (t' : Term) (ctx' : Context) : Prop where
  orderly : ctx'.Orderly
  grows : ctx.Grows ctx'
  pass : ctx'.pass = ctx.pass
  settled : t'.SettledIn ctx'
  named : ∀ a ∈ t'.references, a.NamedIn ctx'.registry ctx.pass

variable {ctx₁ ctx₂ : Context}

theorem Settles.operands (hl : Settles ctx l ctx₁) (hr : Settles ctx₁ r ctx₂) :
    (l.SettledIn ctx₂ ∧ r.SettledIn ctx₂) ∧ ∀ a ∈ l.references ++ r.references,
    a.NamedIn ctx₂.registry ctx.pass := by
  refine ⟨⟨hl.settled.grows hr.grows, hr.settled⟩, fun a ha => ?_⟩
  rcases List.mem_append.mp ha with ha | ha
  · exact (hl.named a ha).keeps hr.grows.registry.keeps
  · rw [← hl.pass]
    exact hr.named a ha

theorem Settles.pair (hl : Settles ctx l ctx₁) (hr : Settles ctx₁ r ctx₂) {t' : Term}
    (hsettled : l.SettledIn ctx₂ ∧ r.SettledIn ctx₂ → t'.SettledIn ctx₂)
    (hreferences : t'.references = l.references ++ r.references) : Settles ctx t' ctx₂ where
  orderly := hr.orderly
  grows := hl.grows.trans hr.grows
  pass := hr.pass.trans hl.pass
  settled := hsettled (hl.operands hr).1
  named := by
    rw [hreferences]
    exact (hl.operands hr).2

theorem settles_bindTemporary {computed : Option Nat} {temporary : Option Argument}
    (ho : ctx.Orderly) (hsettled : l.SettledIn ctx ∧ r.SettledIn ctx)
    (hnamed : ∀ a ∈ l.references ++ r.references, a.NamedIn ctx.registry ctx.pass)
    (h : bindTemporary l r computed temporary ctx = ⟨t', ctx', none⟩) : Settles ctx t' ctx' := by
  have hleaves : (inner l r computed temporary).LeavesBound ctx.registry :=
    leavesBound_operands.mpr ⟨hsettled.1.leavesBound, hsettled.2.leavesBound⟩
  obtain ⟨key, hkeys⟩ := hleaves.key_ok
  have hkey := hkeys ctx.registry (Registry.Grows.refl _)
  obtain ⟨i, temporaries, hclaim, hdistinct, hi, hmore⟩ := Temporaries.claim_ok ho.distinct key
  simp only [bindTemporary, hkey, hclaim] at h
  split at h
  · cases h
  · next cell ctx₁ hbind =>
    obtain ⟨rfl, rfl, -⟩ := Bound.mk.inj h
    have hsound : (Context.mk ctx.registry temporaries ctx.pass).registry.Sound := ho.sound
    obtain ⟨reg', rfl, hbinds⟩ := Argument.binds_of_bind hsound hbind
    have hgrows : ctx.Grows ⟨reg', temporaries, ctx.pass⟩ := ⟨hbinds.grows, hmore⟩
    refine ⟨⟨hbinds.sound, hdistinct⟩, hgrows, rfl,
      ⟨⟨hsettled.1.grows hgrows, hsettled.2.grows hgrows⟩,
      ⟨cell, rfl, hbinds.bound⟩, i, key, hi, hkeys reg' hbinds.grows⟩, fun a ha => ?_⟩
    rcases List.mem_append.mp ha with ha | ha
    · exact (hnamed a ha).keeps hbinds.grows.keeps
    · obtain rfl : a = cell := by simpa using ha
      exact hbinds.named

/-- A term that could be bound is settled. -/
theorem settles_of_bind (ho : ctx.Orderly) (h : t.bind ctx = ⟨t', ctx', none⟩) :
    Settles ctx t' ctx' := by
  induction t generalizing ctx ctx' t' with
  | leaf arg =>
    rw [bind] at h
    split at h
    · cases h
    · next arg' ctx₁ hbind =>
      obtain ⟨rfl, rfl, -⟩ := Bound.mk.inj h
      obtain ⟨reg', rfl, hbinds⟩ := Argument.binds_of_bind ho.sound hbind
      refine ⟨⟨hbinds.sound, ho.distinct⟩, ⟨hbinds.grows, [], (List.append_nil _).symm⟩, rfl,
        hbinds.bound, fun a ha => ?_⟩
      obtain rfl := List.mem_singleton.mp ha
      exact hbinds.named
  | unary op sub ih =>
    obtain ⟨rfl, rfl, hfault⟩ := Bound.mk.inj h
    have hsub : sub.bind ctx = ⟨(sub.bind ctx).term, (sub.bind ctx).context, none⟩ := by
      rw [← hfault]
    have hs := ih ho hsub
    exact ⟨hs.orderly, hs.grows, hs.pass, hs.settled, hs.named⟩
  | binary op l r ihl ihr =>
    obtain ⟨l', ctx₁, r', hl, hr, rfl⟩ := andThen_eq_iff.mp h
    have hl := ihl ho hl
    exact hl.pair (ihr hl.orderly hr) id rfl
  | matMat l r ihl ihr =>
    obtain ⟨l', ctx₁, r', hl, hr, rfl⟩ := andThen_eq_iff.mp h
    have hl := ihl ho hl
    exact hl.pair (ihr hl.orderly hr) id rfl
  | matVec l r ihl ihr =>
    obtain ⟨l', ctx₁, r', hl, hr, rfl⟩ := andThen_eq_iff.mp h
    have hl := ihl ho hl
    exact hl.pair (ihr hl.orderly hr) id rfl
  | inner l r computed temporary ihl ihr =>
    obtain ⟨l', ctx₁, r', ctx₂, hl, hr, hcell⟩ := bind_inner_eq_iff.mp h
    have hl := ihl ho hl
    have hr := ihr hl.orderly hr
    obtain ⟨hsettled, hnamed⟩ := hl.operands hr
    have hpass : ctx₂.pass = ctx.pass := hr.pass.trans hl.pass
    rw [← hpass] at hnamed
    have hlast := settles_bindTemporary hr.orderly hsettled hnamed hcell
    refine ⟨hlast.orderly, (hl.grows.trans hr.grows).trans hlast.grows, hlast.pass.trans hpass,
      hlast.settled, ?_⟩
    rw [← hpass]
    exact hlast.named

end Term

/-! ### Texts -/

namespace Registry.Gains

variable {pass p : Nat} {args : List Argument} {reg reg' : Registry}

/-- An argument has its record in both registries, or in neither. -/
theorem info_cases (h : Gains pass args reg reg') (a : Argument) :
    (∃ f, a.info reg = .error f ∧ a.info reg' = .error f) ∨
      ∃ i r r', a.info reg = .ok r ∧ a.info reg' = .ok r' ∧ r.Gains pass args i r' := by
  cases hrecord : a.record with
  | none =>
    exact .inl ⟨.unbound, by simp [Argument.info, Argument.id, hrecord],
      by simp [Argument.info, Argument.id, hrecord]⟩
  | some i =>
    cases hr : reg.records[i]? with
    | none =>
      have hr' : reg'.records[i]? = none := by
        rw [List.getElem?_eq_none_iff] at hr ⊢
        rwa [h.length]
      exact .inl ⟨.unbound, by simp [Argument.info, Argument.id, hrecord, Registry.get, hr],
        by simp [Argument.info, Argument.id, hrecord, Registry.get, hr']⟩
    | some r =>
      obtain ⟨r', hr', hgains⟩ := h.exists_record hr
      exact .inr ⟨i, r, r', Argument.info_eq_ok_iff.mpr ⟨i, hrecord, hr⟩,
        Argument.info_eq_ok_iff.mpr ⟨i, hrecord, hr'⟩, hgains⟩

theorem argument_name (h : Gains pass args reg reg') (a : Argument) :
    a.name reg' = a.name reg := by
  unfold Argument.name
  rcases h.info_cases a with ⟨f, hinfo, hinfo'⟩ | ⟨i, r, r', hinfo, hinfo', hgains⟩
  · rw [hinfo, hinfo']
  · rw [hinfo, hinfo']
    simp [Record.name, hgains.grows.id]

theorem argument_key (h : Gains pass args reg reg') (a : Argument) : a.key reg' = a.key reg := by
  unfold Argument.key
  rcases h.info_cases a with ⟨f, hinfo, hinfo'⟩ | ⟨i, r, r', hinfo, hinfo', hgains⟩
  · rw [hinfo, hinfo']
  · rw [hinfo, hinfo']
    exact congrArg Except.ok (hgains.grows.keyText a.storage)

theorem argument_accessName (h : Gains pass args reg reg') (hp : p ≠ pass) (a : Argument) :
    a.accessName reg' p = a.accessName reg p := by
  unfold Argument.accessName
  rcases h.info_cases a with ⟨f, hinfo, hinfo'⟩ | ⟨i, r, r', hinfo, hinfo', hgains⟩
  · rw [hinfo, hinfo']
  · rw [hinfo, hinfo']
    simp [Record.accessName, Record.name, hgains.accessName? hp, hgains.grows.id]

theorem term_key (h : Gains pass args reg reg') (t : Term) : t.key reg' = t.key reg := by
  induction t with
  | leaf arg => exact h.argument_key arg
  | unary op sub ih => simp only [Term.key, ih]
  | binary op l r ihl ihr => simp only [Term.key, ihl, ihr]
  | matMat l r ihl ihr => simp only [Term.key, ihl, ihr]
  | matVec l r ihl ihr => simp only [Term.key, ihl, ihr]
  | inner l r computed temporary ihl ihr => simp only [Term.key, ihl, ihr]

theorem term_shortKey (h : Gains pass args reg reg') (t : Term) :
    t.shortKey reg' = t.shortKey reg := by
  induction t with
  | leaf arg => exact h.argument_key arg
  | unary op sub ih => simp only [Term.shortKey, ih]
  | binary op l r ihl ihr => simp only [Term.shortKey, ihl, ihr, h.term_key]
  | matMat l r ihl ihr => simp only [Term.shortKey, ihl, ihr]
  | matVec l r ihl ihr => simp only [Term.shortKey, ihl, ihr]
  | inner l r computed temporary => exact h.term_key l

theorem term_code (h : Gains pass args reg reg') (hp : p ≠ pass) (t : Term) :
    t.code reg' p = t.code reg p := by
  induction t with
  | leaf arg => exact h.argument_accessName hp arg
  | unary op sub ih => simp only [Term.code, ih]
  | binary op l r ihl ihr => simp only [Term.code, ihl, ihr]
  | matMat l r => simp only [Term.code, h.term_key]
  | matVec l r => simp only [Term.code, h.term_key]
  | inner l r computed temporary ihl ihr =>
    cases computed with
    | none => simp only [Term.code, ihl, ihr]
    | some n =>
      cases temporary with
      | none => rfl
      | some cell => exact h.argument_accessName hp cell

end Registry.Gains

/-! ### Contexts in use -/

/-- The contexts that calls lead to, where the registry of one context may be used with the
temporaries of another. -/
inductive Context.Reached : Context → Prop
  | empty : Reached .empty
  | call {ctx : Context} (h : Reached ctx) (c : Call) : Reached (ctx.call c)
  | exchange {ctx ctx' : Context} (h : Reached ctx) (h' : Reached ctx') :
      Reached ⟨ctx.registry, ctx'.temporaries, ctx'.pass⟩

theorem Context.Reached.orderly {ctx : Context} (h : ctx.Reached) : ctx.Orderly := by
  induction h with
  | empty => exact Context.empty_orderly
  | call _ c ih =>
    have hadvances := Context.advances_call ih.sound c
    exact ⟨hadvances.sound, hadvances.serves.temporaries.distinct ih.distinct⟩
  | exchange _ _ ih ih' => exact ⟨ih.sound, ih'.distinct⟩

theorem Term.Rebinding.bindAll_eq {ctx : Context} {t : Term} {reg' : Registry}
    (h : t.Rebinding ctx reg') :
    t.bindAll ctx = .ok (t, { ctx with registry := reg' }) := by
  rw [bindAll, h.eq]

/-- A term that has been bound can be bound again. For the same kernel this changes nothing. For
another kernel it changes nothing either, but for access names for that kernel, which are added to
the records of the term's leaves and temporaries that had none; so keys, short keys, parameter
names and the code of all other kernels stay as they were, for all terms and arguments. -/
theorem rebinding_adds_names_only {ctx ctx' : Context} {t t' : Term} (hreached : ctx.Reached)
    (hbind : t.bindAll ctx = .ok (t', ctx')) :
    ctx'.pass = ctx.pass ∧ t'.bindAll ctx' = .ok (t', ctx') ∧
      ∀ q, ∃ reg', t'.bindAll (ctx'.withPass q) = .ok (t', ⟨reg', ctx'.temporaries, q⟩) ∧
        Registry.Gains q t'.references ctx'.registry reg' ∧
        (∀ a ∈ t'.references, a.NamedIn reg' q) ∧
        (∀ s : Term, s.key reg' = s.key ctx'.registry ∧ s.shortKey reg' =
          s.shortKey ctx'.registry ∧ ∀ p, p ≠ q → s.code reg' p = s.code ctx'.registry p) ∧
        ∀ a : Argument, a.name reg' = a.name ctx'.registry := by
  have hsettles := Term.settles_of_bind hreached.orderly (Workbench.bindAll_eq_ok hbind)
  have hpasses : ∀ q, ∃ reg', t'.Rebinding (ctx'.withPass q) reg' := by
    intro q
    have hgrows : ctx'.Grows (ctx'.withPass q) :=
      ⟨Registry.Grows.refl _, [], (List.append_nil _).symm⟩
    exact t'.rebindable _ ⟨hsettles.orderly.sound, hsettles.orderly.distinct⟩
      (hsettles.settled.grows hgrows)
  refine ⟨hsettles.pass, ?_, fun q => ?_⟩
  · obtain ⟨reg', hrebinding⟩ := hpasses ctx'.pass
    have hnamed := hsettles.named
    rw [← hsettles.pass] at hnamed
    obtain rfl := hrebinding.gains.eq_of_named hnamed
    exact hrebinding.bindAll_eq
  · obtain ⟨reg', hrebinding⟩ := hpasses q
    have hgains : Registry.Gains q t'.references ctx'.registry reg' := hrebinding.gains
    exact ⟨reg', hrebinding.bindAll_eq, hgains, hrebinding.named,
      fun s => ⟨hgains.term_key s, hgains.term_shortKey s, fun p hp => hgains.term_code hp s⟩,
      hgains.argument_name⟩

/-- `x = dot(dot(x, y) * x, y) * x`, in which the outer inner product has a temporary from
elsewhere. -/
def borrowedTree : Term :=
  let x : Term := .leaf (.ofHandle (.buffer 0) .float (.vector .whole))
  let y : Term := .leaf (.ofHandle (.buffer 1) .float (.vector ⟨1, 2⟩))
  let cell : Argument := ⟨.temporary 7, .float, .deviceScalar, some 3⟩
  .binary .assign x (.binary .mul (.inner (.binary .mul (.inner x y none none) x) y
    (some 0) (some cell)) x)

theorem rebinding_adds_names_only_borrowed :
    ∃ t' ctx' reg', (Context.empty.withPass 2).Reached ∧
      borrowedTree.bindAll (Context.empty.withPass 2) = .ok (t', ctx') ∧
      (ctx'.registry.records.map (·.handle), ctx'.temporaries.count) =
        ([.buffer 0, .buffer 1, .temporary 0, .temporary 7], 2) ∧
      t'.bindAll ctx' = .ok (t', ctx') ∧ t'.bindAll (ctx'.withPass 5) = .ok (t',
        ⟨reg', ctx'.temporaries, 5⟩) ∧
      Registry.Gains 5 t'.references ctx'.registry reg' ∧ t'.key reg' = t'.key ctx'.registry ∧
      t'.code reg' 2 = t'.code ctx'.registry 2 := by
  have hreached : (Context.empty.withPass 2).Reached := Context.Reached.empty.call (.setPass 2)
  obtain ⟨⟨t', ctx'⟩, hbind, hvalues⟩ := Outcome.exists_ok_of_any
    (x := borrowedTree.bindAll (Context.empty.withPass 2))
    (p := fun bound => bound.2.registry.records.map (·.handle) =
      [.buffer 0, .buffer 1, .temporary 0, .temporary 7] && bound.2.temporaries.count = 2)
        (by decide +kernel)
  simp only [Bool.and_eq_true, decide_eq_true_eq] at hvalues
  obtain ⟨-, hagain, hother⟩ := rebinding_adds_names_only hreached hbind
  obtain ⟨reg', hpass, hgains, -, htexts, -⟩ := hother 5
  exact ⟨t', ctx', reg', hreached, hbind, Prod.ext hvalues.1 hvalues.2, hagain, hpass, hgains,
    (htexts t').1, (htexts t').2.2 2 (by decide)⟩

end LinearKernels
