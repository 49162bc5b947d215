import LinearKernels.Proofs.RenamedBodies

/-!
The order of kernel parameters. Parameters come in the order of their handles, that is, of
the declarations, while records are numbered in the order of first use. Two plans that are
the same up to a renaming of handles have the same parameters in every kernel, perhaps in
another order. If the order is the same, so is the whole kernel; and the texts of the
parameters tell their order.
-/

namespace LinearKernels

/-! ### Buffers and their arguments -/

theorem Registry.Widened.sound {args : List Argument} {reg reg' : Registry}
    (h : reg.Widened args reg') (hs : reg.Sound) : reg'.Sound := by
  refine hs.of_origin fun i r' hr' => ?_
  rcases h i with ⟨-, hnone⟩ | ⟨r, x, hr, hsome, -⟩
  · rw [hnone] at hr'
    cases hr'
  · obtain rfl := Option.some.inj (hsome.symm.trans hr')
    exact ⟨r, hr, rfl, rfl⟩

theorem Plan.Built.registry_sound {env : Declarations} {statements : List Statement} {plan : Plan}
    {d : Draft} (h : plan.Built env statements d) : plan.registry.Sound := by
  obtain ⟨alignment, hwiden⟩ := h.widened
  obtain ⟨-, -, hwidened⟩ := widened_of_widen hwiden
  exact hwidened.sound h.sound

namespace Argument

variable {env : Declarations} {reg : Registry} {a b : Argument}

/-- A record has one argument in a plan. -/
theorem PlacedIn.eq_of_record_eq (ha : a.PlacedIn env reg) (hb : b.PlacedIn env reg)
    (h : a.record = b.record) : a = b := by
  obtain ⟨i, r, hi, hr, hhandle, helement, -⟩ := ha.bound
  obtain ⟨j, s, hj, hs, hhandle', helement', -⟩ := hb.bound
  obtain rfl : i = j := Option.some.inj (hi.symm.trans (h.trans hj))
  obtain rfl : r = s := Option.some.inj (hr.symm.trans hs)
  have hsame : a.handle = b.handle := hhandle.symm.trans hhandle'
  have hstorage : a.storage = b.storage := by rw [ha.stored, hb.stored, hsame]
  cases a
  cases b
  simp_all

theorem PlacedIn.eq_of_handle_eq (hs : reg.Sound) (ha : a.PlacedIn env reg)
    (hb : b.PlacedIn env reg) (h : a.handle = b.handle) : a = b :=
  ha.eq_of_record_eq hb (ha.bound.record_eq hs hb.bound h)

/-! ### Reading a parameter -/

theorem not_mem_elementName (e : ElementType) : 'r' ∉ e.name.toList := by
  cases e <;> decide

theorem not_mem_elementText (r : Record) : 'r' ∉ r.elementText.toList := by
  rw [Record.elementText, Alignment.vectorType]
  split
  · exact not_mem_elementName r.element
  · rw [String.toList_append, List.mem_append]
    rintro (h | h)
    · exact not_mem_elementName r.element h
    · exact absurd (isDigit_of_mem_decimal h) (by decide)

/-- The number of a parameter's record stands in its text, behind the first `r`. -/
theorem BoundIn.declaration_text (hs : reg.Sound) (ha : a.BoundIn reg) {text : String}
    (h : a.declaration reg = .ok text) :
    ∃ (i : Nat) (before after : List Char), a.record = some i ∧
      text.toList = before ++ 'r' :: 'g' :: ((decimal i).toList ++ after) ∧ 'r' ∉ before ∧
      StopsNumeral after := by
  obtain ⟨i, r, hi, hr, -⟩ := ha
  have hinfo : a.info reg = .ok r := by simp [info, id, hi, Registry.get, hr]
  have hid : r.id = i := hs.numbered i r hr
  rw [declaration, hinfo] at h
  obtain rfl := Except.ok.inj h
  cases a.storage with
  | hostScalar =>
    refine ⟨i, a.element.name.toList ++ [' ', 'a'], [], hi, ?_, ?_, fun c hc => by cases hc⟩
    · simp [Record.name, hid]
    · simp [not_mem_elementName]
  | deviceScalar =>
    refine ⟨i, "__global ".toList ++ a.element.name.toList ++ ['*', ' ', 'a'], [], hi, ?_, ?_,
      fun c hc => by cases hc⟩
    · simp [Record.name, hid]
    · simp [not_mem_elementName]
  | vector v =>
    refine ⟨i, "__global ".toList ++ r.elementText.toList ++ ['*', ' ', 'a'],
      (", unsigned int " ++ vectorSize r.name).toList, hi, ?_, ?_, ?_⟩
    · simp [Record.name, hid]
    · simp [not_mem_elementText]
    · rw [String.toList_append]
      exact stopsNumeral_cons (by decide)
  | matrix l =>
    refine ⟨i, "__global ".toList ++ r.elementText.toList ++ ['*', ' ', 'a'],
      (String.join ((matrixParameters r.name).map (", unsigned int " ++ ·))).toList, hi,
      ?_, ?_, ?_⟩
    · simp [Record.name, hid]
    · simp [not_mem_elementText]
    · simp only [matrixParameters, List.map_cons, String.join_cons, String.toList_append,
        List.append_assoc]
      exact stopsNumeral_cons (by decide)

/-- A text stands for one record. -/
theorem PlacedIn.eq_of_declaration_eq (hs : reg.Sound) (ha : a.PlacedIn env reg)
    (hb : b.PlacedIn env reg) {text : String} (h : a.declaration reg = .ok text)
    (h' : b.declaration reg = .ok text) : a = b := by
  obtain ⟨i, before, after, hi, htext, hbefore, hafter⟩ := ha.bound.declaration_text hs h
  obtain ⟨j, before', after', hj, htext', hbefore', hafter'⟩ := hb.bound.declaration_text hs h'
  have hdrop : ∀ {xs ys : List Char}, 'r' ∉ xs →
      (xs ++ 'r' :: ys).dropWhile (· ≠ 'r') = 'r' :: ys := by
    intro xs ys hxs
    rw [List.dropWhile_append_of_pos]
    · rfl
    · intro c hc
      exact decide_eq_true fun heq => hxs (heq ▸ hc)
  -- No type name has an `r`, so both texts go on alike from the `r` of the parameter name.
  have hrest := congrArg (List.dropWhile (· ≠ 'r')) (htext.symm.trans htext')
  rw [hdrop hbefore, hdrop hbefore'] at hrest
  obtain ⟨hnumber, -⟩ :=
    decimal_append_cancel hafter hafter' (List.cons.inj (List.cons.inj hrest).2).2
  exact ha.eq_of_record_eq hb (by rw [hi, hj, hnumber])

theorem rename_inj {f : Renaming} (h : a.rename f = b.rename f) : a = b := by
  obtain ⟨hhandle, helement, hstorage, hrecord⟩ := Argument.mk.inj h
  cases a
  cases b
  simp_all [Handle.rename_inj]

end Argument

/-! ### Parameters of a pass -/

namespace Plan

/-- The sources of a plan with other handles. -/
def renameSources (f : Renaming) (sources : List Term × List Term) : List Term × List Term :=
  (sources.1.map (·.rename f), sources.2.map (·.rename f))

/-- All arguments that a pass meets in its sources. -/
def sourceArguments (sources : List Term × List Term) : List Argument :=
  sources.1.flatMap (·.arguments) ++ sources.2.filterMap Term.argument?

theorem sourceArguments_rename (f : Renaming) (sources : List Term × List Term) :
    sourceArguments (renameSources f sources) = (sourceArguments sources).map (·.rename f) := by
  simp only [sourceArguments, renameSources, List.map_append, List.map_flatMap, List.flatMap_map,
    List.filterMap_map, List.map_filterMap]
  congr 1
  · exact congrArg (fun g => sources.1.flatMap g) (funext fun t => t.arguments_rename)
  · exact congrArg (fun g => sources.2.filterMap g) (funext fun t => t.argument?_rename)

theorem Renames.sources_eq {f : Renaming} {plan plan' : Plan}
    (hr : plan.Renames f plan') (pass : Pass) :
    plan'.sources pass = renameSources f <$> plan.sources pass := by
  have htrees : ∀ ss : List Nat, ss.mapM plan'.tree =
      List.map (·.rename f) <$> ss.mapM plan.tree := by
    intro ss
    induction ss with
    | nil => rfl
    | cons s ss ih =>
      rw [List.mapM_cons, List.mapM_cons, hr.tree_eq, ih]
      cases plan.tree s with
      | error e => rfl
      | ok t => cases ss.mapM plan.tree <;> rfl
  unfold sources
  split
  · rw [hr.reduced?_eq]
    cases plan.reduced? pass with
    | none => rfl
    | some node =>
      simp only [Option.map_some, Term.operands?_rename]
      cases node.operands? <;> rfl
  · rw [htrees]
    cases pass.statements.mapM plan.tree <;> rfl

section Takes

variable {env : Declarations} {plan : Plan} {sources : List Term × List Term}

theorem Takes.sourceArguments_placed (h : plan.Takes env sources) :
    ∀ a ∈ sourceArguments sources, a.PlacedIn env plan.registry := by
  intro a ha
  rcases List.mem_append.mp ha with ha | ha
  · obtain ⟨t, ht, ha⟩ := List.mem_flatMap.mp ha
    exact h.walks t ht a ha
  · obtain ⟨t, ht, ha⟩ := List.mem_filterMap.mp ha
    obtain ⟨b, hb, hplaced⟩ := h.besides t ht
    obtain rfl := Option.some.inj (ha.symm.trans hb)
    exact hplaced

theorem Takes.inserted_handle (h : plan.Takes env sources) :
    ∀ t ∈ sources.1.flatMap (·.argumentSet.terms) ++ sources.2, ∃ k, t.handle? = some k := by
  intro t ht
  rcases List.mem_append.mp ht with ht | ht
  · obtain ⟨s, -, ht⟩ := List.mem_flatMap.mp ht
    exact (Term.sorted_extract _ s).arguments t ht
  · obtain ⟨a, ha, -⟩ := h.besides t ht
    exact ⟨a.handle, by rw [Term.handle?, ha]; rfl⟩

theorem Takes.sorted (h : plan.Takes env sources) : (parameterSet sources).Sorted :=
  TermSet.sorted_empty.insertAll h.inserted_handle

/-- The handles of the parameters are those of the arguments in the sources. -/
theorem Takes.mem_handles_iff (h : plan.Takes env sources) {k : Handle} :
    k ∈ (parameterSet sources).handles ↔ k ∈ (sourceArguments sources).map (·.handle) := by
  have hwalk : ∀ t : Term, k ∈ t.argumentSet.terms.filterMap Term.handle? ↔
      k ∈ t.arguments.map (·.handle) := by
    intro t
    have := Term.mem_handles_argumentSet (t := t) (k := k)
    rw [TermSet.handles] at this
    rw [this, Term.handles, Term.arguments, List.map_filterMap]
    rfl
  rw [parameterSet, TermSet.sorted_empty.mem_handles_insertAll h.inserted_handle]
  simp only [TermSet.handles, TermSet.empty, List.filterMap_nil, List.not_mem_nil, false_or,
    List.filterMap_append, List.mem_append, List.filterMap_flatMap, List.mem_flatMap, hwalk,
    sourceArguments, List.map_append, List.map_flatMap, List.map_filterMap]
  rfl

/-- The arguments that a pass takes, in the order of its parameters. -/
def parameterArguments (sources : List Term × List Term) : List Argument :=
  (parameterSet sources).terms.filterMap Term.argument?

/-- The record numbers of the parameters of a pass. The parameters come in the order of their
handles, and the numbers were given in the order of first use. -/
def parameterOrder (plan : Plan) (pass : Pass) : Except Fault (List Nat) := do
  let set ← plan.arguments pass
  set.terms.mapM fun t => do (← orUnbound t.argument?).id

theorem handles_parameterSet (sources : List Term × List Term) :
    (parameterSet sources).handles = (parameterArguments sources).map (·.handle) := by
  rw [TermSet.handles, parameterArguments, List.map_filterMap]
  rfl

theorem Takes.parameterArguments_placed (h : plan.Takes env sources) :
    ∀ a ∈ parameterArguments sources, a.PlacedIn env plan.registry := by
  intro a ha
  obtain ⟨t, ht, ha⟩ := List.mem_filterMap.mp ha
  obtain ⟨b, hb, hplaced⟩ := h.placed t ht
  obtain rfl := Option.some.inj (ha.symm.trans hb)
  exact hplaced

theorem Takes.nodup (h : plan.Takes env sources) : (parameterArguments sources).Nodup := by
  have hnodup := h.sorted.nodup_handles
  rw [handles_parameterSet] at hnodup
  exact List.Pairwise.of_map (·.handle) (fun _ _ hne heq => hne (congrArg (·.handle) heq)) hnodup

theorem Takes.mem_parameterArguments (h : plan.Takes env sources)
    (hs : plan.registry.Sound) {a : Argument} :
    a ∈ parameterArguments sources ↔ a ∈ sourceArguments sources := by
  have hhandles := fun k => h.mem_handles_iff (k := k)
  rw [handles_parameterSet] at hhandles
  constructor
  · intro ha
    obtain ⟨b, hb, heq⟩ := List.mem_map.mp ((hhandles _).mp (List.mem_map_of_mem ha))
    obtain rfl :=
      (h.sourceArguments_placed b hb).eq_of_handle_eq hs (h.parameterArguments_placed a ha) heq
    exact hb
  · intro ha
    obtain ⟨b, hb, heq⟩ := List.mem_map.mp ((hhandles _).mpr (List.mem_map_of_mem ha))
    obtain rfl :=
      (h.parameterArguments_placed b hb).eq_of_handle_eq hs (h.sourceArguments_placed a ha) heq
    exact hb

theorem Takes.mapM_eq {β : Type} (h : plan.Takes env sources) (g : Argument → Except Fault β) :
    (parameterSet sources).terms.mapM (fun t => orUnbound t.argument? >>= g) =
      (parameterArguments sources).mapM g := by
  have hterms : ∀ ts : List Term, (∀ t ∈ ts, ∃ a, t.argument? = some a) →
      ts.mapM (fun t => orUnbound t.argument? >>= g) = (ts.filterMap Term.argument?).mapM g := by
    intro ts hts
    induction ts with
    | nil => rfl
    | cons t ts ih =>
      obtain ⟨a, ha⟩ := hts t (List.mem_cons_self ..)
      rw [List.filterMap_cons_some ha, List.mapM_cons, List.mapM_cons, ha,
        ih fun t ht => hts t (List.mem_cons_of_mem _ ht)]
      rfl
  exact hterms _ fun t ht => (h.placed t ht).imp fun _ => And.left

theorem Takes.parameters_eq (h : plan.Takes env sources) {pass : Pass}
    (hsources : plan.sources pass = .ok sources) :
    plan.parameters pass = (parameterArguments sources).mapM (·.declaration plan.registry) := by
  rw [parameters, arguments_eq, hsources]
  exact h.mapM_eq _

theorem Takes.parameterOrder_eq (h : plan.Takes env sources) {pass : Pass}
    (hsources : plan.sources pass = .ok sources) :
    plan.parameterOrder pass = (parameterArguments sources).mapM (·.id) := by
  rw [parameterOrder, arguments_eq, hsources]
  exact h.mapM_eq _

end Takes

end Plan

/-! ### Two plans -/

/-- The kernels are launched alike, with the same arguments in perhaps another order. -/
structure Kernel.Reorders (k k' : Kernel) : Prop where
  name : k.name = k'.name
  kind : k.kind = k'.kind
  dimensions : k.dimensions = k'.dimensions
  localSize : k.localSize = k'.localSize
  arguments : k.arguments.Perm k'.arguments

namespace Plan

theorem kernel_eq_ok {plan : Plan} {name : String} {localSize : Nat} {pass : Pass}
    {k : Kernel × List String} (h : plan.kernel name localSize pass = .ok k) :
    ∃ ps code, plan.parameters pass = .ok ps ∧ plan.body localSize pass = .ok code ∧
      k = (⟨kernelName name pass, pass.kind, ps, pass.kind.dimensions,
          if pass.kind = .reduction then some localSize else none⟩,
        kernelLines (kernelName name pass) ps code) := by
  obtain ⟨ps, hps, h⟩ := Outcome.bind_eq_ok_iff.mp h
  obtain ⟨code, hcode, h⟩ := Outcome.bind_eq_ok_iff.mp h
  exact ⟨ps, code, hps, hcode, (Except.ok.inj h).symm⟩

section Order

variable {env env' : Declarations} {plan plan' : Plan} {f : Renaming}
  {sources : List Term × List Term}

/-- A pass of two plans that differ by a renaming. -/
structure Compares (env env' : Declarations) (f : Renaming) (plan plan' : Plan) (pass : Pass)
    (sources : List Term × List Term) : Prop where
  renames : plan.Renames f plan'
  meets : plan.sources pass = .ok sources
  takes : plan.Takes env sources
  takes' : plan'.Takes env' (renameSources f sources)
  sound : plan.registry.Sound
  sound' : plan'.registry.Sound

namespace Compares

variable {pass : Pass} (h : Compares env env' f plan plan' pass sources)

include h

theorem meets' : plan'.sources pass = .ok (renameSources f sources) := by
  rw [h.renames.sources_eq, h.meets]
  rfl

/-- The same arguments are parameters of both plans. -/
theorem arguments_perm :
    (parameterArguments (renameSources f sources)).Perm
      ((parameterArguments sources).map (·.rename f)) := by
  have hnodup : ((parameterArguments sources).map (·.rename f)).Nodup :=
    List.Pairwise.map _ (fun a b hne heq => hne (Argument.rename_inj heq)) h.takes.nodup
  rw [List.perm_ext_iff_of_nodup h.takes'.nodup hnodup]
  intro a
  rw [h.takes'.mem_parameterArguments h.sound', sourceArguments_rename]
  simp only [List.mem_map, h.takes.mem_parameterArguments h.sound]

/-- Whatever tells arguments apart tells their order. -/
theorem mapM_eq_iff {β : Type} {g g' : Argument → Except Fault β}
    (hg : ∀ a, g' (a.rename f) = g a)
    (hok : ∀ a : Argument, a.PlacedIn env' plan'.registry → ∃ z, g' a = .ok z)
    (hinj : ∀ a b : Argument, a.PlacedIn env' plan'.registry → b.PlacedIn env' plan'.registry →
      ∀ z, g' a = .ok z → g' b = .ok z → a = b) :
    (parameterArguments (renameSources f sources)).mapM g' = (parameterArguments sources).mapM g ↔
      parameterArguments (renameSources f sources) =
        (parameterArguments sources).map (·.rename f) := by
  have hplaced := h.takes'.parameterArguments_placed
  have hrename : (parameterArguments sources).mapM g =
      ((parameterArguments sources).map (·.rename f)).mapM g' := by
    rw [List.mapM_map]
    exact congrArg ((parameterArguments sources).mapM ·) (funext fun a => (hg a).symm)
  rw [hrename]
  constructor
  · intro heq
    obtain ⟨zs, hzs⟩ := Outcome.mapM_ok fun a ha => hok a (hplaced a ha)
    exact Outcome.eq_of_mapM_eq hzs (heq.symm.trans hzs) fun a ha b hb =>
      hinj a b (hplaced a ha) (hplaced b (h.arguments_perm.mem_iff.mpr hb))
  · exact congrArg _

theorem parameterOrder_eq_iff : plan'.parameterOrder pass = plan.parameterOrder pass ↔
    parameterArguments (renameSources f sources) =
      (parameterArguments sources).map (·.rename f) := by
  rw [h.takes.parameterOrder_eq h.meets, h.takes'.parameterOrder_eq h.meets']
  refine h.mapM_eq_iff (fun a => rfl) (fun a ha => ?_) fun a b ha hb z hz hz' => ?_
  · obtain ⟨i, r, hi, -⟩ := ha.bound
    exact ⟨i, by rw [Argument.id, hi]⟩
  · have hid : ∀ c : Argument, c.id = .ok z → c.record = some z := by
      intro c hc
      unfold Argument.id at hc
      split at hc
      · next n hn => rw [hn, Except.ok.inj hc]
      · cases hc
    exact ha.eq_of_record_eq hb ((hid a hz).trans (hid b hz').symm)

theorem parameters_eq_iff : plan'.parameters pass = plan.parameters pass ↔
    parameterArguments (renameSources f sources) =
      (parameterArguments sources).map (·.rename f) := by
  rw [h.takes.parameters_eq h.meets, h.takes'.parameters_eq h.meets']
  refine h.mapM_eq_iff (fun a => ?_) (fun a ha => ha.bound.declaration_ok)
    fun a b ha hb z hz hz' => ha.eq_of_declaration_eq h.sound' hb hz hz'
  rw [h.renames.registry]
  exact a.declaration_rename plan.registry

/-- The texts of the parameters are the same up to their order. -/
theorem parameters_perm {ps ps' : List String} (hps : plan.parameters pass = .ok ps)
    (hps' : plan'.parameters pass = .ok ps') : ps'.Perm ps := by
  rw [h.takes.parameters_eq h.meets] at hps
  rw [h.takes'.parameters_eq h.meets'] at hps'
  refine Outcome.perm_of_mapM h.arguments_perm hps' ?_
  rw [List.mapM_map, ← hps, h.renames.registry]
  exact congrArg ((parameterArguments sources).mapM ·)
    (funext fun a => a.declaration_rename plan.registry)

theorem keepsOrder
    (heq : parameterArguments (renameSources f sources) =
      (parameterArguments sources).map (·.rename f)) :
    f.KeepsOrder ((sourceArguments sources).map (·.handle)) := by
  have hascend := h.takes.sorted.handles_ascend
  have hascend' := h.takes'.sorted.handles_ascend
  rw [handles_parameterSet] at hascend hascend'
  rw [heq, List.map_map] at hascend'
  have hkeeps : f.KeepsOrder ((parameterArguments sources).map (·.handle)) := by
    refine Renaming.keepsOrder_of_ascend hascend ?_
    rw [List.map_map]
    exact hascend'
  refine hkeeps.mono fun k hk => ?_
  obtain ⟨a, ha, rfl⟩ := List.mem_map.mp hk
  exact List.mem_map_of_mem ((h.takes.mem_parameterArguments h.sound).mpr ha)

/-- Parameters in the same order make the same kernel. -/
theorem kernel_eq (name : String) (localSize : Nat)
    (horder : plan'.parameterOrder pass = plan.parameterOrder pass) :
    plan'.kernel name localSize pass = plan.kernel name localSize pass := by
  have heq := h.parameterOrder_eq_iff.mp horder
  have hbody : plan'.body localSize pass = plan.body localSize pass := by
    -- The arguments of the left operand are parameters, so their order is kept too.
    refine h.renames.body_eq localSize pass fun hkind lhs rhs computed temporary hreduced => ?_
    have hmeets := h.meets
    simp only [Plan.sources, hkind, if_true, hreduced, Term.operands?, Outcome.pure_eq_ok,
      Except.ok.injEq] at hmeets
    refine (h.keepsOrder heq).mono fun k hk => ?_
    rw [← hmeets, sourceArguments, List.map_append]
    refine List.mem_append_left _ ?_
    rw [List.map_flatMap]
    refine List.mem_flatMap.mpr ⟨lhs, List.mem_cons_self .., ?_⟩
    rw [Term.arguments, List.map_filterMap]
    exact hk
  rw [kernel, kernel, h.parameters_eq_iff.mpr heq, hbody]

/-- Two kernels of a pass differ in the order of parameters only, and a common order can be
read off their texts. -/
theorem kernel_reorders {name : String} {localSize : Nat} {k k' : Kernel × List String}
    (hk : plan.kernel name localSize pass = .ok k)
    (hk' : plan'.kernel name localSize pass = .ok k') :
    k'.1.Reorders k.1 ∧ (k'.1 = k.1 → plan'.parameterOrder pass = plan.parameterOrder pass) := by
  obtain ⟨ps, code, hps, -, rfl⟩ := kernel_eq_ok hk
  obtain ⟨ps', code', hps', -, rfl⟩ := kernel_eq_ok hk'
  refine ⟨⟨rfl, rfl, rfl, rfl, h.parameters_perm hps hps'⟩, fun heq => ?_⟩
  have htexts : ps' = ps := congrArg Kernel.arguments heq
  exact h.parameterOrder_eq_iff.mpr (h.parameters_eq_iff.mp (by rw [hps, hps', htexts]))

end Compares

end Order

/-! ### Listings and programs -/

theorem emit_eq_ok {plan : Plan} {name : String} {settings : Settings} {listing : Listing}
    (h : plan.emit name settings = .ok listing) :
    ∃ ks, plan.passes.mapM (plan.kernel name settings.localSize) = .ok ks ∧
      listing = ⟨String.join ((plan.preamble name ++ ks.flatMap (·.2)).map (· ++ "\n")),
        ks.map (·.1)⟩ := by
  obtain ⟨_, -, h⟩ := Outcome.bind_eq_ok_iff.mp h
  obtain ⟨ks, hks, h⟩ := Outcome.bind_eq_ok_iff.mp h
  exact ⟨ks, hks, (Except.ok.inj h).symm⟩

theorem toProgram_eq_ok {plan : Plan} {settings : Settings} {name : String} {program : Program}
    (h : plan.toProgram settings name = .ok program) :
    ∃ listing keys shortKeys, plan.emit name settings = .ok listing ∧ plan.keys = .ok keys ∧
      plan.shortKeys = .ok shortKeys ∧ program.name = name ∧ program.key = ";".intercalate keys ∧
      program.shortKey = ";".intercalate shortKeys ∧ program.source = listing.source ∧
      program.kernels = listing.kernels := by
  cases hemit : plan.emit name settings with
  | error e =>
    rw [toProgram, hemit] at h
    cases h
  | ok listing =>
    cases hkeys : plan.keys with
    | error e =>
      rw [toProgram, hemit, hkeys] at h
      cases h
    | ok keys =>
      cases hshort : plan.shortKeys with
      | error e =>
        rw [toProgram, hemit, hkeys, hshort] at h
        cases h
      | ok shortKeys =>
        rw [toProgram, hemit, hkeys, hshort] at h
        obtain rfl := Except.ok.inj h
        exact ⟨listing, keys, shortKeys, rfl, rfl, rfl, rfl, rfl, rfl, rfl, rfl⟩

section Programs

variable {env env' : Declarations} {statements statements' : List Statement} {plan plan' : Plan}
  {d d' : Draft} {f : Renaming}

theorem Renames.compares (hr : plan.Renames f plan') (h : plan.Built env statements d)
    (h' : plan'.Built env' statements' d') {pass : Pass} (hp : pass ∈ plan.passes) :
    ∃ sources, Compares env env' f plan plan' pass sources := by
  obtain ⟨sources, hsources, htakes⟩ := h.sources_ok hp
  obtain ⟨sources', hsources', htakes'⟩ := h'.sources_ok (hr.passes ▸ hp)
  rw [hr.sources_eq, hsources] at hsources'
  obtain rfl : renameSources f sources = sources' := Except.ok.inj hsources'
  exact ⟨sources, hr, hsources, htakes, htakes', h.registry_sound, h'.registry_sound⟩

theorem Renames.preamble_eq (hr : plan.Renames f plan') (name : String) :
    plan'.preamble name = plan.preamble name := by
  have hdouble : plan'.usesDouble = plan.usesDouble := by
    rw [usesDouble, usesDouble, hr.registry, Registry.usesDouble, Registry.usesDouble,
      Registry.rename, List.any_map]
    rfl
  rw [preamble, preamble, hr.passes, hdouble]

/-- Listings of two plans differ in the order of parameters only, and are the same exactly if
the order is. -/
theorem Renames.emit_reorders (hr : plan.Renames f plan') (h : plan.Built env statements d)
    (h' : plan'.Built env' statements' d') {name : String} {settings settings' : Settings}
    (hlocal : settings'.localSize = settings.localSize) {listing listing' : Listing}
    (he : plan.emit name settings = .ok listing)
    (he' : plan'.emit name settings' = .ok listing') :
    listing'.kernels.length = listing.kernels.length ∧
      (∀ p ∈ listing'.kernels.zip listing.kernels, p.1.Reorders p.2) ∧
      (listing'.source = listing.source ∧ listing'.kernels = listing.kernels ↔
        ∀ pass ∈ plan.passes, plan'.parameterOrder pass = plan.parameterOrder pass) := by
  obtain ⟨ks, hks, rfl⟩ := emit_eq_ok he
  obtain ⟨ks', hks', rfl⟩ := emit_eq_ok he'
  rw [hr.passes, hlocal] at hks'
  obtain ⟨hlength, hpair, hentry⟩ := Outcome.mapM_zip hks' hks
  refine ⟨by simpa using hlength, fun p hp => ?_, fun ⟨_, heq⟩ pass hp => ?_, fun horder => ?_⟩
  · rw [List.zip_map] at hp
    obtain ⟨⟨k', k⟩, hk, rfl⟩ := List.mem_map.mp hp
    obtain ⟨pass, hp, hk', hk⟩ := hpair _ hk
    obtain ⟨sources, hc⟩ := hr.compares h h' hp
    exact (hc.kernel_reorders hk hk').1
  · obtain ⟨⟨k', k⟩, hzip, hk', hk⟩ := hentry pass hp
    obtain ⟨sources, hc⟩ := hr.compares h h' hp
    refine (hc.kernel_reorders hk hk').2 ?_
    have hmem : (k'.1, k.1) ∈ (ks'.map (·.1)).zip (ks.map (·.1)) := by
      rw [List.zip_map]
      exact List.mem_map_of_mem hzip
    change ks'.map (·.1) = ks.map (·.1) at heq
    rw [heq, List.zip_eq_zipWith, List.zipWith_self] at hmem
    obtain ⟨k₀, -, hk₀⟩ := List.mem_map.mp hmem
    exact (Prod.mk.inj hk₀).1.symm.trans (Prod.mk.inj hk₀).2
  · have hkernels : ks' = ks := by
      have hsame : plan.passes.mapM (plan'.kernel name settings.localSize) =
          plan.passes.mapM (plan.kernel name settings.localSize) := by
        refine Outcome.mapM_congr fun pass hp => ?_
        obtain ⟨sources, hc⟩ := hr.compares h h' hp
        exact hc.kernel_eq name settings.localSize (horder pass hp)
      exact Except.ok.inj (hks'.symm.trans (hsame.trans hks))
    rw [hkernels, hr.preamble_eq]
    exact ⟨rfl, rfl⟩

end Programs

end Plan

end LinearKernels
