import LinearKernels.Proofs.CacheRuns
import LinearKernels.Proofs.KernelText
import LinearKernels.Proofs.NeededReductions

/-!
Double precision. A device is asked before planning, and then looks at the leaves of the
statements as they were written. A plan looks at its records, which are those of the leaves and
of the temporaries. A temporary has the element type of its inner product, and an inner product
that of its leaves; so both find a double exactly if some statement has one among its leaves.
-/

namespace LinearKernels

namespace Term

/-- A term has a leaf of its own element type. -/
theorem exists_leaf_element (t : Term) : ∃ a ∈ t.leaves, a.element = t.element := by
  induction t with
  | leaf arg => exact ⟨arg, List.mem_singleton_self arg, rfl⟩
  | unary op sub ih => exact ih
  | binary op lhs rhs ihl _ | matMat lhs rhs ihl _ | matVec lhs rhs ihl _
    | inner lhs rhs computed temporary ihl _ =>
    obtain ⟨a, ha, helement⟩ := ihl
    exact ⟨a, List.mem_append_left _ ha, helement⟩

/-- All inner products of a well-typed term have its element type. -/
theorem WellTyped.element_innerProducts {t : Term} (h : t.WellTyped) :
    ∀ m ∈ t.innerProducts, m.element = t.element := by
  induction t with
  | leaf arg => exact fun m hm => by cases hm
  | unary op sub ih => exact ih h.1
  | binary op lhs rhs ihl ihr =>
    exact List.forall_mem_append.mpr
      ⟨ihl h.1, fun m hm => (ihr h.2.1 m hm).trans h.2.2.1.symm⟩
  | matMat lhs rhs ihl ihr | matVec lhs rhs ihl ihr =>
    exact List.forall_mem_append.mpr
      ⟨ihl h.1, fun m hm => (ihr h.2.1 m hm).trans h.2.2.2.2.symm⟩
  | inner lhs rhs computed temporary ihl ihr =>
    refine List.forall_mem_append.mpr ⟨List.forall_mem_append.mpr
      ⟨ihl h.1, fun m hm => (ihr h.2.1 m hm).trans h.2.2.2.2.symm⟩, fun m hm => ?_⟩
    rw [List.mem_singleton.mp hm]

end Term

/-- Some leaf of the statement is a double. -/
def Statement.usesDouble (s : Statement) : Bool :=
  s.tree.leaves.any (·.element.needsDouble)

theorem Statement.usesDouble_iff {s : Statement} :
    s.usesDouble = true ↔ ∃ a ∈ s.tree.leaves, a.element = .double := by
  simp [usesDouble, ElementType.needsDouble]

theorem Statement.Lawful.bare {env : Declarations} {s : Statement} (h : s.Lawful env) :
    s.tree.erase = s.tree := by
  obtain ⟨op, target, value, hassigns⟩ := h
  rw [hassigns.eq, Term.erase, hassigns.target_admitted.bare, hassigns.value_admitted.bare]

/-! ### Devices -/

namespace Device

/-- What a device without double precision says about a statement with a double. -/
def doubleComplaint (device : Device) (s : Statement) : Diagnostic :=
  (Diagnostic.error ("device '" ++ device.name ++ "' does not support double") s.span).withHelp
    "use float, or target a device with cl_khr_fp64"

variable {device : Device}

theorem complaint?_eq (hdevice : device.supportsDouble = false) {s : Statement}
    (hbare : s.tree.erase = s.tree) :
    device.complaint? s = if s.usesDouble then some (device.doubleComplaint s) else none := by
  have hsupports : (fun a : Argument => !device.supports a.element) = fun a =>
      a.element.needsDouble := by
    funext a
    simp [supports, hdevice]
  rw [complaint?, Term.arguments_of_bare hbare, hsupports, Statement.usesDouble]
  cases hfound : s.tree.leaves.find? (·.element.needsDouble) with
  | none =>
    have hnone : s.tree.leaves.any (·.element.needsDouble) = false := by simpa using hfound
    simp [hnone]
  | some a =>
    have hneeds : a.element.needsDouble = true :=
      List.find?_some (p := fun a : Argument => a.element.needsDouble) hfound
    have hdouble : a.element = .double := by simpa [ElementType.needsDouble] using hneeds
    have hany : s.tree.leaves.any (·.element.needsDouble) = true :=
      List.any_eq_true.mpr ⟨a, List.mem_of_find?_eq_some hfound, hneeds⟩
    have htext : "device '" ++ device.name ++ "' does not support " ++ ElementType.double.name =
        "device '" ++ device.name ++ "' does not support double" := by
      rw [String.append_assoc]
      exact congrArg _ (by decide)
    rw [hany, if_pos rfl, Option.map_some, hdouble, htext]
    rfl

/-- Every statement with a double is complained about once, in order. -/
theorem complaints_eq (hdevice : device.supportsDouble = false) {statements : List Statement}
    (hbare : ∀ s ∈ statements, s.tree.erase = s.tree) :
    statements.filterMap device.complaint? =
      (statements.filter (·.usesDouble)).map device.doubleComplaint := by
  induction statements with
  | nil => rfl
  | cons s rest ih =>
    obtain ⟨hs, hrest⟩ := List.forall_mem_cons.mp hbare
    rw [List.filterMap_cons, complaint?_eq hdevice hs, ih hrest]
    cases hdouble : s.usesDouble <;> simp [hdouble]

theorem accepts_iff (hdevice : device.supportsDouble = false) {statements : List Statement}
    (hbare : ∀ s ∈ statements, s.tree.erase = s.tree) :
    device.check statements = .ok () ↔ ∀ s ∈ statements, s.usesDouble = false := by
  rw [check_eq_ok_iff, List.forall_mem_map]
  refine forall₂_congr fun s hs => ?_
  rw [Term.arguments_of_bare (hbare s hs)]
  simp [Statement.usesDouble, supports, hdevice]

theorem refuses (hdevice : device.supportsDouble = false) {statements : List Statement}
    (hbare : ∀ s ∈ statements, s.tree.erase = s.tree) {s : Statement} (hs : s ∈ statements)
    (hdouble : s.usesDouble = true) :
    device.check statements =
      .error ((statements.filter (·.usesDouble)).map device.doubleComplaint) := by
  rw [check, complaints_eq hdevice hbare]
  split
  · next hnil =>
    have hnone := List.filter_eq_nil_iff.mp (List.map_eq_nil_iff.mp hnil) s hs
    exact absurd hdouble hnone
  · rfl

end Device

/-! ### Plans -/

namespace Plan

variable {env : Declarations} {statements : List Statement} {plan : Plan} {d : Draft}

/-- Every record has the element type of some leaf. -/
theorem Built.record_element (h : plan.Built env statements d) {i : Nat} {r : Record}
    (hr : d.context.registry.records[i]? = some r) :
    ∃ t ∈ plan.statements.map (·.tree), ∃ a ∈ t.leaves, a.element = r.element := by
  cases hhandle : r.handle with
  | buffer k =>
    obtain ⟨t, ht, a, ha, -, hagrees⟩ := h.exists_leaf hr hhandle
    exact ⟨t, ht, a, ha, hagrees.2.1.symm⟩
  | temporary j =>
    obtain ⟨lhs, rhs, key, hcell⟩ := h.reachable.sound.cells i r j hr hhandle
    -- The key of the temporary is that of an inner product of some statement.
    obtain ⟨m, hm, hkey⟩ := h.mem_keys_iff.mp (List.mem_of_getElem? hcell.key_at)
    have hvisited := h.visited hm
    have herase := Term.erase_eq_of_key_eq h.sound hcell.bound hvisited.2.1.leavesBound
      hcell.typed hvisited.1 hcell.key_eq hkey
    obtain ⟨statement, hs, hm⟩ := List.mem_flatMap.mp hm
    have ht := List.mem_map_of_mem (f := (·.tree)) hs
    obtain ⟨a, ha, helement⟩ := statement.tree.exists_leaf_element
    refine ⟨statement.tree, ht, a, ha, ?_⟩
    calc a.element = statement.tree.element := helement
      _ = m.element := ((h.wellTyped statement.tree ht).element_innerProducts m hm).symm
      _ = (Term.inner lhs rhs none none).element := (Term.element_eq_of_erase_eq herase).symm
      _ = r.element := hcell.element.symm

/-- A plan finds a double exactly if a statement has one. -/
theorem Built.usesDouble_iff (h : plan.Built env statements d) :
    plan.usesDouble = true ↔ ∃ s ∈ statements, s.usesDouble = true := by
  have hrecords : plan.usesDouble = true ↔ ∃ r ∈ plan.registry.records, r.element = .double := by
    simp [usesDouble, Registry.usesDouble, ElementType.needsDouble]
  rw [hrecords]
  constructor
  · rintro ⟨r, hr, hdouble⟩
    obtain ⟨i, hi⟩ := List.getElem?_of_mem hr
    obtain ⟨r₀, hr₀, -, hsame⟩ := h.record_origin hi
    obtain ⟨t, ht, a, ha, helement⟩ := h.record_element hr₀
    obtain ⟨s, hs, hwritten⟩ := h.source_leaf ht ha
    refine ⟨s, hs, Statement.usesDouble_iff.mpr ⟨a.erase, hwritten, ?_⟩⟩
    exact (helement.trans hsame).trans hdouble
  · rintro ⟨s, hs, hdouble⟩
    obtain ⟨a, ha, hdouble⟩ := Statement.usesDouble_iff.mp hdouble
    obtain ⟨t, ht, b, hb, rfl⟩ := h.planned_leaf hs ha
    obtain ⟨i, -, -, r, -, -, -, -, hr, -, helement⟩ := h.leaf_record ht hb
    exact ⟨r, List.mem_of_getElem? hr, helement.trans hdouble⟩

end Plan

/-! ### Listings -/

/-- The line after the title of the program text turns double precision on. -/
def EnablesDouble (name : String) (kernels : List Kernel) (source : String) : Prop :=
  ("// " ++ name ++ ": " ++ decimal kernels.length ++ " kernel(s)" ++ "\n" ++
    "#pragma OPENCL EXTENSION cl_khr_fp64 : enable\n").toList <+: source.toList

/-- The text of the kernels is empty, or begins with an empty line. -/
theorem Plan.head_kernelLines {plan : Plan} {name : String} {localSize : Nat} {passes : List Pass}
    {ks : List (Kernel × List String)} (h : passes.mapM (plan.kernel name localSize) = .ok ks) :
    ∀ c ∈ (joinLines (ks.flatMap (·.2))).toList.head?, c = '\n' := by
  intro c hc
  cases passes with
  | nil =>
    obtain rfl := Except.ok.inj h
    simp [joinLines] at hc
  | cons pass passes =>
    obtain ⟨k, rest, hk, -, rfl⟩ := Outcome.mapM_cons_eq_ok h
    obtain ⟨parameters, code, -, -, rfl⟩ := kernel_eq_ok hk
    rw [List.flatMap_cons, kernelLines, List.cons_append, joinLines_cons] at hc
    simpa using hc.symm

theorem Plan.emit_enablesDouble_iff {plan : Plan} {name : String} {settings : Settings}
    {listing : Listing} (h : plan.emit name settings = .ok listing) :
    EnablesDouble name listing.kernels listing.source ↔ plan.usesDouble = true := by
  obtain ⟨ks, hks, rfl⟩ := emit_eq_ok h
  have hlength : (ks.map (·.1)).length = plan.passes.length := by
    rw [List.length_map, Outcome.length_of_mapM hks]
  have hsource : String.join ((plan.preamble name ++ ks.flatMap (·.2)).map (· ++ "\n")) =
      "// " ++ name ++ ": " ++ decimal plan.passes.length ++ " kernel(s)" ++ "\n" ++
        ((if plan.usesDouble then "#pragma OPENCL EXTENSION cl_khr_fp64 : enable\n" else "") ++
          joinLines (ks.flatMap (·.2))) := by
    change joinLines (plan.preamble name ++ ks.flatMap (·.2)) = _
    rw [preamble, List.cons_append, joinLines_cons, joinLines_append]
    cases plan.usesDouble <;> simp [joinLines]
  dsimp only
  rw [EnablesDouble, hlength, hsource,
    String.toList_append (t := "#pragma OPENCL EXTENSION cl_khr_fp64 : enable\n"),
    String.toList_append (t := _ ++ joinLines _), List.prefix_append_right_inj]
  cases hdouble : plan.usesDouble with
  | true =>
    rw [if_pos rfl, String.toList_append]
    exact iff_of_true (List.prefix_append ..) rfl
  | false =>
    refine iff_of_false (fun hpragma => ?_) Bool.false_ne_true
    rw [if_neg Bool.false_ne_true, String.empty_append] at hpragma
    obtain ⟨rest, hrest⟩ := hpragma
    have hhead := head_kernelLines hks '#' (by rw [← hrest]; rfl)
    revert hhead
    decide

/-! ### Both checks -/

/-- What a device without double precision says of statements, against what their plan says of
itself. -/
structure Plan.ChecksDouble (device : Device) (statements : List Statement)
    (plan : Plan) : Prop where
  accepted_iff : device.check statements = .ok () ↔ plan.usesDouble = false
  refused : plan.usesDouble = true → device.check statements =
    .error ((statements.filter (·.usesDouble)).map device.doubleComplaint)
  emitted : ∀ name settings listing, plan.emit name settings = .ok listing →
    (EnablesDouble name listing.kernels listing.source ↔ plan.usesDouble = true)

theorem Plan.Built.checksDouble {env : Declarations} {statements : List Statement}
    {plan : Plan} {d : Draft} (h : plan.Built env statements d) {device : Device}
    (hdevice : device.supportsDouble = false) :
    plan.ChecksDouble device statements := by
  have hbare : ∀ s ∈ statements, s.tree.erase = s.tree := fun s hs => (h.lawful s hs).bare
  refine ⟨?_, fun hdouble => ?_, fun name settings listing hemit => emit_enablesDouble_iff hemit⟩
  · rw [Device.accepts_iff hdevice hbare, ← Bool.not_eq_true, h.usesDouble_iff]
    simp
  · obtain ⟨s, hs, hused⟩ := h.usesDouble_iff.mp hdouble
    exact Device.refuses hdevice hbare hs hused

/-- A device without double precision accepts the statements of a file exactly if their plan
does without it, and otherwise refuses every statement with a double leaf. So no program for
such a device turns double precision on. -/
theorem double_checks_agree {device : Device} (hdevice : device.supportsDouble = false) :
    (∀ (lowering planning : Settings) (file : SourceFile) (statements : List Statement),
      file.lower lowering = .ok statements → isLocalSize planning.localSize = true →
      ∃ plan, schedule planning statements = .ok plan ∧ plan.ChecksDouble device statements) ∧
    ∀ (options : Options) (source : String) (program : Program), options.device = device →
      compile options source = .ok program →
      (∃ plan, planSource options source = .ok plan ∧ plan.usesDouble = false) ∧
      ¬ EnablesDouble program.name program.kernels program.source := by
  constructor
  · intro lowering planning file statements hlower hlocal
    obtain ⟨-, env, -, hlawful⟩ := SourceFile.lower_lawful hlower
    obtain ⟨plan, d, hplan, hbuilt⟩ := schedule_ok hlocal hlawful
    exact ⟨plan, hplan, hbuilt.checksDouble hdevice⟩
  · rintro options source program rfl hcompile
    obtain ⟨plan, hcompiles⟩ := compiles_of_compile_eq hcompile
    obtain ⟨file, statements, -, hlower, hcheck, hschedule⟩ :=
      planSource_eq_ok_iff.mp hcompiles.planned
    obtain ⟨-, env, -, hlawful⟩ := SourceFile.lower_lawful hlower
    obtain ⟨d, hbuilt⟩ := Plan.built_of_schedule hschedule hlawful
    have hchecks := hbuilt.checksDouble hdevice
    have hsingle : plan.usesDouble = false := hchecks.accepted_iff.mp hcheck
    obtain ⟨listing, -, -, hemit, -, -, -, -, -, hsource, hkernels⟩ :=
      Plan.toProgram_eq_ok hcompiles.made
    refine ⟨⟨plan, hcompiles.planned, hsingle⟩, ?_⟩
    rw [hsource, hkernels, hchecks.emitted program.name options.settings listing hemit, hsingle]
    exact Bool.false_ne_true

/-- The inner products of doubles get double temporaries; the last statement is single. -/
def doubleSource : String :=
  "vector<double> x, y; scalar<double> s; vector z; s = dot(x, y); x = dot(x, x) * y; z += z;"

theorem double_checks_agree_doubleSource :
    (∃ (file : SourceFile) (statements : List Statement) (plan : Plan),
      parseSource 0 doubleSource = .ok file ∧ file.lower .standard = .ok statements ∧
      statements.map (·.usesDouble) = [true, true, false] ∧
      schedule .standard statements = .ok plan ∧ plan.ChecksDouble (.offline false) statements) ∧
    ∃ program, compile { Options.standard with device := .offline false } "vector z; z += z;" =
      .ok program ∧ ¬ EnablesDouble program.name program.kernels program.source := by
  obtain ⟨hplans, hprograms⟩ := @double_checks_agree (.offline false) rfl
  constructor
  · obtain ⟨file, hfile, hlowered⟩ := Outcome.exists_ok_of_map (x := parseSource 0 doubleSource)
      (f := fun file => (file.lower .standard).toOption.map fun statements => statements.map
        (·.usesDouble)) (b := some [true, true, false]) (by decide +kernel)
    obtain ⟨statements, hlower, hvalues⟩ := Outcome.exists_ok_of_map hlowered
    obtain ⟨plan, hplan, hchecks⟩ := hplans .standard .standard file statements hlower (by decide)
    exact ⟨file, statements, plan, hfile, hlower, hvalues, hplan, hchecks⟩
  · obtain ⟨plan, hplan, -⟩ := Outcome.exists_ok_of_map
      (x := planSource { Options.standard with device := .offline false } "vector z; z += z;")
      (f := fun plan => plan.passes.length) (b := 1) (by decide +kernel)
    obtain ⟨program, hcompiles⟩ := exists_compiles hplan
    exact ⟨program, hcompiles.compile_eq, (hprograms _ _ program rfl hcompiles.compile_eq).2⟩

end LinearKernels
