import LinearKernels.Proofs.AccessTexts
import LinearKernels.Proofs.PlanShape

/-!
Widths and code. Binding gives every record the width one, and planning never looks at a
width; only when all passes are known the vectors are widened, all of them or none. Vectors
are widened only if there is no product in any statement, and the code of such a statement
consists of access texts, in which no width is written.
-/

namespace LinearKernels

/-! ### Records before widening -/

/-- No buffer has been widened. -/
def Registry.Narrow (reg : Registry) : Prop :=
  ∀ (i : Nat) (r : Record), reg.records[i]? = some r → r.alignment = .one

namespace Registry

theorem narrow_empty : Registry.empty.Narrow := by
  intro i r h
  simp [empty] at h

theorem narrow_kept : KeptByBinding Narrow := by
  intro a a' ctx ctx' hs hn h
  obtain ⟨⟨i, reg⟩, hregister, h⟩ := Outcome.bind_eq_ok_iff.mp h
  obtain ⟨-, rfl⟩ := Prod.mk.inj (Except.ok.inj h)
  have hreg : reg.Narrow := by
    rcases register_cases hregister with ⟨r, -, -, -, -, rfl⟩ | ⟨-, -, rfl⟩
    · exact hn
    · intro j r hr
      rcases getElem?_snoc hr with hr | ⟨-, rfl⟩
      · exact hn j r hr
      · rfl
  intro j r' hr'
  simp only [modify, List.getElem?_modify] at hr'
  obtain ⟨r, hr, rfl⟩ := Option.map_eq_some_iff.mp hr'
  split
  · exact (r.grows_ensureAccessName ctx.pass (a.storage.access r.name)).alignment.trans
      (hreg j r hr)
  · exact hreg j r hr

end Registry

/-! ### Widening -/

theorem Alignment.raise_raise (a b : Alignment) : (a.raise b).raise b = a.raise b := by
  cases a <;> cases b <;> rfl

theorem Alignment.one_raise (a : Alignment) : Alignment.one.raise a = a := by
  cases a <;> rfl

theorem Argument.setAlignment_eq_ok {a : Argument} {reg reg' : Registry} {alignment : Alignment}
    (h : a.setAlignment reg alignment.width = .ok reg') :
    ∃ i, a.record = some i ∧ reg' = reg.modify i (·.raiseAlignment alignment) := by
  rw [setAlignment, Alignment.ofWidth_width, Outcome.ok_bind] at h
  obtain ⟨i, hi, h⟩ := Outcome.bind_eq_ok_iff.mp h
  obtain ⟨r, -, h⟩ := Outcome.bind_eq_ok_iff.mp h
  refine ⟨i, ?_, (Except.ok.inj h).symm⟩
  rw [Argument.id] at hi
  cases hrecord : a.record with
  | none => simp [hrecord] at hi
  | some j =>
    rw [hrecord] at hi
    rw [Except.ok.inj hi]

/-- Exactly the records of the given arguments are widened. -/
theorem getElem?_setAlignments {alignment : Alignment}
    {args : List Argument} {reg reg' : Registry}
    (h : args.foldlM (fun reg a => a.setAlignment reg alignment.width) reg = .ok reg') (i : Nat) :
    reg'.records[i]? = if ∃ a ∈ args, a.record = some i then
      reg.records[i]?.map (·.raiseAlignment alignment) else reg.records[i]? := by
  induction args generalizing reg with
  | nil =>
    obtain rfl := Except.ok.inj h
    simp
  | cons a args ih =>
    rw [List.foldlM_cons] at h
    obtain ⟨reg₁, h₁, h⟩ := Outcome.bind_eq_ok_iff.mp h
    obtain ⟨j, hj, rfl⟩ := Argument.setAlignment_eq_ok h₁
    rw [ih h]
    simp only [Registry.modify, List.getElem?_modify, List.mem_cons, exists_eq_or_imp, hj,
      Option.some.injEq]
    by_cases hij : j = i
    · have htwice : (fun r : Record => (r.raiseAlignment alignment).raiseAlignment alignment) =
          fun r => r.raiseAlignment alignment := by
        funext r
        simp only [Record.raiseAlignment, Alignment.raise_raise]
      simp [hij, Function.comp_def, htwice]
    · simp [hij]

theorem Registry.Widened.accessName_eq {args : List Argument} {reg reg' : Registry}
    (h : reg.Widened args reg') (a : Argument) (pass : Nat) :
    a.accessName reg' pass = a.accessName reg pass := by
  cases hrecord : a.record with
  | none => simp [Argument.accessName, Argument.info, Argument.id, hrecord]
  | some i =>
    simp only [Argument.accessName, Argument.info, Argument.id, hrecord,
      Registry.get, Outcome.ok_bind]
    rcases h i with ⟨hr, hr'⟩ | ⟨r, x, hr, hr', -⟩
    · rw [hr, hr']
    · rw [hr, hr']
      rfl

/-- Without matrix products the code of a term is made of access texts. -/
theorem Term.code_eq_of_accessName {t : Term} {reg reg' : Registry} {pass : Nat}
    (h : ∀ a : Argument, a.accessName reg' pass = a.accessName reg pass)
    (ht : t.matrixProducts = []) :
    t.code reg' pass = t.code reg pass := by
  induction t with
  | leaf arg => exact h arg
  | unary op sub ih => rw [code, code, ih ht]
  | binary op lhs rhs ihl ihr =>
    obtain ⟨hl, hr⟩ := List.append_eq_nil_iff.mp ht
    rw [code, code, ihl hl, ihr hr]
  | matMat lhs rhs | matVec lhs rhs => simp [matrixProducts] at ht
  | inner lhs rhs computed temporary ihl ihr =>
    obtain ⟨hl, hr⟩ := List.append_eq_nil_iff.mp ht
    cases computed with
    | none => rw [code, code, ihl hl, ihr hr]
    | some p =>
      cases temporary with
      | none => rfl
      | some cell => exact h cell

/-! ### Elementwise plans -/

namespace Plan

/-- All passes go through vectors element by element, and all vectors are whole buffers. -/
structure Elementwise (plan : Plan) : Prop where
  passes : ∀ pass ∈ plan.passes, pass.kind = .vector
  whole : ∀ statement ∈ plan.statements, ∀ a ∈ statement.tree.leaves, ∀ v, a.storage = .vector v →
    v.isContiguous = true

variable {env : Declarations} {statements : List Statement} {plan : Plan} {d : Draft}

/-- If all passes are vector passes, there are no products: an inner product would have its
reduction, and a matrix product a pass of its own kind. -/
theorem Built.no_products (h : plan.Built env statements d)
    (hall : ∀ pass ∈ plan.passes, pass.kind = .vector) {statement : Statement}
    (hmem : statement ∈ plan.statements) :
    statement.tree.innerProducts = [] ∧ statement.tree.matrixProducts = [] := by
  obtain ⟨s, hs⟩ := List.getElem?_of_mem hmem
  have hwell := h.wellFormed
  constructor
  · refine List.eq_nil_iff_forall_not_mem.mpr fun m hm => ?_
    obtain ⟨r, reduction, -, -, -, -, hreduction, hkind, -⟩ := hwell.computed s statement hs m hm
    rw [hall reduction (List.mem_of_getElem? hreduction)] at hkind
    cases hkind
  · have hrun : s ∈ runOrder plan.passes := by
      rw [hwell.runs, ← hwell.statements]
      exact List.mem_range.mpr (List.getElem?_eq_some_iff.mp hs).1
    obtain ⟨pass, hpass, hin⟩ := List.mem_flatMap.mp hrun
    have hpass := (List.mem_filter.mp hpass).1
    have hvector := hall pass hpass
    obtain ⟨p, hp⟩ := List.getElem?_of_mem hpass
    cases h.passOf hp with
    | reduction => cases hvector
    | body kind_ne nonempty single planned =>
      obtain ⟨statement', hs', hkind, -⟩ := planned s hin
      obtain rfl := Option.some.inj (hs.symm.trans hs')
      obtain ⟨op, target, value, hbody⟩ := (h.planned statement hmem).bodyOf
      have hfits := hbody.fits
      dsimp only at hvector
      rw [hkind, hvector] at hfits
      rw [hbody.eq, Term.matrixProducts, hfits.2]
      rfl

theorem Built.isWidenable_iff (h : plan.Built env statements d) :
    plan.isWidenable = true ↔ plan.Elementwise := by
  have hpasses : plan.passes.all (·.kind = .vector) = true ↔
      ∀ pass ∈ plan.passes, pass.kind = .vector := by
    simp
  rw [isWidenable, Bool.and_eq_true, hpasses, List.all_eq_true]
  constructor
  · rintro ⟨hall, hwhole⟩
    refine ⟨hall, fun statement hs a ha v hv => ?_⟩
    have hleaf : a ∈ plan.vectorLeaves := by
      refine List.mem_flatMap.mpr ⟨statement, hs, List.mem_filter.mpr ⟨?_, by rw [hv]; rfl⟩⟩
      rwa [Term.arguments_eq_leaves (by simp [(h.no_products hall hs).1])]
    simpa [hv] using hwhole a hleaf
  · rintro ⟨hall, hwhole⟩
    refine ⟨hall, fun a ha => ?_⟩
    obtain ⟨statement, hs, ha⟩ := List.mem_flatMap.mp ha
    obtain ⟨ha, hvector⟩ := List.mem_filter.mp ha
    have hleaf := Term.mem_leaves_of_isVector (h.planned statement hs).bound ha hvector
    split
    · next v hv => exact hwhole statement hs a hleaf v hv
    · rfl

end Plan

/-- The buffer is a vector. -/
def Record.IsVector (r : Record) : Prop :=
  ∃ v, r.signature = (Storage.vector v).signature

namespace Plan

variable {env : Declarations} {statements : List Statement} {narrow wide : Plan} {d : Draft}

/-- In an elementwise plan the records of vectors are those that widening looks for. -/
theorem Built.isVector_iff (h : narrow.Built env statements d) (helementwise : narrow.Elementwise)
    {i : Nat} {r : Record} (hr : d.context.registry.records[i]? = some r) :
    r.IsVector ↔ ∃ a ∈ narrow.vectorLeaves, a.record = some i := by
  constructor
  · rintro ⟨v, hv⟩
    cases hhandle : r.handle with
    | buffer k =>
      obtain ⟨t, ht, a, ha, hrecord, hagrees⟩ := h.exists_leaf hr hhandle
      obtain ⟨statement, hs, rfl⟩ := List.mem_map.mp ht
      have hstorage : a.storage = .vector v :=
        Storage.eq_of_signature_eq (hagrees.2.2.symm.trans hv)
      refine ⟨a, List.mem_flatMap.mpr ⟨statement, hs,
        List.mem_filter.mpr ⟨?_, by rw [hstorage]; rfl⟩⟩, hrecord⟩
      rwa [Term.arguments_eq_leaves (by simp [(h.no_products helementwise.passes hs).1])]
    | temporary j =>
      obtain ⟨lhs, rhs, key, hcell⟩ := h.reachable.sound.cells i r j hr hhandle
      cases Storage.eq_of_signature_eq (hcell.signature.symm.trans hv)
  · rintro ⟨a, ha, hrecord⟩
    obtain ⟨statement, hs, ha⟩ := List.mem_flatMap.mp ha
    obtain ⟨ha, hvector⟩ := List.mem_filter.mp ha
    obtain ⟨j, r', hj, hr', hagrees⟩ := ((h.planned statement hs).bound.arguments a ha).bound
    obtain rfl := Option.some.inj (hrecord.symm.trans hj)
    obtain rfl := Option.some.inj (hr.symm.trans hr')
    cases hstorage : a.storage with
    | vector v => exact ⟨v, hagrees.2.2.trans (congrArg Storage.signature hstorage)⟩
    | hostScalar | deviceScalar | matrix => simp [hstorage, Storage.isVector] at hvector

/-- The second plan is the first one, with all its vectors at the given width if the plan is
elementwise. -/
structure WidensTo (alignment : Alignment) (narrow wide : Plan) : Prop where
  statements : wide.statements = narrow.statements
  passes : wide.passes = narrow.passes
  temporaries : wide.context.temporaries = narrow.context.temporaries
  current : wide.context.pass = narrow.context.pass
  records : wide.registry.records.map (fun r => { r with alignment := .one }) =
    narrow.registry.records
  others : ∀ r ∈ wide.registry.records, ¬ r.IsVector → r.alignment = .one
  vectors : ∀ r ∈ wide.registry.records, r.IsVector → wide.Elementwise → r.alignment = alignment
  unchanged : ¬ wide.Elementwise → ∀ r ∈ wide.registry.records, r.alignment = .one
  code : ∀ s pass, (wide.tree s >>= (·.code wide.registry pass)) =
    (narrow.tree s >>= (·.code narrow.registry pass))

/-- A record of width one, with its width set to one. -/
theorem narrowed_eq {r : Record} (h : r.alignment = .one) : { r with alignment := .one } = r := by
  rw [← h]

/-- A plan that is not elementwise stays as it is. -/
theorem widensTo_self {plan : Plan} (hnarrow : plan.registry.Narrow) {alignment : Alignment}
    (h : alignment = .one ∨ ¬ plan.Elementwise) : plan.WidensTo alignment plan := by
  have hone : ∀ r ∈ plan.registry.records, r.alignment = .one := by
    intro r hr
    obtain ⟨i, hi⟩ := List.getElem?_of_mem hr
    exact hnarrow i r hi
  refine ⟨rfl, rfl, rfl, rfl, ?_, fun r hr _ => hone r hr, ?_, fun _ => hone, fun _ _ => rfl⟩
  · exact (List.map_congr_left fun r hr => narrowed_eq (hone r hr)).trans (List.map_id' _)
  · intro r hr _ helementwise
    rcases h with rfl | hnot
    · exact hone r hr
    · exact absurd helementwise hnot

/-- In an elementwise plan widening reaches the vectors, and only them. -/
theorem Built.record_of_widened (h : narrow.Built env statements d)
    (hcontext : narrow.context = d.context)
    (hnarrow : narrow.registry.Narrow) (helementwise : narrow.Elementwise)
    {alignment : Alignment} {reg : Registry} (hreg : narrow.vectorLeaves.foldlM (fun reg a =>
      a.setAlignment reg alignment.width) narrow.registry = .ok reg) (i : Nat) :
    narrow.registry.records[i]? = none ∧ reg.records[i]? = none ∨
    ∃ r, narrow.registry.records[i]? = some r ∧
        (r.IsVector ∧ reg.records[i]? = some { r with alignment := alignment } ∨
          ¬ r.IsVector ∧ reg.records[i]? = some r) := by
  rw [getElem?_setAlignments hreg i]
  cases hr : narrow.registry.records[i]? with
  | none => simp
  | some r =>
    have hvector : r.IsVector ↔ ∃ a ∈ narrow.vectorLeaves, a.record = some i := by
      rw [registry, hcontext] at hr
      exact h.isVector_iff helementwise hr
    refine .inr ⟨r, rfl, ?_⟩
    by_cases hmem : ∃ a ∈ narrow.vectorLeaves, a.record = some i
    · refine .inl ⟨hvector.mpr hmem, ?_⟩
      rw [if_pos hmem, Option.map_some, Record.raiseAlignment, hnarrow i r hr,
        Alignment.one_raise]
    · exact .inr ⟨fun hv => hmem (hvector.mp hv), if_neg hmem⟩

theorem Built.alignment_of_widened (h : narrow.Built env statements d)
    (hcontext : narrow.context = d.context)
    (hnarrow : narrow.registry.Narrow) (helementwise : narrow.Elementwise)
    {alignment : Alignment} {reg : Registry} (hreg : narrow.vectorLeaves.foldlM (fun reg a =>
      a.setAlignment reg alignment.width) narrow.registry = .ok reg) {r : Record}
    (hmem : r ∈ reg.records) :
    r.IsVector ∧ r.alignment = alignment ∨ ¬ r.IsVector ∧ r.alignment = .one := by
  obtain ⟨i, hi⟩ := List.getElem?_of_mem hmem
  rcases h.record_of_widened hcontext hnarrow helementwise hreg i with
    ⟨-, hr'⟩ | ⟨r', hr, ⟨hvector, hr'⟩ | ⟨hother, hr'⟩⟩
  · cases hr'.symm.trans hi
  · obtain rfl := Option.some.inj (hr'.symm.trans hi)
    exact .inl ⟨hvector, rfl⟩
  · obtain rfl := Option.some.inj (hr'.symm.trans hi)
    exact .inr ⟨hother, hnarrow i r' hr⟩

/-- An elementwise plan is widened in all its vectors. -/
theorem Built.widensTo_vectors (h : narrow.Built env statements d)
    (hcontext : narrow.context = d.context)
    (hnarrow : narrow.registry.Narrow) (helementwise : narrow.Elementwise)
    {alignment : Alignment} {reg : Registry}
    (hreg : narrow.vectorLeaves.foldlM (fun reg a => a.setAlignment reg alignment.width)
      narrow.registry = .ok reg) :
    narrow.WidensTo alignment
      { narrow with context := { narrow.context with registry := reg } } := by
  have hrecord := h.record_of_widened hcontext hnarrow helementwise hreg
  have halignment := fun r => h.alignment_of_widened hcontext hnarrow helementwise hreg (r := r)
  refine ⟨rfl, rfl, rfl, rfl, List.ext_getElem? fun i => ?_, fun r hmem hother => ?_,
    fun r hmem hvector _ => ?_,
    fun hnot => absurd ⟨helementwise.passes, helementwise.whole⟩ hnot, fun s pass => ?_⟩
  · rw [List.getElem?_map]
    change reg.records[i]?.map _ = _
    rcases hrecord i with ⟨hr, hr'⟩ | ⟨r, hr, ⟨-, hr'⟩ | ⟨-, hr'⟩⟩
    · rw [hr, hr', Option.map_none]
    · rw [hr, hr', Option.map_some, narrowed_eq (hnarrow i r hr)]
    · rw [hr, hr', Option.map_some, narrowed_eq (hnarrow i r hr)]
  · rcases halignment r hmem with ⟨hvector, -⟩ | ⟨-, hone⟩
    · exact absurd hvector hother
    · exact hone
  · rcases halignment r hmem with ⟨-, hwidth⟩ | ⟨hother, -⟩
    · exact hwidth
    · exact absurd hvector hother
  -- The code of a term without matrix products is made of access texts, and widening keeps those.
  · change narrow.tree s >>= (·.code reg pass) = _
    have hwidened := widened_setAlignments (fun _ ha => ha) hreg
    cases hs : narrow.statements[s]? with
    | none => simp [tree, hs]
    | some statement =>
      have hproducts := (h.no_products helementwise.passes (List.mem_of_getElem? hs)).2
      rw [tree_ok hs, Outcome.ok_bind, Outcome.ok_bind,
        Term.code_eq_of_accessName (fun a => hwidened.accessName_eq a pass) hproducts]

/-- Widening a plan without wide records. -/
theorem Built.widensTo (h : narrow.Built env statements d) (hcontext : narrow.context = d.context)
    {alignment : Alignment} (hwiden : narrow.widen alignment = .ok wide) :
    narrow.WidensTo alignment wide := by
  have hnarrow : narrow.registry.Narrow := by
    rw [registry, hcontext]
    exact ((Draft.planRun_addStatements h.drafted).kept Registry.narrow_kept
      Registry.narrow_empty).2
  unfold widen at hwiden
  split at hwiden
  · next hkept =>
    obtain rfl := Except.ok.inj hwiden
    refine widensTo_self hnarrow ?_
    rw [← h.isWidenable_iff]
    simpa using hkept
  · next hchanged =>
    obtain ⟨reg, hreg, hwiden⟩ := Outcome.bind_eq_ok_iff.mp hwiden
    obtain rfl := Except.ok.inj hwiden
    refine h.widensTo_vectors hcontext hnarrow (h.isWidenable_iff.mp ?_) hreg
    simp at hchanged
    exact hchanged.2

end Plan

/-- Planning drafts first, without a look at the width, and widens then. -/
theorem schedule_eq_widen {settings : Settings} {statements planned : List Statement} {d : Draft}
    (hlocal : isLocalSize settings.localSize = true)
    (hdrafted : Draft.addStatements 0 statements .empty = .ok (planned, d)) :
    schedule settings statements = Plan.widen settings.alignment ⟨planned,
      d.passes, d.context⟩ := by
  simp only [schedule, Settings.checkLocalSize, hlocal, if_true, hdrafted, Outcome.ok_bind]

/-- Planning for a width and planning for the width one fail alike, and otherwise give the same
plan up to the widths of vectors. Either all vectors have the width asked for or none has, and
the code of the statements is the same. -/
theorem schedule_widths {lowering planning : Settings} {file : SourceFile}
    {statements : List Statement} (hlower : file.lower lowering = .ok statements) :
    (isLocalSize planning.localSize = false ∧
      schedule planning statements = .error (.invalidLocalSize planning.localSize) ∧
      schedule { planning with alignment := .one } statements =
        .error (.invalidLocalSize planning.localSize)) ∨
    ∃ wide narrow, schedule planning statements = .ok wide ∧
      schedule { planning with alignment := .one } statements = .ok narrow ∧
      narrow.WidensTo planning.alignment wide := by
  cases hlocal : isLocalSize planning.localSize with
  | false => exact .inl ⟨rfl, by simp [schedule, Settings.checkLocalSize, hlocal]⟩
  | true =>
    obtain ⟨-, env, -, hlawful⟩ := SourceFile.lower_lawful hlower
    obtain ⟨wide, -, hwide, -⟩ := schedule_ok hlocal hlawful
    obtain ⟨narrow, d, hnarrow, hbuilt⟩ : ∃ narrow d,
        schedule { planning with alignment := .one } statements = .ok narrow ∧
        narrow.Built env statements d :=
      schedule_ok hlocal hlawful
    have hdraft : (⟨narrow.statements, d.passes, d.context⟩ : Plan) = narrow :=
      (Except.ok.inj (hnarrow.symm.trans (schedule_eq_widen hlocal hbuilt.drafted))).symm
    refine .inr ⟨wide, narrow, hwide, hnarrow,
      hbuilt.widensTo (congrArg Plan.context hdraft).symm ?_⟩
    rw [← hwide, schedule_eq_widen hlocal hbuilt.drafted, hdraft]

/-- Two fused statements over whole vectors and a scalar. -/
def wideSource : String :=
  "vector x, y, z; host a; y = x * a + y; z -= y;"

theorem schedule_widths_wideSource :
    ∃ (file : SourceFile) (statements : List Statement) (wide narrow : Plan),
      parseSource 0 wideSource = .ok file ∧ file.lower .standard = .ok statements ∧
      schedule { Settings.standard with alignment := .four } statements = .ok wide ∧
      schedule .standard statements = .ok narrow ∧
      wide.registry.records.map (fun r => (r.signature, r.alignment)) =
        [("vec s1o0", .four), ("vec s1o0", .four), ("hscal", .one), ("vec s1o0", .four)] ∧
      narrow.WidensTo .four wide := by
  obtain ⟨wide, hplan, hvalues⟩ := Outcome.exists_ok_of_map
    (x := planSource
      { Options.standard with settings := { Settings.standard with alignment := .four } }
      wideSource)
    (f := fun plan => plan.registry.records.map fun r => (r.signature, r.alignment))
    (b := [("vec s1o0", .four), ("vec s1o0", .four), ("hscal", .one), ("vec s1o0", .four)])
    (by decide +kernel)
  obtain ⟨file, statements, hfile, hlower, -, hwide⟩ := planSource_eq_ok_iff.mp hplan
  rcases schedule_widths hlower with ⟨-, hfault, -⟩ | ⟨wide', narrow, hwide', hnarrow, hwidens⟩
  · cases hfault.symm.trans hwide
  · obtain rfl := Except.ok.inj (hwide'.symm.trans hwide)
    exact ⟨file, statements, wide', narrow, hfile, hlower, hwide, hnarrow, hvalues, hwidens⟩

end LinearKernels
