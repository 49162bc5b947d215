import LinearKernels.Proofs.ParameterOrder

/-!
Calls that share a cache. A program is found by its context and its name, and the name tells
the keys of the statements and the size of the work group, as long as digests do not collide.
The keys tell the plan up to the order of declarations. So a program from the cache is the
program of an earlier call that has the same keys; it is the program that would have been
made, but for the order in which the kernels take their arguments.
-/

namespace LinearKernels

/-! ### Names -/

theorem length_nameDigits {digest : List UInt8} (h : digest.length = 32) :
    (nameDigits digest).toList.length = 16 := by
  have hhex : (Digest.hex digest).length = 2 * digest.length := by
    simp [Digest.hex, Digest.hexByte, List.length_flatMap, List.map_const', Nat.mul_comm]
  rw [nameDigits, String.toList_ofList, List.length_take, hhex, h]
  rfl

/-- Whatever digests two names have, they can be read off. -/
theorem nameDigits_eq_of_name_eq {stem stem' : String} {digest digest' : List UInt8}
    (hdigest : digest.length = 32) (hdigest' : digest'.length = 32)
    (h : stem ++ "_" ++ nameDigits digest = stem' ++ "_" ++ nameDigits digest') :
    nameDigits digest = nameDigits digest' := by
  have htexts := congrArg String.toList h
  rw [String.toList_append, @String.toList_append (stem' ++ "_")] at htexts
  have hlengths := (length_nameDigits hdigest).trans (length_nameDigits hdigest').symm
  exact String.toList_inj.mp (List.append_inj' htexts hlengths).2

theorem length_programDigest (key : String) (localSize : Nat) :
    (programDigest key localSize).length = 32 := by
  simp [programDigest, Digest.ofBytes, Digest.wordBytes, List.length_flatMap, List.map_const']

/-! ### Compiling -/

/-- A device looks at the element types in the trees. -/
theorem Device.check_eq_ok_iff {device : Device} {statements : List Statement} :
    device.check statements = .ok () ↔
      ∀ t ∈ statements.map (·.tree), ∀ a ∈ t.arguments, device.supports a.element = true := by
  have hcomplaints : device.check statements = .ok () ↔
      statements.filterMap device.complaint? = [] := by
    unfold check
    cases statements.filterMap device.complaint? <;> simp
  rw [hcomplaints, List.filterMap_eq_nil_iff, List.forall_mem_map]
  refine forall₂_congr fun s _ => ?_
  simp [complaint?]

/-- A planned source has statements, and a plan that was built from them. -/
theorem planSource_built {options : Options} {source : String} {plan : Plan}
    (h : planSource options source = .ok plan) :
    isLocalSize options.settings.localSize = true ∧ plan.statements ≠ [] ∧
      ∃ env statements d, plan.Built env statements d := by
  obtain ⟨file, statements, -, hlower, -, hschedule⟩ := planSource_eq_ok_iff.mp h
  obtain ⟨hne, env, -, hlawful⟩ := SourceFile.lower_lawful hlower
  obtain ⟨d, hbuilt⟩ := Plan.built_of_schedule hschedule hlawful
  refine ⟨?_, fun hnil => hne ?_, env, statements, d, hbuilt⟩
  · cases hlocal : isLocalSize options.settings.localSize with
    | true => rfl
    | false => simp [schedule, Settings.checkLocalSize, hlocal] at hschedule
  · rw [← hbuilt.source, hnil]
    rfl

/-- The parts of a compiled program, as far as they come from its plan. -/
structure Compiles (options : Options) (source : String) (plan : Plan)
    (program : Program) : Prop where
  planned : planSource options source = .ok plan
  named : plan.programName options.settings = .ok program.name
  made : plan.toProgram options.settings program.name = .ok program

theorem Compiles.compile_eq {options : Options} {source : String}
    {plan : Plan} {program : Program} (h : Compiles options source plan program) :
    compile options source = .ok program := by
  simp only [compile, h.planned, h.named, h.made, Outcome.ok_bind]

/-- Every planned source is compiled. -/
theorem exists_compiles {options : Options} {source : String} {plan : Plan}
    (h : planSource options source = .ok plan) :
    ∃ program, Compiles options source plan program := by
  obtain ⟨hlocal, -, env, statements, d, hbuilt⟩ := planSource_built h
  obtain ⟨name, program, hname, hprogram⟩ := hbuilt.toProgram_ok hlocal
  obtain ⟨-, -, -, -, -, -, rfl, -⟩ := Plan.toProgram_eq_ok hprogram
  exact ⟨program, h, hname, hprogram⟩

theorem compiles_of_compile_eq {options : Options} {source : String} {program : Program}
    (h : compile options source = .ok program) :
    ∃ plan, Compiles options source plan program := by
  obtain ⟨plan, hplan, -⟩ := Outcome.bind_eq_ok_iff.mp h
  obtain ⟨program', hcompiles⟩ := exists_compiles hplan
  obtain rfl : program' = program := Except.ok.inj (hcompiles.compile_eq.symm.trans h)
  exact ⟨plan, hcompiles⟩

theorem Compiles.name_eq {options : Options} {source : String} {plan : Plan} {program : Program}
    (h : Compiles options source plan program) :
    program.name = programName options.settings.stem program.key options.settings.localSize := by
  obtain ⟨listing, keys, shortKeys, -, hkeys, -, -, hkey, -⟩ := Plan.toProgram_eq_ok h.made
  have hnamed := h.named
  rw [Plan.programName, hkeys] at hnamed
  rw [hkey]
  exact (Except.ok.inj hnamed).symm

/-- The programs have the same name and keys, and kernels that are launched alike but may
take their arguments in another order. -/
structure Program.Reorders (p q : Program) : Prop where
  name : p.name = q.name
  key : p.key = q.key
  shortKey : p.shortKey = q.shortKey
  count : p.kernels.length = q.kernels.length
  kernels : ∀ k ∈ p.kernels.zip q.kernels, k.1.Reorders k.2

/-- Sources with the same keys are compiled to the same program up to the order of arguments,
and to the same kernels exactly if the order is the same. -/
theorem Compiles.reorders {options options' : Options} {source source' : String}
    {plan plan' : Plan} {p q : Program} (h : Compiles options source plan p)
    (h' : Compiles options' source' plan' q) (hname : p.name = q.name) (hkey : p.key = q.key)
    (hlocal : options.settings.localSize = options'.settings.localSize) :
    p.Reorders q ∧ (p.source = q.source ∧ p.kernels = q.kernels ↔
      ∀ pass ∈ plan'.passes, plan.parameterOrder pass = plan'.parameterOrder pass) := by
  obtain ⟨-, hne, env, statements, d, hbuilt⟩ := planSource_built h.planned
  obtain ⟨-, hne', env', statements', d', hbuilt'⟩ := planSource_built h'.planned
  obtain ⟨listing, keys, shortKeys, hemit, hkeys, hshort, -, hp, hpshort, hpsource, hpkernels⟩ :=
    Plan.toProgram_eq_ok h.made
  obtain ⟨listing', keys', shortKeys', hemit', hkeys', hshort', -, hq, hqshort,
    hqsource, hqkernels⟩ :=
    Plan.toProgram_eq_ok h'.made
  obtain ⟨f, hr⟩ := Plan.exists_renames hbuilt' hbuilt hne' hne hkeys' hkeys
    (hq.symm.trans (hkey.symm.trans hp))
  rw [hname] at hemit
  obtain ⟨hcount, hkernels, hsame⟩ := hr.emit_reorders hbuilt' hbuilt hlocal hemit' hemit
  rw [hr.shortKeys_eq, hshort'] at hshort
  obtain rfl : shortKeys' = shortKeys := Except.ok.inj hshort
  rw [← hpkernels, ← hqkernels] at hcount hkernels
  rw [← hpsource, ← hqsource, ← hpkernels, ← hqkernels] at hsame
  exact ⟨⟨hname, hkey, hpshort.trans hqshort.symm, hcount, hkernels⟩, hsame⟩

/-! ### Calls -/

/-- A call for the program of a source. -/
structure Call where
  options : Options
  source : String

namespace Call

/-- What the digits in the name of the call's program are made from. -/
def named (call : Call) : Checked (String × Nat) := do
  let plan ← planSource call.options call.source
  let keys ← Checked.ofFault plan.statements plan.keys
  return (";".intercalate keys, call.options.settings.localSize)

/-- The results of calls that are made one after the other with one cache. -/
def run : Cache Program → List Call → List (Checked Program)
  | _, [] => []
  | cache, call :: calls =>
    let (result, cache) := compileCached call.options call.source cache
    result :: run cache calls

/-- Different keys and work-group sizes give names with different digits. -/
def NoCollision (calls : List Call) : Prop :=
  ∀ c ∈ calls, ∀ c' ∈ calls, ∀ x y, c.named = .ok x → c'.named = .ok y →
    nameDigits (programDigest x.1 x.2) = nameDigits (programDigest y.1 y.2) → x = y

end Call

theorem Compiles.named_eq {call : Call} {plan : Plan} {program : Program}
    (h : Compiles call.options call.source plan program) :
    call.named = .ok (program.key, call.options.settings.localSize) := by
  obtain ⟨listing, keys, shortKeys, -, hkeys, -, -, hkey, -⟩ := Plan.toProgram_eq_ok h.made
  rw [Call.named, h.planned, Outcome.ok_bind, hkeys, hkey]
  rfl

/-! ### One call -/

section Step

variable {options : Options} {source : String} {cache : Cache Program}

theorem compileCached_error {ds : List Diagnostic} (h : compile options source = .error ds) :
    compileCached options source cache = (.error ds, cache) := by
  cases hplan : planSource options source with
  | error es =>
    rw [compile, hplan, Outcome.error_bind] at h
    rw [compileCached, hplan, Except.error.inj h]
  | ok plan =>
    obtain ⟨q, hq⟩ := exists_compiles hplan
    rw [hq.compile_eq] at h
    cases h

theorem compileCached_hit {p q : Program} (h : compile options source = .ok q)
    (hfind : cache.find? options.context q.name = some p) :
    compileCached options source cache = (.ok p, { cache with hits := cache.hits + 1 }) := by
  obtain ⟨plan, hq⟩ := compiles_of_compile_eq h
  simp only [compileCached, hq.planned, hq.named, Cache.get, hfind]

theorem compileCached_miss {q : Program} (h : compile options source = .ok q)
    (hfind : cache.find? options.context q.name = none) :
    compileCached options source cache =
      (.ok q, { cache with misses := cache.misses + 1 }.insert options.context q.name q) := by
  obtain ⟨plan, hq⟩ := compiles_of_compile_eq h
  simp only [compileCached, hq.planned, hq.named, Cache.get, hfind, hq.made]

end Step

namespace Cache

/-- Every entry is the program of one of the calls, kept under its context and name. -/
def MadeBy (calls : List Call) (cache : Cache Program) : Prop :=
  ∀ e ∈ cache.entries, ∃ call ∈ calls, e.1 = (call.options.context, e.2.name) ∧
    compile call.options call.source = .ok e.2

theorem MadeBy.mono {calls more : List Call} {cache : Cache Program} (h : MadeBy calls cache)
    (hsub : ∀ c ∈ calls, c ∈ more) : MadeBy more cache := by
  intro e he
  obtain ⟨call, hcall, heq⟩ := h e he
  exact ⟨call, hsub call hcall, heq⟩

theorem MadeBy.find {calls : List Call} {cache : Cache Program} (h : MadeBy calls cache)
    {context name : String} {p : Program} (hfind : cache.find? context name = some p) :
    ∃ call ∈ calls, call.options.context = context ∧ p.name = name ∧
      compile call.options call.source = .ok p := by
  obtain ⟨before, after, hentries, -⟩ := List.lookup_eq_some_iff.mp hfind
  obtain ⟨call, hcall, hkey, hcompile⟩ := h ((context, name), p) (by rw [hentries]; simp)
  obtain ⟨hcontext, hname⟩ := Prod.mk.inj hkey
  exact ⟨call, hcall, hcontext.symm, hname.symm, hcompile⟩

theorem MadeBy.insert {calls : List Call} {cache : Cache Program}
    (h : MadeBy calls cache) {call : Call} (hcall : call ∈ calls) {p : Program}
    (hp : compile call.options call.source = .ok p) :
    MadeBy calls (cache.insert call.options.context p.name p) := by
  intro e he
  rcases List.mem_cons.mp he with rfl | he
  · exact ⟨call, hcall, rfl, hp⟩
  · exact h e (List.mem_filter.mp he).1

end Cache

/-- The result of a call, when the calls so far are `calls`: a failure to compile, or the
program of one of the calls, with the name of the program asked for. -/
def Call.Answers (calls : List Call) (call : Call) (result : Checked Program) : Prop :=
  (∃ ds, compile call.options call.source = .error ds ∧ result = .error ds) ∨
  ∃ q p, compile call.options call.source = .ok q ∧ result = .ok p ∧ p.name = q.name ∧
    ∃ first ∈ calls, first.options.context = call.options.context ∧
      compile first.options first.source = .ok p

/-- One call: the cache stays made of programs of the calls so far. -/
theorem compileCached_step {calls : List Call} {cache : Cache Program}
    (h : cache.MadeBy calls) (call : Call) :
    call.Answers (calls ++ [call]) (compileCached call.options call.source cache).1 ∧
      (compileCached call.options call.source cache).2.MadeBy (calls ++ [call]) := by
  have hmore : cache.MadeBy (calls ++ [call]) := h.mono fun c hc => List.mem_append_left _ hc
  have hself : call ∈ calls ++ [call] := by simp
  cases hcompile : compile call.options call.source with
  | error ds =>
    rw [compileCached_error hcompile]
    exact ⟨.inl ⟨ds, hcompile, rfl⟩, hmore⟩
  | ok q =>
    cases hfind : cache.find? call.options.context q.name with
    | some p =>
      obtain ⟨first, hfirst, hcontext, hname, hp⟩ := hmore.find hfind
      rw [compileCached_hit hcompile hfind]
      exact ⟨.inr ⟨q, p, hcompile, rfl, hname, first, hfirst, hcontext, hp⟩, hmore⟩
    | none =>
      rw [compileCached_miss hcompile hfind]
      exact ⟨.inr ⟨q, q, hcompile, rfl, rfl, call, hself, rfl, hcompile⟩,
        Cache.MadeBy.insert hmore hself hcompile⟩

/-- All calls of a run. -/
theorem Call.run_answers {calls : List Call} {before : List Call} {cache : Cache Program}
    (h : cache.MadeBy before) {i : Nat} {call : Call} (hcall : calls[i]? = some call) :
    ∃ result, (run cache calls)[i]? = some result ∧
      call.Answers (before ++ calls.take (i + 1)) result := by
  induction calls generalizing before cache i with
  | nil => cases hcall
  | cons first calls ih =>
    obtain ⟨hanswers, hmade⟩ := compileCached_step h first
    cases i with
    | zero =>
      obtain rfl := Option.some.inj hcall
      exact ⟨(compileCached first.options first.source cache).1, rfl, by simpa using hanswers⟩
    | succ i =>
      obtain ⟨result, hresult, hanswers⟩ := ih hmade hcall
      exact ⟨result, hresult, by simpa using hanswers⟩

/-- A call with a cache fails exactly if compiling fails. Otherwise its program is the one
that compiling gives, but for the order in which the kernels take their arguments: it was made
by a call so far in the same context, and it has the same source and kernels exactly if the
parameters of every pass come in the same order in both plans. -/
theorem cached_program_reorders {calls : List Call} (hdigits : Call.NoCollision calls) {i : Nat}
    {call : Call} (hcall : calls[i]? = some call) :
    ∃ result, (Call.run .empty calls)[i]? = some result ∧
      (∀ ds, result = .error ds ↔ compile call.options call.source = .error ds) ∧
      ∀ p, result = .ok p →
        ∃ (q : Program) (first : Call) (plan plan' : Plan),
          compile call.options call.source = .ok q ∧
          p.Reorders q ∧ first ∈ calls.take (i + 1) ∧
          first.options.context = call.options.context ∧
          compile first.options first.source = .ok p ∧ planSource first.options first.source =
            .ok plan ∧ planSource call.options call.source = .ok plan' ∧
          (p.source = q.source ∧ p.kernels = q.kernels ↔
            ∀ pass ∈ plan'.passes, plan.parameterOrder pass = plan'.parameterOrder pass) := by
  have hempty : Cache.MadeBy [] Cache.empty := fun e he => by cases he
  obtain ⟨result, hresult, hanswers⟩ := Call.run_answers hempty hcall
  rw [List.nil_append] at hanswers
  refine ⟨result, hresult, ?_⟩
  rcases hanswers with ⟨ds, hcompile, rfl⟩ | ⟨q, p, hq, rfl, hname, first, hfirst, hcontext, hp⟩
  · refine ⟨fun es => by simp [hcompile], fun p hp => by cases hp⟩
  · refine ⟨fun ds => by simp [hq], fun p' hp' => ?_⟩
    obtain rfl := Except.ok.inj hp'
    obtain ⟨plan, hplan⟩ := compiles_of_compile_eq hp
    obtain ⟨plan', hplan'⟩ := compiles_of_compile_eq hq
    -- The names agree, so the digits do, and then what they are made from.
    have hnames := hplan.name_eq.symm.trans (hname.trans hplan'.name_eq)
    have hsame := hdigits first (List.mem_of_mem_take hfirst) call
      (List.mem_of_getElem? hcall) _ _ hplan.named_eq hplan'.named_eq
      (nameDigits_eq_of_name_eq (length_programDigest ..) (length_programDigest ..) hnames)
    obtain ⟨hkey, hlocal⟩ := Prod.mk.inj hsame
    obtain ⟨hreorders, hiff⟩ := hplan.reorders hplan' hname hkey hlocal
    exact ⟨q, first, plan, plan', hq, hreorders, hfirst, hcontext, hp, hplan.planned,
      hplan'.planned, hiff⟩

/-- Two sources with the same statement, whose declarations come in another order. -/
def reorderedCalls : List Call :=
  [⟨.standard, "vector x, y; x = y;"⟩, ⟨.standard, "vector y, x; x = y;"⟩]

theorem named_reorderedCalls : ∀ call ∈ reorderedCalls,
    call.named.toOption = some ("p_vec_float_0assignvec_float_1_p", 128) := by
  decide +kernel

theorem noCollision_reorderedCalls : Call.NoCollision reorderedCalls := by
  intro c hc c' hc' x y hx hy _
  have hx' := named_reorderedCalls c hc
  have hy' := named_reorderedCalls c' hc'
  rw [hx] at hx'
  rw [hy] at hy'
  exact Option.some.inj (hx'.trans hy'.symm)

theorem exists_compiles_of_named {call : Call} {x : String × Nat}
    (h : call.named.toOption = some x) :
    ∃ plan program, Compiles call.options call.source plan program ∧ program.key = x.1 := by
  obtain ⟨y, hnamed, rfl⟩ := Outcome.exists_ok_of_map (f := id) (by simpa using h)
  obtain ⟨plan, hplan, -⟩ := Outcome.bind_eq_ok_iff.mp hnamed
  obtain ⟨program, hprogram⟩ := exists_compiles hplan
  exact ⟨plan, program, hprogram, congrArg Prod.fst
    (Except.ok.inj (hprogram.named_eq.symm.trans hnamed))⟩

theorem cached_program_reorders_second :
    Call.NoCollision reorderedCalls ∧ ∃ p q, (Call.run .empty reorderedCalls)[1]? = some (.ok p) ∧
      compile .standard "vector y, x; x = y;" = .ok q ∧ p.Reorders q := by
  refine ⟨noCollision_reorderedCalls, ?_⟩
  have hcall : reorderedCalls[1]? = some ⟨.standard, "vector y, x; x = y;"⟩ := rfl
  obtain ⟨result, hresult, herror, hok⟩ :=
    cached_program_reorders noCollision_reorderedCalls hcall
  obtain ⟨plan, q, hq, -⟩ :=
    exists_compiles_of_named (named_reorderedCalls _ (List.mem_of_getElem? hcall))
  cases result with
  | error ds =>
    have := (herror ds).mp rfl
    rw [hq.compile_eq] at this
    cases this
  | ok p =>
    obtain ⟨q', -, -, -, hq', hreorders, -⟩ := hok p rfl
    exact ⟨p, q', hresult, hq', hreorders⟩

theorem Compiles.parameters_eq {options : Options} {source : String} {plan : Plan}
    {program : Program} (h : Compiles options source plan program) :
    plan.passes.mapM plan.parameters = .ok (program.kernels.map (·.arguments)) := by
  obtain ⟨listing, -, -, hemit, -, -, -, -, -, -, hkernels⟩ := Plan.toProgram_eq_ok h.made
  obtain ⟨ks, hks, rfl⟩ := Plan.emit_eq_ok hemit
  rw [hkernels, List.map_map]
  refine Outcome.mapM_map_eq_ok (fun pass k hk => ?_) hks
  obtain ⟨ps, code, hps, -, rfl⟩ := Plan.kernel_eq_ok hk
  exact hps

theorem Compiles.arguments_eq {options : Options} {source : String} {plan : Plan}
    {program : Program} (h : Compiles options source plan program) {texts : List (List String)}
    (htexts : ((planSource options source).toOption.bind fun plan =>
      (plan.passes.mapM plan.parameters).toOption) = some texts) :
    program.kernels.map (·.arguments) = texts := by
  rw [h.planned] at htexts
  change (plan.passes.mapM plan.parameters).toOption = some texts at htexts
  rw [h.parameters_eq] at htexts
  exact Option.some.inj htexts

/-- A second call in the same context, for a program of the same name, gets the program of the
first. -/
theorem Call.run_second {first second : Call} (calls : List Call) {p q : Program}
    (hp : compile first.options first.source = .ok p)
    (hq : compile second.options second.source = .ok q)
    (hcontext : first.options.context = second.options.context) (hname : p.name = q.name) :
    (run .empty (first :: second :: calls))[1]? = some (.ok p) := by
  have hmiss :=
    compileCached_miss hp (rfl : Cache.empty.find? first.options.context p.name = none)
  have hfind : (compileCached first.options first.source .empty).2.find? second.options.context
      q.name = some p := by
    rw [hmiss, ← hcontext, ← hname]
    simp [Cache.insert, Cache.find?]
  have hhit := compileCached_hit hq hfind
  simp only [run, hhit, List.getElem?_cons_succ, List.getElem?_cons_zero]

/-- The second call gets a program that takes its arguments in another order than the program
of its own source. -/
theorem cached_arguments_reversed :
    ∃ p q, (Call.run .empty reorderedCalls)[1]? = some (.ok p) ∧
      compile .standard "vector y, x; x = y;" = .ok q ∧
      p.kernels.map (·.arguments) =
        [["__global float* arg0, unsigned int arg0_size",
          "__global float* arg1, unsigned int arg1_size"]] ∧
      q.kernels.map (·.arguments) =
        [["__global float* arg1, unsigned int arg1_size",
          "__global float* arg0, unsigned int arg0_size"]] := by
  obtain ⟨plan, p, hp, hkey⟩ := exists_compiles_of_named (named_reorderedCalls
    ⟨.standard, "vector x, y; x = y;"⟩ (by simp [reorderedCalls]))
  obtain ⟨plan', q, hq, hkey'⟩ := exists_compiles_of_named (named_reorderedCalls
    ⟨.standard, "vector y, x; x = y;"⟩ (by simp [reorderedCalls]))
  have hname : p.name = q.name := by rw [hp.name_eq, hq.name_eq, hkey, hkey']
  refine ⟨p, q, Call.run_second [] hp.compile_eq hq.compile_eq rfl hname, hq.compile_eq, ?_, ?_⟩
  · exact hp.arguments_eq (by decide +kernel)
  · exact hq.arguments_eq (by decide +kernel)

end LinearKernels
