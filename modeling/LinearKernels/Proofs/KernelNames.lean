import LinearKernels.Proofs.CacheRuns
import LinearKernels.Proofs.KernelText
import LinearKernels.Proofs.Lexemes
import LinearKernels.Proofs.PlanShape
import LinearKernels.Proofs.SettingsText

/-!
The names of kernels. A name is the stem of the settings, digits of the digest and the number of
the pass, with underscores between them. All of these are letters, digits and underscores, and
passes have numbers of their own, so the names of a program are different words. Whether a word
is an identifier is decided by its first character, which is that of the stem.
-/

namespace LinearKernels

/-! ### Words and identifiers -/

/-- Of the characters of words only digits cannot begin an identifier. -/
theorem begins_iff_not_isDigit {c : Char} (h : isWordChar c = true) :
    (c.isAlpha || c = '_') = true ↔ c.isDigit = false := by
  rw [Bool.or_eq_true, decide_eq_true_eq, Bool.eq_false_iff, ne_eq]
  constructor
  · rintro (halpha | rfl)
    · rw [isAlpha_iff_toNat] at halpha
      rw [Char.isDigit_iff_toNat]
      change ¬(48 ≤ c.toNat ∧ c.toNat ≤ 57)
      omega
    · decide
  · intro hdigit
    rcases isWordChar_iff.mp h with halpha | hd | hunderscore
    · exact .inl halpha
    · exact absurd hd hdigit
    · exact .inr hunderscore

def beginsWithDigit (text : String) : Bool :=
  text.toList.head?.any Char.isDigit

/-- A word is an identifier unless it begins with a digit. -/
theorem IsWord.isWordText_iff {text : String} (h : IsWord text) :
    IsWordText text ↔ beginsWithDigit text = false := by
  obtain ⟨c, cs, htext⟩ := List.exists_cons_of_ne_nil h.nonempty
  have hall := h.all
  rw [AllWord, htext] at hall
  obtain ⟨hc, hcs⟩ := List.forall_mem_cons.mp hall
  have hbegins : beginsWithDigit text = c.isDigit := by rw [beginsWithDigit, htext]; rfl
  rw [hbegins, ← begins_iff_not_isDigit hc]
  constructor
  · rintro ⟨d, ds, htext', hd, -⟩
    obtain ⟨rfl, -⟩ := List.cons.inj (htext.symm.trans htext')
    exact hd
  · intro hbegin
    exact ⟨c, cs, htext, hbegin, hcs⟩

theorem beginsWithDigit_append {u : String} (v : String) (h : u.toList ≠ []) :
    beginsWithDigit (u ++ v) = beginsWithDigit u := by
  obtain ⟨c, cs, hu⟩ := List.exists_cons_of_ne_nil h
  rw [beginsWithDigit, beginsWithDigit, String.toList_append, hu]
  rfl

/-! ### Parts of a name -/

theorem Settings.Valid.isWord_stem {s : Settings} (h : s.Valid) : IsWord s.stem :=
  ⟨fun hnil => h.nonempty (String.toList_eq_nil_iff.mp hnil), h.chars⟩

theorem allWord_nameDigits (digest : List UInt8) : AllWord (nameDigits digest) := by
  intro c hc
  rw [nameDigits, String.toList_ofList] at hc
  obtain ⟨b, -, hb⟩ := List.mem_flatMap.mp (List.mem_of_mem_take hc)
  have hbyte : (Digest.hexByte b).all isWordChar = true :=
    forall_byte (p := fun b => (Digest.hexByte b).all isWordChar) (by decide +kernel) b
  exact List.all_eq_true.mp hbyte c hb

theorem isWord_programName {stem : String} (h : IsWord stem) (key : String) (localSize : Nat) :
    IsWord (programName stem key localSize) :=
  (h.append (by decide)).append (allWord_nameDigits _)

namespace Plan

variable {plan : Plan}

theorem isWord_kernelName {program : String} (h : IsWord program) (pass : Pass) :
    IsWord (kernelName program pass) :=
  (h.append (by decide)).append (allWord_decimal pass.index)

theorem index_eq_of_kernelName_eq {program : String} {pass pass' : Pass}
    (h : kernelName program pass = kernelName program pass') : pass.index = pass'.index := by
  have hdigits := congrArg String.toList h
  simp only [kernelName, String.toList_append, List.append_cancel_left_eq] at hdigits
  rw [← decimalValue_toList_decimal pass.index, hdigits, decimalValue_toList_decimal]

/-- No two passes have the same number. -/
theorem WellFormed.pairwise_index {n : Nat} (h : plan.WellFormed n) :
    plan.passes.Pairwise fun pass pass' => pass.index ≠ pass'.index := by
  refine List.pairwise_iff_getElem.mpr fun i j hi hj hlt => ?_
  rw [h.index i _ (List.getElem?_eq_getElem hi), h.index j _ (List.getElem?_eq_getElem hj)]
  exact Nat.ne_of_lt hlt

end Plan

/-! ### Programs -/

namespace Compiles

variable {options : Options} {source : String} {plan : Plan} {program : Program}

/-- There is one kernel for each pass, named for it. -/
theorem names_eq (h : Compiles options source plan program) :
    program.kernels.map (·.name) = plan.passes.map (Plan.kernelName program.name) := by
  obtain ⟨listing, -, -, hemit, -, -, -, -, -, -, hkernels⟩ := Plan.toProgram_eq_ok h.made
  obtain ⟨ks, hks, rfl⟩ := Plan.emit_eq_ok hemit
  have hnames : plan.passes.mapM (fun pass => Except.ok (ε := Fault)
      (Plan.kernelName program.name pass)) = .ok (ks.map (·.1.name)) := by
    refine Outcome.mapM_map_eq_ok (fun pass k hk => ?_) hks
    obtain ⟨ps, code, -, -, rfl⟩ := Plan.kernel_eq_ok hk
    rfl
  rw [hkernels, List.map_map]
  exact Except.ok.inj (hnames.symm.trans (List.mapM_pure (m := Except Fault)))

theorem nodup_names (h : Compiles options source plan program) :
    (program.kernels.map (·.name)).Nodup := by
  obtain ⟨-, -, env, statements, d, hbuilt⟩ := planSource_built h.planned
  rw [h.names_eq]
  refine List.pairwise_map.mpr (hbuilt.wellFormed.pairwise_index.imp fun hne heq => ?_)
  exact hne (Plan.index_eq_of_kernelName_eq heq)

/-- A kernel's name is a word that begins as the stem does. -/
theorem kernel_name (h : Compiles options source plan program)
    (hstem : IsWord options.settings.stem) {k : Kernel} (hk : k ∈ program.kernels) :
    IsWord k.name ∧ beginsWithDigit k.name = beginsWithDigit options.settings.stem := by
  have hname : k.name ∈ plan.passes.map (Plan.kernelName program.name) :=
    h.names_eq ▸ List.mem_map_of_mem hk
  obtain ⟨pass, -, hpass⟩ := List.mem_map.mp hname
  have hprogram := isWord_programName hstem program.key options.settings.localSize
  rw [← h.name_eq] at hprogram
  refine ⟨hpass ▸ Plan.isWord_kernelName hprogram pass, ?_⟩
  rw [← hpass, Plan.kernelName, String.append_assoc, beginsWithDigit_append _ hprogram.nonempty,
    h.name_eq, programName, String.append_assoc, beginsWithDigit_append _ hstem.nonempty]

end Compiles

/-- Kernel names under settings that were read from a text. The kernels of a program have
different names of letters, digits and underscores, and the names are identifiers exactly if
the stem does not begin with a digit. -/
theorem kernel_names_legal_iff {text source : String} {options : Options} {program : Program}
    (hread : Settings.ofText text = .ok options.settings)
    (hcompile : compile options source = .ok program) :
    (program.kernels.map (·.name)).Nodup ∧ ∀ k ∈ program.kernels,
      IsWord k.name ∧ (IsWordText k.name ↔ beginsWithDigit options.settings.stem = false) := by
  obtain ⟨plan, hplan⟩ := compiles_of_compile_eq hcompile
  have hvalid : options.settings.Valid := Settings.valid_standard.readLines hread
  refine ⟨hplan.nodup_names, fun k hk => ?_⟩
  obtain ⟨hword, hbegins⟩ := hplan.kernel_name hvalid.isWord_stem hk
  exact ⟨hword, by rw [hword.isWordText_iff, hbegins]⟩

/-- Settings with the given stem. -/
def stemOptions (stem : String) : Options :=
  { Options.standard with settings := { Settings.standard with stem } }

theorem exists_kernels (options : Options) (source : String) {n : Nat}
    (h : (planSource options source).toOption.map (·.passes.length) = some n) :
    ∃ plan program, Compiles options source plan program ∧ program.kernels.length = n := by
  obtain ⟨plan, hplan, hlength⟩ := Outcome.exists_ok_of_map h
  obtain ⟨program, hprogram⟩ := exists_compiles hplan
  refine ⟨plan, program, hprogram, ?_⟩
  have hnames := congrArg List.length hprogram.names_eq
  rwa [List.length_map, List.length_map, hlength] at hnames

/-- Five kernels under a stem that ends with a digit. -/
theorem kernel_names_legal_iff_blas1 :
    Settings.ofText "[generator]\nprefix = \"_blas1\" # ours\n" =
      .ok (stemOptions "_blas1").settings ∧
      ∃ program, compile (stemOptions "_blas1") interleavedSource = .ok program ∧
        program.kernels.length = 5 ∧
        (program.kernels.map (·.name)).Nodup ∧ ∀ k ∈ program.kernels, IsWordText k.name := by
  have hread : Settings.ofText "[generator]\nprefix = \"_blas1\" # ours\n" =
      .ok (stemOptions "_blas1").settings := by
    decide +kernel
  obtain ⟨plan, program, hprogram, hlength⟩ :=
    exists_kernels (stemOptions "_blas1") interleavedSource (n := 5) (by decide +kernel)
  obtain ⟨hnodup, hnames⟩ := kernel_names_legal_iff hread hprogram.compile_eq
  exact ⟨hread, program, hprogram.compile_eq, hlength, hnodup,
    fun k hk => (hnames k hk).2.mpr (by decide +kernel)⟩

/-- A stem may begin with a digit, and then so do the names of kernels. -/
theorem kernel_name_begins_with_digit :
    Settings.ofText "[generator]\nprefix = 3d\n" = .ok (stemOptions "3d").settings ∧
      ∃ program, compile (stemOptions "3d") "vector x, y; x = y;" = .ok program ∧
        ∃ k ∈ program.kernels, ¬ IsWordText k.name := by
  have hread : Settings.ofText "[generator]\nprefix = 3d\n" =
      .ok (stemOptions "3d").settings := by decide +kernel
  obtain ⟨plan, program, hprogram, hlength⟩ :=
    exists_kernels (stemOptions "3d") "vector x, y; x = y;" (n := 1) (by decide +kernel)
  obtain ⟨k, hk⟩ := List.length_eq_one_iff.mp hlength
  have hmem : k ∈ program.kernels := by rw [hk]; exact List.mem_singleton_self k
  have hvalid : (stemOptions "3d").settings.Valid := Settings.valid_standard.readLines hread
  obtain ⟨hword, hbegins⟩ := hprogram.kernel_name hvalid.isWord_stem hmem
  refine ⟨hread, program, hprogram.compile_eq, k, hmem, fun hidentifier => ?_⟩
  rw [hword.isWordText_iff, hbegins] at hidentifier
  exact absurd hidentifier (by decide +kernel)

end LinearKernels
