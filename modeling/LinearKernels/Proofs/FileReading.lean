import LinearKernels.Proofs.Reading

/-!
Reading items and files. An item that is read without a complaint derives from the grammar,
and so does a file. A complaint about nesting needs a place in the file from which no
semicolon comes for a long time.
-/

namespace LinearKernels

open Grammar

namespace Cursor

/-! ### Items -/

/-- What reading an item leaves behind: as for `ReadsAs`, but a semicolon may be taken. -/
def Closes (P : List Lexeme → Prop) (deep : Prop) (c c' : Cursor) : Prop :=
  ∃ ws ds, c.Reads ws ds c' ∧ (ds = [] → P ws) ∧ ((∃ d ∈ ds, d.IsNesting) → deep)

theorem ReadsAs.close {P : List Lexeme → Prop} {deep : Prop} {c c' : Cursor}
    (h : ReadsAs P deep c c') :
    Closes (fun ws => ∃ us, ws = us ++ [.semicolon] ∧ P us) deep c (c'.expect .semicolon) := by
  obtain ⟨us, ds, hreads, -, hclean, hnesting⟩ := h
  unfold expect
  by_cases hat : c'.isAt .semicolon = true
  · rw [if_pos hat]
    have hlast := reads_advance (of_decide_eq_true hat)
    exact ⟨us ++ [.semicolon], ds ++ [], hreads.trans hlast,
      fun hds => ⟨us, rfl, hclean (by simpa using hds)⟩, by simpa using hnesting⟩
  · rw [if_neg hat]
    refine ⟨us ++ [], _, hreads.trans (reads_report c' _), by simp, ?_⟩
    rintro ⟨d, hd, hnest⟩
    rcases List.mem_append.mp hd with hd | hd
    · exact hnesting ⟨d, hd, hnest⟩
    · obtain rfl := List.mem_singleton.mp hd
      exact absurd (isNesting_diagnostic_iff.mp hnest) (by simp)

theorem readsAs_typeArg (deep : Prop) (c : Cursor) :
    ReadsAs (· = c.typeArg.1.value.words) deep c c.typeArg.2 := by
  have hkey := readsAs_identifier deep c
  unfold typeArg
  rcases eat?_cases c.identifier.2 .eq with ⟨hnone, -⟩ | ⟨hsome, hpeek⟩
  · simp only [hnone]
    exact hkey
  · simp only [hsome]
    have hsign := hkey.append (readsAs_advance deep hpeek (by simp))
    split
    · next n hinteger =>
      refine (hsign.append (readsAs_advance deep hinteger (by simp))).mono ?_ id
      rintro _ ⟨_, _, rfl, ⟨_, _, rfl, rfl, rfl⟩, rfl⟩
      rfl
    · have hreport : ReadsAs (fun _ => False) deep c.identifier.2.advance _ :=
        readsAs_report c.identifier.2.advance
          (.expectedInteger c.identifier.2.advance.peek?) (by simp)
      refine (hsign.append hreport).mono ?_ id
      rintro _ ⟨_, _, _, _, hfalse⟩
      exact hfalse.elim

/-- The arguments of a declared type, if there are any. -/
def typeArguments (c : Cursor) : List (Spanned TypeArg) × Cursor :=
  match c.eat? .lt with
  | none => ([], c)
  | some c =>
    let (args, c) := c.commaList .gt typeArg c.tokens.length
    (args, c.expect .gt)

theorem declaration_eq (kind : DeclKind) (c : Cursor) :
    c.declaration kind =
      let args := c.advance.typeArguments
      let first := args.2.identifier
      let more := first.2.moreIdentifiers first.2.tokens.length
      (⟨⟨⟨kind, args.1⟩, c.span.merge args.2.previousSpan⟩, first.1 :: more.1⟩,
        more.2.expect .semicolon) := by
  unfold declaration typeArguments
  rcases eat?_cases c.advance .lt with ⟨hnone, -⟩ | ⟨hsome, -⟩
  · simp only [hnone]
  · simp only [hsome]

theorem listed_values {args : List (Spanned TypeArg)} {ws : List Lexeme}
    (h : Listed (fun arg us => us = arg.value.words) args ws) :
    Listed (fun arg us => us = arg.words) (args.map (·.value)) ws := by
  induction h with
  | nil => exact .nil
  | last h => exact .last h
  | cons h _ ih => exact .cons h ih

/-- A keyword with the arguments after it is a type. -/
theorem readsAs_type (deep : Prop) {c : Cursor} {kind : DeclKind}
    (h : c.peek? = some (.keyword kind)) :
    ReadsAs (TypeDerives ⟨kind, c.advance.typeArguments.1.map (·.bare)⟩) deep c
      c.advance.typeArguments.2 := by
  have hkeyword := readsAs_advance deep h (by simp)
  unfold typeArguments
  rcases eat?_cases c.advance .lt with ⟨hnone, -⟩ | ⟨hsome, hpeek⟩
  · simp only [hnone]
    refine hkeyword.mono ?_ id
    rintro _ rfl
    exact .plain kind
  · simp only [hsome]
    have hopen := readsAs_advance deep hpeek (by simp)
    have hlist := readsAs_commaList (R := fun (arg : Spanned TypeArg) us => us =
      arg.value.words) .gt
      (fun c' _ => c'.readsAs_typeArg deep) c.advance.advance.tokens.length
        c.advance.advance (Nat.le_refl _)
    have hclose := readsAs_expect (l := .gt) deep
      (c.advance.advance.commaList .gt typeArg c.advance.advance.tokens.length).2 (by simp)
    refine (((hkeyword.append hopen).append hlist).append hclose).mono ?_ id
    rintro _ ⟨_, _, rfl, ⟨_, ws, rfl, ⟨_, _, rfl, rfl, rfl⟩, hws⟩, rfl⟩
    simpa [Function.comp_def, Spanned.bare] using TypeDerives.applied kind (listed_values hws)

theorem intersperse_cons (x : Lexeme) (xs : List Lexeme) :
    (x :: xs).intersperse .comma = x :: xs.flatMap fun y => [.comma, y] := by
  induction xs generalizing x with
  | nil => rfl
  | cons y xs ih => rw [List.intersperse_cons_cons, ih, List.flatMap_cons]; rfl

theorem closes_declaration {deep : Prop} {c : Cursor} {kind : DeclKind}
    (h : c.peek? = some (.keyword kind)) :
    Closes (ItemDerives (.declaration ((c.declaration kind).1.respell id))) deep c
      (c.declaration kind).2 := by
  rw [declaration_eq]
  have htype := readsAs_type deep h
  have hfirst := readsAs_identifier deep c.advance.typeArguments.2
  have hmore := readsAs_moreIdentifiers deep c.advance.typeArguments.2.identifier.2.tokens.length
    c.advance.typeArguments.2.identifier.2
  obtain ⟨ws, ds, hreads, hclean, hnesting⟩ := ((htype.append hfirst).append hmore).close
  refine ⟨ws, ds, hreads, fun hds => ?_, hnesting⟩
  obtain ⟨_, rfl, _, _, rfl, ⟨us, _, rfl, hus, rfl⟩, rfl⟩ := hclean hds
  have hnames : (c.declaration kind).1.names.map (·.value) ≠ [] := by
    rw [declaration_eq]
    simp
  have hitem := ItemDerives.declaration hus hnames
  rw [declaration_eq] at hitem
  simpa [Declaration.respell, intersperse_cons, List.flatMap_map, Function.comp_def] using hitem

/-- Without an assignment sign there is a complaint. -/
theorem assignment_eq_of_none {c : Cursor}
    (h : c.identifier.2.peek?.bind AssignOp.ofLexeme? = none) :
    c.assignment.2 = c.identifier.2.report (.expectedAssignment c.identifier.2.peek?) := by
  simp only [assignment, h]

theorem assignment_eq_of_some {c : Cursor} {op : AssignOp}
    (h : c.identifier.2.peek?.bind AssignOp.ofLexeme? = some op) :
    c.assignment = (⟨c.identifier.1, ⟨op, c.identifier.2.span⟩,
        (c.identifier.2.advance.expression maxNesting 0).1⟩,
      (c.identifier.2.advance.expression maxNesting 0).2.expect .semicolon) := by
  simp only [assignment, h]

theorem assignOp_ofLexeme?_eq_some_iff {l : Lexeme} {op : AssignOp} :
    AssignOp.ofLexeme? l = some op ↔ l = op.word := by
  cases l <;> cases op <;> simp [AssignOp.ofLexeme?, AssignOp.word]

theorem closes_assignment (c : Cursor) :
    Closes (ItemDerives (.assignment (c.assignment.1.respell id))) (maxNesting ≤ 2 * c.ahead) c
      c.assignment.2 := by
  have htarget := readsAs_identifier (maxNesting ≤ 2 * c.ahead) c
  cases hop : c.identifier.2.peek?.bind AssignOp.ofLexeme? with
  | none =>
    rw [assignment_eq_of_none hop]
    have hreport : ReadsAs (fun _ => False) (maxNesting ≤ 2 * c.ahead) c.identifier.2 _ :=
      readsAs_report c.identifier.2 (.expectedAssignment c.identifier.2.peek?) (by simp)
    obtain ⟨ws, ds, hreads, -, hclean, hnesting⟩ := htarget.append hreport
    refine ⟨ws, ds, hreads, fun hds => ?_, hnesting⟩
    obtain ⟨_, _, _, _, hfalse⟩ := hclean hds
    exact hfalse.elim
  | some op =>
    obtain ⟨l, hl, hword⟩ := Option.bind_eq_some_iff.mp hop
    obtain rfl := assignOp_ofLexeme?_eq_some_iff.mp hword
    have hne : op.word ≠ .semicolon := by cases op <;> simp [AssignOp.word]
    rw [assignment_eq_of_some hop]
    have hsign := readsAs_advance (maxNesting ≤ 2 * c.ahead) hl hne
    have hvalue := readsAs_expression maxNesting 0 c.identifier.2.advance
    have h₁ := htarget.ahead_le
    have h₂ := hsign.ahead_le
    obtain ⟨ws, ds, hreads, hclean, hnesting⟩ :=
      ((htarget.append hsign).append (hvalue.mono (fun _ h => h) (by omega))).close
    refine ⟨ws, ds, hreads, fun hds => ?_, hnesting⟩
    obtain ⟨_, rfl, _, ws, rfl, ⟨_, _, rfl, rfl, rfl⟩, hws⟩ := hclean hds
    exact ItemDerives.assignment c.identifier.1.value op hws

theorem closes_item (c : Cursor) :
    Closes (ItemDerives (c.item.1.respell id)) (maxNesting ≤ 2 * c.ahead) c c.item.2 := by
  unfold item
  split
  · next kind hpeek => exact closes_declaration hpeek
  · exact closes_assignment c

/-! ### Files -/

theorem exists_reads_advance (c : Cursor) : ∃ ws, c.Reads ws [] c.advance := by
  cases hpeek : c.peek? with
  | some l => exact ⟨[l], reads_advance hpeek⟩
  | none =>
    have hnil : c.tokens = [] := by simpa [peek?] using hpeek
    have hstay : c.advance = c := by
      unfold advance
      rw [hnil]
    refine ⟨[], ?_⟩
    rw [hstay]
    exact Reads.refl c

theorem exists_reads_skip (tokens : List Token) (c : Cursor) :
    ∃ ws, c.Reads ws [] (skipStatement.go tokens c) := by
  induction tokens generalizing c with
  | nil => exact ⟨[], Reads.refl c⟩
  | cons t rest ih =>
    obtain ⟨us, hus⟩ := c.exists_reads_advance
    rw [skipStatement.go]
    by_cases ht : t.value = .semicolon
    · rw [if_pos ht]
      exact ⟨us, hus⟩
    · rw [if_neg ht]
      obtain ⟨vs, hvs⟩ := ih c.advance
      exact ⟨us ++ vs, hus.trans hvs⟩

theorem exists_reads_recover (start c : Cursor) : ∃ ws, c.Reads ws [] (start.recover c) := by
  unfold recover
  split
  · exact ⟨[], Reads.refl c⟩
  · split
    · exact ⟨[], Reads.refl c⟩
    · exact c.exists_reads_skip c.tokens

theorem recover_eq_self {start c : Cursor} (h : c.diagnostics = start.diagnostics) :
    start.recover c = c := by
  unfold recover
  exact if_pos (Nat.le_of_eq (congrArg List.length h))

theorem itemList_succ (bound : Nat) (c : Cursor) :
    c.itemList (bound + 1) = if c.isAtEnd then ([], c)
      else (c.item.1 :: ((c.recover c.item.2).itemList bound).1,
        ((c.recover c.item.2).itemList bound).2) :=
  rfl

end Cursor

theorem Grammar.ItemDerives.ne_nil {item : Item} {ws : List Lexeme}
    (h : ItemDerives item ws) : ws ≠ [] := by
  cases h <;> simp

/-- Somewhere in the words, no semicolon comes for half as many words as there are levels. -/
def Crowded (ws : List Lexeme) : Prop :=
  ∃ us vs, ws = us ++ vs ∧ maxNesting ≤ 2 * (vs.takeWhile (· ≠ .semicolon)).length

theorem Crowded.of_append {us vs : List Lexeme} (h : Crowded vs) : Crowded (us ++ vs) := by
  obtain ⟨xs, ys, rfl, hlength⟩ := h
  exact ⟨us ++ xs, ys, (List.append_assoc us xs ys).symm, hlength⟩

namespace Cursor

/-- Items are read up to the end of the file, if there are no more of them than asked for. -/
theorem closes_itemList (bound : Nat) (c : Cursor) :
    Closes (fun ws => c.words.length ≤ bound → (c.itemList bound).2.words = [] ∧
        ∃ parts, ws = parts.flatten ∧ FileDerives ⟨(c.itemList bound).1.map (·.respell id)⟩ parts)
      (Crowded c.words) c (c.itemList bound).2 := by
  induction bound generalizing c with
  | zero =>
    refine ⟨[], [], Reads.refl c, fun _ hlength => ?_, by simp⟩
    exact ⟨List.eq_nil_of_length_eq_zero (Nat.le_zero.mp hlength), [], rfl, .nil⟩
  | succ bound ih =>
    rw [itemList_succ]
    by_cases hend : c.isAtEnd = true
    · rw [if_pos hend]
      have hnil : c.words = [] := by simpa [isAtEnd, words] using hend
      exact ⟨[], [], Reads.refl c, fun _ _ => ⟨hnil, [], rfl, .nil⟩, by simp⟩
    · rw [if_neg hend]
      obtain ⟨us, ds, hus, hclean, hnesting⟩ := c.closes_item
      obtain ⟨skipped, hskip⟩ := c.exists_reads_recover c.item.2
      obtain ⟨vs, es, hvs, hclean', hnesting'⟩ := ih (c.recover c.item.2)
      have hall := (hus.trans hskip).trans hvs
      refine ⟨_, _, hall, fun hnil hlength => ?_, ?_⟩
      · obtain ⟨hds, hes⟩ : ds = [] ∧ es = [] := by simpa using hnil
        have hstay : c.recover c.item.2 = c.item.2 :=
          recover_eq_self (by rw [hus.diagnostics, hds, List.append_nil])
        have hskipped : skipped = [] := by
          have := congrArg List.length hskip.words
          rw [hstay, List.length_append] at this
          exact List.eq_nil_of_length_eq_zero (by omega)
        have hitem := hclean hds
        have hpos := List.length_pos_of_ne_nil hitem.ne_nil
        have hrest : (c.recover c.item.2).words.length ≤ bound := by
          have := congrArg List.length (hus.trans hskip).words
          simp only [List.length_append] at this
          omega
        obtain ⟨hwords, parts, hparts, hderives⟩ := hclean' hes hrest
        refine ⟨hwords, us :: parts, ?_, .cons hitem hderives⟩
        rw [hskipped, hparts, List.append_nil, List.flatten_cons]
      · rintro ⟨d, hd, hnest⟩
        rcases List.mem_append.mp hd with hd | hd
        · exact ⟨[], c.words, rfl, hnesting ⟨d, by simpa using hd, hnest⟩⟩
        · rw [(hus.trans hskip).words]
          exact (hnesting' ⟨d, hd, hnest⟩).of_append

end Cursor

theorem parseTokens_eq (tokens : List Token) (finish : Span) :
    parseTokens tokens finish =
      if ((Cursor.ofTokens tokens finish).itemList tokens.length).2.diagnostics.isEmpty then
        .ok ⟨((Cursor.ofTokens tokens finish).itemList tokens.length).1⟩
      else .error ((Cursor.ofTokens tokens finish).itemList tokens.length).2.diagnostics :=
  rfl

/-- What is accepted derives from the grammar. -/
theorem derives_of_parseTokens {tokens : List Token} {finish : Span} {file : SourceFile}
    (h : parseTokens tokens finish = .ok file) :
    ∃ parts, FileDerives file.bare parts ∧ tokens.map (·.value) = parts.flatten := by
  obtain ⟨ws, ds, hreads, hclean, -⟩ :=
    (Cursor.ofTokens tokens finish).closes_itemList tokens.length
  rw [parseTokens_eq] at h
  split at h
  · next hempty =>
    obtain rfl := Except.ok.inj h
    have hds : ds = [] := by
      rw [hreads.diagnostics] at hempty
      simpa [Cursor.ofTokens] using hempty
    obtain ⟨hwords, parts, hparts, hderives⟩ :=
      hclean hds (by simp [Cursor.words, Cursor.ofTokens])
    refine ⟨parts, hderives, ?_⟩
    have := hreads.words
    rw [hwords, List.append_nil, hparts] at this
    exact this
  · cases h

/-- Nesting is complained about only where a semicolon is long in coming. -/
theorem crowded_of_nesting {tokens : List Token} {finish : Span} {ds : List Diagnostic}
    (h : parseTokens tokens finish = .error ds) {d : Diagnostic} (hd : d ∈ ds)
    (hnest : d.IsNesting) :
    Crowded (tokens.map (·.value)) := by
  obtain ⟨ws, es, hreads, -, hnesting⟩ :=
    (Cursor.ofTokens tokens finish).closes_itemList tokens.length
  rw [parseTokens_eq] at h
  split at h
  · cases h
  · obtain rfl := Except.error.inj h
    have hes : d ∈ es := by
      rw [hreads.diagnostics] at hd
      simpa [Cursor.ofTokens] using hd
    exact hnesting ⟨d, hes, hnest⟩

end LinearKernels
