import LinearKernels.Proofs.NestingCounter

/-!
Items are read one by one. What an item is read as depends on nothing behind its semicolon. So
the items and complaints of two token lists, the first of which ends with a semicolon, are those
of the one followed by those of the other; and a malformed item changes nothing about the items
after its semicolon.
-/

namespace LinearKernels

/-- What lies around a part of a file: the complaints before it, and the tokens after it with
the end of the file, unless the part is the last. -/
structure Surroundings where
  diagnostics : List Diagnostic
  following : Option (List Token × Span)

namespace Cursor

variable {s : Surroundings} {c c' : Cursor} {l : Lexeme} {α : Type}

/-- A cursor on a part of a file, seen in the whole file. -/
def within (s : Surroundings) (c : Cursor) : Cursor where
  tokens := c.tokens ++ s.following.elim [] Prod.fst
  previous := c.previous
  finish := s.following.elim c.finish Prod.snd
  diagnostics := s.diagnostics ++ c.diagnostics

/-- A semicolon comes before whatever follows the part. -/
def Fenced (s : Surroundings) (c : Cursor) : Prop :=
  .semicolon ∈ c.words ∨ s.following = none

theorem Fenced.passes (h : c.Fenced s) (hpass : c.Passes c') : c'.Fenced s := by
  obtain ⟨ws, ds, hreads, hfree⟩ := hpass.reads
  rcases h with hmem | hlast
  · rw [hreads.words] at hmem
    exact .inl ((List.mem_append.mp hmem).resolve_left hfree)
  · exact .inr hlast

/-! ### A part and the whole -/

/-- A fenced cursor is on a token that is in the whole file, too, or at the end of both. -/
theorem Fenced.cases (h : c.Fenced s) : s.following = none ∨ ∃ t rest, c.tokens = t :: rest := by
  rcases h with hmem | hlast
  · cases htokens : c.tokens with
    | nil => simp [words, htokens] at hmem
    | cons t rest => exact .inr ⟨t, rest, rfl⟩
  · exact .inl hlast

theorem Fenced.peek? (h : c.Fenced s) : (c.within s).peek? = c.peek? := by
  rcases h.cases with hlast | ⟨t, rest, htokens⟩
  · simp [Cursor.peek?, within, hlast]
  · simp [Cursor.peek?, within, htokens]

theorem Fenced.span (h : c.Fenced s) : (c.within s).span = c.span := by
  rcases h.cases with hlast | ⟨t, rest, htokens⟩
  · simp [Cursor.span, within, hlast]
  · simp [Cursor.span, within, htokens]

theorem Fenced.previousSpan (h : c.Fenced s) : (c.within s).previousSpan = c.previousSpan := by
  unfold Cursor.previousSpan
  rw [h.span]
  rfl

theorem Fenced.isAtEnd (h : c.Fenced s) : (c.within s).isAtEnd = c.isAtEnd := by
  rcases h.cases with hlast | ⟨t, rest, htokens⟩
  · simp [Cursor.isAtEnd, within, hlast]
  · simp [Cursor.isAtEnd, within, htokens]

theorem Fenced.isAt (h : c.Fenced s) (l : Lexeme) : (c.within s).isAt l = c.isAt l := by
  unfold Cursor.isAt
  rw [h.peek?]

theorem Fenced.operator? (h : c.Fenced s) : (c.within s).operator? = c.operator? := by
  unfold Cursor.operator?
  rw [h.peek?]

theorem Fenced.advance (h : c.Fenced s) : (c.within s).advance = c.advance.within s := by
  rcases h.cases with hlast | ⟨t, rest, htokens⟩
  · cases htokens : c.tokens with
    | nil => simp [Cursor.advance, within, hlast, htokens]
    | cons t rest => simp [Cursor.advance, within, hlast, htokens]
  · simp [Cursor.advance, within, htokens]

theorem Fenced.report (h : c.Fenced s) (fault : SyntaxFault) :
    (c.within s).report fault = (c.report fault).within s := by
  unfold Cursor.report
  rw [h.span]
  simp [within]

theorem Fenced.expect (h : c.Fenced s) (l : Lexeme) :
    (c.within s).expect l = (c.expect l).within s := by
  unfold Cursor.expect
  rw [h.isAt, h.peek?, h.advance, h.report]
  split <;> rfl

theorem Fenced.eat? (h : c.Fenced s) (l : Lexeme) :
    (c.within s).eat? l = (c.eat? l).map (within s) := by
  unfold Cursor.eat?
  rw [h.isAt, h.advance]
  split <;> rfl

/-- The reader reads the same from a fenced cursor in a part and in the whole. -/
def Local (s : Surroundings) (f : Cursor → α × Cursor) : Prop :=
  ∀ c : Cursor, c.Fenced s → f (c.within s) = ((f c).1, (f c).2.within s)

theorem local_identifier (s : Surroundings) : Local s identifier := by
  intro c h
  unfold identifier
  rw [h.peek?, h.span, h.advance]
  split
  · rfl
  · rw [h.report]

/-! ### Lists -/

/-- The lexeme that stops a list is not looked for behind the fence. -/
theorem Fenced.stops (h : c.Fenced s) (stop : Lexeme) :
    ((c.within s).isAtEnd || (c.within s).isAt stop) = (c.isAtEnd || c.isAt stop) := by
  rw [h.isAtEnd, h.isAt]

/-- Past the number of tokens, the bound on a list does not matter. -/
theorem Local.commaList {entry : Cursor → α × Cursor} (hentry : Local s entry)
    (hpass : ∀ c : Cursor, c.Passes (entry c).2) (stop : Lexeme) {n m : Nat} (hc : c.Fenced s)
    (hn : c.tokens.length ≤ n) (hm : c.tokens.length ≤ m) :
    (c.within s).commaList stop entry n =
      ((c.commaList stop entry m).1, (c.commaList stop entry m).2.within s) := by
  have hempty : ∀ {c : Cursor}, c.tokens.length ≤ 0 → c.isAtEnd = true := by
    intro c hlength
    simpa [Cursor.isAtEnd] using hlength
  induction n generalizing c m with
  | zero =>
    cases m with
    | zero => rfl
    | succ m =>
      rw [commaList_succ, if_pos (by rw [hempty hn]; rfl)]
      rfl
  | succ n ih =>
    cases m with
    | zero =>
      rw [commaList_succ, hc.stops, if_pos (by rw [hempty hm]; rfl)]
      rfl
    | succ m =>
      rw [commaList_succ, commaList_succ, hc.stops]
      by_cases hstop : (c.isAtEnd || c.isAt stop) = true
      · rw [if_pos hstop, if_pos hstop]
      · rw [if_neg hstop, if_neg hstop, hentry c hc]
        have hafter := hc.passes (hpass c)
        have hle := (hpass c).length_le
        rw [hafter.eat?]
        rcases eat?_cases (entry c).2 .comma with ⟨hnone, -⟩ | ⟨hsome, hpeek⟩
        · rw [hnone]
          rfl
        · rw [hsome, Option.map_some]
          have hcomma := passes_advance hpeek (by simp)
          have hlength := length_advance hpeek
          have hrest := ih (m := m) (hafter.passes hcomma) (by omega) (by omega)
          simp only [hrest]

theorem local_moreIdentifiers {n m : Nat} (hc : c.Fenced s) (hn : c.tokens.length ≤ n)
    (hm : c.tokens.length ≤ m) :
    (c.within s).moreIdentifiers n = ((c.moreIdentifiers m).1,
      (c.moreIdentifiers m).2.within s) := by
  have hempty : ∀ {c : Cursor}, c.tokens.length ≤ 0 → c.eat? .comma = none := by
    intro c hlength
    have hnil : c.tokens = [] := List.eq_nil_of_length_eq_zero (by omega)
    simp [Cursor.eat?, Cursor.isAt, Cursor.peek?, hnil]
  induction n generalizing c m with
  | zero =>
    cases m with
    | zero => rfl
    | succ m =>
      rw [moreIdentifiers_succ, hempty hn]
      rfl
  | succ n ih =>
    cases m with
    | zero =>
      rw [moreIdentifiers_succ, hc.eat?, hempty hm]
      rfl
    | succ m =>
      rw [moreIdentifiers_succ, moreIdentifiers_succ, hc.eat?]
      rcases eat?_cases c .comma with ⟨hnone, -⟩ | ⟨hsome, hpeek⟩
      · rw [hnone]
        rfl
      · rw [hsome, Option.map_some]
        have hcomma := hc.passes (passes_advance hpeek (by simp))
        have hname := passes_identifier c.advance
        have hlength := length_advance hpeek
        have hle := hname.length_le
        have hrest := ih (m := m) (hcomma.passes hname) (by omega) (by omega)
        simp only [local_identifier s _ hcomma, hrest]

/-! ### Expressions -/

theorem local_operand {parse : Nat → Cursor → Expr × Cursor} (hparse : ∀ p, Local s (parse p))
    (hpass : ∀ p (c : Cursor), c.Passes (parse p c).2) : Local s (operand parse) := by
  intro c hc
  unfold operand
  rw [hc.peek?, hc.span]
  cases hpeek : c.peek? with
  | none => simp only [hc.report]
  | some l =>
    have hafter : l ≠ .semicolon → c.advance.Fenced s := fun hl =>
      hc.passes (passes_advance hpeek hl)
    cases l with
    | minus =>
      have hadvance := hafter (by simp)
      simp only [hc.advance, hparse Operator.negPower _ hadvance]
    | lparen =>
      have hadvance := hafter (by simp)
      have hinner := hadvance.passes (hpass 0 c.advance)
      have hclosed := hinner.passes (passes_expect (l := .rparen) _ (by simp))
      simp only [hc.advance, hparse 0 _ hadvance, hinner.expect, hclosed.previousSpan]
    | ident name =>
      have hadvance := hafter (by simp)
      simp only [hc.advance, hadvance.eat?]
      rcases eat?_cases c.advance .lparen with ⟨hnone, -⟩ | ⟨hsome, hparen⟩
      · simp only [hnone, Option.map_none]
      · simp only [hsome, Option.map_some]
        have hopened := hadvance.passes (passes_advance hparen (by simp))
        have hlisted := hopened.passes
          (passes_commaList (hpass 0) .rparen c.advance.advance.tokens.length c.advance.advance)
        have hclosed := hlisted.passes (passes_expect (l := .rparen) _ (by simp))
        rw [(hparse 0).commaList (m := c.advance.advance.tokens.length) (hpass 0) .rparen hopened
          (by simp [within]) (Nat.le_refl _)]
        simp only [hlisted.expect, hclosed.previousSpan]
    | integer n =>
      have hreport := hc.passes (passes_report c .numericConstant)
      simp only [hc.report, hreport.advance]
    | keyword | rparen | comma | semicolon | lt | gt | eq | plusEq | minusEq | plus | star | slash
      | dotStar | dotSlash =>
      simp only [hc.report]

/-- The operators after an operand are found alike. -/
def LocalChain (s : Surroundings) (b : Nat) : Prop :=
  ∀ power lhs (c : Cursor), c.Fenced s →
    chain b power lhs (c.within s) = ((chain b power lhs c).1, (chain b power lhs c).2.within s)

theorem Fenced.stops_within (h : c.Fenced s) {power : Nat} (hstop : c.Stops power) :
    (c.within s).Stops power := by
  intro op hop
  rw [h.operator?] at hop
  exact hstop op hop

theorem localChain_zero : LocalChain s 0 := by
  intro power lhs c hc
  rcases stops_or_operator? c power with hstop | ⟨op, hop, hpower⟩
  · rw [chain_of_stops hstop, chain_of_stops (hc.stops_within hstop)]
  · have hop' : (c.within s).operator? = some op := by rw [hc.operator?, hop]
    rw [chain_zero_of_operator? hop hpower, chain_zero_of_operator? hop' hpower, hc.report]

variable {b : Nat}

theorem localChain_succ (hexpr : ∀ power, Local s (expression b power))
    (hchain : LocalChain s b) :
    LocalChain s (b + 1) := by
  intro power lhs c hc
  rcases stops_or_operator? c power with hstop | ⟨op, hop, hpower⟩
  · rw [chain_of_stops hstop, chain_of_stops (hc.stops_within hstop)]
  · have hop' : (c.within s).operator? = some op := by rw [hc.operator?, hop]
    have hadvance := hc.passes (passes_advance (peek?_of_operator? hop) op.word_ne_semicolon)
    rw [chain_succ_of_operator? hop hpower, chain_succ_of_operator? hop' hpower, hc.advance,
      hexpr op.rightPower _ hadvance]
    exact hchain power _ _ (hadvance.passes (passes_expression b op.rightPower c.advance))

theorem local_expression_succ (hexpr : ∀ power, Local s (expression b power))
    (hchain : LocalChain s b) (power : Nat) : Local s (expression (b + 1) power) := by
  intro c hc
  rw [expression_succ, expression_succ, local_operand hexpr (passes_expression b) c hc]
  exact hchain power _ _ (hc.passes (passes_operand (passes_expression b) c))

theorem local_expression_chain (s : Surroundings) (b : Nat) :
    (∀ power, Local s (expression b power)) ∧ LocalChain s b := by
  induction b with
  | zero =>
    refine ⟨fun power c hc => ?_, localChain_zero⟩
    rw [expression_zero, expression_zero, hc.span, hc.report]
  | succ b ih => exact ⟨local_expression_succ ih.1 ih.2, localChain_succ ih.1 ih.2⟩

/-! ### Items -/

theorem local_typeArg (s : Surroundings) : Local s typeArg := by
  intro c hc
  have hkey := hc.passes (passes_identifier c)
  unfold typeArg
  simp only [local_identifier s c hc, hkey.eat?]
  rcases eat?_cases c.identifier.2 .eq with ⟨hnone, -⟩ | ⟨hsome, hpeek⟩
  · simp only [hnone, Option.map_none]
  · simp only [hsome, Option.map_some]
    have hsign := hkey.passes (passes_advance hpeek (by simp))
    rw [hsign.peek?]
    split
    · next n hinteger =>
      have hvalue := hsign.passes (passes_advance hinteger (by simp))
      simp only [hsign.advance, hvalue.previousSpan]
    · have hreport :=
        hsign.passes (passes_report _ (.expectedInteger c.identifier.2.advance.peek?))
      simp only [hsign.report, hreport.previousSpan]

theorem local_typeArguments (s : Surroundings) : Local s typeArguments := by
  intro c hc
  unfold typeArguments
  rw [hc.eat?]
  rcases eat?_cases c .lt with ⟨hnone, -⟩ | ⟨hsome, hpeek⟩
  · simp only [hnone, Option.map_none]
  · simp only [hsome, Option.map_some]
    have hopened := hc.passes (passes_advance hpeek (by simp))
    have hlisted :=
      hopened.passes (passes_commaList passes_typeArg .gt c.advance.tokens.length c.advance)
    rw [(local_typeArg s).commaList (m := c.advance.tokens.length) passes_typeArg .gt hopened
      (by simp [within]) (Nat.le_refl _)]
    simp only [hlisted.expect]

/-! ### Items and what follows them -/

theorem Passes.within (h : c.Passes c') (hc : c.Fenced s) :
    (c.within s).Passes (c'.within s) := by
  induction h with
  | refl => exact Passes.refl _
  | @take c' l h hpeek hl ih =>
    have hfenced := hc.passes h
    rw [← hfenced.advance]
    exact ih.take (hfenced.peek?.trans hpeek) hl
  | @report c' h fault ih =>
    rw [← (hc.passes h).report]
    exact ih.report fault

theorem local_declaration {kind : DeclKind} (hpeek : c.peek? = some (.keyword kind))
    (hc : c.Fenced s) :
    (c.within s).declaration kind = ((c.declaration kind).1,
      (c.declaration kind).2.within s) := by
  have hkeyword := hc.passes (passes_advance hpeek (by simp))
  have htype := hkeyword.passes (passes_typeArguments c.advance)
  have hfirst := htype.passes (passes_identifier c.advance.typeArguments.2)
  have hmore :=
    hfirst.passes (passes_moreIdentifiers c.advance.typeArguments.2.identifier.2.tokens.length _)
  rw [declaration_eq, declaration_eq]
  simp only [hc.advance, hc.span, local_typeArguments s _ hkeyword, htype.previousSpan,
    local_identifier s _ htype]
  rw [local_moreIdentifiers (m := c.advance.typeArguments.2.identifier.2.tokens.length) hfirst
    (by simp [within]) (Nat.le_refl _)]
  simp only [hmore.expect]

theorem local_assignment (s : Surroundings) : Local s assignment := by
  intro c hc
  have hname := hc.passes (passes_identifier c)
  unfold assignment
  simp only [local_identifier s c hc, hname.peek?, hname.span, hname.report, hname.advance]
  cases hop : c.identifier.2.peek?.bind AssignOp.ofLexeme? with
  | none => rfl
  | some op =>
    obtain ⟨l, hl, hword⟩ := Option.bind_eq_some_iff.mp hop
    obtain rfl := assignOp_ofLexeme?_eq_some_iff.mp hword
    have hsign := hname.passes (passes_advance hl (by cases op <;> simp [AssignOp.word]))
    have hvalue := hsign.passes (passes_expression maxNesting 0 c.identifier.2.advance)
    simp only [(local_expression_chain s maxNesting).1 0 _ hsign, hvalue.expect]

theorem local_item (s : Surroundings) : Local s item := by
  intro c hc
  unfold item
  rw [hc.peek?]
  split
  · next kind hpeek => simp only [local_declaration hpeek hc]
  · simp only [local_assignment s c hc]

theorem Fenced.skipStatement (hc : c.Fenced s) :
    (c.within s).skipStatement = c.skipStatement.within s := by
  have hgo : ∀ (tokens : List Token) (c : Cursor), c.tokens = tokens → c.Fenced s →
      skipStatement.go (tokens ++ s.following.elim [] Prod.fst) (c.within s) =
        (skipStatement.go tokens c).within s := by
    intro tokens
    induction tokens with
    | nil =>
      intro c htokens hc
      have hlast : s.following = none := by simpa [Fenced, words, htokens] using hc
      simp [skipStatement.go, hlast]
    | cons t rest ih =>
      intro c htokens hc
      have hpeek : c.peek? = some t.value := by simp [Cursor.peek?, htokens]
      rw [List.cons_append, skipStatement.go, skipStatement.go, hc.advance]
      by_cases ht : t.value = .semicolon
      · rw [if_pos ht, if_pos ht]
      · rw [if_neg ht, if_neg ht]
        exact ih c.advance (by simp [Cursor.advance, htokens])
          (hc.passes (passes_advance hpeek ht))
  exact hgo c.tokens c rfl hc

theorem Fenced.afterItem (hc : c.Fenced s) : (c.within s).afterItem = c.afterItem.within s := by
  unfold Cursor.afterItem
  rw [local_item s c hc]
  rcases c.item_cases with ⟨c₁, fault, hpass, heq⟩ | ⟨c₁, hpass, hpeek, heq⟩
  · have hc₁ := hc.passes hpass
    rw [heq, recover_report hpass, ← hc₁.report, recover_report (hpass.within hc), hc₁.report]
    exact (hc₁.passes (passes_report c₁ fault)).skipStatement
  · have hc₁ := hc.passes hpass
    have hpeek' : (c₁.within s).peek? = some .semicolon := hc₁.peek?.trans hpeek
    rw [heq, recover_advance hpass hpeek, ← hc₁.advance, recover_advance (hpass.within hc) hpeek']

/-! ### The token before an item -/

/-- The cursor with another token before it. -/
def restart (previous : Option Token) (c : Cursor) : Cursor :=
  { c with previous }

theorem advance_restart (previous : Option Token) (h : c.peek? = some l) :
    (c.restart previous).advance = c.advance := by
  cases htokens : c.tokens with
  | nil => simp [peek?, htokens] at h
  | cons t rest => simp [advance, restart, htokens]

theorem declaration_restart {kind : DeclKind} (previous : Option Token)
    (h : c.peek? = some (.keyword kind)) :
    (c.restart previous).declaration kind = c.declaration kind := by
  rw [declaration_eq, declaration_eq, advance_restart previous h]
  rfl

theorem identifier_restart (previous : Option Token) (c : Cursor) :
    (c.restart previous).identifier = c.identifier ∨
      (c.restart previous).identifier = (c.identifier.1, c.identifier.2.restart previous) ∧
        ∃ fault, c.identifier.2 = c.report fault := by
  have hpeek : (c.restart previous).peek? = c.peek? := rfl
  unfold identifier
  rw [hpeek]
  split
  · next name hname =>
    rw [advance_restart previous hname]
    exact .inl rfl
  · exact .inr ⟨rfl, _, rfl⟩

/-- An assignment ends at the same cursor, whatever token came before it, unless it takes none
itself. -/
theorem assignment_restart (previous : Option Token) (c : Cursor) :
    (c.restart previous).assignment = c.assignment ∨
      (c.restart previous).assignment = (c.assignment.1, c.assignment.2.restart previous) ∧
        ∃ fault fault', c.assignment.2 = (c.report fault).report fault' := by
  unfold assignment
  rcases identifier_restart previous c with hsame | ⟨hname, fault, hfault⟩
  · rw [hsame]
    exact .inl rfl
  · have hpeek : (c.identifier.2.restart previous).peek? = c.identifier.2.peek? := rfl
    have hspan : (c.identifier.2.restart previous).span = c.identifier.2.span := rfl
    simp only [hname, hpeek, hspan]
    cases hop : c.identifier.2.peek?.bind AssignOp.ofLexeme? with
    | none => exact .inr ⟨rfl, fault, _, by rw [hfault]⟩
    | some op =>
      obtain ⟨l, hl, -⟩ := Option.bind_eq_some_iff.mp hop
      rw [advance_restart previous hl]
      exact .inl rfl

theorem skipStatement_restart (previous : Option Token) (h : c.isAtEnd = false) :
    (c.restart previous).skipStatement = c.skipStatement := by
  cases htokens : c.tokens with
  | nil => simp [isAtEnd, htokens] at h
  | cons t rest => simp [skipStatement, skipStatement.go, restart, advance, htokens]

/-- An item is read alike, whatever token came before it. -/
theorem item_restart (previous : Option Token) (h : c.isAtEnd = false) :
    (c.restart previous).item.1 = c.item.1 ∧ (c.restart previous).afterItem = c.afterItem := by
  have hpeek : (c.restart previous).peek? = c.peek? := rfl
  unfold afterItem item
  rw [hpeek]
  split
  · next kind hkind =>
    rw [declaration_restart previous hkind]
    exact ⟨rfl, rfl⟩
  · rcases assignment_restart previous c with hsame | ⟨hassignment, fault, fault', hfault⟩
    · rw [hsame]
      exact ⟨rfl, rfl⟩
    · have hpass := (passes_report c fault)
      have hpass' := passes_report (c.restart previous) fault
      simp only [hassignment, hfault]
      refine ⟨trivial, ?_⟩
      rw [recover_report hpass]
      refine (recover_report hpass' fault').trans ?_
      exact skipStatement_restart previous (c := (c.report fault).report fault') h

/-! ### Files -/

/-- Past the number of tokens, the bound on the items does not matter. -/
theorem itemList_eq_of_length_le {n m : Nat} (hn : c.tokens.length ≤ n)
    (hm : c.tokens.length ≤ m) :
    c.itemList n = c.itemList m := by
  induction n generalizing c m with
  | zero =>
    have hend : c.isAtEnd = true := by simpa [isAtEnd] using hn
    rw [itemList_eq_nil 0 hend, itemList_eq_nil m hend]
  | succ n ih =>
    cases hend : c.isAtEnd with
    | true => rw [itemList_eq_nil _ hend, itemList_eq_nil _ hend]
    | false =>
      have hlt := length_afterItem hend
      obtain ⟨m, rfl⟩ : ∃ k, m = k + 1 := ⟨m - 1, by omega⟩
      have hrest := ih (m := m) (show c.afterItem.tokens.length ≤ n by omega) (by omega)
      rw [itemList_cons n hend, itemList_cons m hend, hrest]

theorem itemList_restart (previous : Option Token) (n : Nat) (c : Cursor) :
    ((c.restart previous).itemList n).1 = (c.itemList n).1 ∧
      ((c.restart previous).itemList n).2.diagnostics = (c.itemList n).2.diagnostics := by
  cases n with
  | zero => exact ⟨rfl, rfl⟩
  | succ n =>
    cases hend : c.isAtEnd with
    | true =>
      rw [itemList_eq_nil _ hend, itemList_eq_nil (c := c.restart previous) _ hend]
      exact ⟨rfl, rfl⟩
    | false =>
      obtain ⟨hitem, hafter⟩ := item_restart previous hend
      rw [itemList_cons n hend, itemList_cons (c := c.restart previous) n hend, hitem, hafter]
      exact ⟨rfl, rfl⟩

/-- All tokens are taken, if the bound on the items is no smaller than their number. -/
theorem tokens_itemList {n : Nat} (hn : c.tokens.length ≤ n) : (c.itemList n).2.tokens = [] := by
  induction n generalizing c with
  | zero => exact List.eq_nil_of_length_eq_zero (Nat.le_zero.mp hn)
  | succ n ih =>
    cases hend : c.isAtEnd with
    | true =>
      rw [itemList_eq_nil _ hend]
      simpa [isAtEnd] using hend
    | false =>
      have hlt := length_afterItem hend
      rw [itemList_cons n hend]
      exact ih (by omega)

/-- The part ends with a semicolon, or nothing follows it. -/
def Finished (s : Surroundings) (c : Cursor) : Prop :=
  s.following = none ∨ ∀ l, c.words.getLast? = some l → l = .semicolon

theorem Finished.fenced (h : c.Finished s) (hend : c.isAtEnd = false) : c.Fenced s := by
  rcases h with hlast | hsemicolon
  · exact .inr hlast
  · have hne : c.words ≠ [] := by simpa [words, isAtEnd] using hend
    have hmem := List.getLast_mem hne
    rw [hsemicolon _ (List.getLast?_eq_some_getLast hne)] at hmem
    exact .inl hmem

theorem Finished.afterItem (h : c.Finished s) : c.afterItem.Finished s := by
  rcases h with hlast | hsemicolon
  · exact .inl hlast
  · refine .inr fun l hl => hsemicolon l ?_
    have hsuffix : c.afterItem.words <:+ c.words := by
      rw [words_afterItem]
      exact (List.tail_suffix _).trans (List.dropWhile_suffix _)
    obtain ⟨ws, hws⟩ := hsuffix
    rw [← hws, List.getLast?_append, hl]
    rfl

/-- The items of a part are the first items of the whole, and the others are read from where
the part ends. -/
theorem Finished.itemList (h : c.Finished s) {n m : Nat} (hn : (c.within s).tokens.length ≤ n)
    (hm : c.tokens.length ≤ m) :
    (c.within s).itemList n =
      ((c.itemList m).1 ++ (((c.itemList m).2.within s).itemList n).1,
        (((c.itemList m).2.within s).itemList n).2) := by
  induction m generalizing c n with
  | zero =>
    have hend : c.isAtEnd = true := by simpa [isAtEnd] using hm
    rw [itemList_eq_nil 0 hend, List.nil_append]
  | succ m ih =>
    cases hend : c.isAtEnd with
    | true => rw [itemList_eq_nil _ hend, List.nil_append]
    | false =>
      have hc := h.fenced hend
      have hlt := length_afterItem hend
      have hend' : (c.within s).isAtEnd = false := hc.isAtEnd.trans hend
      have hlt' := length_afterItem hend'
      rw [hc.afterItem] at hlt'
      obtain ⟨n, rfl⟩ : ∃ k, n = k + 1 := ⟨n - 1, by omega⟩
      have hrest := ih (n := n) h.afterItem (by omega) (by omega)
      have hdone : (c.afterItem.itemList m).2.tokens = [] := tokens_itemList (by omega)
      have hbound : ((c.afterItem.itemList m).2.within s).itemList n =
          ((c.afterItem.itemList m).2.within s).itemList (n + 1) := by
        have hlength : ((c.afterItem.itemList m).2.within s).tokens.length ≤ n := by
          simp only [within, List.length_append, hdone, List.length_nil] at hn ⊢
          omega
        exact itemList_eq_of_length_le hlength (by omega)
      rw [itemList_cons n hend', itemList_cons m hend, hc.afterItem, local_item s c hc, hrest,
        hbound, List.cons_append]

/-- Earlier complaints do not matter. -/
theorem itemList_within_last (hs : s.following = none) {n m : Nat} (hn : c.tokens.length ≤ n)
    (hm : c.tokens.length ≤ m) :
    (c.within s).itemList n = ((c.itemList m).1, (c.itemList m).2.within s) := by
  have hfinished : c.Finished s := .inl hs
  have hend : ((c.itemList m).2.within s).isAtEnd = true := by
    simp [isAtEnd, within, tokens_itemList hm, hs]
  rw [hfinished.itemList (by simpa [within, hs] using hn) hm,
    itemList_eq_nil n hend, List.append_nil]

end Cursor

/-- The items that a token list is read as and the complaints about them. -/
def readItems (tokens : List Token) (finish : Span) : List Item × List Diagnostic :=
  let read := (Cursor.ofTokens tokens finish).itemList tokens.length
  (read.1, read.2.diagnostics)

theorem parseTokens_eq_readItems (tokens : List Token) (finish : Span) :
    parseTokens tokens finish =
      if (readItems tokens finish).2.isEmpty then .ok ⟨(readItems tokens finish).1⟩
      else .error (readItems tokens finish).2 :=
  parseTokens_eq tokens finish

/-- What comes before is read as if nothing followed its last semicolon, and what follows as if
nothing came before. -/
theorem readItems_append {part : List Token}
    (hpart : ∀ t, part.getLast? = some t → t.value = .semicolon) (rest : List Token)
    (finish finish' : Span) :
    readItems (part ++ rest) finish =
      ((readItems part finish').1 ++ (readItems rest finish).1,
        (readItems part finish').2 ++ (readItems rest finish).2) := by
  have hfinished : (Cursor.ofTokens part finish').Finished ⟨[], some (rest, finish)⟩ := by
    refine .inr fun l hl => ?_
    rw [Cursor.words, List.getLast?_map] at hl
    obtain ⟨t, ht, rfl⟩ := Option.map_eq_some_iff.mp hl
    exact hpart t ht
  have hwithin : (Cursor.ofTokens part finish').within ⟨[], some (rest, finish)⟩ =
      Cursor.ofTokens (part ++ rest) finish := rfl
  have hsplit := hfinished.itemList (n := (part ++ rest).length) (Nat.le_refl _) (Nat.le_refl _)
  obtain ⟨read, hread⟩ : ∃ read, (Cursor.ofTokens part finish').itemList part.length = read :=
    ⟨_, rfl⟩
  have hdone : read.2.tokens = [] := by
    rw [← hread]
    exact Cursor.tokens_itemList (Nat.le_refl _)
  -- behind the part, the rest is read with a semicolon and complaints before it
  have hbehind : read.2.within ⟨[], some (rest, finish)⟩ =
      ((Cursor.ofTokens rest finish).within ⟨read.2.diagnostics, none⟩).restart
        read.2.previous := by
    simp [Cursor.within, Cursor.restart, Cursor.ofTokens, hdone]
  have hrest := Cursor.itemList_within_last (s := ⟨read.2.diagnostics, none⟩)
    (n := (part ++ rest).length)
    (c := Cursor.ofTokens rest finish) rfl (by simp [Cursor.ofTokens]) (Nat.le_refl _)
  obtain ⟨hitems, hdiagnostics⟩ := Cursor.itemList_restart read.2.previous (part ++ rest).length
    ((Cursor.ofTokens rest finish).within ⟨read.2.diagnostics, none⟩)
  have htokens : (Cursor.ofTokens part finish').tokens = part := rfl
  have htokens' : (Cursor.ofTokens rest finish).tokens = rest := rfl
  rw [hwithin, htokens, hread, hbehind] at hsplit
  rw [hrest, htokens'] at hitems hdiagnostics
  simp only [readItems, hsplit, hread, hitems, hdiagnostics]
  rfl

/-- The complaints about a file. -/
def complaints : Except (List Diagnostic) SourceFile → List Diagnostic
  | .ok _ => []
  | .error ds => ds

theorem complaints_parseTokens (tokens : List Token) (finish : Span) :
    complaints (parseTokens tokens finish) = (readItems tokens finish).2 := by
  rw [parseTokens_eq_readItems]
  split
  · next hempty => exact (List.isEmpty_iff.mp hempty).symm
  · rfl

theorem parseTokens_eq_ok_iff {tokens : List Token} {finish : Span} {file : SourceFile} :
    parseTokens tokens finish = .ok file ↔ readItems tokens finish = (file.items, []) := by
  rw [parseTokens_eq_readItems, Prod.ext_iff]
  split
  · next hempty =>
    have hclean := List.isEmpty_iff.mp hempty
    constructor
    · intro h
      obtain rfl := Except.ok.inj h
      exact ⟨rfl, hclean⟩
    · rintro ⟨hitems, -⟩
      rw [hitems]
  · next hempty =>
    constructor
    · intro h
      cases h
    · rintro ⟨-, hclean⟩
      exact absurd (List.isEmpty_iff.mpr hclean) hempty

/-- Tokens up to a semicolon and the tokens behind it are read separately: the complaints are
those about the first part, then those about the second, and so are the items, whether there are
complaints or not. Reading ends on all tokens, and the nesting counter, which starts at zero,
never falls below zero and is at zero after every item. -/
theorem parsing_composes_at_semicolons (before rest : List Token)
    (semicolon finish finish' : Span) :
    let first := before ++ [⟨.semicolon, semicolon⟩]
    readItems (first ++ rest) finish =
        ((readItems first finish').1 ++ (readItems rest finish).1,
          (readItems first finish').2 ++ (readItems rest finish).2) ∧
      complaints (parseTokens (first ++ rest) finish) =
        complaints (parseTokens first finish') ++ complaints (parseTokens rest finish) ∧
      (∀ file, parseTokens (first ++ rest) finish = .ok file ↔
        ∃ one other, parseTokens first finish' = .ok one ∧ parseTokens rest finish = .ok other ∧
          file.items = one.items ++ other.items) ∧
      ∀ (tokens : List Token) (finish : Span) (spare : Nat), ∃ c : Cursor,
        Meter.itemList (2 * tokens.length + 3 + spare) ⟨.ofTokens tokens finish, 0⟩ =
          some ((readItems tokens finish).1.map fun item => (item, 0), ⟨c, 0⟩) ∧
        c.tokens = [] ∧ c.diagnostics = (readItems tokens finish).2 := by
  intro first
  have hfirst : ∀ t, first.getLast? = some t → t.value = .semicolon := by
    intro t ht
    rw [List.getLast?_concat] at ht
    obtain rfl := Option.some.inj ht
    rfl
  have hjoin := readItems_append hfirst rest finish finish'
  refine ⟨hjoin, ?_, fun file => ?_, fun tokens finish spare => ?_⟩
  · rw [complaints_parseTokens, complaints_parseTokens, complaints_parseTokens, hjoin]
  · rw [parseTokens_eq_ok_iff, hjoin, Prod.mk.injEq, List.append_eq_nil_iff]
    constructor
    · rintro ⟨hitems, hclean, hclean'⟩
      refine ⟨⟨(readItems first finish').1⟩, ⟨(readItems rest finish).1⟩, ?_, ?_, hitems.symm⟩
      · exact parseTokens_eq_ok_iff.mpr (Prod.ext rfl hclean)
      · exact parseTokens_eq_ok_iff.mpr (Prod.ext rfl hclean')
    · rintro ⟨one, other, hone, hother, hitems⟩
      rw [parseTokens_eq_ok_iff.mp hone, parseTokens_eq_ok_iff.mp hother, hitems]
      exact ⟨rfl, rfl, rfl⟩
  · have hlength : (Cursor.ofTokens tokens finish).tokens.length = tokens.length := rfl
    refine ⟨((Cursor.ofTokens tokens finish).itemList tokens.length).2, ?_, ?_, rfl⟩
    · exact Meter.itemList_eq (by omega) (Nat.le_refl _)
    · exact Cursor.tokens_itemList (Nat.le_refl _)

end LinearKernels
