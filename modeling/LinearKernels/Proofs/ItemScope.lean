import LinearKernels.Proofs.FileReading

/-!
What an item takes. Inside an item, readers only take tokens other than semicolons and complain.
An item ends behind the first semicolon, whether it is well formed or not, so the words left
after it depend on the words alone.
-/

namespace LinearKernels

namespace Cursor

variable {c c' : Cursor} {l : Lexeme} {α : Type}

/-- From `c` to `c'` tokens are taken and complaints made, but no semicolon is taken. -/
inductive Passes : Cursor → Cursor → Prop
  | refl (c : Cursor) : Passes c c
  | take {c c' : Cursor} {l : Lexeme} (h : Passes c c') (hpeek : c'.peek? = some l)
      (hl : l ≠ .semicolon) :
      Passes c c'.advance
  | report {c c' : Cursor} (h : Passes c c') (fault : SyntaxFault) : Passes c (c'.report fault)

theorem Passes.trans {c'' : Cursor} (h : c.Passes c') (h' : c'.Passes c'') : c.Passes c'' := by
  induction h' with
  | refl => exact h
  | take _ hpeek hl ih => exact ih.take hpeek hl
  | report _ fault ih => exact ih.report fault

theorem Passes.reads (h : c.Passes c') : ∃ ws ds, c.Reads ws ds c' ∧ .semicolon ∉ ws := by
  induction h with
  | refl => exact ⟨[], [], Reads.refl c, by simp⟩
  | take _ hpeek hl ih =>
    obtain ⟨ws, ds, hreads, hfree⟩ := ih
    exact ⟨_, _, hreads.trans (reads_advance hpeek), by simp [hfree, hl.symm]⟩
  | report _ fault ih =>
    obtain ⟨ws, ds, hreads, hfree⟩ := ih
    exact ⟨_, _, hreads.trans (reads_report _ fault), by simp [hfree]⟩

theorem length_words (c : Cursor) : c.words.length = c.tokens.length := by
  simp [words]

theorem Passes.length_le (h : c.Passes c') : c'.tokens.length ≤ c.tokens.length := by
  obtain ⟨ws, ds, hreads, -⟩ := h.reads
  have hlength := congrArg List.length hreads.words
  rw [List.length_append, length_words, length_words] at hlength
  omega

theorem length_advance (h : c.peek? = some l) :
    c.advance.tokens.length + 1 = c.tokens.length := by
  have hlength := congrArg List.length (words_of_peek? h)
  rw [List.length_cons, length_words, length_words] at hlength
  exact hlength.symm

/-! ### Readers inside an item -/

theorem passes_advance (h : c.peek? = some l) (hl : l ≠ .semicolon) : c.Passes c.advance :=
  (Passes.refl c).take h hl

theorem passes_report (c : Cursor) (fault : SyntaxFault) : c.Passes (c.report fault) :=
  (Passes.refl c).report fault

theorem passes_expect (c : Cursor) (hl : l ≠ .semicolon) : c.Passes (c.expect l) := by
  unfold expect
  by_cases hat : c.isAt l = true
  · rw [if_pos hat]
    exact passes_advance (of_decide_eq_true hat) hl
  · rw [if_neg hat]
    exact passes_report c _

theorem passes_identifier (c : Cursor) : c.Passes c.identifier.2 := by
  unfold identifier
  split
  · next name hpeek => exact passes_advance hpeek (by simp)
  · exact passes_report c _

theorem passes_commaList {entry : Cursor → α × Cursor}
    (hentry : ∀ c : Cursor, c.Passes (entry c).2) (stop : Lexeme) (bound : Nat) (c : Cursor) :
    c.Passes (c.commaList stop entry bound).2 := by
  induction bound generalizing c with
  | zero => exact Passes.refl c
  | succ bound ih =>
    rw [commaList_succ]
    by_cases hstop : (c.isAtEnd || c.isAt stop) = true
    · rw [if_pos hstop]
      exact Passes.refl c
    · rw [if_neg hstop]
      rcases eat?_cases (entry c).2 .comma with ⟨hnone, -⟩ | ⟨hsome, hpeek⟩
      · rw [hnone]
        exact hentry c
      · rw [hsome]
        exact ((hentry c).take hpeek (by simp)).trans (ih (entry c).2.advance)

theorem passes_moreIdentifiers (bound : Nat) (c : Cursor) :
    c.Passes (c.moreIdentifiers bound).2 := by
  induction bound generalizing c with
  | zero => exact Passes.refl c
  | succ bound ih =>
    rw [moreIdentifiers_succ]
    rcases eat?_cases c .comma with ⟨hnone, -⟩ | ⟨hsome, hpeek⟩
    · rw [hnone]
      exact Passes.refl c
    · rw [hsome]
      have hcomma := passes_advance hpeek (by simp)
      exact (hcomma.trans (passes_identifier c.advance)).trans (ih c.advance.identifier.2)

theorem passes_operand {parse : Nat → Cursor → Expr × Cursor}
    (hparse : ∀ p (c : Cursor), c.Passes (parse p c).2) (c : Cursor) :
    c.Passes (operand parse c).2 := by
  unfold operand
  split
  · next hpeek =>
    exact (passes_advance hpeek (by simp)).trans (hparse Operator.negPower c.advance)
  · next hpeek =>
    have hopened := passes_advance hpeek (by simp)
    exact (hopened.trans (hparse 0 c.advance)).trans (passes_expect _ (by simp))
  · next name hpeek =>
    have hname := passes_advance hpeek (by simp)
    rcases eat?_cases c.advance .lparen with ⟨hnone, -⟩ | ⟨hsome, hparen⟩
    · rw [hnone]
      exact hname
    · rw [hsome]
      have hopened := hname.take hparen (by simp)
      have hlisted :=
        passes_commaList (hparse 0) .rparen c.advance.advance.tokens.length c.advance.advance
      exact (hopened.trans hlisted).trans (passes_expect _ (by simp))
  · next n hpeek =>
    exact (passes_report c .numericConstant).take (l := .integer n) hpeek (by simp)
  · exact passes_report c _

theorem passes_chain_succ {b : Nat}
    (hexpr : ∀ power (c : Cursor), c.Passes (c.expression b power).2)
    (hchain : ∀ power lhs (c : Cursor), c.Passes (chain b power lhs c).2) (power : Nat)
    (lhs : Expr) (c : Cursor) : c.Passes (chain (b + 1) power lhs c).2 := by
  rcases stops_or_operator? c power with hstop | ⟨op, hop, hpower⟩
  · rw [chain_of_stops hstop]
    exact Passes.refl c
  · rw [chain_succ_of_operator? hop hpower]
    have hword := passes_advance (peek?_of_operator? hop) op.word_ne_semicolon
    exact (hword.trans (hexpr op.rightPower c.advance)).trans (hchain power _ _)

theorem passes_expression_chain (b : Nat) :
    (∀ power (c : Cursor), c.Passes (c.expression b power).2) ∧
      ∀ power lhs (c : Cursor), c.Passes (chain b power lhs c).2 := by
  induction b with
  | zero =>
    refine ⟨fun power c => ?_, fun power lhs c => ?_⟩
    · rw [expression_zero]
      exact passes_report c _
    · rcases stops_or_operator? c power with hstop | ⟨op, hop, hpower⟩
      · rw [chain_of_stops hstop]
        exact Passes.refl c
      · rw [chain_zero_of_operator? hop hpower]
        exact passes_report c _
  | succ b ih =>
    refine ⟨fun power c => ?_, passes_chain_succ ih.1 ih.2⟩
    rw [expression_succ]
    exact (passes_operand ih.1 c).trans (ih.2 power _ _)

theorem passes_expression (b power : Nat) (c : Cursor) : c.Passes (c.expression b power).2 :=
  (passes_expression_chain b).1 power c

theorem passes_typeArg (c : Cursor) : c.Passes c.typeArg.2 := by
  unfold typeArg
  have hkey := passes_identifier c
  rcases eat?_cases c.identifier.2 .eq with ⟨hnone, -⟩ | ⟨hsome, hpeek⟩
  · simp only [hnone]
    exact hkey
  · simp only [hsome]
    have hsign := hkey.take hpeek (by simp)
    split
    · next n hinteger => exact hsign.take hinteger (by simp)
    · exact hsign.report _

theorem passes_typeArguments (c : Cursor) : c.Passes c.typeArguments.2 := by
  unfold typeArguments
  rcases eat?_cases c .lt with ⟨hnone, -⟩ | ⟨hsome, hpeek⟩
  · simp only [hnone]
    exact Passes.refl c
  · simp only [hsome]
    have hopened := passes_advance hpeek (by simp)
    have hlisted := passes_commaList passes_typeArg .gt c.advance.tokens.length c.advance
    exact (hopened.trans hlisted).trans (passes_expect _ (by simp))

/-! ### Items -/

/-- The cursor after an item: behind it, or behind the semicolon that it was skipped to. -/
def afterItem (c : Cursor) : Cursor :=
  c.recover c.item.2

/-- An item ends with a complaint and without its semicolon, or with its semicolon. -/
theorem item_cases (c : Cursor) :
    (∃ c₁ fault, c.Passes c₁ ∧ c.item.2 = c₁.report fault) ∨
      ∃ c₁, c.Passes c₁ ∧ c₁.peek? = some .semicolon ∧ c.item.2 = c₁.advance := by
  have hclose : ∀ {c₁ : Cursor}, c.Passes c₁ →
      (∃ c₂ fault, c.Passes c₂ ∧ c₁.expect .semicolon = c₂.report fault) ∨
        ∃ c₂, c.Passes c₂ ∧ c₂.peek? = some .semicolon ∧ c₁.expect .semicolon = c₂.advance := by
    intro c₁ hpass
    unfold expect
    by_cases hat : c₁.isAt .semicolon = true
    · exact .inr ⟨c₁, hpass, of_decide_eq_true hat, if_pos hat⟩
    · exact .inl ⟨c₁, _, hpass, if_neg hat⟩
  have hidentifier := passes_identifier c
  unfold item
  split
  · next kind hpeek =>
    simp only [declaration_eq]
    have hkeyword := passes_advance hpeek (by simp)
    have hfirst := (hkeyword.trans (passes_typeArguments c.advance)).trans (passes_identifier _)
    exact hclose (hfirst.trans (passes_moreIdentifiers _ _))
  · cases hop : c.identifier.2.peek?.bind AssignOp.ofLexeme? with
    | none =>
      rw [assignment_eq_of_none hop]
      exact .inl ⟨_, _, hidentifier, rfl⟩
    | some op =>
      rw [assignment_eq_of_some hop]
      obtain ⟨l, hl, hword⟩ := Option.bind_eq_some_iff.mp hop
      obtain rfl := assignOp_ofLexeme?_eq_some_iff.mp hword
      have hsign := hidentifier.take hl (by cases op <;> simp [AssignOp.word])
      exact hclose (hsign.trans (passes_expression maxNesting 0 _))

theorem Passes.endedStatement_eq_false (h : c.Passes c') : c.endedStatement c' = false := by
  have hlast : c'.tokens.length = c.tokens.length ∨
      ∃ t, c'.previous = some t ∧ t.value ≠ .semicolon := by
    induction h with
    | refl => exact .inl rfl
    | @take c' l _ hpeek hl _ =>
      cases htokens : c'.tokens with
      | nil => simp [peek?, htokens] at hpeek
      | cons t rest =>
        have hvalue : t.value = l := by simpa [peek?, htokens] using hpeek
        exact .inr ⟨t, by simp [advance, htokens], by rwa [hvalue]⟩
    | report _ fault ih => exact ih
  unfold endedStatement
  rcases hlast with hlength | ⟨t, ht, hvalue⟩
  · simp [hlength]
  · simp [ht, hvalue]

theorem recover_report (h : c.Passes c') (fault : SyntaxFault) :
    c.recover (c'.report fault) = (c'.report fault).skipStatement := by
  obtain ⟨ws, ds, hreads, -⟩ := h.reads
  have hmore : ¬ (c'.report fault).diagnostics.length ≤ c.diagnostics.length := by
    rw [(hreads.trans (reads_report c' fault)).diagnostics]
    simp only [List.length_append, List.length_singleton]
    omega
  unfold recover
  rw [if_neg hmore, (h.report fault).endedStatement_eq_false]
  rfl

theorem recover_advance (h : c.Passes c') (hpeek : c'.peek? = some .semicolon) :
    c.recover c'.advance = c'.advance := by
  have hended : c.endedStatement c'.advance = true := by
    have hle := h.length_le
    have hlength := length_advance hpeek
    have hlt : c'.advance.tokens.length < c.tokens.length := by omega
    cases htokens : c'.tokens with
    | nil => simp [peek?, htokens] at hpeek
    | cons t rest =>
      have hvalue : t.value = .semicolon := by simpa [peek?, htokens] using hpeek
      have hprevious : c'.advance.previous = some t := by simp [advance, htokens]
      simp [endedStatement, hlt, hprevious, hvalue]
  unfold recover
  rw [hended, if_pos rfl, ite_self]

/-- The words behind the first semicolon. -/
def behind (ws : List Lexeme) : List Lexeme :=
  (ws.dropWhile (· ≠ .semicolon)).tail

theorem behind_append {us : List Lexeme} (hus : .semicolon ∉ us) (vs : List Lexeme) :
    behind (us ++ vs) = behind vs := by
  unfold behind
  rw [List.dropWhile_append_of_pos]
  intro l hl
  have hne : l ≠ .semicolon := fun heq => hus (heq ▸ hl)
  simpa using hne

theorem words_skipStatement (c : Cursor) : c.skipStatement.words = behind c.words := by
  have hgo : ∀ (tokens : List Token) (c : Cursor), c.tokens = tokens →
      (skipStatement.go tokens c).words = behind c.words := by
    intro tokens
    induction tokens with
    | nil =>
      intro c hc
      simp [skipStatement.go, words, hc, behind]
    | cons t rest ih =>
      intro c hc
      have hpeek : c.peek? = some t.value := by simp [peek?, hc]
      rw [skipStatement.go, words_of_peek? hpeek]
      by_cases ht : t.value = .semicolon
      · rw [if_pos ht]
        simp [behind, ht]
      · have hsingle : behind ([t.value] ++ c.advance.words) = behind c.advance.words :=
          behind_append (by simpa using Ne.symm ht) _
        rw [if_neg ht, ih c.advance (by simp [advance, hc])]
        exact hsingle.symm
  exact hgo c.tokens c rfl

/-- After an item, well formed or not, the words behind the first semicolon are left. -/
theorem words_afterItem (c : Cursor) : c.afterItem.words = behind c.words := by
  unfold afterItem
  rcases c.item_cases with ⟨c₁, fault, hpass, heq⟩ | ⟨c₁, hpass, hpeek, heq⟩
  · obtain ⟨ws, ds, hreads, hfree⟩ := hpass.reads
    rw [heq, recover_report hpass, words_skipStatement, hreads.words, behind_append hfree]
    rfl
  · obtain ⟨ws, ds, hreads, hfree⟩ := hpass.reads
    rw [heq, recover_advance hpass hpeek, hreads.words, behind_append hfree, words_of_peek? hpeek]
    simp [behind]

theorem length_afterItem (h : c.isAtEnd = false) :
    c.afterItem.tokens.length < c.tokens.length := by
  have hsuffix : behind c.words <:+ c.words.tail := by
    cases hwords : c.words with
    | nil => simp [behind]
    | cons l ws =>
      unfold behind
      rw [List.dropWhile_cons]
      split
      · exact (List.tail_suffix _).trans (List.dropWhile_suffix _)
      · exact List.suffix_refl _
  have hle := hsuffix.length_le
  rw [← words_afterItem, List.length_tail, length_words, length_words] at hle
  have hpos : 0 < c.tokens.length := List.length_pos_of_ne_nil (by simpa [isAtEnd] using h)
  omega

theorem itemList_eq_nil (n : Nat) (h : c.isAtEnd = true) : c.itemList n = ([], c) := by
  cases n with
  | zero => rfl
  | succ n => rw [itemList_succ, if_pos h]

theorem itemList_cons (n : Nat) (h : c.isAtEnd = false) :
    c.itemList (n + 1) = (c.item.1 :: (c.afterItem.itemList n).1,
      (c.afterItem.itemList n).2) := by
  rw [itemList_succ, if_neg (by simp [h])]
  rfl

end Cursor

end LinearKernels
