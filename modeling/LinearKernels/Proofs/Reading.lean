import LinearKernels.Parse
import LinearKernels.Proofs.Grammar

/-!
What readers do, whatever the words are. A reader takes some of the words ahead and adds
complaints; if it adds none, the words it took derive what it returns. Readers inside an item
pass no semicolon, and complain about nesting only if enough words come before the next one.
-/

namespace LinearKernels

open Grammar

/-- The complaint is about nesting. -/
def Diagnostic.IsNesting (d : Diagnostic) : Prop :=
  d.message = SyntaxFault.nestingTooDeep.message

theorem isNesting_diagnostic_iff {fault : SyntaxFault} {span : Span} :
    (fault.diagnostic span).IsNesting ↔ fault = .nestingTooDeep := by
  have hexpected : ∀ what found, SyntaxFault.expected what found ≠
      SyntaxFault.nestingTooDeep.message := by
    intro what found h
    have hhead := congrArg (fun s : String => s.toList.head?) h
    simp [SyntaxFault.expected, SyntaxFault.message] at hhead
  unfold Diagnostic.IsNesting
  cases fault with
  | nestingTooDeep => simp [SyntaxFault.diagnostic, Diagnostic.error]
  | numericConstant => simp [SyntaxFault.diagnostic, Diagnostic.error, SyntaxFault.message]
  | expectedLexeme | expectedIdentifier | expectedInteger | expectedAssignment
    | expectedExpression =>
    simp only [SyntaxFault.diagnostic, Diagnostic.error, reduceCtorEq, iff_false]
    exact hexpected _ _

namespace Cursor

/-- The words still to come. -/
def words (c : Cursor) : List Lexeme :=
  c.tokens.map (·.value)

/-- How many words come before the next semicolon. -/
def ahead (c : Cursor) : Nat :=
  (c.words.takeWhile (· ≠ .semicolon)).length

theorem peek?_eq (c : Cursor) : c.peek? = c.words.head? := by
  simp [peek?, words]

theorem words_of_peek? {c : Cursor} {l : Lexeme} (h : c.peek? = some l) :
    c.words = l :: c.advance.words := by
  unfold peek? at h
  unfold words advance
  cases htokens : c.tokens with
  | nil => simp [htokens] at h
  | cons t rest =>
    rw [htokens] at h
    have hvalue : t.value = l := by simpa using h
    simp [hvalue]

@[simp] theorem diagnostics_advance (c : Cursor) : c.advance.diagnostics = c.diagnostics := by
  unfold advance
  split <;> rfl

/-- From `c` to `c'` the words `ws` are taken and the complaints `ds` are added. -/
structure Reads (c : Cursor) (ws : List Lexeme) (ds : List Diagnostic) (c' : Cursor) : Prop where
  words : c.words = ws ++ c'.words
  diagnostics : c'.diagnostics = c.diagnostics ++ ds

variable {c c' c'' : Cursor} {us vs ws : List Lexeme} {ds es : List Diagnostic} {l : Lexeme}

theorem Reads.refl (c : Cursor) : c.Reads [] [] c :=
  ⟨rfl, (List.append_nil _).symm⟩

theorem Reads.trans (h : c.Reads us ds c') (h' : c'.Reads vs es c'') :
    c.Reads (us ++ vs) (ds ++ es) c'' :=
  ⟨by rw [h.words, h'.words, List.append_assoc],
    by rw [h'.diagnostics, h.diagnostics, List.append_assoc]⟩

theorem reads_advance (h : c.peek? = some l) : c.Reads [l] [] c.advance :=
  ⟨words_of_peek? h, by simp⟩

theorem reads_report (c : Cursor) (fault : SyntaxFault) :
    c.Reads [] [fault.diagnostic c.span] (c.report fault) :=
  ⟨rfl, rfl⟩

/-- What a reader leaves behind, whatever the words are. It passes no semicolon; unless it
complains, the words it took are as `P` says; and it complains about nesting only if `deep`
holds. -/
def ReadsAs (P : List Lexeme → Prop) (deep : Prop) (c c' : Cursor) : Prop :=
  ∃ ws ds, c.Reads ws ds c' ∧ .semicolon ∉ ws ∧ (ds = [] → P ws) ∧
    ((∃ d ∈ ds, d.IsNesting) → deep)

variable {P Q : List Lexeme → Prop} {deep deep' : Prop}

theorem ReadsAs.mono (h : ReadsAs P deep c c') (hP : ∀ ws, P ws → Q ws) (hdeep : deep → deep') :
    ReadsAs Q deep' c c' := by
  obtain ⟨ws, ds, hreads, hws, hclean, hnesting⟩ := h
  exact ⟨ws, ds, hreads, hws, fun hds => hP ws (hclean hds), fun hd => hdeep (hnesting hd)⟩

/-- One reader after the other. -/
theorem ReadsAs.append (h : ReadsAs P deep c c') (h' : ReadsAs Q deep c' c'') :
    ReadsAs (fun ws => ∃ us vs, ws = us ++ vs ∧ P us ∧ Q vs) deep c c'' := by
  obtain ⟨us, ds, hreads, hus, hclean, hnesting⟩ := h
  obtain ⟨vs, es, hreads', hvs, hclean', hnesting'⟩ := h'
  refine ⟨us ++ vs, ds ++ es, hreads.trans hreads', ?_, ?_, ?_⟩
  · simp [hus, hvs]
  · intro hnil
    obtain ⟨hds, hes⟩ := List.append_eq_nil_iff.mp hnil
    exact ⟨us, vs, rfl, hclean hds, hclean' hes⟩
  · rintro ⟨d, hd, hnest⟩
    rcases List.mem_append.mp hd with hd | hd
    · exact hnesting ⟨d, hd, hnest⟩
    · exact hnesting' ⟨d, hd, hnest⟩

theorem ahead_eq (h : c.words = ws ++ c'.words) (hws : .semicolon ∉ ws) :
    c.ahead = ws.length + c'.ahead := by
  unfold ahead
  have hall : ∀ l ∈ ws, decide (l ≠ Lexeme.semicolon) = true := by
    intro l hl
    have hne : l ≠ .semicolon := fun heq => hws (heq ▸ hl)
    simpa using hne
  rw [h, List.takeWhile_append_of_pos hall, List.length_append]

theorem ReadsAs.ahead_le (h : ReadsAs P deep c c') : c'.ahead ≤ c.ahead := by
  obtain ⟨ws, ds, hreads, hws, -, -⟩ := h
  have := ahead_eq hreads.words hws
  omega

theorem readsAs_refl (h : P []) : ReadsAs P deep c c :=
  ⟨[], [], Reads.refl c, by simp, fun _ => h, by simp⟩

theorem readsAs_advance (deep : Prop) (h : c.peek? = some l) (hl : l ≠ .semicolon) :
    ReadsAs (· = [l]) deep c c.advance :=
  ⟨[l], [], reads_advance h, by simpa using hl.symm, fun _ => rfl, by simp⟩

theorem ahead_advance (h : c.peek? = some l) (hl : l ≠ .semicolon) :
    c.ahead = c.advance.ahead + 1 := by
  have := ahead_eq (reads_advance h).words (by simpa using hl.symm)
  simp only [List.length_singleton] at this
  omega

/-- A complaint; it is about nesting only if `deep` holds. -/
theorem readsAs_report (c : Cursor) (fault : SyntaxFault) (h : fault = .nestingTooDeep → deep) :
    ReadsAs P deep c (c.report fault) := by
  refine ⟨[], _, reads_report c fault, by simp, by simp, ?_⟩
  rintro ⟨d, hd, hnest⟩
  obtain rfl := List.mem_singleton.mp hd
  exact h (isNesting_diagnostic_iff.mp hnest)

theorem readsAs_expect (deep : Prop) (c : Cursor) (hl : l ≠ .semicolon) :
    ReadsAs (· = [l]) deep c (c.expect l) := by
  unfold expect
  by_cases hat : c.isAt l = true
  · rw [if_pos hat]
    exact readsAs_advance deep (of_decide_eq_true hat) hl
  · rw [if_neg hat]
    exact readsAs_report c _ (by simp)

theorem readsAs_identifier (deep : Prop) (c : Cursor) :
    ReadsAs (· = [.ident c.identifier.1.value]) deep c c.identifier.2 := by
  unfold identifier
  split
  · next name hpeek => exact readsAs_advance deep hpeek (by simp)
  · next hpeek => exact readsAs_report c _ (by simp)

theorem eat?_cases (c : Cursor) (l : Lexeme) :
    c.eat? l = none ∧ c.peek? ≠ some l ∨ c.eat? l = some c.advance ∧ c.peek? = some l := by
  unfold eat? isAt
  by_cases h : c.peek? = some l
  · exact .inr ⟨by simp [h], h⟩
  · exact .inl ⟨by simp [h], h⟩

/-! ### Lists -/

variable {α : Type} {entry : Cursor → α × Cursor} {R : α → List Lexeme → Prop} {n : Nat}

theorem commaList_succ (stop : Lexeme) (entry : Cursor → α × Cursor) (bound : Nat) (c : Cursor) :
    c.commaList stop entry (bound + 1) =
      if c.isAtEnd || c.isAt stop then ([], c)
      else match (entry c).2.eat? .comma with
        | none => ([(entry c).1], (entry c).2)
        | some c' =>
          ((entry c).1 :: (c'.commaList stop entry bound).1, (c'.commaList stop entry bound).2) :=
  rfl

/-- A comma list of entries that are read as `R` says. -/
theorem readsAs_commaList (stop : Lexeme)
    (hentry : ∀ c', c'.ahead ≤ n → ReadsAs (R (entry c').1) deep c' (entry c').2) (bound : Nat)
    (c : Cursor) (hc : c.ahead ≤ n) :
    ReadsAs (Listed R (c.commaList stop entry bound).1) deep c
      (c.commaList stop entry bound).2 := by
  induction bound generalizing c with
  | zero => exact readsAs_refl Listed.nil
  | succ bound ih =>
    rw [commaList_succ]
    by_cases hstop : (c.isAtEnd || c.isAt stop) = true
    · rw [if_pos hstop]
      exact readsAs_refl Listed.nil
    · rw [if_neg hstop]
      have hfirst := hentry c hc
      rcases eat?_cases (entry c).2 .comma with ⟨hnone, -⟩ | ⟨hsome, hpeek⟩
      · rw [hnone]
        exact hfirst.mono (fun ws h => Listed.last h) id
      · rw [hsome]
        have hcomma := readsAs_advance deep hpeek (by simp)
        have hrest := ih (entry c).2.advance (by
          have h₁ := hfirst.ahead_le
          have h₂ := hcomma.ahead_le
          omega)
        refine ((hfirst.append hcomma).append hrest).mono ?_ id
        rintro _ ⟨_, vs, rfl, ⟨us, _, rfl, hus, rfl⟩, hvs⟩
        rw [List.append_assoc]
        exact Listed.cons hus hvs

theorem moreIdentifiers_succ (bound : Nat) (c : Cursor) :
    c.moreIdentifiers (bound + 1) = match c.eat? .comma with
      | none => ([], c)
      | some c' => (c'.identifier.1 :: (c'.identifier.2.moreIdentifiers bound).1,
          (c'.identifier.2.moreIdentifiers bound).2) :=
  rfl

theorem readsAs_moreIdentifiers (deep : Prop) (bound : Nat) (c : Cursor) :
    ReadsAs (· = (c.moreIdentifiers bound).1.flatMap fun x => [.comma, .ident x.value]) deep c
      (c.moreIdentifiers bound).2 := by
  induction bound generalizing c with
  | zero => exact readsAs_refl rfl
  | succ bound ih =>
    rw [moreIdentifiers_succ]
    rcases eat?_cases c .comma with ⟨hnone, -⟩ | ⟨hsome, hpeek⟩
    · rw [hnone]
      exact readsAs_refl rfl
    · rw [hsome]
      have hcomma := readsAs_advance deep hpeek (by simp)
      have hname := readsAs_identifier deep c.advance
      refine ((hcomma.append hname).append (ih c.advance.identifier.2)).mono ?_ id
      rintro _ ⟨_, _, rfl, ⟨_, _, rfl, rfl, rfl⟩, rfl⟩
      rfl

end Cursor

/-! ### Expressions -/

namespace Operator

theorem ofLexeme?_eq_some_iff {l : Lexeme} {op : Operator} :
    ofLexeme? l = some op ↔ l = op.word := by
  cases l <;> cases op <;> simp [ofLexeme?, word]

theorem word_ne_semicolon (op : Operator) : op.word ≠ .semicolon := by
  cases op <;> simp [word]

end Operator

namespace Grammar

/-- The rule by which an expression is read whose operators hold at least as strongly as
`power`. -/
def Phrase.atPower (power : Nat) (e : Expr) : Phrase :=
  if power ≤ 2 then .sum e else if power ≤ 4 then .term e else .unary e

variable {e l r : Expr} {us vs ws : List Lexeme} {p q : Nat}

theorem Derives.weaken (h : Derives (.atPower q e) ws) (hpq : p ≤ q) :
    Derives (.atPower p e) ws := by
  unfold Phrase.atPower at h ⊢
  by_cases hq₂ : q ≤ 2
  · rw [if_pos hq₂] at h
    rwa [if_pos (by omega)]
  · rw [if_neg hq₂] at h
    by_cases hq₄ : q ≤ 4
    · rw [if_pos hq₄] at h
      by_cases hp : p ≤ 2
      · rw [if_pos hp]
        exact h.sum
      · rwa [if_neg hp, if_pos (by omega)]
    · rw [if_neg hq₄] at h
      by_cases hp₂ : p ≤ 2
      · rw [if_pos hp₂]
        exact h.term.sum
      · by_cases hp₄ : p ≤ 4
        · rw [if_neg hp₂, if_pos hp₄]
          exact h.term
        · rwa [if_neg hp₂, if_neg hp₄]

/-- An operator between two operands that it holds. -/
theorem Derives.binary (op : Operator) (hl : Derives (.atPower op.leftPower l) us)
    (hr : Derives (.atPower op.rightPower r) vs) :
    Derives (.atPower op.leftPower (.binary .origin op l r)) (us ++ op.word :: vs) := by
  cases op with
  | add | sub => exact .additive rfl hl hr
  | mul | div | elemMul | elemDiv => exact .multiplicative rfl hl hr

theorem derives_arguments {es : List Expr} (h : Listed (fun e => Derives (.sum e.bare)) es ws) :
    Derives (.arguments (es.map (·.bare))) ws := by
  induction h with
  | nil => exact .noArguments
  | last h => exact .lastArgument h
  | cons h _ ih => exact .argument h ih

end Grammar

namespace Cursor

variable {b : Nat}

/-- The arguments of a call, up to the closing bracket. -/
theorem readsAs_arguments (parse : Nat → Cursor → Expr × Cursor)
    (hparse : ∀ p c,
      ReadsAs (Derives (.atPower p (parse p c).1.bare)) (b ≤ 2 * c.ahead) c (parse p c).2)
    {deep : Prop} {c : Cursor} (hdeep : b ≤ 2 * c.ahead → deep) :
    ReadsAs
      (Derives (.arguments ((c.commaList .rparen (parse 0) c.tokens.length).1.map (·.bare))))
      deep c (c.commaList .rparen (parse 0) c.tokens.length).2 := by
  have hentry : ∀ c', c'.ahead ≤ c.ahead →
      ReadsAs (Derives (.sum (parse 0 c').1.bare)) deep c' (parse 0 c').2 :=
    fun c' hc' => (hparse 0 c').mono (fun _ h => h) fun hb => hdeep (by omega)
  have hlist := readsAs_commaList (R := fun (e : Expr) => Derives (.sum e.bare)) .rparen hentry
    c.tokens.length c (Nat.le_refl _)
  exact hlist.mono (fun _ h => derives_arguments h) id

/-- An operand is read by the rule for unary expressions, if the expressions inside it are
read by theirs. -/
theorem readsAs_operand (parse : Nat → Cursor → Expr × Cursor)
    (hparse : ∀ p c,
      ReadsAs (Derives (.atPower p (parse p c).1.bare)) (b ≤ 2 * c.ahead) c (parse p c).2)
    (c : Cursor) :
    ReadsAs (Derives (.unary (operand parse c).1.bare)) (b + 1 ≤ 2 * c.ahead) c
      (operand parse c).2 := by
  unfold operand
  split
  · next hpeek =>
    have hahead := ahead_advance hpeek (by simp)
    have hminus := readsAs_advance (b + 1 ≤ 2 * c.ahead) hpeek (by simp)
    have hdeep : b ≤ 2 * c.advance.ahead → b + 1 ≤ 2 * c.ahead := by omega
    have hsub := (hparse Operator.negPower c.advance).mono (fun _ h => h) hdeep
    refine (hminus.append hsub).mono ?_ id
    rintro _ ⟨_, ws, rfl, rfl, hws⟩
    exact .neg hws
  · next hpeek =>
    have hahead := ahead_advance hpeek (by simp)
    have hopen := readsAs_advance (b + 1 ≤ 2 * c.ahead) hpeek (by simp)
    have hdeep : b ≤ 2 * c.advance.ahead → b + 1 ≤ 2 * c.ahead := by omega
    have hsum := (hparse 0 c.advance).mono (fun _ h => h) hdeep
    have hclose :=
      readsAs_expect (l := .rparen) (b + 1 ≤ 2 * c.ahead) (parse 0 c.advance).2 (by simp)
    refine ((hopen.append hsum).append hclose).mono ?_ id
    rintro _ ⟨_, _, rfl, ⟨_, ws, rfl, rfl, hws⟩, rfl⟩
    rw [Expr.bare_withSpan]
    exact .unary (.paren hws)
  · next name hpeek =>
    have hahead := ahead_advance hpeek (by simp)
    have hname := readsAs_advance (b + 1 ≤ 2 * c.ahead) hpeek (by simp)
    rcases eat?_cases c.advance .lparen with ⟨hnone, -⟩ | ⟨hsome, hparen⟩
    · rw [hnone]
      refine hname.mono ?_ id
      rintro _ rfl
      exact .unary (.var name)
    · rw [hsome]
      have hopen := readsAs_advance (b + 1 ≤ 2 * c.ahead) hparen (by simp)
      have hdeep : b ≤ 2 * c.advance.advance.ahead → b + 1 ≤ 2 * c.ahead := by
        have := hopen.ahead_le
        omega
      have hargs := readsAs_arguments parse hparse hdeep
      have hclose := readsAs_expect (l := .rparen) (b + 1 ≤ 2 * c.ahead)
        (c.advance.advance.commaList .rparen (parse 0) c.advance.advance.tokens.length).2
          (by simp)
      refine (((hname.append hopen).append hargs).append hclose).mono ?_ id
      rintro _ ⟨_, _, rfl, ⟨_, ws, rfl, ⟨_, _, rfl, rfl, rfl⟩, hws⟩, rfl⟩
      have hcall := Derives.call name hws
      simpa [Expr.bare, Expr.respell, Expr.respellAll_eq_map,
        Spanned.bare] using Derives.unary hcall
  · next n hpeek =>
    have hreport : ReadsAs (fun _ => False) (b + 1 ≤ 2 * c.ahead) c (c.report .numericConstant) :=
      readsAs_report c _ (by simp)
    have hpeek' : (c.report .numericConstant).peek? = some (.integer n) := hpeek
    refine (hreport.append (readsAs_advance _ hpeek' (by simp))).mono ?_ id
    rintro _ ⟨_, _, _, hfalse, _⟩
    exact hfalse.elim
  · exact readsAs_report c _ (by simp)

/-- No operator follows that holds as strongly as `power`. -/
def Stops (power : Nat) (c : Cursor) : Prop :=
  ∀ op, c.operator? = some op → op.leftPower < power

theorem peek?_of_operator? {c : Cursor} {op : Operator} (h : c.operator? = some op) :
    c.peek? = some op.word := by
  obtain ⟨l, hl, hop⟩ := Option.bind_eq_some_iff.mp h
  rw [hl, Operator.ofLexeme?_eq_some_iff.mp hop]

theorem expression_zero (power : Nat) (c : Cursor) :
    c.expression 0 power = (.missing c.span, c.report .nestingTooDeep) := by
  rw [expression]

theorem expression_succ (b power : Nat) (c : Cursor) :
    c.expression (b + 1) power =
      chain b power (operand (fun p c => c.expression b p) c).1
        (operand (fun p c => c.expression b p) c).2 := by
  rw [expression]

theorem chain_of_stops {c : Cursor} {power : Nat} (h : c.Stops power) (lhs : Expr) :
    chain b power lhs c = (lhs, c) := by
  rw [chain]
  cases hop : c.operator? with
  | none => rfl
  | some op => exact if_pos (h op hop)

theorem chain_zero_of_operator? {c : Cursor} {op : Operator} {power : Nat}
    (h : c.operator? = some op) (hpower : power ≤ op.leftPower) (lhs : Expr) :
    chain 0 power lhs c = (.missing lhs.span, c.report .nestingTooDeep) := by
  rw [chain, h]
  exact if_neg (by omega)

theorem chain_succ_of_operator? {c : Cursor} {op : Operator} {power : Nat}
    (h : c.operator? = some op) (hpower : power ≤ op.leftPower) (lhs : Expr) :
    chain (b + 1) power lhs c =
      chain b power
        (.binary (lhs.span.merge (c.advance.expression b op.rightPower).1.span) op lhs
          (c.advance.expression b op.rightPower).1)
        (c.advance.expression b op.rightPower).2 := by
  rw [chain, h]
  exact if_neg (by omega)

/-- What reading an expression leaves behind. The words taken derive the expression, and no
operator follows that belongs to it. A complaint about nesting needs half as many words ahead
as there are levels. -/
def ExpressionReads (b power : Nat) (c : Cursor) : Prop :=
  ReadsAs
    (fun ws => Derives (.atPower power (c.expression b power).1.bare) ws ∧
      Stops power (c.expression b power).2)
    (b ≤ 2 * c.ahead) c (c.expression b power).2

/-- What reading the operators after `lhs` leaves behind, if `lhs` is derived by a rule `q`
that is no weaker than asked for, and the next operator holds no more strongly than `q`. -/
def ChainReads (b power : Nat) (lhs : Expr) (c : Cursor) : Prop :=
  ReadsAs
    (fun vs => ∀ us q, Derives (.atPower q lhs.bare) us → power ≤ q →
      (∀ op, c.operator? = some op → op.leftPower ≤ q) →
      Derives (.atPower power (chain b power lhs c).1.bare) (us ++ vs) ∧
        Stops power (chain b power lhs c).2)
    (b < 2 * c.ahead) c (chain b power lhs c).2

theorem stops_or_operator? (c : Cursor) (power : Nat) :
    c.Stops power ∨ ∃ op, c.operator? = some op ∧ power ≤ op.leftPower := by
  by_cases h : ∃ op, c.operator? = some op ∧ power ≤ op.leftPower
  · exact .inr h
  · refine .inl fun op hop => ?_
    by_contra hle
    exact h ⟨op, hop, by omega⟩

theorem chainReads_of_stops {c : Cursor} {power : Nat} (h : c.Stops power) (lhs : Expr) :
    ChainReads b power lhs c := by
  unfold ChainReads
  rw [chain_of_stops h]
  refine readsAs_refl fun us q hus hq _ => ⟨?_, h⟩
  rw [List.append_nil]
  exact hus.weaken hq

theorem chainReads_zero (power : Nat) (lhs : Expr) (c : Cursor) : ChainReads 0 power lhs c := by
  rcases stops_or_operator? c power with hstop | ⟨op, hop, hpower⟩
  · exact chainReads_of_stops hstop lhs
  · have hahead := ahead_advance (peek?_of_operator? hop) op.word_ne_semicolon
    unfold ChainReads
    rw [chain_zero_of_operator? hop hpower]
    exact readsAs_report c _ fun _ => by omega

theorem chainReads_succ (hexpr : ∀ power c, ExpressionReads b power c)
    (hchain : ∀ power lhs c, ChainReads b power lhs c) (power : Nat) (lhs : Expr) (c : Cursor) :
    ChainReads (b + 1) power lhs c := by
  rcases stops_or_operator? c power with hstop | ⟨op, hop, hpower⟩
  · exact chainReads_of_stops hstop lhs
  · have hpeek := peek?_of_operator? hop
    have hahead := ahead_advance hpeek op.word_ne_semicolon
    unfold ChainReads
    rw [chain_succ_of_operator? hop hpower]
    have hword := readsAs_advance (b + 1 < 2 * c.ahead) hpeek op.word_ne_semicolon
    have hrhs := hexpr op.rightPower c.advance
    have hle := hrhs.ahead_le
    have hrest := hchain power
      (.binary (lhs.span.merge (c.advance.expression b op.rightPower).1.span) op lhs
        (c.advance.expression b op.rightPower).1)
      (c.advance.expression b op.rightPower).2
    refine ((hword.append (hrhs.mono (fun _ h => h) (by omega))).append
      (hrest.mono (fun _ h => h) (by omega))).mono ?_ id
    rintro _ ⟨_, vs, rfl, ⟨_, ws, rfl, rfl, hws, hstops⟩, hvs⟩ us q hus hq hnext
    -- `op` holds the chain so far, and no later operator of it is stronger
    have hlhs := Derives.binary op (hus.weaken (hnext op hop)) hws
    have hafter : ∀ op', (c.advance.expression b op.rightPower).2.operator? = some op' →
        op'.leftPower ≤ op.leftPower := by
      intro op' hop'
      have := hstops op' hop'
      unfold Operator.rightPower at this
      omega
    have := hvs (us ++ op.word :: ws) op.leftPower (by simpa [Expr.bare, Expr.respell] using hlhs)
      hpower hafter
    simpa using this

theorem expressionReads_zero (power : Nat) (c : Cursor) : ExpressionReads 0 power c := by
  unfold ExpressionReads
  rw [expression_zero]
  exact readsAs_report c _ fun _ => Nat.zero_le _

theorem expressionReads_succ (hexpr : ∀ power c, ExpressionReads b power c)
    (hchain : ∀ power lhs c, ChainReads b power lhs c) (power : Nat) (c : Cursor) :
    ExpressionReads (b + 1) power c := by
  unfold ExpressionReads
  rw [expression_succ]
  have hoperand := readsAs_operand (fun p c => c.expression b p)
    (fun p c => (hexpr p c).mono (fun _ h => h.1) id) c
  have hle := hoperand.ahead_le
  have hrest := hchain power (operand (fun p c => c.expression b p) c).1
    (operand (fun p c => c.expression b p) c).2
  refine (hoperand.append (hrest.mono (fun _ h => h) (by omega))).mono ?_ id
  rintro _ ⟨us, vs, rfl, hus, hvs⟩
  -- an operand holds together more strongly than any operator
  have hunary : Phrase.atPower (max power 6) = Phrase.unary := by
    funext e
    unfold Phrase.atPower
    rw [if_neg (by omega), if_neg (by omega)]
  refine hvs us (max power 6) (by rwa [hunary]) (by omega) fun op _ => ?_
  cases op <;> simp only [Operator.leftPower] <;> omega

theorem expression_chain_reads (b : Nat) :
    (∀ power c, ExpressionReads b power c) ∧ ∀ power lhs c, ChainReads b power lhs c := by
  induction b with
  | zero => exact ⟨expressionReads_zero, chainReads_zero⟩
  | succ b ih => exact ⟨expressionReads_succ ih.1 ih.2, chainReads_succ ih.1 ih.2⟩

theorem readsAs_expression (b power : Nat) (c : Cursor) :
    ReadsAs (Derives (.atPower power (c.expression b power).1.bare)) (b ≤ 2 * c.ahead) c
      (c.expression b power).2 :=
  ((expression_chain_reads b).1 power c).mono (fun _ h => h.1) id

end Cursor

end LinearKernels
