import LinearKernels.Proofs.Reading

/-!
Reading back what the grammar derives. Wherever the words of an expression stand, a reader
that is not too strong for it reads them as that expression and goes on behind them, provided
that what follows does not belong to it; or it runs out of levels and complains. Comma lists
are read back entry by entry.
-/

namespace LinearKernels

open Grammar

namespace Cursor

/-- There is a complaint about nesting. -/
def Complains (c : Cursor) : Prop :=
  ∃ d ∈ c.diagnostics, d.IsNesting

variable {c c' : Cursor} {ws us vs rest : List Lexeme} {l : Lexeme}

theorem Complains.reads {ds : List Diagnostic} (h : c.Complains) (hreads : c.Reads ws ds c') :
    c'.Complains := by
  obtain ⟨d, hd, hnest⟩ := h
  refine ⟨d, ?_, hnest⟩
  rw [hreads.diagnostics]
  exact List.mem_append_left ds hd

theorem Complains.readsAs {P : List Lexeme → Prop} {deep : Prop} (h : c.Complains)
    (hreads : ReadsAs P deep c c') : c'.Complains := by
  obtain ⟨ws, ds, hws, -⟩ := hreads
  exact h.reads hws

theorem Complains.expect (h : c.Complains) (l : Lexeme) : (c.expect l).Complains := by
  unfold Cursor.expect
  by_cases hat : c.isAt l = true
  · rw [if_pos hat]
    exact h.reads (reads_advance (of_decide_eq_true hat))
  · rw [if_neg hat]
    exact h.reads (reads_report c _)

theorem complains_report (c : Cursor) : (c.report .nestingTooDeep).Complains := by
  refine ⟨SyntaxFault.nestingTooDeep.diagnostic c.span, ?_, isNesting_diagnostic_iff.mpr rfl⟩
  simp [report]

/-- At `c`, a value with the property `P` is read up to `rest` without a complaint; or there
is a complaint about nesting. -/
def Yields {α : Type} (P : α → Prop) (rest : List Lexeme) (c : Cursor) (r : α × Cursor) : Prop :=
  P r.1 ∧ r.2.words = rest ∧ r.2.diagnostics = c.diagnostics ∨ r.2.Complains

theorem peek?_of_words (h : c.words = l :: rest) : c.peek? = some l := by
  rw [peek?_eq, h, List.head?_cons]

theorem words_advance (h : c.words = l :: rest) : c.advance.words = rest := by
  have := words_of_peek? (peek?_of_words h)
  rw [h] at this
  exact (List.cons.inj this).2.symm

theorem not_isAtEnd (h : c.words = l :: rest) : ¬ c.isAtEnd = true := by
  intro hend
  have hnil : c.tokens = [] := by simpa [isAtEnd] using hend
  simp [words, hnil] at h

theorem expect_eq_advance (h : c.words = l :: rest) : c.expect l = c.advance :=
  if_pos (decide_eq_true (peek?_of_words h))

theorem identifier_eq {name : String} (h : c.words = .ident name :: rest) :
    c.identifier = (⟨name, c.span⟩, c.advance) := by
  simp only [identifier, peek?_of_words h]

theorem eat?_eq_advance (h : c.words = l :: rest) : c.eat? l = some c.advance :=
  if_pos (decide_eq_true (peek?_of_words h))

theorem eat?_eq_none {l' : Lexeme} (h : c.words = l' :: rest) (hne : l' ≠ l) :
    c.eat? l = none := by
  unfold eat? isAt
  rw [peek?_of_words h, if_neg (by simpa using hne)]

/-! ### Expressions -/

/-- What may follow an expression that is held together by `power`: no operator that is
stronger, and no bracket that would make a call of it. -/
def Follows (power : Nat) (rest : List Lexeme) : Prop :=
  rest.head? ≠ some .lparen ∧ ∀ op : Operator, rest.head? = some op.word → op.leftPower ≤ power

theorem Follows.mono {p q : Nat} (h : Follows p rest) (hpq : p ≤ q) : Follows q rest :=
  ⟨h.1, fun op hop => Nat.le_trans (h.2 op hop) hpq⟩

theorem follows_operator (op : Operator) (rest : List Lexeme) :
    Follows op.leftPower (op.word :: rest) := by
  constructor
  · cases op <;> simp [Operator.word]
  · intro op' hop'
    cases op <;> cases op' <;> simp_all [Operator.word, Operator.leftPower]

/-- Nothing of an expression follows a comma, a closing bracket or a semicolon. -/
theorem follows_of_closing {power : Nat} (hl : l = .comma ∨ l = .rparen ∨ l = .semicolon)
    (rest : List Lexeme) :
    Follows power (l :: rest) := by
  constructor
  · rcases hl with rfl | rfl | rfl <;> simp
  · intro op hop
    rcases hl with rfl | rfl | rfl <;> cases op <;> simp [Operator.word] at hop

theorem operator?_eq (h : c.words = l :: rest) : c.operator? = Operator.ofLexeme? l := by
  rw [operator?, peek?_of_words h, Option.bind_some]

theorem stops_of_follows {power q : Nat} (h : Follows q c.words) (hq : q < power) :
    c.Stops power := by
  intro op hop
  have hhead := peek?_of_operator? hop
  rw [peek?_eq] at hhead
  exact Nat.lt_of_le_of_lt (h.2 op hhead) hq

/-- A comma, a closing bracket or a semicolon ends every chain. -/
theorem stops_of_closing {power : Nat} (hl : l = .comma ∨ l = .rparen ∨ l = .semicolon)
    (h : c.words = l :: rest) : c.Stops power := by
  intro op hop
  have hhead := peek?_of_operator? hop
  rw [peek?_of_words h] at hhead
  rcases hl with rfl | rfl | rfl <;> cases op <;> simp [Operator.word] at hhead

/-- At `c`, the expression `e` is read up to `rest`, where its chain goes on; or there is a
complaint about nesting. -/
def ReadsOn (b power : Nat) (e : Expr) (rest : List Lexeme) (c : Cursor) : Prop :=
  (∃ e' b' c', c.expression b power = chain b' power e' c' ∧ e'.bare = e ∧ c'.words = rest ∧
    c'.diagnostics = c.diagnostics) ∨ (c.expression b power).2.Complains

variable {b power : Nat} {e : Expr}

theorem complains_chain (h : c.Complains) (lhs : Expr) : (chain b power lhs c).2.Complains :=
  h.readsAs ((expression_chain_reads b).2 power lhs c)

/-- If nothing that belongs to it follows, the expression ends at `rest`. -/
theorem ReadsOn.yields (h : c.ReadsOn b power e rest) {q : Nat} (hrest : Follows q rest)
    (hq : q < power) :
    c.Yields (·.bare = e) rest (c.expression b power) := by
  rcases h with ⟨e', b', c', heq, he, hwords, hclean⟩ | hcomplains
  · have hstops : c'.Stops power := stops_of_follows (hwords ▸ hrest) hq
    rw [heq, chain_of_stops hstops]
    exact .inl ⟨he, hwords, hclean⟩
  · exact .inr hcomplains

theorem readsOn_operand
    (h : c.Yields (·.bare = e) rest (operand (fun p c => c.expression b p) c)) :
    c.ReadsOn (b + 1) power e rest := by
  unfold ReadsOn
  rw [expression_succ]
  rcases h with ⟨he, hwords, hclean⟩ | hcomplains
  · exact .inl ⟨_, b, _, rfl, he, hwords, hclean⟩
  · exact .inr (complains_chain hcomplains _)

theorem readsOn_zero (c : Cursor) (power : Nat) (e : Expr) (rest : List Lexeme) :
    c.ReadsOn 0 power e rest := by
  right
  rw [expression_zero]
  exact complains_report c

theorem readsOn_binary (op : Operator) {l r : Expr} (hpower : power ≤ op.leftPower)
    (hl : c.ReadsOn b power l (op.word :: (vs ++ rest)))
    (hr : ∀ b (c : Cursor), c.words = vs ++ rest →
      c.Yields (·.bare = r) rest (c.expression b op.rightPower)) :
    c.ReadsOn b power (.binary .origin op l r) rest := by
  rcases hl with ⟨l', b', c', heq, hlhs, hwords, hclean⟩ | hcomplains
  · have hop : c'.operator? = some op := by
      rw [operator?_eq hwords, Operator.ofLexeme?_eq_some_iff]
    unfold ReadsOn
    rw [heq]
    cases b' with
    | zero =>
      right
      rw [chain_zero_of_operator? hop hpower]
      exact complains_report c'
    | succ b' =>
      rw [chain_succ_of_operator? hop hpower]
      rcases hr b' c'.advance (words_advance hwords) with ⟨hrhs, hrest, hclean'⟩ | hcomplains
      · refine .inl ⟨_, b', _, rfl, ?_, hrest, ?_⟩
        · simpa [Expr.bare, Expr.respell] using ⟨hlhs, hrhs⟩
        · rw [hclean', diagnostics_advance, hclean]
      · exact .inr (complains_chain hcomplains _)
  · exact .inr hcomplains

/-! ### Lists -/

section Lists

variable {α β : Type} {entry : Cursor → α × Cursor} {view : α → β} {R : β → List Lexeme →
  Prop} {stop : Lexeme}

/-- The entry of a comma list is read as far as its words go. -/
def EntryYields (entry : Cursor → α × Cursor) (view : α → β) (stop : Lexeme) (y : β)
    (us : List Lexeme) : Prop :=
  ∀ (c : Cursor) l rest, l = .comma ∨ l = stop → c.words = us ++ l :: rest →
    c.Yields (view · = y) (l :: rest) (entry c)

theorem complains_commaList (hreads : ∀ c : Cursor, ReadsAs (fun _ => True) True c (entry c).2)
    (h : c.Complains) (bound : Nat) : (c.commaList stop entry bound).2.Complains :=
  h.readsAs (readsAs_commaList (R := fun _ _ => True) (n := c.ahead) stop
    (fun c' _ => hreads c') bound c (Nat.le_refl _))

theorem complains_of_entry (hreads : ∀ c : Cursor, ReadsAs (fun _ => True) True c (entry c).2)
    (hask : ¬ (c.isAtEnd || c.isAt stop) = true) (h : (entry c).2.Complains) (bound : Nat) :
    (c.commaList stop entry (bound + 1)).2.Complains := by
  rw [commaList_succ, if_neg hask]
  rcases eat?_cases (entry c).2 .comma with ⟨hnone, -⟩ | ⟨hsome, hpeek⟩
  · rw [hnone]
    exact h
  · rw [hsome]
    exact complains_commaList hreads (h.reads (reads_advance hpeek)) bound

/-- A comma list is read entry by entry. -/
theorem commaList_yields (hreads : ∀ c : Cursor, ReadsAs (fun _ => True) True c (entry c).2)
    (hstop : stop ≠ .comma) (hbegin : ∀ y us, R y us → ∃ l more, us = l :: more ∧ l ≠ stop)
    (hentry : ∀ y us, R y us → EntryYields entry view stop y us)
    {ys : List β} (h : Listed R ys ws) {bound : Nat} (hbound : ys.length ≤ bound) {c : Cursor}
    (hc : c.words = ws ++ stop :: rest) :
    c.Yields (·.map view = ys) (stop :: rest) (c.commaList stop entry bound) := by
  -- an entry is asked for, since the words go on and not with `stop`
  have hasks : ∀ (c : Cursor) y us l rest, R y us → c.words = us ++ l :: rest →
      ¬ (c.isAtEnd || c.isAt stop) = true := by
    intro c y us l rest hy hc
    obtain ⟨l', more, rfl, hne⟩ := hbegin y us hy
    simp [not_isAtEnd hc, isAt, peek?_of_words hc, hne]
  induction h generalizing c bound with
  | nil =>
    have hat : c.isAt stop = true := decide_eq_true (peek?_of_words hc)
    have heq : c.commaList stop entry bound = ([], c) := by
      cases bound with
      | zero => rfl
      | succ bound => rw [commaList_succ, hat, Bool.or_true, if_pos rfl]
    rw [heq]
    exact .inl ⟨rfl, hc, rfl⟩
  | @last y us hy =>
    obtain ⟨bound, rfl⟩ : ∃ k, bound = k + 1 := ⟨bound - 1, by simp at hbound; omega⟩
    have hask := hasks c y us stop rest hy hc
    rcases hentry y us hy c stop rest (.inr rfl) hc with ⟨hview, hwords, hclean⟩ | hcomplains
    · rw [commaList_succ, if_neg hask, eat?_eq_none hwords hstop]
      exact .inl ⟨by simp [hview], hwords, hclean⟩
    · exact .inr (complains_of_entry hreads hask hcomplains bound)
  | @cons y ys us vs hy hys ih =>
    obtain ⟨bound, rfl⟩ : ∃ k, bound = k + 1 := ⟨bound - 1, by simp at hbound; omega⟩
    have hc' : c.words = us ++ .comma :: (vs ++ stop :: rest) := by simpa using hc
    have hask := hasks c y us .comma _ hy hc'
    rcases hentry y us hy c .comma _ (.inl rfl) hc' with ⟨hview, hwords, hclean⟩ | hcomplains
    · rw [commaList_succ, if_neg hask, eat?_eq_advance hwords]
      rcases ih (by simpa using hbound) (words_advance hwords) with
        ⟨hviews, hwords', hclean'⟩ | hcomplains
      · refine .inl ⟨by simp [hview, hviews], hwords', ?_⟩
        rw [hclean', diagnostics_advance, hclean]
      · exact .inr hcomplains
    · exact .inr (complains_of_entry hreads hask hcomplains bound)

end Lists

/-! ### Operands -/

theorem operand_neg (hc : c.words = .minus :: ws)
    (h : c.advance.Yields (·.bare = e) rest (c.advance.expression b Operator.negPower)) :
    c.Yields (·.bare = .neg .origin e) rest (operand (fun p c => c.expression b p) c) := by
  simp only [operand, peek?_of_words hc]
  rcases h with ⟨he, hwords, hclean⟩ | hcomplains
  · refine .inl ⟨?_, hwords, by rw [hclean, diagnostics_advance]⟩
    simpa [Expr.bare, Expr.respell] using he
  · exact .inr hcomplains

theorem operand_paren (hc : c.words = .lparen :: ws)
    (h : c.advance.Yields (·.bare = e) (.rparen :: rest) (c.advance.expression b 0)) :
    c.Yields (·.bare = e) rest (operand (fun p c => c.expression b p) c) := by
  simp only [operand, peek?_of_words hc]
  rcases h with ⟨he, hwords, hclean⟩ | hcomplains
  · refine .inl ⟨?_, ?_, ?_⟩
    · exact (Expr.bare_withSpan _ _).trans he
    · simp only [expect_eq_advance hwords]
      exact words_advance hwords
    · simp only [expect_eq_advance hwords, diagnostics_advance, hclean]
  · exact .inr (hcomplains.expect _)

theorem operand_var_eq {name : String} {parse : Nat → Cursor → Expr × Cursor}
    (hc : c.words = .ident name :: rest) (hrest : rest.head? ≠ some .lparen) :
    operand parse c = (.var c.span name, c.advance) := by
  have hnone : c.advance.eat? .lparen = none := by
    rcases eat?_cases c.advance .lparen with ⟨hnone, -⟩ | ⟨-, hpeek⟩
    · exact hnone
    · rw [peek?_eq, words_advance hc] at hpeek
      exact absurd hpeek hrest
  simp only [operand, peek?_of_words hc, hnone]

theorem operand_var {name : String} (hc : c.words = .ident name :: rest)
    (hrest : rest.head? ≠ some .lparen) :
    c.Yields (·.bare = .var .origin name) rest (operand (fun p c => c.expression b p) c) := by
  rw [operand_var_eq hc hrest]
  exact .inl ⟨rfl, words_advance hc, diagnostics_advance c⟩

theorem operand_call_eq {name : String} {parse : Nat → Cursor → Expr × Cursor} {args : List Expr}
    (hc : c.words = .ident name :: .lparen :: ws)
    (hargs : c.advance.advance.commaList .rparen (parse 0) c.advance.advance.tokens.length =
      (args, c')) :
    operand parse c =
      (.call (c.span.merge (c'.expect .rparen).previousSpan) ⟨name, c.span⟩ args,
        c'.expect .rparen) := by
  simp only [operand, peek?_of_words hc, eat?_eq_advance (words_advance hc), hargs]

theorem operand_call {name : String} {es : List Expr}
    (hc : c.words = .ident name :: .lparen :: ws)
    (h : ∀ c' : Cursor, c'.words = ws → c'.Yields (·.map (·.bare) = es) (.rparen :: rest)
      (c'.commaList .rparen (fun c => c.expression b 0) c'.tokens.length)) :
    c.Yields (·.bare = .call .origin ⟨name, .origin⟩ es) rest
      (operand (fun p c => c.expression b p) c) := by
  rw [operand_call_eq hc rfl]
  rcases h c.advance.advance (words_advance (words_advance hc)) with
    ⟨hes, hwords, hclean⟩ | hcomplains
  · refine .inl ⟨?_, ?_, ?_⟩
    · simpa [Expr.bare, Expr.respell, Expr.respellAll_eq_map, Spanned.bare] using hes
    · simp only [expect_eq_advance hwords]
      exact words_advance hwords
    · simp only [expect_eq_advance hwords, diagnostics_advance, hclean]
  · exact .inr (hcomplains.expect _)

end Cursor

/-! ### Phrases -/

namespace Grammar

open Cursor

/-- A phrase other than an argument list begins with a minus, an opening bracket or a name. -/
theorem Derives.begins {phrase : Phrase} {ws : List Lexeme} (h : Derives phrase ws) :
    (∃ es, phrase = .arguments es) ∨
      ∃ l more, ws = l :: more ∧ (l = .minus ∨ l = .lparen ∨ ∃ name, l = .ident name) := by
  induction h with
  | additive _ _ _ ihl _ | multiplicative _ _ _ ihl _ =>
    rcases ihl with ⟨es, hes⟩ | ⟨l, more, rfl, hl⟩
    · cases hes
    · exact .inr ⟨l, _, List.cons_append, hl⟩
  | sum _ ih | term _ ih | unary _ ih =>
    rcases ih with ⟨es, hes⟩ | hbegins
    · cases hes
    · exact .inr hbegins
  | neg _ _ => exact .inr ⟨.minus, _, rfl, .inl rfl⟩
  | var name => exact .inr ⟨.ident name, _, rfl, .inr (.inr ⟨name, rfl⟩)⟩
  | call name _ _ => exact .inr ⟨.ident name, _, List.cons_append, .inr (.inr ⟨name, rfl⟩)⟩
  | paren _ _ => exact .inr ⟨.lparen, _, List.cons_append, .inr (.inl rfl)⟩
  | noArguments | lastArgument _ _ | argument _ _ _ _ => exact .inl ⟨_, rfl⟩

/-- The words `ws` are read as `e`, wherever they stand, by a reader that is no stronger than
`q` and before words that `q` does not hold. -/
def ReadsBack (q : Nat) (e : Expr) (ws : List Lexeme) : Prop :=
  ∀ b power (c : Cursor) rest, power ≤ q → c.words = ws ++ rest → Follows q rest →
    c.ReadsOn b power e rest

/-- How the words of a phrase are read back. -/
def Phrase.ReadBack : Phrase → List Lexeme → Prop
  | sum e, ws => ReadsBack 2 e ws
  | term e, ws => ReadsBack 4 e ws
  | unary e, ws => ReadsBack 6 e ws
  | primary e, ws => ∀ b (c : Cursor) rest, c.words = ws ++ rest → Follows 6 rest →
      c.Yields (·.bare = e) rest (operand (fun p c => c.expression b p) c)
  | arguments es, ws => Listed (fun e us => Derives (.sum e) us ∧ ReadsBack 2 e us) es ws

variable {e l r : Expr} {us vs ws rest : List Lexeme} {q : Nat}

theorem ReadsBack.mono {p : Nat} (h : ReadsBack q e ws) (hpq : p ≤ q) : ReadsBack p e ws :=
  fun b power c rest hpower hc hrest => h b power c rest
    (Nat.le_trans hpower hpq) hc (hrest.mono hpq)

/-- A reader stops behind the words, if it is stronger than what follows. -/
theorem ReadsBack.yields (h : ReadsBack q e ws) {b power p : Nat} {c : Cursor}
    (hpower : power ≤ q) (hc : c.words = ws ++ rest) (hrest : Follows p rest) (hp : p < power) :
    c.Yields (·.bare = e) rest (c.expression b power) :=
  (h b power c rest hpower hc (hrest.mono (by omega))).yields hrest hp

/-- A closing word ends an expression of any strength. -/
theorem ReadsBack.yields_closing (h : ReadsBack q e ws) {b : Nat} {c : Cursor} {w : Lexeme}
    (hw : w = .comma ∨ w = .rparen ∨ w = .semicolon) (hc : c.words = ws ++ w :: rest) :
    c.Yields (·.bare = e) (w :: rest) (c.expression b 0) := by
  rcases h b 0 c (w :: rest) (Nat.zero_le q) hc (follows_of_closing hw rest) with
    ⟨e', b', c', heq, he, hwords, hclean⟩ | hcomplains
  · have hstops : c'.Stops 0 := stops_of_closing hw hwords
    rw [heq, chain_of_stops hstops]
    exact .inl ⟨he, hwords, hclean⟩
  · exact .inr hcomplains

theorem readsBack_binary (op : Operator) (hl : ReadsBack op.leftPower l us) {p : Nat}
    (hr : ReadsBack p r vs) (hp : op.rightPower ≤ p) :
    ReadsBack op.leftPower (.binary .origin op l r) (us ++ op.word :: vs) := by
  intro b power c rest hpower hc hrest
  have hleft :=
    hl b power c (op.word :: (vs ++ rest)) hpower (by simpa using hc) (follows_operator op _)
  refine readsOn_binary op hpower hleft fun b' c' hc' => ?_
  exact hr.yields hp hc' hrest (Nat.lt_succ_self op.leftPower)

theorem readsBack_of_operand
    (h : ∀ b (c : Cursor) rest, c.words = ws ++ rest → Follows 6 rest →
      c.Yields (·.bare = e) rest (operand (fun p c => c.expression b p) c)) :
    ReadsBack 6 e ws := by
  intro b power c rest _ hc hrest
  cases b with
  | zero => exact readsOn_zero c power e rest
  | succ b => exact readsOn_operand (h b c rest hc hrest)

theorem Listed.length_le {α : Type} {R : α → List Lexeme → Prop}
    (hbegin : ∀ y us, R y us → ∃ l more, us = l :: more) {ys : List α} (h : Listed R ys ws) :
    ys.length ≤ ws.length := by
  induction h with
  | nil => exact Nat.le_refl 0
  | last hy =>
    obtain ⟨l, more, rfl⟩ := hbegin _ _ hy
    simp
  | cons hy _ ih =>
    simp only [List.length_cons, List.length_append]
    omega

theorem Derives.begins_sum (h : Derives (.sum e) ws) :
    ∃ l more, ws = l :: more ∧ l ≠ .rparen := by
  rcases h.begins with ⟨es, hes⟩ | ⟨l, more, rfl, hl⟩
  · cases hes
  · refine ⟨l, more, rfl, ?_⟩
    rcases hl with rfl | rfl | ⟨name, rfl⟩ <;> simp

/-- The arguments of a call are read back up to its closing bracket. -/
theorem arguments_yields {es : List Expr}
    (h : Listed (fun e us => Derives (.sum e) us ∧ ReadsBack 2 e us) es ws) {b : Nat} {c : Cursor}
    (hc : c.words = ws ++ .rparen :: rest) :
    c.Yields (·.map (·.bare) = es) (.rparen :: rest)
      (c.commaList .rparen (fun c => c.expression b 0) c.tokens.length) := by
  have hlength : es.length ≤ c.tokens.length := by
    have hle := h.length_le fun e us he => by
      obtain ⟨l, more, hus, -⟩ := he.1.begins_sum
      exact ⟨l, more, hus⟩
    have htokens := congrArg List.length hc
    simp only [Cursor.words, List.length_map, List.length_append] at htokens
    omega
  refine commaList_yields (fun c => (c.readsAs_expression b 0).mono (fun _ _ => trivial) fun _ =>
    trivial) (by simp) (fun e us he => he.1.begins_sum) (fun e us he => ?_) h hlength hc
  intro c' l rest' hl hc'
  refine he.2.yields_closing ?_ hc'
  rcases hl with rfl | rfl
  · exact .inl rfl
  · exact .inr (.inl rfl)

/-- Every phrase is read back from its words. -/
theorem Derives.readBack {phrase : Phrase} (h : Derives phrase ws) : phrase.ReadBack ws := by
  induction h with
  | @additive op l r us vs hop _ _ ihl ihr =>
    have hpowers : op.leftPower = 2 ∧ op.rightPower ≤ 4 := by
      cases op <;> simp_all [Operator.isAdditive, Operator.leftPower, Operator.rightPower]
    have := readsBack_binary op (by rw [hpowers.1]; exact ihl) ihr hpowers.2
    rwa [hpowers.1] at this
  | @multiplicative op l r us vs hop _ _ ihl ihr =>
    have hpowers : op.leftPower = 4 ∧ op.rightPower ≤ 6 := by
      cases op <;> simp_all [Operator.isAdditive, Operator.leftPower, Operator.rightPower]
    have := readsBack_binary op (by rw [hpowers.1]; exact ihl) ihr hpowers.2
    rwa [hpowers.1] at this
  | sum _ ih => exact ReadsBack.mono ih (by omega)
  | term _ ih => exact ReadsBack.mono ih (by omega)
  | unary _ ih => exact readsBack_of_operand ih
  | @neg e ws _ ih =>
    refine readsBack_of_operand fun b c rest hc hrest => operand_neg hc ?_
    have hstrict : Follows 5 rest :=
      ⟨hrest.1, fun op _ => by cases op <;> simp [Operator.leftPower]⟩
    exact ReadsBack.yields ih (Nat.le_refl 6) (words_advance hc) hstrict (by decide)
  | var name =>
    intro b c rest hc hrest
    exact operand_var hc hrest.1
  | @call name es ws _ ih =>
    intro b c rest hc hrest
    have hc' : c.words = .ident name :: .lparen :: (ws ++ .rparen :: rest) := by simpa using hc
    exact operand_call hc' fun c' hwords => arguments_yields ih hwords
  | @paren e ws _ ih =>
    intro b c rest hc hrest
    have hc' : c.words = .lparen :: (ws ++ .rparen :: rest) := by simpa using hc
    exact operand_paren hc' (ReadsBack.yields_closing ih (.inr (.inl rfl)) (words_advance hc'))
  | noArguments => exact .nil
  | lastArgument h ih => exact .last ⟨h, ih⟩
  | argument h _ ih ih' => exact .cons ⟨h, ih⟩ ih'

end Grammar

end LinearKernels
