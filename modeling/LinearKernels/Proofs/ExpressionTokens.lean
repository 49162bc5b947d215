import LinearKernels.Proofs.ItemScope
import LinearKernels.Proofs.ReadingBack

/-!
The tokens of expressions. A stretch of tokens is tied to the expression that is read from it,
with its spans, and to the nesting levels that reading it takes: a chain of operators leaves one
level less for each of its right operands than for the one before. Whatever is read without a
complaint takes such a stretch, and a stretch is read the same wherever it stands, if nothing
follows that belongs to it.
-/

namespace LinearKernels

/-- What tokens are read as. An operand has `levels` levels for what is inside it. An expression
is begun with `levels` levels and leaves `left` of them to what follows in its chain; its
operators hold at least as strongly as `power`. -/
inductive Stretch where
  | operand (levels : Nat) (e : Expr)
  | chain (levels left power : Nat) (e : Expr)
  | arguments (levels : Nat) (es : List Expr)

namespace Stretch

/-- The tokens that are read so. -/
inductive Takes : Stretch → List Token → Prop
  | operand {b : Nat} {e : Expr} {ts : List Token} (power : Nat) : Takes (.operand b e) ts →
      Takes (.chain (b + 1) b power e) ts
  | binary {b k k' power : Nat} {op : Operator} {l r : Expr} {us vs : List Token} (s : Span)
      (hpower : power ≤ op.leftPower) : Takes (.chain b (k + 1) op.leftPower l) us →
      Takes (.chain k k' op.rightPower r) vs →
      Takes (.chain b k power (.binary (l.span.merge r.span) op l r)) (us ++ ⟨op.word, s⟩ :: vs)
  | neg {b k : Nat} {e : Expr} {ts : List Token} (s : Span) :
      Takes (.chain b k Operator.negPower e) ts →
      Takes (.operand b (.neg (s.merge e.span) e)) (⟨.minus, s⟩ :: ts)
  | paren {b k : Nat} {e : Expr} {ts : List Token} (s s' : Span) : Takes (.chain b k 0 e) ts →
      Takes (.operand b (e.withSpan (s.merge s'))) (⟨.lparen, s⟩ :: (ts ++ [⟨.rparen, s'⟩]))
  | var {b : Nat} (name : String) (s : Span) : Takes (.operand b (.var s name)) [⟨.ident name, s⟩]
  | call {b : Nat} {es : List Expr} {ts : List Token} (name : String) (s opened s' : Span) :
      Takes (.arguments b es) ts →
      Takes (.operand b (.call (s.merge s') ⟨name, s⟩ es))
        (⟨.ident name, s⟩ :: ⟨.lparen, opened⟩ :: (ts ++ [⟨.rparen, s'⟩]))
  | noArguments {b : Nat} : Takes (.arguments b []) []
  | lastArgument {b k : Nat} {e : Expr} {ts : List Token} :
      Takes (.chain b k 0 e) ts → Takes (.arguments b [e]) ts
  | argument {b k : Nat} {e : Expr} {es : List Expr} {us vs : List Token} (s : Span) :
      Takes (.chain b k 0 e) us → Takes (.arguments b es) vs →
      Takes (.arguments b (e :: es)) (us ++ ⟨.comma, s⟩ :: vs)

variable {b k p q : Nat} {e : Expr} {es : List Expr} {ts us vs : List Token}

theorem Takes.weaken (h : Takes (.chain b k q e) ts) (hpq : p ≤ q) :
    Takes (.chain b k p e) ts := by
  cases h with
  | operand _ h => exact .operand p h
  | binary s hq hl hr => exact .binary s (Nat.le_trans hpq hq) hl hr

/-- An expression takes at least one level. -/
theorem Takes.left_lt :
    ∀ {b k p : Nat} {e : Expr} {ts : List Token}, Takes (.chain b k p e) ts → k < b
  | _, _, _, _, _, .operand _ _ => Nat.lt_succ_self _
  | _, _, _, _, _, .binary _ _ hl _ => Nat.lt_of_succ_lt hl.left_lt

/-- The same tree, with `m` more levels to read it in. -/
def raise (m : Nat) : Stretch → Stretch
  | operand b e => .operand (b + m) e
  | chain b k p e => .chain (b + m) (k + m) p e
  | arguments b es => .arguments (b + m) es

/-- More levels do no harm. -/
theorem Takes.raise (m : Nat) {x : Stretch} (h : x.Takes ts) : (x.raise m).Takes ts := by
  induction h with
  | @operand b e ts power _ ih =>
    have hlevels : b + 1 + m = b + m + 1 := by omega
    rw [Stretch.raise, hlevels]
    exact .operand power ih
  | @binary b k k' power op l r us vs s hpower _ _ ihl ihr =>
    have hlevels : k + 1 + m = k + m + 1 := by omega
    simp only [Stretch.raise, hlevels] at ihl
    exact .binary s hpower ihl ihr
  | neg s _ ih => exact .neg s ih
  | paren s s' _ ih => exact .paren s s' ih
  | var name s => exact .var name s
  | call name s opened s' _ ih => exact .call name s opened s' ih
  | noArguments => exact .noArguments
  | lastArgument _ ih => exact .lastArgument ih
  | argument s _ _ ih ihs => exact .argument s ih ihs

/-- Arguments apart, a stretch has a first token, and that is no closing bracket. -/
theorem Takes.begins {x : Stretch} (h : x.Takes ts) : (∃ b es, x = .arguments b es) ∨
    ∃ t more, ts = t :: more ∧ t.value ≠ .rparen := by
  induction h with
  | operand _ _ ih =>
    rcases ih with ⟨_, _, hx⟩ | hbegins
    · cases hx
    · exact .inr hbegins
  | binary _ _ _ _ ihl _ =>
    rcases ihl with ⟨_, _, hx⟩ | ⟨t, more, rfl, ht⟩
    · cases hx
    · exact .inr ⟨t, _, List.cons_append, ht⟩
  | neg | paren | var | call => exact .inr ⟨_, _, rfl, by simp⟩
  | noArguments | lastArgument | argument => exact .inl ⟨_, _, rfl⟩

theorem Takes.chain_begins (h : Takes (.chain b k p e) ts) :
    ∃ t more, ts = t :: more ∧ t.value ≠ .rparen := by
  rcases h.begins with ⟨_, _, hx⟩ | hbegins
  · cases hx
  · exact hbegins

end Stretch

namespace Cursor

variable {c c' c'' : Cursor} {ts rest : List Token} {l : Lexeme} {α : Type}

theorem span_of_tokens {t : Token} (h : c.tokens = t :: rest) : c.span = t.span := by
  unfold span
  rw [h]

theorem words_of_tokens {t : Token} (h : c.tokens = t :: rest) :
    c.words = t.value :: rest.map (·.value) := by
  unfold words
  rw [h, List.map_cons]

theorem tokens_advance {t : Token} (h : c.tokens = t :: rest) : c.advance.tokens = rest := by
  unfold advance
  rw [h]

theorem previousSpan_advance {t : Token} (h : c.tokens = t :: rest) :
    c.advance.previousSpan = t.span := by
  unfold previousSpan advance
  rw [h]

theorem exists_token (h : c.peek? = some l) :
    ∃ s, c.tokens = ⟨l, s⟩ :: c.advance.tokens ∧ c.span = s := by
  cases htokens : c.tokens with
  | nil => simp [peek?, htokens] at h
  | cons t more =>
    have hvalue : t.value = l := by simpa [peek?, htokens] using h
    subst hvalue
    exact ⟨t.span, by rw [tokens_advance htokens], span_of_tokens htokens⟩

/-! ### Whatever is read takes a stretch -/

/-- From `c` to `c'` tokens are taken and complaints are added; without complaints, the tokens
taken are as `P` says. -/
def Takes (P : List Token → Prop) (c c' : Cursor) : Prop :=
  ∃ ts ds, c.tokens = ts ++ c'.tokens ∧ c'.diagnostics = c.diagnostics ++ ds ∧ (ds = [] → P ts)

variable {P Q : List Token → Prop}

theorem Takes.mono (h : Takes P c c') (hP : ∀ ts, P ts → Q ts) : Takes Q c c' := by
  obtain ⟨ts, ds, htokens, hdiagnostics, hclean⟩ := h
  exact ⟨ts, ds, htokens, hdiagnostics, fun hds => hP ts (hclean hds)⟩

/-- One reader after the other. -/
theorem Takes.append (h : Takes P c c') (h' : Takes Q c' c'') :
    Takes (fun ts => ∃ us vs, ts = us ++ vs ∧ P us ∧ Q vs) c c'' := by
  obtain ⟨us, ds, htokens, hdiagnostics, hclean⟩ := h
  obtain ⟨vs, es, htokens', hdiagnostics', hclean'⟩ := h'
  refine ⟨us ++ vs, ds ++ es, ?_, ?_, fun hnil => ?_⟩
  · rw [htokens, htokens', List.append_assoc]
  · rw [hdiagnostics', hdiagnostics, List.append_assoc]
  · obtain ⟨hds, hes⟩ := List.append_eq_nil_iff.mp hnil
    exact ⟨us, vs, rfl, hclean hds, hclean' hes⟩

theorem takes_refl (h : P []) : Takes P c c :=
  ⟨[], [], rfl, (List.append_nil _).symm, fun _ => h⟩

theorem takes_advance (h : c.peek? = some l) : Takes (· = [⟨l, c.span⟩]) c c.advance := by
  obtain ⟨s, htokens, rfl⟩ := exists_token h
  exact ⟨_, [], htokens, by simp, fun _ => rfl⟩

/-- A complaint is made. -/
theorem takes_report (c : Cursor) (fault : SyntaxFault) : Takes P c (c.report fault) :=
  ⟨[], [fault.diagnostic c.span], rfl, rfl, by simp⟩

theorem takes_expect (c : Cursor) (l : Lexeme) :
    Takes (· = [⟨l, (c.expect l).previousSpan⟩]) c (c.expect l) := by
  unfold expect
  by_cases hat : c.isAt l = true
  · rw [if_pos hat]
    obtain ⟨s, htokens, hspan⟩ := exists_token (of_decide_eq_true hat)
    have hprevious : c.advance.previousSpan = c.span := by
      rw [previousSpan_advance htokens, hspan]
    rw [hprevious]
    exact takes_advance (of_decide_eq_true hat)
  · rw [if_neg hat]
    exact takes_report c _

theorem Passes.takes (h : c.Passes c') : Takes (fun _ => True) c c' := by
  induction h with
  | refl => exact takes_refl trivial
  | take _ hpeek _ ih => exact (ih.append (takes_advance hpeek)).mono fun _ _ => trivial
  | report _ fault ih =>
    exact (ih.append (takes_report (P := fun _ => True) _ fault)).mono fun _ _ => trivial

variable {b : Nat}

/-- Expressions that are read with `b` levels take stretches. -/
def ExpressionTakes (b : Nat) (parse : Nat → Cursor → Expr × Cursor) : Prop :=
  ∀ power (c : Cursor),
    Takes (fun ts => ∃ k, (Stretch.chain b k power (parse power c).1).Takes ts ∧
      Stops power (parse power c).2) c (parse power c).2

theorem takes_arguments {parse : Nat → Cursor → Expr × Cursor} (hparse : ExpressionTakes b parse)
    (bound : Nat) (c : Cursor) :
    Takes (fun ts => (Stretch.arguments b (c.commaList .rparen (parse 0) bound).1).Takes ts) c
      (c.commaList .rparen (parse 0) bound).2 := by
  induction bound generalizing c with
  | zero => exact takes_refl .noArguments
  | succ bound ih =>
    rw [commaList_succ]
    by_cases hstop : (c.isAtEnd || c.isAt .rparen) = true
    · rw [if_pos hstop]
      exact takes_refl .noArguments
    · rw [if_neg hstop]
      have hfirst := hparse 0 c
      rcases eat?_cases (parse 0 c).2 .comma with ⟨hnone, -⟩ | ⟨hsome, hpeek⟩
      · rw [hnone]
        refine hfirst.mono ?_
        rintro ts ⟨k, hts, -⟩
        exact .lastArgument hts
      · rw [hsome]
        refine ((hfirst.append (takes_advance hpeek)).append (ih (parse 0 c).2.advance)).mono ?_
        rintro _ ⟨_, vs, rfl, ⟨us, _, rfl, ⟨k, hus, -⟩, rfl⟩, hvs⟩
        rw [List.append_assoc]
        exact .argument _ hus hvs

theorem takes_operand {parse : Nat → Cursor → Expr × Cursor}
    (hparse : ExpressionTakes b parse) (c : Cursor) :
    Takes (Stretch.operand b (operand parse c).1).Takes c (operand parse c).2 := by
  unfold operand
  split
  · next hpeek =>
    refine ((takes_advance hpeek).append (hparse Operator.negPower c.advance)).mono ?_
    rintro _ ⟨_, ts, rfl, rfl, k, hts, -⟩
    exact .neg c.span hts
  · next hpeek =>
    refine (((takes_advance hpeek).append (hparse 0 c.advance)).append
      (takes_expect _ .rparen)).mono ?_
    rintro _ ⟨_, _, rfl, ⟨_, ts, rfl, rfl, k, hts, -⟩, rfl⟩
    exact .paren c.span _ hts
  · next name hpeek =>
    rcases eat?_cases c.advance .lparen with ⟨hnone, -⟩ | ⟨hsome, hparen⟩
    · rw [hnone]
      refine (takes_advance hpeek).mono ?_
      rintro _ rfl
      exact .var name c.span
    · rw [hsome]
      have hname := (takes_advance hpeek).append (takes_advance hparen)
      have hargs := takes_arguments hparse c.advance.advance.tokens.length c.advance.advance
      refine ((hname.append hargs).append (takes_expect _ .rparen)).mono ?_
      rintro _ ⟨_, _, rfl, ⟨_, ts, rfl, ⟨_, _, rfl, rfl, rfl⟩, hts⟩, rfl⟩
      exact .call name c.span _ _ hts
  · next n hpeek =>
    have hreport : Takes (fun _ => False) c (c.report .numericConstant) := takes_report c _
    have hpeek' : (c.report .numericConstant).peek? = some (.integer n) := hpeek
    refine (hreport.append (takes_advance hpeek')).mono ?_
    rintro _ ⟨_, _, _, hfalse, _⟩
    exact hfalse.elim
  · exact takes_report c _

/-- Operators that are read after `lhs` lengthen its stretch, if the next of them holds no more
strongly than all before. -/
def ChainTakes (b power : Nat) (lhs : Expr) (c : Cursor) : Prop :=
  Takes (fun vs => ∀ n us q, (Stretch.chain n b q lhs).Takes us → power ≤ q →
      (∀ op, c.operator? = some op → op.leftPower ≤ q) →
      ∃ k, (Stretch.chain n k power (chain b power lhs c).1).Takes (us ++ vs) ∧
        Stops power (chain b power lhs c).2)
    c (chain b power lhs c).2

theorem chainTakes_of_stops {power : Nat} (h : c.Stops power) (lhs : Expr) :
    ChainTakes b power lhs c := by
  unfold ChainTakes
  rw [chain_of_stops h]
  refine takes_refl fun n us q hus hq _ => ⟨b, ?_, h⟩
  rw [List.append_nil]
  exact hus.weaken hq

theorem chainTakes_zero (power : Nat) (lhs : Expr) (c : Cursor) : ChainTakes 0 power lhs c := by
  rcases stops_or_operator? c power with hstop | ⟨op, hop, hpower⟩
  · exact chainTakes_of_stops hstop lhs
  · unfold ChainTakes
    rw [chain_zero_of_operator? hop hpower]
    exact takes_report c _

theorem chainTakes_succ (hexpr : ExpressionTakes b fun p c => c.expression b p)
    (hchain : ∀ power lhs c, ChainTakes b power lhs c) (power : Nat) (lhs : Expr) (c : Cursor) :
    ChainTakes (b + 1) power lhs c := by
  rcases stops_or_operator? c power with hstop | ⟨op, hop, hpower⟩
  · exact chainTakes_of_stops hstop lhs
  · unfold ChainTakes
    rw [chain_succ_of_operator? hop hpower]
    have hrest := hchain power
      (.binary (lhs.span.merge (c.advance.expression b op.rightPower).1.span) op lhs
        (c.advance.expression b op.rightPower).1)
      (c.advance.expression b op.rightPower).2
    refine (((takes_advance (peek?_of_operator? hop)).append
      (hexpr op.rightPower c.advance)).append hrest).mono ?_
    rintro _ ⟨_, vs, rfl, ⟨_, ws, rfl, rfl, k, hws, hstops⟩, hvs⟩ n us q hus hq hnext
    -- `op` holds the chain so far, and no later operator of it is stronger
    have hjoined :=
      Stretch.Takes.binary c.span (Nat.le_refl op.leftPower) (hus.weaken (hnext op hop)) hws
    have hafter : ∀ op', (c.advance.expression b op.rightPower).2.operator? = some op' →
        op'.leftPower ≤ op.leftPower := fun op' hop' => Nat.lt_succ_iff.mp (hstops op' hop')
    simpa using hvs n _ op.leftPower hjoined hpower hafter

theorem expressionTakes_succ (hexpr : ExpressionTakes b fun p c => c.expression b p)
    (hchain : ∀ power lhs c, ChainTakes b power lhs c) :
    ExpressionTakes (b + 1) fun p c => c.expression (b + 1) p := by
  intro power c
  simp only [expression_succ]
  refine ((takes_operand hexpr c).append (hchain power _ _)).mono ?_
  rintro _ ⟨us, vs, rfl, hus, hvs⟩
  -- an operand holds together more strongly than any operator
  refine hvs (b + 1) us (max power 6) (.operand _ hus) (Nat.le_max_left ..) fun op _ => ?_
  cases op <;> simp only [Operator.leftPower] <;> omega

theorem expression_chain_takes (b : Nat) :
    (ExpressionTakes b fun p c => c.expression b p) ∧
    ∀ power lhs c, ChainTakes b power lhs c := by
  induction b with
  | zero =>
    refine ⟨fun power c => ?_, chainTakes_zero⟩
    simp only [expression_zero]
    exact takes_report c _
  | succ b ih => exact ⟨expressionTakes_succ ih.1 ih.2, chainTakes_succ ih.1 ih.2⟩

/-! ### A stretch is read wherever it stands -/

/-- At `c`, the value `x` is read up to `rest` without a complaint. -/
def Gives (x : α) (rest : List Token) (c : Cursor) (r : α × Cursor) : Prop :=
  r.1 = x ∧ r.2.tokens = rest ∧ r.2.diagnostics = c.diagnostics

/-- At `c`, the expression `e` is read up to `rest`, where its chain goes on with `k` levels. -/
def GoesOn (b k power : Nat) (e : Expr) (rest : List Token) (c : Cursor) : Prop :=
  ∃ c', c.expression b power = chain k power e c' ∧ c'.tokens = rest ∧
    c'.diagnostics = c.diagnostics

/-- The words of the tokens to come. -/
def wordsOf (ts : List Token) : List Lexeme :=
  ts.map (·.value)

variable {k power : Nat} {e : Expr} {us vs : List Token}

theorem GoesOn.gives (h : c.GoesOn b k power e rest)
    (hstops : ∀ c' : Cursor, c'.tokens = rest → c'.Stops power) :
    c.Gives e rest (c.expression b power) := by
  obtain ⟨c', heq, htokens, hclean⟩ := h
  rw [heq, chain_of_stops (hstops c' htokens)]
  exact ⟨rfl, htokens, hclean⟩

theorem stops_of_tokens {q : Nat} (hrest : Follows q (wordsOf rest)) (hq : q < power)
    (h : c.tokens = rest) :
    c.Stops power :=
  stops_of_follows (q := q) (by unfold words; rwa [h]) hq

theorem stops_at_closing {t : Token}
    (ht : t.value = .comma ∨ t.value = .rparen ∨ t.value = .semicolon)
    (h : c.tokens = t :: rest) : c.Stops power :=
  stops_of_closing ht (words_of_tokens h)

theorem goesOn_binary {op : Operator} {l r : Expr} {s : Span} (hpower : power ≤ op.leftPower)
    (hl : c.GoesOn b (k + 1) power l (⟨op.word, s⟩ :: (vs ++ rest)))
    (hr : ∀ c : Cursor, c.tokens = vs ++ rest → c.Gives r rest (c.expression k op.rightPower)) :
    c.GoesOn b k power (.binary (l.span.merge r.span) op l r) rest := by
  obtain ⟨c', heq, htokens, hclean⟩ := hl
  have hop : c'.operator? = some op := by
    rw [operator?_eq (words_of_tokens htokens), Operator.ofLexeme?_eq_some_iff]
  obtain ⟨rfl, hrest, hclean'⟩ := hr c'.advance (tokens_advance htokens)
  refine ⟨_, ?_, hrest, ?_⟩
  · rw [heq, chain_succ_of_operator? hop hpower]
  · rw [hclean', diagnostics_advance, hclean]

theorem operand_gives_neg {s : Span} (hc : c.tokens = ⟨.minus, s⟩ :: ts)
    (h : c.advance.Gives e rest (c.advance.expression b Operator.negPower)) :
    c.Gives (.neg (s.merge e.span) e) rest (operand (fun p c => c.expression b p) c) := by
  obtain ⟨rfl, hrest, hclean⟩ := h
  simp only [operand, peek?_of_words (words_of_tokens hc)]
  refine ⟨?_, hrest, by rw [hclean, diagnostics_advance]⟩
  rw [span_of_tokens hc]

theorem operand_gives_paren {s s' : Span} (hc : c.tokens = ⟨.lparen, s⟩ :: ts)
    (h : c.advance.Gives e (⟨.rparen, s'⟩ :: rest) (c.advance.expression b 0)) :
    c.Gives (e.withSpan (s.merge s')) rest (operand (fun p c => c.expression b p) c) := by
  obtain ⟨rfl, hrest, hclean⟩ := h
  have hexpect := expect_eq_advance (words_of_tokens hrest)
  simp only [operand, peek?_of_words (words_of_tokens hc), hexpect]
  refine ⟨?_, tokens_advance hrest, by rw [diagnostics_advance, hclean, diagnostics_advance]⟩
  simp only [span_of_tokens hc, previousSpan_advance hrest]

theorem operand_gives_call {name : String} {s opened s' : Span} {es : List Expr}
    (hc : c.tokens = ⟨.ident name, s⟩ :: ⟨.lparen, opened⟩ :: ts)
    (h : c.advance.advance.Gives es (⟨.rparen, s'⟩ :: rest)
      (c.advance.advance.commaList .rparen
      (fun c => c.expression b 0) c.advance.advance.tokens.length)) :
    c.Gives (.call (s.merge s') ⟨name, s⟩ es) rest (operand (fun p c => c.expression b p) c) := by
  obtain ⟨rfl, hrest, hclean⟩ := h
  have hexpect := expect_eq_advance (words_of_tokens hrest)
  rw [operand_call_eq (words_of_tokens hc) rfl, hexpect]
  refine ⟨?_, tokens_advance hrest,
    by rw [diagnostics_advance, hclean, diagnostics_advance, diagnostics_advance]⟩
  simp only [span_of_tokens hc, previousSpan_advance hrest]

/-- An entry is asked for where a stretch begins. -/
theorem asks_of_takes {p : Nat} (h : (Stretch.chain b k p e).Takes us)
    (hc : c.tokens = us ++ rest) :
    ¬ (c.isAtEnd || c.isAt .rparen) = true := by
  obtain ⟨t, more, rfl, ht⟩ := h.chain_begins
  have hwords := words_of_tokens hc
  simp [not_isAtEnd hwords, isAt, peek?_of_words hwords, ht]

theorem arguments_give_last {bound p : Nat} {s : Span} (hus : (Stretch.chain b k p e).Takes us)
    (hc : c.tokens = us ++ ⟨.rparen, s⟩ :: rest)
    (h : c.Gives e (⟨.rparen, s⟩ :: rest) (c.expression b 0)) :
    c.Gives [e] (⟨.rparen, s⟩ :: rest) (c.commaList .rparen (fun c => c.expression b 0)
      (bound + 1)) := by
  obtain ⟨rfl, hrest, hclean⟩ := h
  have hend := eat?_eq_none (l := .comma) (words_of_tokens hrest) (by simp)
  rw [commaList_succ, if_neg (asks_of_takes hus hc), hend]
  exact ⟨rfl, hrest, hclean⟩

theorem arguments_give_cons {bound p : Nat} {s : Span} {es : List Expr}
    (hus : (Stretch.chain b k p e).Takes us) (hc : c.tokens = us ++ ⟨.comma, s⟩ :: ts)
    (h : c.Gives e (⟨.comma, s⟩ :: ts) (c.expression b 0)) (hmore : ∀ c : Cursor, c.tokens = ts →
      c.Gives es rest (c.commaList .rparen (fun c => c.expression b 0) bound)) :
    c.Gives (e :: es) rest (c.commaList .rparen (fun c => c.expression b 0) (bound + 1)) := by
  obtain ⟨rfl, hrest, hclean⟩ := h
  obtain ⟨rfl, hrest', hclean'⟩ := hmore (c.expression b 0).2.advance (tokens_advance hrest)
  rw [commaList_succ, if_neg (asks_of_takes hus hc), eat?_eq_advance (words_of_tokens hrest)]
  exact ⟨rfl, hrest', by rw [hclean', diagnostics_advance, hclean]⟩

end Cursor

namespace Stretch

open Cursor

/-- How a stretch is read where it stands. -/
def ReadsBack : Stretch → List Token → Prop
  | operand b e, ts => ∀ (c : Cursor) rest, c.tokens = ts ++ rest → Follows 6 (wordsOf rest) →
      c.Gives e rest (Cursor.operand (fun p c => c.expression b p) c)
  | chain b k q e, ts =>
    ∀ power (c : Cursor) rest, power ≤ q → c.tokens = ts ++ rest → Follows q (wordsOf rest) →
      c.GoesOn b k power e rest
  | arguments b es, ts =>
    ∀ (c : Cursor) s rest bound, ts.length ≤ bound → c.tokens = ts ++ ⟨.rparen, s⟩ :: rest →
      c.Gives es (⟨.rparen, s⟩ :: rest) (c.commaList .rparen (fun c => c.expression b 0) bound)

variable {b k q : Nat} {e : Expr} {ts : List Token}

/-- A closing word ends every chain. -/
theorem ReadsBack.closing (h : ReadsBack (.chain b k q e) ts) {c : Cursor} {t : Token}
    {rest : List Token} (ht : t.value = .comma ∨ t.value = .rparen ∨ t.value = .semicolon)
    (hc : c.tokens = ts ++ t :: rest) :
    c.Gives e (t :: rest) (c.expression b 0) :=
  (h 0 c (t :: rest) (Nat.zero_le q) hc (follows_of_closing ht _)).gives fun _ hc' =>
    stops_at_closing ht hc'

theorem Takes.readsBack {x : Stretch} (h : x.Takes ts) : x.ReadsBack ts := by
  induction h with
  | @operand b e ts q _ ih =>
    intro power c rest _ hc hrest
    -- nothing that follows holds more strongly than a minus
    have hany : Follows 6 (wordsOf rest) :=
      ⟨hrest.1, fun op _ => by cases op <;> simp [Operator.leftPower]⟩
    obtain ⟨rfl, htokens, hclean⟩ := ih c rest hc hany
    exact ⟨_, expression_succ b power c, htokens, hclean⟩
  | @binary b k k' q op l r us vs s hq _ _ ihl ihr =>
    intro power c rest hpower hc hrest
    have hop : Follows op.leftPower (wordsOf (⟨op.word, s⟩ :: (vs ++ rest))) :=
      follows_operator op _
    refine goesOn_binary (Nat.le_trans hpower hq)
      (ihl power c _ (Nat.le_trans hpower hq) (by simpa using hc) hop) ?_
    intro c' hc'
    have hweak : Follows op.leftPower (wordsOf rest) := hrest.mono hq
    have hright := ihr op.rightPower c' rest (Nat.le_refl _) hc' (hweak.mono (Nat.le_succ _))
    exact hright.gives fun _ => stops_of_tokens hweak (Nat.lt_succ_self _)
  | @neg b k e ts s _ ih =>
    intro c rest hc hrest
    have hstrict : Follows 5 (wordsOf rest) :=
      ⟨hrest.1, fun op _ => by cases op <;> simp [Operator.leftPower]⟩
    have hinner := ih Operator.negPower c.advance rest (Nat.le_refl _) (tokens_advance hc) hrest
    exact operand_gives_neg hc (hinner.gives fun _ => stops_of_tokens hstrict (by decide))
  | @paren b k e ts s s' _ ih =>
    intro c rest hc _
    have hinner : c.advance.tokens = ts ++ ⟨.rparen, s'⟩ :: rest := by
      simpa using tokens_advance hc
    exact operand_gives_paren hc (ReadsBack.closing ih (.inr (.inl rfl)) hinner)
  | var name s =>
    intro c rest hc hrest
    rw [operand_var_eq (words_of_tokens hc) hrest.1, span_of_tokens hc]
    exact ⟨rfl, tokens_advance hc, diagnostics_advance c⟩
  | @call b es ts name s opened s' _ ih =>
    intro c rest hc _
    have hinner : c.advance.advance.tokens = ts ++ ⟨.rparen, s'⟩ :: rest := by
      simpa using tokens_advance (tokens_advance hc)
    exact operand_gives_call hc (ih _ s' rest _ (by simp [hinner]) hinner)
  | @noArguments b =>
    intro c s rest bound _ hc
    have hstop : (c.isAtEnd || c.isAt .rparen) = true := by
      simp [isAt, peek?_of_words (words_of_tokens hc)]
    have heq : c.commaList .rparen (fun c => c.expression b 0) bound = ([], c) := by
      cases bound with
      | zero => rfl
      | succ bound => rw [commaList_succ, if_pos hstop]
    rw [heq]
    exact ⟨rfl, hc, rfl⟩
  | @lastArgument b k e ts h ih =>
    intro c s rest bound hbound hc
    obtain ⟨t, more, rfl, -⟩ := h.chain_begins
    obtain ⟨bound, rfl⟩ : ∃ n, bound = n + 1 := ⟨bound - 1, by simp at hbound; omega⟩
    exact arguments_give_last h hc (ReadsBack.closing ih (.inr (.inl rfl)) hc)
  | @argument b k e es us vs s h _ ih ihs =>
    intro c s' rest bound hbound hc
    obtain ⟨bound, rfl⟩ : ∃ n, bound = n + 1 := ⟨bound - 1, by simp at hbound; omega⟩
    have hc' : c.tokens = us ++ ⟨.comma, s⟩ :: (vs ++ ⟨.rparen, s'⟩ :: rest) := by simpa using hc
    refine arguments_give_cons h hc' (ReadsBack.closing ih (.inl rfl) hc') fun c'' hc'' => ?_
    exact ihs c'' s' rest bound (by simp at hbound; omega) hc''

/-- A stretch that stands alone is read to its end, whatever levels it was read with before. -/
theorem Takes.reads_alone (h : Takes (.chain b k q e) ts) {levels : Nat}
    (hb : b ≤ levels) (finish : Span) :
    (Cursor.ofTokens ts finish).Gives e [] ((Cursor.ofTokens ts finish).expression levels 0) := by
  obtain ⟨m, rfl⟩ := Nat.exists_eq_add_of_le hb
  have hfollows : ∀ p, Follows p (wordsOf []) := fun p => ⟨by simp [wordsOf], by simp [wordsOf]⟩
  have hback := (h.raise m).readsBack 0 (Cursor.ofTokens ts finish) [] (Nat.zero_le q)
    (List.append_nil ts).symm (hfollows q)
  refine hback.gives fun c hc op hop => ?_
  have hpeek := peek?_of_operator? hop
  rw [peek?, hc] at hpeek
  cases hpeek

end Stretch

end LinearKernels
