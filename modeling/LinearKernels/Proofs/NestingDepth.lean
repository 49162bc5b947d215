import LinearKernels.Proofs.Acceptance
import LinearKernels.Proofs.Scanning

/-!
How deep accepted expressions are. Reading an expression has a budget of nesting levels, and
every operator of a chain takes one more; but the levels that an operand took are given back
when it ends, although the operand stays below the chain. So the depths of the levels add up:
with one more level the deepest tree grows by as many levels as are left for its chain, and
all depths up to that are reached.
-/

namespace LinearKernels

namespace Expr

mutual

/-- The number of expressions on a longest way down. -/
def depth : Expr → Nat
  | var _ _ | missing _ => 1
  | neg _ operand => operand.depth + 1
  | binary _ _ lhs rhs => max lhs.depth rhs.depth + 1
  | call _ _ args => depthAll args + 1

def depthAll : List Expr → Nat
  | [] => 0
  | e :: es => max e.depth (depthAll es)

end

theorem depth_withSpan (s : Span) (e : Expr) : (e.withSpan s).depth = e.depth := by
  cases e <;> simp only [withSpan, depth]

theorem complete_withSpan (s : Span) (e : Expr) : (e.withSpan s).Complete ↔ e.Complete := by
  cases e <;> exact Iff.rfl

theorem depth_pos (e : Expr) : 0 < e.depth := by
  cases e <;> simp [depth]

theorem depthAll_le {es : List Expr} {n : Nat} (hcomplete : CompleteAll es)
    (h : ∀ e ∈ es, e.Complete → e.depth ≤ n) : depthAll es ≤ n := by
  induction es with
  | nil => exact Nat.zero_le n
  | cons e es ih =>
    obtain ⟨he, hes⟩ := hcomplete
    have hfirst := h e (List.mem_cons_self ..) he
    have hrest := ih hes fun e he => h e (List.mem_cons_of_mem _ he)
    rw [depthAll]
    omega

end Expr

/-- The depth of the deepest expression that is read within the given levels. -/
def deepest : Nat → Nat
  | 0 => 0
  | b + 1 => deepest b + 1 + (b - 1)

theorem deepest_le_succ (b : Nat) : deepest b ≤ deepest (b + 1) := by
  rw [deepest]
  omega

theorem two_mul_deepest (b : Nat) : 2 * deepest (b + 1) = 2 + (b + 1) * b := by
  induction b with
  | zero => rfl
  | succ b ih =>
    have hsquare : (b + 1 + 1) * (b + 1) = (b + 1) * b + (b + 1) + (b + 1) := by
      rw [Nat.succ_mul, Nat.mul_succ]
    rw [deepest, hsquare]
    omega

namespace Cursor

/-! ### Accepted expressions are not deeper -/

/-- Every entry of a comma list has been read somewhere. -/
theorem exists_of_mem_commaList {α : Type} {stop : Lexeme} {entry : Cursor → α × Cursor}
    {bound : Nat} {c : Cursor} {x : α} (h : x ∈ (c.commaList stop entry bound).1) :
    ∃ c', x = (entry c').1 := by
  induction bound generalizing c with
  | zero => cases h
  | succ bound ih =>
    rw [commaList_succ] at h
    split at h
    · cases h
    · split at h
      · exact ⟨c, List.mem_singleton.mp h⟩
      · rcases List.mem_cons.mp h with rfl | h
        · exact ⟨c, rfl⟩
        · exact ih h

theorem depth_operand_le {parse : Nat → Cursor → Expr × Cursor} {n : Nat}
    (h : ∀ p c, (parse p c).1.Complete → (parse p c).1.depth ≤ n) {c : Cursor}
    (hc : (operand parse c).1.Complete) : (operand parse c).1.depth ≤ n + 1 := by
  unfold operand at hc ⊢
  split at hc
  · exact Nat.succ_le_succ (h _ _ hc)
  · have hinner := h _ _ ((Expr.complete_withSpan _ _).mp hc)
    simp only [Expr.depth_withSpan]
    omega
  · split at hc
    · simp [Expr.depth]
    · refine Nat.succ_le_succ (Expr.depthAll_le hc fun e he hcomplete => ?_)
      obtain ⟨c', rfl⟩ := exists_of_mem_commaList he
      exact h 0 c' hcomplete
  · exact hc.elim
  · exact hc.elim

/-- Expressions and chains together, by induction on the levels. A chain goes on from an operand
of depth `n`; each of its operators adds a level to the tree, and the last level of the budget is
left for the last operand. -/
theorem depth_expression_chain_le (b : Nat) :
    (∀ power c, (expression b power c).1.Complete → (expression b power c).1.depth ≤ deepest b) ∧
      ∀ power lhs c, (chain b power lhs c).1.Complete → lhs.Complete ∧
        ∀ n, lhs.depth ≤ n → deepest (b - 1) ≤ n →
          (chain b power lhs c).1.depth ≤ n + (b - 1) := by
  induction b with
  | zero =>
    constructor
    · intro power c hc
      rw [expression_zero] at hc
      exact hc.elim
    · intro power lhs c hc
      rcases stops_or_operator? c power with hstop | ⟨op, hop, hpower⟩
      · rw [chain_of_stops hstop] at hc ⊢
        exact ⟨hc, fun n hn _ => hn⟩
      · rw [chain_zero_of_operator? hop hpower] at hc
        exact hc.elim
  | succ b ih =>
    obtain ⟨hexpr, hchain⟩ := ih
    constructor
    · intro power c hc
      rw [expression_succ] at hc ⊢
      obtain ⟨hoperand, hdepth⟩ := hchain _ _ _ hc
      have hn : (operand (fun p c => c.expression b p) c).1.depth ≤ deepest b + 1 :=
        depth_operand_le hexpr hoperand
      have hbelow : deepest (b - 1) ≤ deepest b + 1 := by
        cases b with
        | zero => exact Nat.zero_le _
        | succ b => exact Nat.le_succ_of_le (deepest_le_succ b)
      exact hdepth _ hn hbelow
    · intro power lhs c hc
      rcases stops_or_operator? c power with hstop | ⟨op, hop, hpower⟩
      · rw [chain_of_stops hstop] at hc ⊢
        exact ⟨hc, fun n hn _ => Nat.le_add_right_of_le hn⟩
      · rw [chain_succ_of_operator? hop hpower] at hc ⊢
        obtain ⟨⟨hlhs, hrhs⟩, hdepth⟩ := hchain _ _ _ hc
        refine ⟨hlhs, fun n hn hb => ?_⟩
        have hright := hexpr _ _ hrhs
        cases b with
        | zero =>
          -- there is no level left for the right operand
          rw [expression_zero] at hrhs
          exact hrhs.elim
        | succ b =>
          simp only [Nat.add_sub_cancel] at hb hdepth ⊢
          have hjoined := hdepth (n + 1) (by rw [Expr.depth]; omega)
            (Nat.le_succ_of_le (Nat.le_trans (deepest_le_succ b) hb))
          omega

theorem exists_of_mem_itemList {bound : Nat} {c : Cursor} {x : Item}
    (h : x ∈ (c.itemList bound).1) :
    ∃ c' : Cursor, x = c'.item.1 := by
  induction bound generalizing c with
  | zero => cases h
  | succ bound ih =>
    rw [itemList_succ] at h
    split at h
    · cases h
    · rcases List.mem_cons.mp h with rfl | h
      · exact ⟨c, rfl⟩
      · exact ih h

theorem depth_item_le {c : Cursor} {a : Assignment} (h : c.item.1 = .assignment a)
    (hc : a.value.Complete) :
    a.value.depth ≤ deepest maxNesting := by
  unfold item at h
  split at h
  · cases h
  · obtain rfl := Item.assignment.inj h
    cases hop : c.identifier.2.peek?.bind AssignOp.ofLexeme? with
    | none =>
      simp only [assignment, hop] at hc
      exact hc.elim
    | some op =>
      rw [assignment_eq_of_some hop] at hc ⊢
      exact (depth_expression_chain_le maxNesting).1 0 _ hc

end Cursor

theorem mem_items_of_mem_assignments {f : SourceFile} {a : Assignment} (h : a ∈ f.assignments) :
    .assignment a ∈ f.items := by
  obtain ⟨item, hitem, heq⟩ := List.mem_filterMap.mp h
  cases item with
  | declaration d => cases heq
  | assignment a' => exact Option.some.inj heq ▸ hitem

/-- No value of an accepted file is deeper than the levels allow. -/
theorem depth_le_of_parseSource {file : Nat} {source : String} {f : SourceFile}
    (h : parseSource file source = .ok f) {a : Assignment} (ha : a ∈ f.assignments) :
    a.value.depth ≤ deepest maxNesting := by
  simp only [parseSource] at h
  split at h
  · obtain ⟨parts, hparts, -⟩ := derives_of_parseTokens h
    have hcomplete := SourceFile.complete_respell.mp hparts.complete
    have hmem := mem_items_of_mem_assignments ha
    rw [parseTokens_eq] at h
    split at h
    · obtain rfl := Except.ok.inj h
      obtain ⟨c, hc⟩ := Cursor.exists_of_mem_itemList hmem
      exact Cursor.depth_item_le hc.symm (hcomplete _ hmem)
    · cases h
  · cases h

/-! ### All depths are reached -/

namespace Cursor

/-- From `c`, an expression of depth `d` has been read up to `rest` without a complaint. -/
def ReadsDepth (d : Nat) (rest : List Lexeme) (c : Cursor) (r : Expr × Cursor) : Prop :=
  r.1.depth = d ∧ r.2.words = rest ∧ r.2.diagnostics = c.diagnostics

variable {c : Cursor} {rest ws : List Lexeme} {b d power : Nat} {l : Lexeme} {name : String}

/-- A name that nothing belongs to needs one level. -/
theorem readsDepth_var (hc : c.words = .ident name :: rest) {q : Nat} (hrest : Follows q rest)
    (hq : q < power) :
    c.ReadsDepth 1 rest (c.expression (b + 1) power) := by
  rw [expression_succ, operand_var_eq hc hrest.1,
    chain_of_stops (stops_of_follows (c := c.advance) (words_advance hc ▸ hrest) hq)]
  exact ⟨rfl, words_advance hc, diagnostics_advance c⟩

/-- The words of `k` more summands. -/
def summands (name : String) (k : Nat) : List Lexeme :=
  (List.replicate k [.plus, .ident name]).flatten

theorem summands_succ (name : String) (k : Nat) :
    summands name (k + 1) = .plus :: .ident name :: summands name k := by
  simp [summands, List.replicate_succ]

/-- What follows a summand does not belong to it. -/
theorem follows_summands (name : String) (k : Nat)
    (hl : l = .comma ∨ l = .rparen ∨ l = .semicolon) (rest : List Lexeme) :
    Follows 2 (summands name k ++ l :: rest) := by
  cases k with
  | zero => exact follows_of_closing hl rest
  | succ k =>
    rw [summands_succ]
    exact follows_operator .add _

/-- Each summand takes a level, and the last one needs another. -/
theorem readsDepth_chain {k : Nat} (hk : k = 0 ∨ k < b)
    (hl : l = .comma ∨ l = .rparen ∨ l = .semicolon) {lhs : Expr}
    (hc : c.words = summands name k ++ l :: rest) :
    c.ReadsDepth (lhs.depth + k) (l :: rest) (chain b 0 lhs c) := by
  induction k generalizing b lhs c with
  | zero =>
    rw [chain_of_stops (stops_of_closing hl hc)]
    exact ⟨rfl, hc, rfl⟩
  | succ k ih =>
    obtain ⟨b, rfl⟩ : ∃ n, b = n + 1 + 1 := ⟨b - 2, by omega⟩
    rw [summands_succ] at hc
    have hop : c.operator? = some .add := by rw [operator?_eq hc]; rfl
    rw [chain_succ_of_operator? hop (Nat.zero_le _)]
    have hright : 2 < Operator.rightPower .add := by decide
    obtain ⟨hdepth, hwords, hclean⟩ :=
      readsDepth_var (b := b) (words_advance hc) (follows_summands name k hl rest) hright
    have hpos := lhs.depth_pos
    obtain ⟨hdepth', hwords', hclean'⟩ := ih (b := b + 1) (by omega) hwords
    refine ⟨?_, hwords', ?_⟩
    · rw [hdepth', Expr.depth, hdepth]
      omega
    · rw [hclean', hclean, diagnostics_advance]

/-- The words are read as an expression of depth `d` before every closing word, if there are at
least `b` levels. -/
def Reaches (name : String) (b d : Nat) (ws : List Lexeme) : Prop :=
  ∀ b' (c : Cursor) l rest, b ≤ b' → l = .comma ∨ l = .rparen ∨ l = .semicolon →
    c.words = .ident name :: (ws ++ l :: rest) → c.ReadsDepth d (l :: rest) (c.expression b' 0)

theorem Reaches.mono {b' : Nat} {ws : List Lexeme} (h : Reaches name b d ws) (hb : b ≤ b') :
    Reaches name b' d ws :=
  fun _ c l rest hb' => h _ c l rest (Nat.le_trans hb hb')

theorem reaches_var (name : String) : Reaches name 1 1 [] := by
  intro b' c l rest hb hl hc
  obtain ⟨b, rfl⟩ : ∃ n, b' = n + 1 := ⟨b' - 1, by omega⟩
  have hfollows : Follows 0 (l :: rest) := follows_of_closing hl rest
  rw [expression_succ, operand_var_eq hc hfollows.1]
  have hwords : c.advance.words = summands name 0 ++ l :: rest := words_advance hc
  obtain ⟨hdepth, hwords, hclean⟩ := readsDepth_chain (b := b) (.inl rfl) hl hwords
  exact ⟨hdepth, hwords, by rw [hclean, diagnostics_advance]⟩

/-- A call costs a level, and within it all others can be used; once it is read, its own chain has
them again. -/
theorem Reaches.call {ws : List Lexeme} {k : Nat} (h : Reaches name b d ws) (hk : k < b) :
    Reaches name (b + 1) (d + 1 + k)
      (.lparen :: .ident name :: (ws ++ .rparen :: summands name k)) := by
  intro b' c l rest hb hl hc
  obtain ⟨b', rfl⟩ : ∃ n, b' = n + 1 := ⟨b' - 1, by omega⟩
  have hc' : c.words = .ident name :: .lparen :: .ident name :: (ws ++ .rparen ::
      (summands name k ++ l :: rest)) := by
    simpa using hc
  have hinner := words_advance (words_advance hc')
  obtain ⟨hdepth, hwords, hclean⟩ :=
    h b' c.advance.advance .rparen _ (by omega) (.inr (.inl rfl)) hinner
  have hargs : c.advance.advance.commaList .rparen (fun c =>
      c.expression b' 0) c.advance.advance.tokens.length =
      ([(c.advance.advance.expression b' 0).1], (c.advance.advance.expression b' 0).2) := by
    obtain ⟨n, hn⟩ : ∃ n, c.advance.advance.tokens.length = n + 1 := by
      have := congrArg List.length hinner
      exact ⟨c.advance.advance.tokens.length - 1, by simp [words] at this; omega⟩
    have hask : ¬ (c.advance.advance.isAtEnd || c.advance.advance.isAt .rparen) = true := by
      simp [not_isAtEnd hinner, isAt, peek?_of_words hinner]
    rw [hn, commaList_succ, if_neg hask, eat?_eq_none hwords (by decide)]
  rw [expression_succ, operand_call_eq hc' hargs, expect_eq_advance hwords]
  obtain ⟨hdepth', hwords', hclean'⟩ :=
    readsDepth_chain (b := b') (.inr (by omega)) hl (words_advance hwords)
  refine ⟨?_, hwords', ?_⟩
  · rw [hdepth']
    simp [Expr.depth, Expr.depthAll, hdepth]
  · rw [hclean', diagnostics_advance, hclean, diagnostics_advance, diagnostics_advance]

/-- The words that calls and sums of one name are made of. -/
def towerWords (name : String) : List Lexeme :=
  [.ident name, .lparen, .rparen, .plus]

/-- The words behind the first name of `n` calls, each the argument of the one before. -/
def nested (name : String) : Nat → List Lexeme
  | 0 => []
  | n + 1 => .lparen :: .ident name :: (nested name n ++ [.rparen])

theorem nested_subset (name : String) (n : Nat) : nested name n ⊆ towerWords name := by
  induction n with
  | zero => exact List.nil_subset _
  | succ n ih =>
    simp only [nested, List.cons_subset, List.append_subset, ih]
    simp [towerWords]

theorem reaches_nested (name : String) (n : Nat) :
    Reaches name (n + 1) (n + 1) (nested name n) := by
  induction n with
  | zero => exact reaches_var name
  | succ n ih => exact ih.call (k := 0) (Nat.succ_pos n)

/-- Every depth up to the deepest is reached. -/
theorem exists_reaches (name : String) (hd : 1 ≤ d) (hle : d ≤ deepest (b + 1)) :
    ∃ ws, Reaches name (b + 1) d ws ∧ ws ⊆ towerWords name := by
  induction b generalizing d with
  | zero =>
    have hvalid : deepest (0 + 1) = 1 := rfl
    obtain rfl : d = 1 := by omega
    exact ⟨[], reaches_var name, List.nil_subset _⟩
  | succ b ih =>
    have hsucc : deepest (b + 1 + 1) = deepest (b + 1) + 1 + b := rfl
    have hpos : 1 ≤ deepest (b + 1) :=
      Nat.le_trans (Nat.le_add_left 1 (deepest b)) (Nat.le_add_right _ _)
    by_cases hsmall : d ≤ deepest (b + 1)
    · obtain ⟨ws, hws, hsub⟩ := ih hd hsmall
      exact ⟨ws, hws.mono (Nat.le_succ _), hsub⟩
    -- one call around the deepest words, and a summand for each level that is missing
    · obtain ⟨k, rfl⟩ : ∃ k, d = deepest (b + 1) + 1 + k := ⟨d - (deepest (b + 1) + 1), by omega⟩
      obtain ⟨ws, hws, hsub⟩ := ih hpos (Nat.le_refl _)
      refine ⟨_, hws.call (k := k) (by omega), ?_⟩
      have hsummands : summands name k ⊆ towerWords name := by
        intro l hl
        simp only [summands, List.mem_flatten, List.mem_replicate] at hl
        obtain ⟨_, ⟨-, rfl⟩, hl⟩ := hl
        revert l
        simp [towerWords]
      simp only [List.cons_subset, List.append_subset, hsub, hsummands]
      simp [towerWords]

/-- An assignment of the words is accepted. -/
theorem Reaches.parseTokens {ws : List Lexeme}
    (h : Reaches name maxNesting d ws) {tokens : List Token} (finish : Span)
    (htokens : tokens.map (·.value) = .ident name :: .eq :: .ident name :: (ws ++ [.semicolon])) :
    ∃ f a, LinearKernels.parseTokens tokens finish = .ok f ∧ a ∈ f.assignments ∧
      a.value.depth = d := by
  set c := ofTokens tokens finish with hstart
  have hc : c.words = .ident name :: AssignOp.assign.word :: .ident name :: (ws ++
      [.semicolon]) := htokens
  have hvalue := words_advance (words_advance hc)
  obtain ⟨hdepth, hwords, hclean⟩ :=
    h maxNesting _ .semicolon [] (Nat.le_refl _) (.inr (.inr rfl)) hvalue
  have hdiagnostics : c.item.2.diagnostics = c.diagnostics := by
    rw [item_assignment_eq hc, expect_eq_advance hwords, diagnostics_advance, hclean,
      diagnostics_advance, diagnostics_advance]
  have hend : c.item.2.isAtEnd = true := by
    rw [item_assignment_eq hc, expect_eq_advance hwords]
    simpa [isAtEnd, Cursor.words] using words_advance hwords
  have hlist : c.itemList tokens.length = ([c.item.1], c.item.2) := by
    obtain ⟨n, hn⟩ : ∃ n, tokens.length = n + 1 + 1 := by
      have := congrArg List.length htokens
      exact ⟨tokens.length - 2, by simp at this; omega⟩
    rw [hn, itemList_succ, if_neg (not_isAtEnd hc), recover_eq_self hdiagnostics,
      itemList_succ, if_pos hend]
  refine ⟨⟨[c.item.1]⟩, ⟨⟨name, c.span⟩, ⟨.assign, c.advance.span⟩, _⟩, ?_, ?_, hdepth⟩
  · rw [parseTokens_eq, ← hstart, hlist, if_pos (by rw [hdiagnostics]; rfl)]
  · rw [item_assignment_eq hc]
    exact List.mem_cons_self

end Cursor

/-! ### Writing the words -/

/-- The words, each followed by a blank. -/
def spaced (ws : List Lexeme) : String :=
  String.join (ws.map fun l => l.spelling ++ " ")

theorem pieces_spaced (file start : Nat) {ws : List Lexeme} (h : ∀ l ∈ ws, l.Valid) :
    (pieces file start (utf8 (spaced ws))).map (·.value) = ws.flatMap fun l =>
      [.lexeme l, .blank] := by
  induction ws generalizing start with
  | nil =>
    have hnil : utf8 (spaced []) = [] := rfl
    rw [hnil, pieces]
    rfl
  | cons l ws ih =>
    obtain ⟨hl, hws⟩ := List.forall_mem_cons.mp h
    have hutf : utf8 (spaced (l :: ws)) = utf8 l.spelling ++ 32 :: utf8 (spaced ws) := by
      simp only [spaced, List.map_cons, String.join_cons, utf8_append, List.append_assoc]
      rfl
    obtain ⟨stop, hpieces⟩ := pieces_spelling file start hl (32 :: utf8 (spaced ws)) (by simp)
    rw [hutf, hpieces, pieces_blank, List.map_cons, List.map_cons, ih _ hws]
    rfl

/-- The words are scanned back. -/
theorem scan_spaced (file : Nat) {ws : List Lexeme} (h : ∀ l ∈ ws, l.Valid) :
    (scan file (spaced ws)).tokens.map (·.value) = ws ∧
    (scan file (spaced ws)).diagnostics = [] := by
  have hlexemes :
      (ws.flatMap fun l => [Piece.lexeme l, .blank]).filterMap Piece.lexeme? = ws := by
    clear h
    induction ws with
    | nil => rfl
    | cons l ws ih => exact congrArg (l :: ·) ih
  have hscan := scan_of_values (pieces_spaced file 0 h) fun v hv => by
    simp only [List.mem_flatMap, List.mem_cons, List.not_mem_nil, or_false] at hv
    obtain ⟨l, -, rfl | rfl⟩ := hv
    · exact .inr ⟨l, rfl⟩
    · exact .inl rfl
  rwa [hlexemes] at hscan

theorem valid_of_mem {l : Lexeme} (h : l ∈ .eq :: .semicolon :: Cursor.towerWords "x") :
    l.Valid := by
  have hx : IsIdentifier "x" := ⟨⟨'x', [], rfl, rfl, by simp⟩, rfl⟩
  simp only [Cursor.towerWords, List.mem_cons, List.not_mem_nil, or_false] at h
  rcases h with rfl | rfl | rfl | rfl | rfl | rfl
  all_goals simp [Lexeme.Valid, hx]

theorem Cursor.Reaches.parseSource {d : Nat} {ws : List Lexeme} (h : Reaches "x" maxNesting d ws)
    (hsub : ws ⊆ towerWords "x") :
    ∃ f a, LinearKernels.parseSource 0 (spaced (.ident "x" :: .eq :: .ident "x" ::
      (ws ++ [.semicolon]))) = .ok f ∧ a ∈ f.assignments ∧ a.value.depth = d := by
  have hvalid : ∀ l ∈ .ident "x" :: .eq :: .ident "x" :: (ws ++ [.semicolon]), l.Valid := by
    intro l hl
    apply valid_of_mem
    simp only [List.mem_cons, List.mem_append, List.not_mem_nil, or_false] at hl
    rcases hl with rfl | rfl | rfl | hl | rfl
    · simp [Cursor.towerWords]
    · simp
    · simp [Cursor.towerWords]
    · exact List.mem_cons_of_mem _ (List.mem_cons_of_mem _ (hsub hl))
    · simp
  obtain ⟨htokens, hdiagnostics⟩ := scan_spaced 0 hvalid
  simp only [LinearKernels.parseSource]
  rw [hdiagnostics, List.isEmpty_nil, if_pos rfl]
  exact h.parseTokens _ htokens

/-- The values of accepted files have all depths up to a bound that is quadratic in the number of
levels, and no others. -/
theorem accepted_depths (d : Nat) :
    (∃ file source f a, parseSource file source = .ok f ∧ a ∈ f.assignments ∧ a.value.depth = d) ↔
      1 ≤ d ∧ d ≤ 1 + maxNesting * (maxNesting - 1) / 2 := by
  have hdeepest : deepest maxNesting = 1 + maxNesting * (maxNesting - 1) / 2 := by
    have := two_mul_deepest 255
    have hlevels : maxNesting = 255 + 1 := rfl
    rw [hlevels]
    omega
  rw [← hdeepest]
  constructor
  · rintro ⟨file, source, f, a, hparse, ha, rfl⟩
    exact ⟨a.value.depth_pos, depth_le_of_parseSource hparse ha⟩
  · rintro ⟨hd, hle⟩
    obtain ⟨ws, hws, hsub⟩ := Cursor.exists_reaches (b := 255) "x" hd hle
    exact ⟨0, _, hws.parseSource hsub⟩

/-- The calls take all levels but one, and have given them back when the sum is read:
`x = x ( x ( … x … ) ) + x ;` -/
theorem depth_beyond_levels :
    ∃ f a, parseSource 0 (spaced (.ident "x" :: .eq :: .ident "x" :: .lparen :: .ident "x" ::
        (Cursor.nested "x" 254 ++ [.rparen, .plus, .ident "x", .semicolon]))) = .ok f ∧
      a ∈ f.assignments ∧ a.value.depth = maxNesting + 1 := by
  have hreaches := (Cursor.reaches_nested "x" 254).call (k := 1) (by decide)
  have hsource : Cursor.nested "x" 254 ++ [.rparen, .plus, .ident "x", .semicolon] =
      (Cursor.nested "x" 254 ++ .rparen :: Cursor.summands "x" 1) ++ [.semicolon] := by
    simp [Cursor.summands]
  have hsub : .lparen :: .ident "x" ::
      (Cursor.nested "x" 254 ++ .rparen :: Cursor.summands "x" 1) ⊆ Cursor.towerWords "x" := by
    simp only [List.cons_subset, List.append_subset, Cursor.nested_subset "x" 254]
    simp [Cursor.summands, Cursor.towerWords]
  rw [hsource]
  exact hreaches.parseSource hsub

end LinearKernels
