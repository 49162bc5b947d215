import LinearKernels.Proofs.FileReading
import LinearKernels.Proofs.ReadingBack

/-!
The parser accepts exactly the grammar. Items and files are read back from their words, so
with the derivations of accepted files both directions hold: what is accepted derives the tree
that is returned, and what derives a tree is accepted with it, unless it is nested too deeply.
Items of at most 127 words never are.
-/

namespace LinearKernels

open Grammar

/-! ### Items and files -/

namespace Cursor

variable {c : Cursor} {ws us rest : List Lexeme}

theorem typeArg_yields (arg : TypeArg) : EntryYields typeArg (·.value) .gt arg arg.words := by
  intro c l rest hl hc
  left
  cases arg with
  | flag name =>
    have hkey := identifier_eq hc
    have hafter := words_advance hc
    have hnone : c.advance.eat? .eq = none := by
      rcases hl with rfl | rfl <;> exact eat?_eq_none hafter (by simp)
    have heq : c.typeArg = (⟨.flag name, c.span⟩, c.advance) := by
      simp only [typeArg, hkey, hnone]
      rfl
    rw [heq]
    exact ⟨rfl, hafter, diagnostics_advance c⟩
  | param key value =>
    have hkey := identifier_eq hc
    have hsign := words_advance hc
    have hvalue := words_advance hsign
    simp only [typeArg, hkey, eat?_eq_advance hsign, peek?_of_words hvalue, true_and]
    exact ⟨words_advance hvalue, by simp⟩

theorem typeArguments_yields {ty : TypeExpr} (h : TypeDerives ty us) {name : String}
    (hc : c.words = us ++ .ident name :: rest) :
    c.peek? = some (.keyword ty.kind) ∧
      c.Yields (·.map (·.bare) = ty.args) (.ident name :: rest) c.advance.typeArguments := by
  cases h with
  | plain kind =>
    have hafter := words_advance hc
    have hnone : c.advance.typeArguments = ([], c.advance) := by
      unfold typeArguments
      rw [eat?_eq_none hafter (by simp)]
    rw [hnone]
    exact ⟨peek?_of_words hc, .inl ⟨rfl, hafter, diagnostics_advance c⟩⟩
  | @applied kind args ws hargs =>
    have hc' : c.words = .keyword kind :: .lt :: (ws ++ .gt :: .ident name :: rest) := by
      simpa using hc
    have hopen := words_advance hc'
    have hlist := words_advance hopen
    have hlength : args.length ≤ c.advance.advance.tokens.length := by
      have hle := hargs.length_le fun arg us harg => by
        cases arg <;> exact ⟨_, _, harg⟩
      have htokens := congrArg List.length hlist
      simp only [Cursor.words, List.length_map, List.length_append] at htokens
      omega
    refine ⟨peek?_of_words hc', ?_⟩
    have hyields := commaList_yields
      (fun c => (c.readsAs_typeArg True).mono (fun _ _ => trivial) id) (by simp)
      (fun arg us harg => by cases arg <;> exact ⟨_, _, harg, by simp⟩)
      (fun arg us harg => by
        subst harg
        exact typeArg_yields arg) hargs hlength hlist
    simp only [typeArguments, eat?_eq_advance hopen]
    rcases hyields with ⟨hviews, hwords, hclean⟩ | hcomplains
    · simp only [expect_eq_advance hwords]
      refine .inl ⟨?_, words_advance hwords, by simp [hclean]⟩
      rw [← hviews, List.map_map]
      rfl
    · exact .inr (hcomplains.expect _)

theorem length_commaNames (names : List String) :
    (names.flatMap fun name => [Lexeme.comma, .ident name]).length = 2 * names.length := by
  induction names with
  | nil => rfl
  | cons name names ih =>
    simp only [List.flatMap_cons, List.length_append, List.length_cons, List.length_nil, ih]
    omega

theorem moreIdentifiers_yields {names : List String} {bound : Nat} (hbound : names.length ≤ bound)
    (hc : c.words = (names.flatMap fun name => [.comma, .ident name]) ++ .semicolon :: rest) :
    c.Yields (·.map (·.value) = names) (.semicolon :: rest) (c.moreIdentifiers bound) := by
  induction names generalizing c bound with
  | nil =>
    have heq : c.moreIdentifiers bound = ([], c) := by
      cases bound with
      | zero => rfl
      | succ bound => rw [moreIdentifiers_succ, eat?_eq_none hc (by simp)]
    rw [heq]
    exact .inl ⟨rfl, hc, rfl⟩
  | cons name names ih =>
    obtain ⟨bound, rfl⟩ : ∃ k, bound = k + 1 := ⟨bound - 1, by simp at hbound; omega⟩
    have hc' : c.words = .comma :: .ident name ::
        ((names.flatMap fun name => [.comma, .ident name]) ++ .semicolon :: rest) := by
      simpa using hc
    have hname := words_advance hc'
    rw [moreIdentifiers_succ, eat?_eq_advance hc']
    simp only [identifier_eq hname]
    rcases ih (by simpa using hbound) (words_advance hname) with
      ⟨hvalues, hwords, hclean⟩ | hcomplains
    · exact .inl ⟨by simp [hvalues], hwords, by simp [hclean]⟩
    · exact .inr hcomplains

theorem declaration_yields {ty : TypeExpr} {first : String} {more : List String}
    {us : List Lexeme} (hty : TypeDerives ty us) (hc : c.words = us ++ .ident first ::
      ((more.flatMap fun name => [.comma, .ident name]) ++ .semicolon :: rest)) :
    c.Yields (·.respell id = .declaration ⟨⟨ty, .origin⟩, (first :: more).map (⟨·, .origin⟩)⟩)
      rest c.item := by
  obtain ⟨hpeek, htype⟩ := typeArguments_yields hty hc
  have hitem : c.item = (.declaration (c.declaration ty.kind).1, (c.declaration ty.kind).2) := by
    simp only [item, hpeek]
  rw [hitem, declaration_eq]
  rcases htype with ⟨hargs, hwords, hclean⟩ | hcomplains
  · have hnames := words_advance hwords
    simp only [identifier_eq hwords]
    have hlength : more.length ≤ c.advance.typeArguments.2.advance.tokens.length := by
      have htokens := congrArg List.length hnames
      simp only [Cursor.words, List.length_map, List.length_append, length_commaNames] at htokens
      omega
    rcases moreIdentifiers_yields hlength hnames with ⟨hmore, hwords', hclean'⟩ | hcomplains
    · simp only [expect_eq_advance hwords']
      refine .inl ⟨?_, words_advance hwords', by simp [hclean', hclean]⟩
      rw [← hmore]
      simp [Item.respell, Declaration.respell, hargs]
    · exact .inr (hcomplains.expect _)
  · refine .inr (Complains.expect ?_ _)
    exact (hcomplains.readsAs (readsAs_identifier True _)).readsAs
      (readsAs_moreIdentifiers True _ _)

/-- An item that begins with a name and an assignment sign is read as an assignment. -/
theorem item_assignment_eq {target : String} {op : AssignOp}
    (hc : c.words = .ident target :: op.word :: rest) :
    c.item = (.assignment ⟨⟨target, c.span⟩, ⟨op, c.advance.span⟩,
      (c.advance.advance.expression maxNesting 0).1⟩,
      (c.advance.advance.expression maxNesting 0).2.expect .semicolon) := by
  have hitem : c.item = (.assignment c.assignment.1, c.assignment.2) := by
    simp only [item, peek?_of_words hc]
  have hassign : c.identifier.2.peek?.bind AssignOp.ofLexeme? = some op := by
    rw [identifier_eq hc, peek?_of_words (words_advance hc)]
    exact assignOp_ofLexeme?_eq_some_iff.mpr rfl
  rw [hitem, assignment_eq_of_some hassign, identifier_eq hc]

theorem assignment_yields {target : String} {op : AssignOp}
    {e : Expr} {us : List Lexeme} (he : Derives (.sum e) us)
    (hc : c.words = .ident target :: op.word :: (us ++ .semicolon :: rest)) :
    c.Yields (·.respell id = .assignment ⟨⟨target, .origin⟩, ⟨op, .origin⟩, e⟩) rest c.item := by
  rw [item_assignment_eq hc]
  have hback : ReadsBack 2 e us := he.readBack
  rcases hback.yields_closing (b := maxNesting) (.inr (.inr rfl))
    (words_advance (words_advance hc)) with
    ⟨hbare, hwords, hclean⟩ | hcomplains
  · simp only [expect_eq_advance hwords]
    have hvalue : (c.advance.advance.expression maxNesting 0).1.respell id = e := hbare
    refine .inl ⟨?_, words_advance hwords, by simp [hclean]⟩
    simp [Item.respell, Assignment.respell, Spanned.bare, hvalue]
  · exact .inr (hcomplains.expect _)

/-- Every item is read back from its words. -/
theorem item_yields {item : Item} (h : ItemDerives item ws) (hc : c.words = ws ++ rest) :
    c.Yields (·.respell id = item) rest c.item := by
  cases h with
  | declaration hty hne =>
    obtain ⟨first, more, rfl⟩ := List.exists_cons_of_ne_nil hne
    exact declaration_yields hty (by simpa [intersperse_cons, List.flatMap_map] using hc)
  | assignment target op he => exact assignment_yields he (by simpa using hc)

theorem itemList_yields {items : List Item} {parts : List (List Lexeme)}
    (h : List.Forall₂ ItemDerives items parts) {bound : Nat} (hbound : parts.length ≤ bound)
    (hc : c.words = parts.flatten) :
    c.Yields (·.map (·.respell id) = items) [] (c.itemList bound) := by
  induction h generalizing c bound with
  | nil =>
    have hend : c.isAtEnd = true := by simpa [isAtEnd, words] using hc
    have heq : c.itemList bound = ([], c) := by
      cases bound with
      | zero => rfl
      | succ bound => rw [itemList_succ, if_pos hend]
    rw [heq]
    exact .inl ⟨rfl, hc, rfl⟩
  | @cons item part items parts hitem _ ih =>
    obtain ⟨bound, rfl⟩ : ∃ k, bound = k + 1 := ⟨bound - 1, by simp at hbound; omega⟩
    have hend : ¬ c.isAtEnd = true := by
      obtain ⟨l, more, rfl⟩ := List.exists_cons_of_ne_nil hitem.ne_nil
      exact not_isAtEnd (hc.trans List.flatten_cons)
    rw [itemList_succ, if_neg hend]
    rcases item_yields hitem (hc.trans List.flatten_cons) with
      ⟨hbare, hwords, hclean⟩ | hcomplains
    · rw [recover_eq_self hclean]
      rcases ih (by simpa using hbound) hwords with ⟨hitems, hwords', hclean'⟩ | hcomplains
      · exact .inl ⟨by simp [hbare, hitems], hwords', by rw [hclean', hclean]⟩
      · exact .inr hcomplains
    · obtain ⟨ws, hws⟩ := c.exists_reads_recover c.item.2
      obtain ⟨vs, ds, hvs, -⟩ := (c.recover c.item.2).closes_itemList bound
      exact .inr ((hcomplains.reads hws).reads hvs)

end Cursor

theorem Grammar.ItemDerives.exists_semicolon {item : Item} {ws : List Lexeme}
    (h : ItemDerives item ws) :
    ∃ us, ws = us ++ [.semicolon] := by
  cases h with
  | declaration _ _ => exact ⟨_, rfl⟩
  | assignment _ _ _ => exact ⟨_, rfl⟩

theorem length_takeWhile_lt {α : Type} {p : α → Bool} {x : α} {xs : List α} (hx : x ∈ xs)
    (hp : p x = false) (ys : List α) : ((xs ++ ys).takeWhile p).length < xs.length := by
  induction xs with
  | nil => cases hx
  | cons y xs ih =>
    rw [List.cons_append, List.takeWhile_cons]
    by_cases hy : p y = true
    · have hmem : x ∈ xs := by
        rcases List.mem_cons.mp hx with rfl | hmem
        · rw [hp] at hy
          cases hy
        · exact hmem
      rw [if_pos hy]
      exact Nat.succ_lt_succ (ih hmem)
    · rw [if_neg hy]
      exact Nat.succ_pos xs.length

/-- A semicolon is never long in coming if all items are short. -/
theorem not_crowded {items : List Item} {parts : List (List Lexeme)}
    (h : List.Forall₂ ItemDerives items parts) (hshort : ∀ part ∈ parts, part.length ≤ 127) :
    ¬ Crowded parts.flatten := by
  induction h with
  | nil =>
    rintro ⟨us, vs, heq, hlength⟩
    obtain ⟨-, rfl⟩ : us = [] ∧ vs = [] := by simpa using heq.symm
    simp [maxNesting] at hlength
  | @cons item part items parts hitem _ ih =>
    have hrest := ih fun p hp => hshort p (List.mem_cons_of_mem part hp)
    rintro ⟨us, vs, heq, hlength⟩
    rw [List.flatten_cons] at heq
    rcases List.append_eq_append_iff.mp heq with ⟨xs, hxs, hflatten⟩ | ⟨xs, hxs, hvs⟩
    · exact hrest ⟨xs, vs, hflatten, hlength⟩
    · by_cases hnil : xs = []
      · refine hrest ⟨[], vs, ?_, hlength⟩
        rw [hvs, hnil]
        rfl
      · -- what is left of the item still ends with its semicolon
        have hlast : .semicolon ∈ xs := by
          obtain ⟨body, rfl⟩ := hitem.exists_semicolon
          have := congrArg List.getLast? hxs
          rw [List.getLast?_append_of_ne_nil _ hnil] at this
          exact List.mem_of_getLast? (by simpa using this.symm)
        have htake :=
          length_takeWhile_lt (p := (· ≠ Lexeme.semicolon)) hlast (by simp) parts.flatten
        have hpart := hshort part (List.mem_cons_self ..)
        rw [hxs, List.length_append] at hpart
        rw [hvs] at hlength
        unfold maxNesting at hlength
        omega

/-- The file is refused with a complaint about nesting, perhaps among others. -/
def ReportsNesting (result : Except (List Diagnostic) SourceFile) : Prop :=
  ∃ ds, result = .error ds ∧ ∃ d ∈ ds, d.IsNesting

theorem length_le_flatten {items : List Item} {parts : List (List Lexeme)}
    (h : List.Forall₂ ItemDerives items parts) : parts.length ≤ parts.flatten.length := by
  induction h with
  | nil => exact Nat.le_refl 0
  | cons hitem _ ih =>
    have hpos := List.length_pos_of_ne_nil hitem.ne_nil
    simp only [List.flatten_cons, List.length_append, List.length_cons]
    omega

/-- What derives from the grammar is read back, unless it is nested too deeply. -/
theorem parseTokens_of_derives {tokens : List Token} (finish : Span) {tree : SourceFile}
    {parts : List (List Lexeme)} (h : FileDerives tree parts)
    (hwords : tokens.map (·.value) = parts.flatten) :
    (∃ file, parseTokens tokens finish = .ok file ∧ file.bare = tree) ∨
      ReportsNesting (parseTokens tokens finish) := by
  have hlength : parts.length ≤ tokens.length := by
    have := congrArg List.length hwords
    rw [List.length_map] at this
    exact this ▸ length_le_flatten h
  have hyields := Cursor.itemList_yields (c := .ofTokens tokens finish) h hlength hwords
  rw [parseTokens_eq]
  rcases hyields with ⟨hitems, -, hclean⟩ | hcomplains
  · left
    rw [if_pos (by rw [hclean]; rfl)]
    exact ⟨_, rfl, congrArg SourceFile.mk hitems⟩
  · right
    obtain ⟨d, hd, hnest⟩ := hcomplains
    rw [if_neg (by simpa using List.ne_nil_of_mem hd)]
    exact ⟨_, rfl, d, hd, hnest⟩

/-- Exactly the grammar is accepted, up to the bound on nesting: an accepted file has the tree
of its words, and words that derive a tree are read back as that tree unless nesting is
complained about, which no file with items of at most 127 words brings about. -/
theorem parse_accepts_grammar (tokens : List Token) (finish : Span) :
    (∀ file, parseTokens tokens finish = .ok file → file.Complete ∧
      ∃ parts, FileDerives file.bare parts ∧ tokens.map (·.value) = parts.flatten) ∧
    ∀ tree parts, FileDerives tree parts → tokens.map (·.value) = parts.flatten →
      ((∃ file, parseTokens tokens finish = .ok file ∧ file.bare = tree) ∨
        ReportsNesting (parseTokens tokens finish)) ∧
      ((∀ part ∈ parts, part.length ≤ 127) → ¬ ReportsNesting (parseTokens tokens finish)) := by
  constructor
  · intro file hfile
    obtain ⟨parts, hparts, hwords⟩ := derives_of_parseTokens hfile
    exact ⟨SourceFile.complete_respell.mp hparts.complete, parts, hparts, hwords⟩
  · intro tree parts hparts hwords
    refine ⟨parseTokens_of_derives finish hparts hwords, fun hshort => ?_⟩
    rintro ⟨ds, hds, d, hd, hnest⟩
    have hcrowded := crowded_of_nesting hds hd hnest
    rw [hwords] at hcrowded
    exact not_crowded hparts hshort hcrowded

/-- The words of `vector<float,> x, y; x += -(x .* y) / dot(x, y,);`, item by item. -/
def scaledParts : List (List Lexeme) :=
  [[.keyword .vector, .lt, .ident "float", .comma, .gt, .ident "x", .comma,
    .ident "y", .semicolon],
    [.ident "x", .plusEq, .minus, .lparen, .ident "x", .dotStar, .ident "y", .rparen, .slash,
      .ident "dot", .lparen, .ident "x", .comma, .ident "y", .comma, .rparen, .semicolon]]

def scaledTree : SourceFile :=
  let x : Expr := .var .origin "x"
  let y : Expr := .var .origin "y"
  ⟨[.declaration ⟨⟨⟨.vector, [⟨.flag "float", .origin⟩]⟩, .origin⟩,
    [⟨"x", .origin⟩, ⟨"y", .origin⟩]⟩, .assignment ⟨⟨"x", .origin⟩, ⟨.addAssign, .origin⟩,
      .binary .origin .div (.neg .origin (.binary .origin .elemMul x y))
        (.call .origin ⟨"dot", .origin⟩ [x, y])⟩]⟩

theorem derives_scaled : FileDerives scaledTree scaledParts := by
  have hunary : ∀ name, Derives (.unary (.var .origin name)) [.ident name] :=
    fun name => .unary (.var name)
  have hsum : ∀ name, Derives (.sum (.var .origin name)) [.ident name] :=
    fun name => .sum (.term (hunary name))
  have htype : TypeDerives ⟨.vector, [⟨.flag "float", .origin⟩]⟩
      [.keyword .vector, .lt, .ident "float", .comma, .gt] :=
    @TypeDerives.applied .vector [.flag "float"] _ (.cons rfl .nil)
  have hproduct : Derives (.sum (.binary .origin .elemMul (.var .origin "x") (.var .origin "y")))
      [.ident "x", .dotStar, .ident "y"] :=
    .sum (@Derives.multiplicative .elemMul _ _ _ _ rfl (.term (hunary "x")) (hunary "y"))
  have hcall :
      Derives (.unary (.call .origin ⟨"dot", .origin⟩ [.var .origin "x", .var .origin "y"]))
      [.ident "dot", .lparen, .ident "x", .comma, .ident "y", .comma, .rparen] :=
    .unary (.call "dot" (.argument (hsum "x") (.argument (hsum "y") .noArguments)))
  have hquotient :=
    @Derives.multiplicative .div _ _ _ _ rfl (.term (.neg (.unary (.paren hproduct)))) hcall
  exact .cons (@ItemDerives.declaration _ ["x", "y"] _ htype (by simp))
    (.cons (.assignment "x" .addAssign (.sum hquotient)) .nil)

theorem parse_accepts_grammar_scaled :
    FileDerives scaledTree scaledParts ∧ ∃ file,
      parseTokens (scaledParts.flatten.map (⟨·, .origin⟩)) .origin = .ok file ∧
      file.bare = scaledTree ∧ file.Complete := by
  have hwords : (scaledParts.flatten.map fun l => (⟨l, .origin⟩ : Token)).map (·.value) =
      scaledParts.flatten := by
    rw [List.map_map]
    exact List.map_id scaledParts.flatten
  obtain ⟨hsound, haccepts⟩ :=
    parse_accepts_grammar (scaledParts.flatten.map (⟨·, .origin⟩)) .origin
  obtain ⟨hread, hshort⟩ := haccepts scaledTree scaledParts derives_scaled hwords
  have hquiet := hshort (by decide)
  rcases hread with ⟨file, hfile, hbare⟩ | hnesting
  · exact ⟨derives_scaled, file, hfile, hbare, (hsound file hfile).1⟩
  · exact absurd hnesting hquiet

end LinearKernels
