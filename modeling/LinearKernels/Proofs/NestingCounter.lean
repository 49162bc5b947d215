import LinearKernels.Proofs.ItemScope

/-!
The nesting levels as a counter. The counting reader goes one level down when it starts an
expression or takes an operator, and comes back at the end of the expression by as many levels
as it went down. Its loops and its recursion have no bound of their own: it runs on fuel, and
gives nothing if the fuel runs out or if it comes back from a level that it is not at. It always
gives a result, the one of the reader with a budget, and is at level zero after every item.
-/

namespace LinearKernels

/-- A cursor and the nesting level it is at. -/
structure Meter where
  cursor : Cursor
  depth : Nat

namespace Meter

variable {α : Type}

def advance (m : Meter) : Meter :=
  { m with cursor := m.cursor.advance }

def expect (m : Meter) (l : Lexeme) : Meter :=
  { m with cursor := m.cursor.expect l }

/-- One level down, and whether there is such a level. -/
def enter (m : Meter) : Bool × Meter :=
  if m.depth < maxNesting then (true, { m with depth := m.depth + 1 })
  else (false, ⟨m.cursor.report .nestingTooDeep, m.depth + 1⟩)

/-- Back by a number of levels, one at a time. -/
def leave : Nat → Meter → Option Meter
  | 0, m => some m
  | levels + 1, m =>
    match m.depth with
    | 0 => none
    | depth + 1 => leave levels { m with depth }

def commaList (stop : Lexeme) (entry : Meter → Option (α × Meter)) :
    Nat → Meter → Option (List α × Meter)
  | 0, _ => none
  | fuel + 1, m =>
    if m.cursor.isAtEnd || m.cursor.isAt stop then some ([], m)
    else (entry m).bind fun first =>
      match first.2.cursor.eat? .comma with
      | none => some ([first.1], first.2)
      | some c =>
        (commaList stop entry fuel { first.2 with cursor := c }).map fun more =>
          (first.1 :: more.1, more.2)

def operand (fuel : Nat) (parse : Nat → Meter → Option (Expr × Meter)) (m : Meter) :
    Option (Expr × Meter) :=
  let start := m.cursor.span
  match m.cursor.peek? with
  | some .minus =>
    (parse Operator.negPower m.advance).map fun inner =>
      (.neg (start.merge inner.1.span) inner.1, inner.2)
  | some .lparen =>
    (parse 0 m.advance).map fun inner =>
      let closed := inner.2.expect .rparen
      (inner.1.withSpan (start.merge closed.cursor.previousSpan), closed)
  | some (.ident name) =>
    match m.advance.cursor.eat? .lparen with
    | none => some (.var start name, m.advance)
    | some c =>
      (commaList .rparen (parse 0) fuel { m with cursor := c }).map fun args =>
        let closed := args.2.expect .rparen
        (.call (start.merge closed.cursor.previousSpan) ⟨name, start⟩ args.1, closed)
  | some (.integer _) =>
    some (.missing start, { m with cursor := (m.cursor.report .numericConstant).advance })
  | found =>
    some (.missing start, { m with cursor := m.cursor.report (.expectedExpression found) })

mutual

def expression : (fuel : Nat) → (power : Nat) → Meter → Option (Expr × Meter)
  | 0, _, _ => none
  | fuel + 1, power, m =>
    match m.enter with
    | (false, m) => (m.leave 1).map fun left => (.missing m.cursor.span, left)
    | (true, m) =>
      (operand fuel (expression fuel) m).bind fun lhs => chain fuel power lhs.1 0 lhs.2

/-- The operators after `lhs`, which has taken `wrapped` operators so far. -/
def chain : (fuel : Nat) → (power : Nat) → Expr → (wrapped : Nat) → Meter → Option (Expr × Meter)
  | 0, _, _, _, _ => none
  | fuel + 1, power, lhs, wrapped, m =>
    match m.cursor.operator? with
    | none => (m.leave (wrapped + 1)).map fun left => (lhs, left)
    | some op =>
      if op.leftPower < power then (m.leave (wrapped + 1)).map fun left => (lhs, left)
      else
        match m.enter with
        | (false, m) => (m.leave (wrapped + 2)).map fun left => (.missing lhs.span, left)
        | (true, m) =>
          (expression fuel op.rightPower m.advance).bind fun rhs =>
            chain fuel power (.binary (lhs.span.merge rhs.1.span) op lhs rhs.1)
              (wrapped + 1) rhs.2

end

def moreIdentifiers : Nat → Meter → Option (List (Spanned String) × Meter)
  | 0, _ => none
  | fuel + 1, m =>
    match m.cursor.eat? .comma with
    | none => some ([], m)
    | some c =>
      (moreIdentifiers fuel { m with cursor := c.identifier.2 }).map fun more =>
        (c.identifier.1 :: more.1, more.2)

def typeArguments (fuel : Nat) (m : Meter) : Option (List (Spanned TypeArg) × Meter) :=
  match m.cursor.eat? .lt with
  | none => some ([], m)
  | some c =>
    (commaList .gt (fun m => some (m.cursor.typeArg.1, { m with cursor := m.cursor.typeArg.2 }))
      fuel { m with cursor := c }).map fun args => (args.1, args.2.expect .gt)

def declaration (fuel : Nat) (kind : DeclKind) (m : Meter) : Option (Declaration × Meter) :=
  (typeArguments fuel m.advance).bind fun args =>
    let ty : Spanned TypeExpr := ⟨⟨kind, args.1⟩, m.cursor.span.merge args.2.cursor.previousSpan⟩
    let first := args.2.cursor.identifier
    (moreIdentifiers fuel { args.2 with cursor := first.2 }).map fun more =>
      (⟨ty, first.1 :: more.1⟩, more.2.expect .semicolon)

def assignment (fuel : Nat) (m : Meter) : Option (Assignment × Meter) :=
  let target := m.cursor.identifier
  match target.2.peek?.bind AssignOp.ofLexeme? with
  | none =>
    some (⟨target.1, ⟨.assign, target.2.span⟩, .missing target.1.span⟩,
      { m with cursor := target.2.report (.expectedAssignment target.2.peek?) })
  | some op =>
    (expression fuel 0 { m with cursor := target.2.advance }).map fun value =>
      (⟨target.1, ⟨op, target.2.span⟩, value.1⟩, value.2.expect .semicolon)

def item (fuel : Nat) (m : Meter) : Option (Item × Meter) :=
  match m.cursor.peek? with
  | some (.keyword kind) => (declaration fuel kind m).map fun d => (.declaration d.1, d.2)
  | _ => (assignment fuel m).map fun a => (.assignment a.1, a.2)

/-- The items up to the end, each with the level that the reader is at after it. -/
def itemList : Nat → Meter → Option (List (Item × Nat) × Meter)
  | 0, _ => none
  | fuel + 1, m =>
    if m.cursor.isAtEnd then some ([], m)
    else (item fuel m).bind fun first =>
      (itemList fuel { first.2 with cursor := m.cursor.recover first.2.cursor }).map fun more =>
        ((first.1, first.2.depth) :: more.1, more.2)

/-- What a reader gives, at the level that it started at. -/
def kept (depth : Nat) (r : α × Cursor) : α × Meter :=
  (r.1, ⟨r.2, depth⟩)

variable {c : Cursor} {depth fuel : Nat}

theorem leave_add (levels : Nat) (c : Cursor) (depth : Nat) :
    leave levels ⟨c, depth + levels⟩ = some ⟨c, depth⟩ := by
  induction levels with
  | zero => rfl
  | succ levels ih => exact ih

theorem enter_of_lt (c : Cursor) (h : depth < maxNesting) :
    enter ⟨c, depth⟩ = (true, ⟨c, depth + 1⟩) :=
  if_pos h

theorem enter_of_le (c : Cursor) (h : maxNesting ≤ depth) :
    enter ⟨c, depth⟩ = (false, ⟨c.report .nestingTooDeep, depth + 1⟩) :=
  if_neg (by simpa using h)

/-! ### Lists -/

theorem commaList_eq {entry : Cursor → α × Cursor} {entry' : Meter → Option (α × Meter)}
    (stop : Lexeme) (hpass : ∀ c : Cursor, c.Passes (entry c).2)
    {limit bound : Nat} (hentry : ∀ c : Cursor, c.tokens.length ≤ limit →
      entry' ⟨c, depth⟩ = some (kept depth (entry c))) (hlimit : c.tokens.length ≤ limit)
    (hfuel : c.tokens.length < fuel) (hbound : c.tokens.length ≤ bound) :
    commaList stop entry' fuel ⟨c, depth⟩ = some (kept depth (c.commaList stop entry bound)) := by
  induction fuel generalizing c bound with
  | zero => omega
  | succ fuel ih =>
    rw [commaList]
    cases bound with
    | zero =>
      have hend : c.isAtEnd = true := by simpa [Cursor.isAtEnd] using hbound
      rw [if_pos (by simp [hend])]
      rfl
    | succ bound =>
      rw [Cursor.commaList_succ]
      by_cases hstop : (c.isAtEnd || c.isAt stop) = true
      · rw [if_pos hstop, if_pos hstop]
        rfl
      · rw [if_neg hstop, if_neg hstop, hentry c hlimit, Option.bind_some]
        have hle := (hpass c).length_le
        rcases Cursor.eat?_cases (entry c).2 .comma with ⟨hnone, -⟩ | ⟨hsome, hpeek⟩
        · simp only [kept, hnone]
        · have hlength := Cursor.length_advance hpeek
          have hrest : commaList stop entry' fuel ⟨(entry c).2.advance, depth⟩ =
              some (kept depth ((entry c).2.advance.commaList stop entry bound)) :=
            ih (by omega) (by omega) (by omega)
          simp only [kept, hsome] at hrest ⊢
          rw [hrest]
          rfl

theorem moreIdentifiers_eq {bound : Nat} (hfuel : c.tokens.length < fuel)
    (hbound : c.tokens.length ≤ bound) :
    moreIdentifiers fuel ⟨c, depth⟩ = some (kept depth (c.moreIdentifiers bound)) := by
  induction fuel generalizing c bound with
  | zero => omega
  | succ fuel ih =>
    rw [moreIdentifiers]
    rcases Cursor.eat?_cases c .comma with ⟨hnone, -⟩ | ⟨hsome, hpeek⟩
    · cases bound with
      | zero =>
        simp only [hnone]
        rfl
      | succ bound =>
        rw [Cursor.moreIdentifiers_succ]
        simp only [hnone]
        rfl
    · have hlength := Cursor.length_advance hpeek
      have hle := (Cursor.passes_identifier c.advance).length_le
      obtain ⟨bound, rfl⟩ : ∃ k, bound = k + 1 := ⟨bound - 1, by omega⟩
      have hrest : moreIdentifiers fuel ⟨c.advance.identifier.2, depth⟩ =
          some (kept depth (c.advance.identifier.2.moreIdentifiers bound)) :=
            ih (by omega) (by omega)
      rw [Cursor.moreIdentifiers_succ]
      simp only [hsome]
      rw [hrest]
      rfl

/-! ### Expressions -/

theorem operand_eq {parse : Nat → Cursor → Expr × Cursor}
    {parse' : Nat → Meter → Option (Expr × Meter)}
    (hpass : ∀ p (c : Cursor), c.Passes (parse p c).2)
    (hparse : ∀ p (c' : Cursor), c'.tokens.length < c.tokens.length →
      parse' p ⟨c', depth⟩ = some (kept depth (parse p c')))
    (hfuel : c.tokens.length ≤ fuel) :
    operand fuel parse' ⟨c, depth⟩ = some (kept depth (c.operand parse)) := by
  unfold operand Cursor.operand
  cases hpeek : c.peek? with
  | none => rfl
  | some l =>
    have hlength := Cursor.length_advance hpeek
    have hinner : ∀ p, parse' p (advance ⟨c, depth⟩) = some (kept depth (parse p c.advance)) :=
      fun p => hparse p c.advance (by omega)
    cases l with
    | minus =>
      simp only [hinner]
      rfl
    | lparen =>
      simp only [hinner]
      rfl
    | ident name =>
      simp only [advance]
      rcases Cursor.eat?_cases c.advance .lparen with ⟨hnone, -⟩ | ⟨hsome, hparen⟩
      · simp only [hnone]
        rfl
      · have hlength' := Cursor.length_advance hparen
        have hargs : commaList .rparen (parse' 0) fuel ⟨c.advance.advance, depth⟩ =
            some (kept depth (c.advance.advance.commaList .rparen
              (parse 0) c.advance.advance.tokens.length)) :=
          commaList_eq .rparen (hpass 0) (fun c' hc' => hparse 0 c' (by omega)) (Nat.le_refl _)
            (by omega) (Nat.le_refl _)
        simp only [hsome]
        rw [hargs]
        rfl
    | keyword | rparen | comma | semicolon | lt | gt | eq | plusEq | minusEq | plus
      | star | slash | dotStar
    | dotSlash | integer => rfl

/-- The counting reader reads expressions like the reader that has `b` levels left. -/
def ExpressionCounts (b : Nat) : Prop :=
  ∀ (depth power : Nat) (c : Cursor) (fuel : Nat), depth + b = maxNesting → 2 * c.tokens.length +
    2 ≤ fuel → expression fuel power ⟨c, depth⟩ = some (kept depth (c.expression b power))

/-- The counting reader, `wrapped` operators into an expression that it began at `depth`, reads
the operators that follow like the reader that has `b` levels left. -/
def ChainCounts (b : Nat) : Prop :=
  ∀ (depth wrapped power : Nat) (lhs : Expr) (c : Cursor) (fuel : Nat),
    depth + (wrapped + 1) + b = maxNesting → 2 * c.tokens.length + 1 ≤ fuel →
    chain fuel power lhs wrapped ⟨c, depth + (wrapped + 1)⟩ =
      some (kept depth (Cursor.chain b power lhs c))

/-- Where no operator follows, the levels are left. -/
theorem chain_of_stops {power : Nat} (h : c.Stops power) (lhs : Expr) (wrapped fuel : Nat) :
    chain (fuel + 1) power lhs wrapped ⟨c, depth + (wrapped + 1)⟩ = some (lhs, ⟨c, depth⟩) := by
  rw [chain, leave_add]
  cases hop : c.operator? with
  | none => rfl
  | some op => exact if_pos (h op hop)

theorem chain_of_operator? {power : Nat} {op : Operator} (hop : c.operator? = some op)
    (hpower : power ≤ op.leftPower) (lhs : Expr) (wrapped fuel : Nat) :
    chain (fuel + 1) power lhs wrapped ⟨c, depth⟩ =
      match enter ⟨c, depth⟩ with
      | (false, m) => (m.leave (wrapped + 2)).map fun left => (.missing lhs.span, left)
      | (true, m) =>
        (expression fuel op.rightPower m.advance).bind fun rhs =>
          chain fuel power (.binary (lhs.span.merge rhs.1.span) op lhs rhs.1)
            (wrapped + 1) rhs.2 := by
  rw [chain]
  simp only [hop]
  exact if_neg (by omega)

theorem chainCounts_zero : ChainCounts 0 := by
  intro depth wrapped power lhs c fuel hdepth hfuel
  obtain ⟨fuel, rfl⟩ : ∃ k, fuel = k + 1 := ⟨fuel - 1, by omega⟩
  rcases Cursor.stops_or_operator? c power with hstop | ⟨op, hop, hpower⟩
  · rw [chain_of_stops hstop, Cursor.chain_of_stops hstop]
    rfl
  · rw [chain_of_operator? hop hpower, enter_of_le c (by omega),
      Cursor.chain_zero_of_operator? hop hpower]
    exact congrArg (Option.map _) (leave_add (wrapped + 2) _ depth)

theorem chainCounts_succ {b : Nat} (hexpr : ExpressionCounts b) (hchain : ChainCounts b) :
    ChainCounts (b + 1) := by
  intro depth wrapped power lhs c fuel hdepth hfuel
  obtain ⟨fuel, rfl⟩ : ∃ k, fuel = k + 1 := ⟨fuel - 1, by omega⟩
  rcases Cursor.stops_or_operator? c power with hstop | ⟨op, hop, hpower⟩
  · rw [chain_of_stops hstop, Cursor.chain_of_stops hstop]
    rfl
  · have hlength := Cursor.length_advance (Cursor.peek?_of_operator? hop)
    have hle := (Cursor.passes_expression b op.rightPower c.advance).length_le
    have hrhs :=
      hexpr (depth + (wrapped + 1) + 1) op.rightPower c.advance fuel (by omega) (by omega)
    rw [chain_of_operator? hop hpower, enter_of_lt c (by omega),
      Cursor.chain_succ_of_operator? hop hpower]
    refine (congrArg (Option.bind · _) hrhs).trans ?_
    exact hchain depth (wrapped + 1) power _ _ fuel (by omega) (by omega)

theorem expressionCounts_zero : ExpressionCounts 0 := by
  intro depth power c fuel hdepth hfuel
  obtain ⟨fuel, rfl⟩ : ∃ k, fuel = k + 1 := ⟨fuel - 1, by omega⟩
  rw [expression, enter_of_le c (by omega), Cursor.expression_zero]
  exact congrArg (Option.map _) (leave_add 1 _ depth)

theorem expressionCounts_succ {b : Nat} (hexpr : ExpressionCounts b) (hchain : ChainCounts b) :
    ExpressionCounts (b + 1) := by
  intro depth power c fuel hdepth hfuel
  obtain ⟨fuel, rfl⟩ : ∃ k, fuel = k + 1 := ⟨fuel - 1, by omega⟩
  have hoperand : operand fuel (expression fuel) ⟨c, depth + 1⟩ =
      some (kept (depth + 1) (c.operand (Cursor.expression b))) :=
    operand_eq (Cursor.passes_expression b)
      (fun p c' hc' => hexpr (depth + 1) p c' fuel (by omega) (by omega)) (by omega)
  have hle := (Cursor.passes_operand (Cursor.passes_expression b) c).length_le
  rw [expression, enter_of_lt c (by omega), Cursor.expression_succ]
  refine (congrArg (Option.bind · _) hoperand).trans ?_
  exact hchain depth 0 power _ _ fuel (by omega) (by omega)

theorem expression_chain_counts (b : Nat) : ExpressionCounts b ∧ ChainCounts b := by
  induction b with
  | zero => exact ⟨expressionCounts_zero, chainCounts_zero⟩
  | succ b ih => exact ⟨expressionCounts_succ ih.1 ih.2, chainCounts_succ ih.1 ih.2⟩

/-! ### Items -/

theorem typeArguments_eq (hfuel : c.tokens.length ≤ fuel) :
    typeArguments fuel ⟨c, depth⟩ = some (kept depth c.typeArguments) := by
  unfold typeArguments Cursor.typeArguments
  rcases Cursor.eat?_cases c .lt with ⟨hnone, -⟩ | ⟨hsome, hpeek⟩
  · simp only [hnone]
    rfl
  · have hlength := Cursor.length_advance hpeek
    have hargs : commaList .gt
        (fun m => some (m.cursor.typeArg.1, { m with cursor := m.cursor.typeArg.2 })) fuel
        ⟨c.advance, depth⟩ =
          some (kept depth (c.advance.commaList .gt Cursor.typeArg c.advance.tokens.length)) :=
      commaList_eq .gt Cursor.passes_typeArg (fun c' _ => rfl) (Nat.le_refl _)
        (by omega) (Nat.le_refl _)
    simp only [hsome]
    rw [hargs]
    rfl

theorem declaration_eq {kind : DeclKind} (hpeek : c.peek? = some (.keyword kind))
    (hfuel : c.tokens.length ≤ fuel) :
    declaration fuel kind ⟨c, depth⟩ = some (kept depth (c.declaration kind)) := by
  have hlength := Cursor.length_advance hpeek
  have hle := (Cursor.passes_typeArguments c.advance).length_le
  have hle' := (Cursor.passes_identifier c.advance.typeArguments.2).length_le
  have hargs : typeArguments fuel ⟨c.advance, depth⟩ =
      some (kept depth c.advance.typeArguments) :=
    typeArguments_eq (by omega)
  have hmore : moreIdentifiers fuel ⟨c.advance.typeArguments.2.identifier.2, depth⟩ =
      some (kept depth (c.advance.typeArguments.2.identifier.2.moreIdentifiers _)) :=
    moreIdentifiers_eq (by omega) (Nat.le_refl _)
  rw [Cursor.declaration_eq]
  unfold declaration
  refine (congrArg (Option.bind · _) hargs).trans ?_
  exact congrArg (Option.map _) hmore

theorem assignment_eq (hfuel : 2 * c.tokens.length + 2 ≤ fuel) :
    assignment fuel ⟨c, 0⟩ = some (kept 0 c.assignment) := by
  unfold assignment Cursor.assignment
  cases hop : c.identifier.2.peek?.bind AssignOp.ofLexeme? with
  | none =>
    simp only [hop]
    rfl
  | some op =>
    obtain ⟨l, hl, -⟩ := Option.bind_eq_some_iff.mp hop
    have hlength := Cursor.length_advance hl
    have hle := (Cursor.passes_identifier c).length_le
    have hvalue := (expression_chain_counts maxNesting).1 0 0 c.identifier.2.advance fuel
      (Nat.zero_add _) (by omega)
    simp only [hop]
    rw [hvalue]
    rfl

theorem item_eq (hfuel : 2 * c.tokens.length + 2 ≤ fuel) :
    item fuel ⟨c, 0⟩ = some (kept 0 c.item) := by
  unfold item Cursor.item
  dsimp only
  cases hpeek : c.peek? with
  | none =>
    simp only [assignment_eq hfuel]
    rfl
  | some l =>
    cases l with
    | keyword kind =>
      simp only [declaration_eq hpeek (show c.tokens.length ≤ fuel by omega)]
      rfl
    | lparen | rparen | comma | semicolon | lt | gt | eq | plusEq | minusEq | plus | minus
      | star | slash | dotStar
    | dotSlash | integer | ident =>
      simp only [assignment_eq hfuel]
      rfl

/-- Reading items ends, and is at level zero after every one of them. -/
theorem itemList_eq {bound : Nat} (hfuel : 2 * c.tokens.length + 3 ≤ fuel)
    (hbound : c.tokens.length ≤ bound) :
    itemList fuel ⟨c, 0⟩ =
      some ((c.itemList bound).1.map fun item => (item, 0), ⟨(c.itemList bound).2, 0⟩) := by
  induction bound generalizing c fuel with
  | zero =>
    obtain ⟨fuel, rfl⟩ : ∃ k, fuel = k + 1 := ⟨fuel - 1, by omega⟩
    have hend : c.isAtEnd = true := by simpa [Cursor.isAtEnd] using hbound
    rw [itemList, if_pos hend]
    rfl
  | succ bound ih =>
    obtain ⟨fuel, rfl⟩ : ∃ k, fuel = k + 1 := ⟨fuel - 1, by omega⟩
    rw [itemList]
    cases hend : c.isAtEnd with
    | true =>
      rw [if_pos rfl, Cursor.itemList_eq_nil _ hend]
      rfl
    | false =>
      have hlt := Cursor.length_afterItem hend
      have hitem : item fuel ⟨c, 0⟩ = some (kept 0 c.item) := item_eq (by omega)
      have hrest : itemList fuel ⟨c.afterItem, 0⟩ =
          some ((c.afterItem.itemList bound).1.map fun item => (item, 0),
            ⟨(c.afterItem.itemList bound).2, 0⟩) :=
        ih (by omega) (by omega)
      rw [if_neg (by simp), Cursor.itemList_cons bound hend]
      refine (congrArg (Option.bind · _) hitem).trans ?_
      exact congrArg (Option.map _) hrest

end Meter

end LinearKernels
