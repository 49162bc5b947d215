import LinearKernels.Proofs.ExpressionTokens
import LinearKernels.Proofs.NestingDepth
import LinearKernels.Proofs.Outcome

/-!
Spans of expressions. The tokens of a file come one after the other, and the span of every
expression in it reaches from the first of its tokens to the last, brackets around it included.
So the tokens inside the span are those the expression was read from, and reading them alone
gives the expression again.
-/

namespace LinearKernels

/-! ### Tokens in order -/

/-- The range lies inside the other one. -/
def Span.Within (s s' : Span) : Prop :=
  s.file = s'.file ∧ s'.start ≤ s.start ∧ s.stop ≤ s'.stop

instance : DecidableRel Span.Within := fun s s' =>
  inferInstanceAs (Decidable (s.file = s'.file ∧ s'.start ≤ s.start ∧ s.stop ≤ s'.stop))

/-- The tokens inside a range. -/
def Span.tokens (s : Span) (tokens : List Token) : List Token :=
  tokens.filter (·.span.Within s)

/-- Tokens that were found in one file: none is empty, each ends before the next one begins, and
all end before the file does. -/
structure InOrder (tokens : List Token) (finish : Span) : Prop where
  file : ∀ t ∈ tokens, t.span.file = finish.file
  nonempty : ∀ t ∈ tokens, t.span.start < t.span.stop
  ordered : tokens.Pairwise fun t u => t.span.stop ≤ u.span.start
  finished : ∀ t ∈ tokens, t.span.stop ≤ finish.start
  end_range : finish.start ≤ finish.stop

theorem scan_inOrder (file : Nat) (source : String) :
    InOrder (scan file source).tokens (scan file source).finish where
  file _ ht := (token_range ht).1
  nonempty _ ht := (token_range ht).2.1
  ordered := tokens_ordered file source
  finished _ ht := (token_range ht).2.2
  end_range := Nat.le_refl _

section Ordered

variable {tokens us vs ts before after : List Token} {finish s s' : Span} {t u : Token}

theorem InOrder.sublist (h : InOrder tokens finish) (hsub : us.Sublist tokens) :
    InOrder us finish where
  file t ht := h.file t (hsub.subset ht)
  nonempty t ht := h.nonempty t (hsub.subset ht)
  ordered := h.ordered.sublist hsub
  finished t ht := h.finished t (hsub.subset ht)
  end_range := h.end_range

theorem InOrder.left (h : InOrder (us ++ vs) finish) : InOrder us finish :=
  h.sublist (List.sublist_append_left us vs)

theorem InOrder.right (h : InOrder (us ++ vs) finish) : InOrder vs finish :=
  h.sublist (List.sublist_append_right us vs)

theorem InOrder.tail (h : InOrder (t :: ts) finish) : InOrder ts finish :=
  h.sublist (List.sublist_cons_self t ts)

theorem InOrder.stop_le_start (h : InOrder (us ++ vs) finish) (ht : t ∈ us) (hu : u ∈ vs) :
    t.span.stop ≤ u.span.start :=
  (List.pairwise_append.mp h.ordered).2.2 t ht u hu

/-- The range from the first token to the last. -/
def Span.Covers (s : Span) (ts : List Token) : Prop :=
  ∃ first last, ts.head? = some first ∧ ts.getLast? = some last ∧
    s = ⟨first.span.file, first.span.start, last.span.stop⟩

theorem Span.covers_singleton (t : Token) : t.span.Covers [t] :=
  ⟨t, t, rfl, rfl, rfl⟩

/-- The ranges of two lists of tokens, merged, cover what lies between them. -/
theorem Span.Covers.merge (h : s.Covers us) (h' : s'.Covers vs) (gap : List Token)
    (hin : InOrder (us ++ (gap ++ vs)) finish) : (s.merge s').Covers (us ++ (gap ++ vs)) := by
  obtain ⟨first, last, hfirst, hlast, rfl⟩ := h
  obtain ⟨first', last', hfirst', hlast', rfl⟩ := h'
  have hmem : first ∈ us ∧ last ∈ us := ⟨List.mem_of_head? hfirst, List.mem_of_getLast? hlast⟩
  have hmem' : first' ∈ vs ∧ last' ∈ vs :=
    ⟨List.mem_of_head? hfirst', List.mem_of_getLast? hlast'⟩
  refine ⟨first, last', by simp [hfirst], ?_, ?_⟩
  · rw [List.getLast?_append, List.getLast?_append, hlast']
    rfl
  · have hstart : first.span.start ≤ first'.span.start := by
      have := hin.nonempty first (by simp [hmem.1])
      have := hin.stop_le_start hmem.1 (List.mem_append_right gap hmem'.1)
      omega
    have hstop : last.span.stop ≤ last'.span.stop := by
      have := hin.nonempty last' (by simp [hmem'.2])
      have := hin.stop_le_start hmem.2 (List.mem_append_right gap hmem'.2)
      omega
    simp only [Span.merge, Nat.min_eq_left hstart, Nat.max_eq_right hstop]

theorem Span.Covers.within_of_mem (h : s.Covers ts) (hin : InOrder ts finish) (ht : t ∈ ts) :
    t.span.Within s := by
  obtain ⟨first, last, hfirst, hlast, rfl⟩ := h
  refine ⟨?_, ?_, ?_⟩
  · rw [hin.file t ht, hin.file first (List.mem_of_head? hfirst)]
  · obtain ⟨more, rfl⟩ := List.head?_eq_some_iff.mp hfirst
    rcases List.mem_cons.mp ht with rfl | hmore
    · exact Nat.le_refl _
    · have := hin.nonempty first List.mem_cons_self
      have := List.rel_of_pairwise_cons hin.ordered hmore
      dsimp only
      omega
  · obtain ⟨more, rfl⟩ := List.getLast?_eq_some_iff.mp hlast
    rcases List.mem_append.mp ht with hmore | hsingle
    · have := hin.nonempty last (by simp)
      have := hin.stop_le_start hmore (List.mem_singleton_self last)
      dsimp only
      omega
    · obtain rfl := List.mem_singleton.mp hsingle
      exact Nat.le_refl _

theorem Span.Covers.within (h : s.Covers us) (h' : s'.Covers ts) (hin : InOrder ts finish)
    (hsub : us.Sublist ts) : s.Within s' := by
  obtain ⟨first, last, hfirst, hlast, rfl⟩ := h
  have hfrom := h'.within_of_mem hin (hsub.subset (List.mem_of_head? hfirst))
  have hto := h'.within_of_mem hin (hsub.subset (List.mem_of_getLast? hlast))
  exact ⟨hfrom.1, hfrom.2.1, hto.2.2⟩

/-- The tokens inside the range of a block are those of the block. -/
theorem Span.Covers.tokens_eq (h : s.Covers us) (hin : InOrder (before ++ (us ++ after)) finish) :
    s.tokens (before ++ (us ++ after)) = us := by
  have hkept : us.filter (·.span.Within s) = us := by
    refine List.filter_eq_self.mpr fun t ht => decide_eq_true ?_
    exact h.within_of_mem hin.right.left ht
  obtain ⟨first, last, hfirst, hlast, rfl⟩ := h
  have hbefore :
      before.filter (·.span.Within ⟨first.span.file, first.span.start, last.span.stop⟩) = [] := by
    refine List.filter_eq_nil_iff.mpr fun t ht => ?_
    have := hin.nonempty t (List.mem_append_left _ ht)
    have := hin.stop_le_start ht (List.mem_append_left after (List.mem_of_head? hfirst))
    rintro hwithin
    have := (of_decide_eq_true hwithin).2.1
    dsimp only at this
    omega
  have hafter :
      after.filter (·.span.Within ⟨first.span.file, first.span.start, last.span.stop⟩) = [] := by
    refine List.filter_eq_nil_iff.mpr fun t ht => ?_
    have := hin.right.right.nonempty t ht
    have := hin.right.stop_le_start (List.mem_of_getLast? hlast) ht
    rintro hwithin
    have := (of_decide_eq_true hwithin).2.2
    dsimp only at this
    omega
  unfold Span.tokens
  rw [List.filter_append, List.filter_append, hbefore, hafter, hkept,
    List.append_nil, List.nil_append]

end Ordered

/-! ### Spans of stretches -/

theorem Expr.span_withSpan (s : Span) (e : Expr) : (e.withSpan s).span = s := by
  cases e <;> rfl

/-- The expressions that an expression is put together from. -/
def Expr.operands : Expr → List Expr
  | var _ _ | missing _ => []
  | neg _ operand => [operand]
  | binary _ _ lhs rhs => [lhs, rhs]
  | call _ _ args => args

theorem Expr.operands_withSpan (s : Span) (e : Expr) : (e.withSpan s).operands = e.operands := by
  cases e <;> rfl

namespace Stretch

/-- The span of the tree covers the tokens. -/
def Covers : Stretch → List Token → Prop
  | operand _ e, ts | chain _ _ _ e, ts => e.span.Covers ts
  | arguments _ _, _ => True

theorem Takes.covers {x : Stretch} {ts : List Token} {finish : Span} (h : x.Takes ts)
    (hin : InOrder ts finish) :
    x.Covers ts := by
  induction h with
  | operand _ _ ih => exact ih hin
  | binary s _ _ _ ihl ihr => exact (ihl hin.left).merge (ihr hin.right.tail) [_] hin
  | neg s _ ih => exact (Span.covers_singleton ⟨.minus, s⟩).merge (ih hin.tail) [] hin
  | paren s s' _ _ =>
    have hends :=
      (Span.covers_singleton ⟨.lparen, s⟩).merge (Span.covers_singleton ⟨.rparen, s'⟩) _ hin
    rwa [Covers, Expr.span_withSpan]
  | var name s => exact Span.covers_singleton ⟨.ident name, s⟩
  | call name s opened s' _ _ =>
    exact (Span.covers_singleton ⟨.ident name, s⟩).merge (Span.covers_singleton ⟨.rparen, s'⟩)
      (⟨.lparen, opened⟩ :: _) hin
  | noArguments | lastArgument | argument => trivial

/-! ### Operands -/

/-- The expressions are read, one behind the other, from stretches among the tokens, each with
at most `b` levels. -/
inductive Laid (b : Nat) : List Expr → List Token → Prop
  | nil (ts : List Token) : Laid b [] ts
  | cons {n k p : Nat} {e : Expr} {es : List Expr} {us rest : List Token}
      (gap : List Token) (hn : n ≤ b) :
      (Stretch.chain n k p e).Takes us → Laid b es rest → Laid b (e :: es) (gap ++ (us ++ rest))

variable {b n : Nat} {es : List Expr} {e : Expr} {ts : List Token}

theorem Laid.mono (h : Laid n es ts) (hnb : n ≤ b) : Laid b es ts := by
  induction h with
  | nil ts => exact .nil ts
  | cons gap hn hus _ ih => exact .cons gap (Nat.le_trans hn hnb) hus ih

theorem Laid.behind (h : Laid b es ts) (before : List Token) : Laid b es (before ++ ts) := by
  cases h with
  | nil ts => exact .nil _
  | cons gap hn hus h =>
    rw [← List.append_assoc]
    exact .cons (before ++ gap) hn hus h

theorem Laid.append (h : Laid b es ts) (after : List Token) : Laid b es (ts ++ after) := by
  induction h with
  | nil ts => exact .nil _
  | cons gap hn hus _ ih =>
    rw [List.append_assoc, List.append_assoc]
    exact .cons gap hn hus ih

theorem Takes.laid_alone {k p : Nat} (h : (Stretch.chain n k p e).Takes ts) (hn : n ≤ b) :
    Laid b [e] ts := by
  simpa using Laid.cons [] hn h (.nil [])

/-- The expressions of a stretch, one level down. -/
def parts : Stretch → List Expr
  | operand _ e | chain _ _ _ e => e.operands
  | arguments _ es => es

def levels : Stretch → Nat
  | operand b _ | chain b _ _ _ | arguments b _ => b

theorem Takes.laid {x : Stretch} (h : x.Takes ts) : Laid x.levels x.parts ts := by
  induction h with
  | operand _ _ ih => exact ih.mono (Nat.le_succ _)
  | binary s _ hl hr _ _ =>
    have hle := Nat.le_of_succ_le (Nat.le_of_lt hl.left_lt)
    exact .cons [] (Nat.le_refl _) hl ((hr.laid_alone hle).behind [_])
  | neg s h _ => exact (h.laid_alone (Nat.le_refl _)).behind [_]
  | paren s s' _ ih =>
    rw [parts, Expr.operands_withSpan]
    exact (ih.append [_]).behind [_]
  | var name s => exact .nil _
  | call name s opened s' _ ih => exact (ih.append [_]).behind [_, _]
  | noArguments => exact .nil []
  | lastArgument h _ => exact h.laid_alone (Nat.le_refl _)
  | argument s h _ _ ihs => exact .cons [] (Nat.le_refl _) h (ihs.behind [_])

theorem Laid.exists_takes (h : Laid b es ts) (he : e ∈ es) :
    ∃ before us after n k p, ts = before ++ (us ++ after) ∧ n ≤ b ∧
      (Stretch.chain n k p e).Takes us := by
  induction h with
  | nil => cases he
  | @cons n k p e' es us rest gap hn hus _ ih =>
    rcases List.mem_cons.mp he with rfl | he
    · exact ⟨gap, us, rest, n, k, p, rfl, hn, hus⟩
    · obtain ⟨before, us', after, n, k, p, rfl, hn, hus'⟩ := ih he
      exact ⟨gap ++ (us ++ before), us', after, n, k, p, by simp, hn, hus'⟩

theorem Laid.ordered {finish : Span} (h : Laid b es ts) (hin : InOrder ts finish) :
    es.Pairwise fun e e' => e.span.stop ≤ e'.span.start := by
  induction h with
  | nil => exact .nil
  | @cons n k p e es us rest gap hn hus hes ih =>
    refine List.pairwise_cons.mpr ⟨fun e' he' => ?_, ih hin.right.right⟩
    obtain ⟨before, us', after, _, _, _, rfl, -, hus'⟩ := hes.exists_takes he'
    obtain ⟨_, last, _, hlast, hspan⟩ := hus.covers hin.right.left
    obtain ⟨first, _, hfirst, _, hspan'⟩ := hus'.covers hin.right.right.right.left
    have hle := hin.right.stop_le_start (List.mem_of_getLast? hlast)
      (List.mem_append_right before (List.mem_append_left after (List.mem_of_head? hfirst)))
    simpa only [hspan, hspan'] using hle

end Stretch

/-! ### Accepted files -/

/-- The expressions in an expression, itself included. -/
inductive Expr.Contains (e : Expr) : Expr → Prop
  | self : Contains e e
  | operand {x y : Expr} : Contains e x → y ∈ x.operands → Contains e y

/-- The expression is read from some of the tokens, and these are not the last. -/
def Located (tokens : List Token) (e : Expr) : Prop :=
  ∃ before us after n k p, tokens = before ++ (us ++ after) ∧ after ≠ [] ∧ n ≤ maxNesting ∧
    (Stretch.chain n k p e).Takes us

theorem Located.operand {tokens : List Token} {e e' : Expr} (h : Located tokens e)
    (he' : e' ∈ e.operands) :
    Located tokens e' := by
  obtain ⟨before, us, after, n, k, p, rfl, hafter, hn, hus⟩ := h
  obtain ⟨before', us', after', n', k', p', rfl, hn', hus'⟩ := hus.laid.exists_takes he'
  exact ⟨before ++ before', us', after' ++ after, n', k', p', by simp, by simp [hafter],
    Nat.le_trans hn' hn, hus'⟩

theorem Located.contains {tokens : List Token} {e e' : Expr} (h : Located tokens e)
    (he' : e.Contains e') :
    Located tokens e' := by
  induction he' with
  | self => exact h
  | operand _ hy ih => exact ih.operand hy

theorem Located.surround {tokens : List Token} {e : Expr} (h : Located tokens e)
    (us vs : List Token) :
    Located (us ++ (tokens ++ vs)) e := by
  obtain ⟨before, ts, after, n, k, p, rfl, hafter, hn, hts⟩ := h
  exact ⟨us ++ before, ts, after ++ vs, n, k, p, by simp, by simp [hafter], hn, hts⟩

namespace Cursor

/-- The value of an assignment is read from tokens before its semicolon. -/
theorem takes_item (c : Cursor) :
    Takes (fun ts => ∀ a, c.item.1 = .assignment a → Located ts a.value) c c.item.2 := by
  cases hitem : c.item.1 with
  | declaration d =>
    have hpass : Takes (fun _ => True) c c.item.2 := by
      rcases c.item_cases with ⟨c₁, fault, hpass, heq⟩ | ⟨c₁, hpass, hpeek, heq⟩
      · rw [heq]
        exact (hpass.takes.append (takes_report (P := fun _ => True) c₁ fault)).mono
          fun _ _ => trivial
      · rw [heq]
        exact (hpass.takes.append (takes_advance hpeek)).mono fun _ _ => trivial
    exact hpass.mono fun _ _ a ha => by cases ha
  | assignment a' =>
    have heq : c.item = (.assignment c.assignment.1, c.assignment.2) := by
      unfold item at hitem ⊢
      split
      · next kind hpeek => simp [hpeek] at hitem
      · rfl
    rw [heq] at hitem ⊢
    obtain rfl := Item.assignment.inj hitem
    have hname := (passes_identifier c).takes
    cases hop : c.identifier.2.peek?.bind AssignOp.ofLexeme? with
    | none =>
      rw [assignment_eq_of_none hop]
      refine (hname.append (takes_report (P := fun _ => False) c.identifier.2 _)).mono ?_
      rintro _ ⟨_, _, _, _, hfalse⟩
      exact hfalse.elim
    | some op =>
      obtain ⟨l, hl, -⟩ := Option.bind_eq_some_iff.mp hop
      rw [assignment_eq_of_some hop]
      have hvalue := (expression_chain_takes maxNesting).1 0 c.identifier.2.advance
      refine (((hname.append (takes_advance hl)).append hvalue).append
        (takes_expect _ .semicolon)).mono ?_
      rintro _ ⟨_, _, rfl, ⟨before, ts, rfl, -, k, hts, -⟩, rfl⟩ a ha
      obtain rfl := Item.assignment.inj ha
      exact ⟨before, ts, _, maxNesting, k, 0, List.append_assoc before ts _, by simp,
        Nat.le_refl _, hts⟩

theorem takes_itemList (n : Nat) (c : Cursor)
    (hclean : (c.itemList n).2.diagnostics = c.diagnostics) :
    Takes (fun ts => ∀ a, .assignment a ∈ (c.itemList n).1 → Located ts a.value) c
      (c.itemList n).2 := by
  induction n generalizing c with
  | zero => exact takes_refl fun a ha => by cases ha
  | succ n ih =>
    rw [itemList_succ] at hclean ⊢
    by_cases hend : c.isAtEnd = true
    · rw [if_pos hend]
      exact takes_refl fun a ha => by cases ha
    · rw [if_neg hend] at hclean ⊢
      -- no complaint at the end means none after the item
      obtain ⟨us, ds, htokens, hdiagnostics, hlocated⟩ := c.takes_item
      obtain ⟨skipped, hskip⟩ := c.exists_reads_recover c.item.2
      obtain ⟨vs, es, hreads, -⟩ := (c.recover c.item.2).closes_itemList n
      obtain ⟨rfl, -⟩ : ds = [] ∧ es = [] := by
        simpa [hreads.diagnostics, hskip.diagnostics, hdiagnostics] using hclean
      have hquiet : c.item.2.diagnostics = c.diagnostics := by rw [hdiagnostics, List.append_nil]
      rw [recover_eq_self hquiet] at hclean ⊢
      have hitem : Takes (fun ts => ∀ a, c.item.1 = .assignment a →
          Located ts a.value) c c.item.2 :=
        ⟨us, [], htokens, hdiagnostics, hlocated⟩
      refine (hitem.append (ih c.item.2 (hclean.trans hquiet.symm))).mono ?_
      rintro _ ⟨us, vs, rfl, hus, hvs⟩ a ha
      rcases List.mem_cons.mp ha with ha | ha
      · exact (hus a ha.symm).surround [] vs
      · simpa using (hvs a ha).surround us []

end Cursor

/-- Every expression of an accepted file is located among its tokens. -/
theorem located_of_parseTokens {tokens : List Token} {finish : Span} {f : SourceFile}
    (h : parseTokens tokens finish = .ok f) {a : Assignment} (ha : a ∈ f.assignments) {e : Expr}
    (he : a.value.Contains e) : Located tokens e := by
  rw [parseTokens_eq] at h
  split at h
  · next hempty =>
    obtain rfl := Except.ok.inj h
    have hclean := List.isEmpty_iff.mp hempty
    obtain ⟨ts, ds, htokens, hdiagnostics, hlocated⟩ :=
      Cursor.takes_itemList tokens.length (Cursor.ofTokens tokens finish) hclean
    rw [hclean] at hdiagnostics
    have hds : ds = [] := by simpa [Cursor.ofTokens] using hdiagnostics.symm
    have hvalue : Located tokens a.value := by
      rw [show tokens = [] ++ (ts ++ _) from htokens]
      exact (hlocated hds a (mem_items_of_mem_assignments ha)).surround [] _
    exact hvalue.contains he
  · cases h

/-- The span of the expression tells what it was read from. -/
structure Expr.Exact (tokens : List Token) (finish : Span) (e : Expr) : Prop where
  contiguous : ∃ before after, tokens = before ++ e.span.tokens tokens ++ after
  starts : (e.span.tokens tokens).head?.map (·.span.start) = some e.span.start
  stops : (e.span.tokens tokens).getLast?.map (·.span.stop) = some e.span.stop
  unfinished : ¬ finish.Within e.span
  reread : ∀ eof, ∃ c, (Cursor.ofTokens (e.span.tokens tokens) eof).expression maxNesting 0 = (e,
    c) ∧ c.isAtEnd = true ∧ c.diagnostics = []
  inside : ∀ e' ∈ e.operands, e'.span.Within e.span
  ordered : e.operands.Pairwise fun e' e'' => e'.span.stop ≤ e''.span.start

theorem Located.exact {tokens : List Token} {finish : Span} {e : Expr} (h : Located tokens e)
    (hin : InOrder tokens finish) : e.Exact tokens finish := by
  obtain ⟨before, us, after, n, k, p, rfl, hafter, hn, hus⟩ := h
  have hcovers : e.span.Covers us := hus.covers hin.right.left
  have htokens := hcovers.tokens_eq hin
  have hlaid : Stretch.Laid n e.operands us := hus.laid
  obtain ⟨first, last, hfirst, hlast, hspan⟩ := hcovers
  constructor
  · exact ⟨before, after, by rw [htokens, List.append_assoc]⟩
  · rw [htokens, hfirst, hspan]
    rfl
  · rw [htokens, hlast, hspan]
    rfl
  · rintro ⟨-, -, hle⟩
    obtain ⟨t, ht⟩ := List.exists_mem_of_ne_nil after hafter
    have := hin.right.stop_le_start (List.mem_of_getLast? hlast) ht
    have := hin.right.right.nonempty t ht
    have := hin.right.right.finished t ht
    have := hin.end_range
    rw [hspan] at hle
    dsimp only at hle
    omega
  · intro eof
    rw [htokens]
    obtain ⟨hvalue, hrest, hclean⟩ := hus.reads_alone hn eof
    exact ⟨((Cursor.ofTokens us eof).expression maxNesting 0).2, Prod.ext hvalue rfl,
      by simp [Cursor.isAtEnd, hrest], hclean⟩
  · intro e' he'
    obtain ⟨before', us', after', _, _, _, rfl, -, hus'⟩ := hlaid.exists_takes he'
    have hcovers' : e'.span.Covers us' := hus'.covers hin.right.left.right.left
    refine hcovers'.within ⟨first, last, hfirst, hlast, hspan⟩ hin.right.left ?_
    exact (List.sublist_append_left us' after').trans (List.sublist_append_right before' _)
  · exact hlaid.ordered hin.right.left

/-- Spans are exact. Tokens that are scanned come one after the other; and in an accepted file of
such tokens, the tokens inside the span of an expression are those it was read from, and give it
again when they are read alone. Its operands come one after the other inside it. -/
theorem spans_exact :
    (∀ file source, InOrder (scan file source).tokens (scan file source).finish) ∧
      ∀ tokens finish f, InOrder tokens finish → parseTokens tokens finish = .ok f →
        ∀ a ∈ f.assignments, ∀ e, a.value.Contains e → e.Exact tokens finish :=
  ⟨scan_inOrder, fun _ _ _ hin h _ ha _ he => (located_of_parseTokens h ha he).exact hin⟩

/-- The tokens of `x = -(x + y) * f(x, (y),) - y;`. -/
def nestedScan : Scan :=
  scan 0 "x = -(x + y) * f(x, (y),) - y;"

/-- Its sum, which covers the brackets. -/
def nestedSum : Expr :=
  .binary ⟨0, 5, 12⟩ .add (.var ⟨0, 6, 7⟩ "x") (.var ⟨0, 10, 11⟩ "y")

def nestedValue : Expr :=
  .binary ⟨0, 4, 29⟩ .sub
    (.binary ⟨0, 4, 25⟩ .mul (.neg ⟨0, 4, 12⟩ nestedSum)
      (.call ⟨0, 15, 25⟩ ⟨"f", ⟨0, 15, 16⟩⟩ [.var ⟨0, 17, 18⟩ "x", .var ⟨0, 20, 23⟩ "y"]))
    (.var ⟨0, 28, 29⟩ "y")

theorem spans_exact_nested :
    InOrder nestedScan.tokens nestedScan.finish ∧
      ∃ f, parseTokens nestedScan.tokens nestedScan.finish = .ok f ∧
        ∃ a ∈ f.assignments, a.value.Contains nestedSum ∧
          nestedSum.Exact nestedScan.tokens nestedScan.finish := by
  obtain ⟨hscan, hexact⟩ := spans_exact
  have hin : InOrder nestedScan.tokens nestedScan.finish := hscan 0 _
  have hparse :
      (parseTokens nestedScan.tokens nestedScan.finish).toOption.map SourceFile.assignments =
      some [⟨⟨"x", ⟨0, 0, 1⟩⟩, ⟨.assign, ⟨0, 2, 3⟩⟩, nestedValue⟩] := by decide +kernel
  obtain ⟨f, hf, hassignments⟩ := Outcome.exists_ok_of_map hparse
  have ha : ⟨⟨"x", ⟨0, 0, 1⟩⟩, ⟨.assign, ⟨0, 2, 3⟩⟩, nestedValue⟩ ∈ f.assignments := by
    rw [hassignments]
    exact List.mem_cons_self
  have hcontains : nestedValue.Contains nestedSum :=
    .operand (.operand (.operand .self List.mem_cons_self) List.mem_cons_self) List.mem_cons_self
  exact ⟨hin, f, hf, _, ha, hcontains, hexact _ _ f hin hf _ ha _ hcontains⟩

end LinearKernels
