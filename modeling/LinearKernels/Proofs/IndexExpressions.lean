import LinearKernels.Proofs.IndexArithmetic

/-!
Index expressions: sums of products of names, numerals and sums in brackets. Each has one value,
which is the value that reading it as a sum gives.
-/

namespace LinearKernels

inductive IndexLevel where
  | operand
  | product
  | sum

/-- The tokens are an expression of the level and have the value. -/
inductive IndexTokens (ρ : Values) : IndexLevel → List CodeToken → Nat → Prop where
  | word (text : String) : IndexTokens ρ .operand [.word text] (ρ.word text)
  | brackets {ts : List CodeToken} {n : Nat} (h : IndexTokens ρ .sum ts n) :
      IndexTokens ρ .operand (.mark '(' :: (ts ++ [.mark ')'])) n
  | operand {ts : List CodeToken} {n : Nat} (h : IndexTokens ρ .operand ts n) :
      IndexTokens ρ .product ts n
  | mul {ts us : List CodeToken} {m n : Nat} (hl : IndexTokens ρ .product ts m)
      (hr : IndexTokens ρ .operand us n) :
      IndexTokens ρ .product (ts ++ .mark '*' :: us) (m * n)
  | product {ts : List CodeToken} {n : Nat} (h : IndexTokens ρ .product ts n) :
      IndexTokens ρ .sum ts n
  | add {ts us : List CodeToken} {m n : Nat} (hl : IndexTokens ρ .sum ts m)
      (hr : IndexTokens ρ .product us n) :
      IndexTokens ρ .sum (ts ++ .mark '+' :: us) (m + n)

namespace IndexTokens

variable {ρ : Values} {ts : List CodeToken} {m n : Nat}

/-- What reading an expression does, at each level: a product leaves its last operand as the
current factor, and a sum leaves its last term open. -/
def Read (ρ : Values) (ts : List CodeToken) (n : Nat) : IndexLevel → Prop
  | .operand =>
    ∀ outer s rest, sumFrom ρ outer s none (ts ++ rest) = sumFrom ρ outer s (some n) rest
  | .product => ∀ s : OpenSum, ∃ factors k, factors * k = s.factors * n ∧
      ∀ outer rest, sumFrom ρ outer s none (ts ++ rest) =
        sumFrom ρ outer ⟨s.terms, factors⟩ (some k) rest
  | .sum => ∃ s k, OpenSum.close s k = n ∧
      ∀ outer rest, sumFrom ρ outer .empty none (ts ++ rest) = sumFrom ρ outer s (some k) rest

theorem read {level : IndexLevel} (h : IndexTokens ρ level ts n) : Read ρ ts n level := by
  induction h with
  | word text => exact fun outer s rest => by rw [List.singleton_append, sumFrom]
  | @brackets ts n h ih =>
    obtain ⟨s', k, hclose, hread⟩ := ih
    intro outer s rest
    rw [List.cons_append, List.append_assoc, sumFrom, hread,
      List.singleton_append, sumFrom, hclose]
  | operand h ih => exact fun s => ⟨s.factors, _, rfl, fun outer rest => ih outer s rest⟩
  | @mul ts us m n hl hr ihl ihr =>
    intro s
    obtain ⟨factors, k, hfactors, hread⟩ := ihl s
    refine ⟨factors * k, n, by rw [hfactors, Nat.mul_assoc], fun outer rest => ?_⟩
    rw [List.append_assoc, hread, List.cons_append, sumFrom, ihr]
  | @product ts n h ih =>
    obtain ⟨factors, k, hfactors, hread⟩ := ih .empty
    refine ⟨⟨0, factors⟩, k, ?_, hread⟩
    rw [OpenSum.close, hfactors, OpenSum.empty, Nat.zero_add, Nat.one_mul]
  | @add ts us m n hl hr ihl ihr =>
    obtain ⟨s, k, hclose, hread⟩ := ihl
    -- the terms so far are finished, and the product starts a new term
    obtain ⟨factors, l, hfactors, hread'⟩ := ihr ⟨m, 1⟩
    refine ⟨⟨m, factors⟩, l, ?_, fun outer rest => ?_⟩
    · rw [OpenSum.close, hfactors, Nat.one_mul]
    · rw [List.append_assoc, hread, List.cons_append, sumFrom, hclose, hread']

/-- The reader gives the value of an expression. -/
theorem sum?_eq (h : IndexTokens ρ .sum ts n) : ρ.sum? ts = some n := by
  obtain ⟨s, k, hclose, hread⟩ := h.read
  have hsum := hread [] []
  rw [List.append_nil] at hsum
  rw [Values.sum?, hsum, sumFrom, hclose]

/-- An expression has one value. -/
theorem unique (h : IndexTokens ρ .sum ts m) (h' : IndexTokens ρ .sum ts n) : m = n :=
  Option.some.inj (h.sum?_eq.symm.trans h'.sum?_eq)

end IndexTokens

/-- The text is an expression of the level and has the value. -/
def Values.Denotes (ρ : Values) (level : IndexLevel) (text : String) (n : Nat) : Prop :=
  IndexTokens ρ level (codeTokens text) n

namespace Values.Denotes

variable {ρ : Values} {u w : String} {m n : Nat}

theorem toProduct (h : ρ.Denotes .operand u n) : ρ.Denotes .product u n :=
  IndexTokens.operand h

theorem toSum (h : ρ.Denotes .product u n) : ρ.Denotes .sum u n :=
  IndexTokens.product h

theorem word (h : IsWord u) : ρ.Denotes .operand u (ρ.word u) := by
  rw [Denotes, codeTokens_of_isWord h]
  exact .word u

theorem name (h : IsName u) : ρ.Denotes .operand u (ρ u) :=
  h.value ρ ▸ word h.toIsWord

theorem brackets (h : ρ.Denotes .sum u n) : ρ.Denotes .operand ("(" ++ (u ++ ")")) n := by
  rw [Denotes, codeTokens_append_left (by decide), codeTokens_append_right (by decide)]
  exact IndexTokens.brackets h

theorem mul (h : ρ.Denotes .product u m) (h' : ρ.Denotes .operand w n) :
    ρ.Denotes .product (u ++ ("*" ++ w)) (m * n) := by
  rw [Denotes, codeTokens_separated (by decide) (by decide) (by decide)]
  exact IndexTokens.mul h h'

theorem add (h : ρ.Denotes .sum u m) (h' : ρ.Denotes .product w n) :
    ρ.Denotes .sum (u ++ ("+" ++ w)) (m + n) := by
  rw [Denotes, codeTokens_separated (by decide) (by decide) (by decide)]
  exact IndexTokens.add h h'

/-- A factor that follows a sum in brackets multiplies the sum. -/
theorem brackets_mul (h : ρ.Denotes .sum u m) (h' : ρ.Denotes .operand w n) :
    ρ.Denotes .product ("(" ++ u ++ ")*" ++ w) (m * n) := by
  have htext : "(" ++ u ++ ")*" ++ w = "(" ++ (u ++ ")") ++ ("*" ++ w) := by
    rw [show ")*" = ")" ++ "*" from rfl]
    simp only [String.append_assoc]
  rw [htext]
  exact h.brackets.toProduct.mul h'

/-- Two positions, of which the first is multiplied by a size. -/
theorem scaled_first {size : String} {k : Nat} (h : ρ.Denotes .sum u m) (h' : ρ.Denotes .sum w n)
    (hsize : ρ.Denotes .operand size k) :
    ρ.Denotes .sum ("(" ++ u ++ ")*" ++ size ++ "+(" ++ w ++ ")") (m * k + n) := by
  have htext : "(" ++ u ++ ")*" ++ size ++ "+(" ++ w ++ ")" =
      "(" ++ u ++ ")*" ++ size ++ ("+" ++ ("(" ++ (w ++ ")"))) := by
    rw [show "+(" = "+" ++ "(" from rfl]
    simp only [String.append_assoc]
  rw [htext]
  exact (h.brackets_mul hsize).toSum.add h'.brackets.toProduct

/-- Two positions, of which the second is multiplied by a size. -/
theorem scaled_second {size : String} {k : Nat} (h : ρ.Denotes .sum u m) (h' : ρ.Denotes .sum w n)
    (hsize : ρ.Denotes .operand size k) :
    ρ.Denotes .sum ("(" ++ u ++ ")+(" ++ w ++ ")*" ++ size) (m + n * k) := by
  have htext : "(" ++ u ++ ")+(" ++ w ++ ")*" ++ size =
      "(" ++ (u ++ ")") ++ ("+" ++ ("(" ++ w ++ ")*" ++ size)) := by
    rw [show ")+(" = ")" ++ ("+" ++ "(") from rfl]
    simp only [String.append_assoc]
  rw [htext]
  exact h.brackets.toProduct.toSum.add (h'.brackets_mul hsize)

/-- The text of a position, which an index, an increment and a start determine. -/
theorem position {inc start : String} (h : ρ.Denotes .sum u m) (hinc : IsName inc)
    (hstart : IsName start) :
    ρ.Denotes .sum ("(" ++ u ++ ")*" ++ inc ++ "+" ++ start) (m * ρ inc + ρ start) := by
  have htext : "(" ++ u ++ ")*" ++ inc ++ "+" ++ start =
      "(" ++ u ++ ")*" ++ inc ++ ("+" ++ start) :=
    String.append_assoc
  rw [htext]
  exact (h.brackets_mul (.name hinc)).toSum.add (name hstart).toProduct

end Values.Denotes

end LinearKernels
