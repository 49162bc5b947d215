import LinearKernels.Proofs.KernelText

/-!
Index texts read as arithmetic on natural numbers, without overflow. A sum has terms, a term
has factors, and a factor is a numeral, a name or a sum in parentheses. A condition compares
two sums. The logical size of a matrix is as many rows and columns as its conditions hold for.
-/

namespace LinearKernels

/-- The values of the names in a kernel text. -/
abbrev Values := String → Nat

namespace Values

def set (ρ : Values) (name : String) (n : Nat) : Values :=
  fun w => if w = name then n else ρ w

/-- A word of digits is a numeral, any other word is a name. -/
def word (ρ : Values) (text : String) : Nat :=
  if text.toList.all Char.isDigit then decimalValue text.toList else ρ text

end Values

/-- A sum up to its current factor: the terms that are finished, and the factors of the current
term that are. -/
structure OpenSum where
  terms : Nat
  factors : Nat

namespace OpenSum

def empty : OpenSum := ⟨0, 1⟩

/-- The sum, if the current factor is its last. -/
def close (s : OpenSum) (factor : Nat) : Nat :=
  s.terms + s.factors * factor

end OpenSum

/-- Read a sum from inside all its open parentheses. The current factor has been read or is to
come. -/
def sumFrom (ρ : Values) : List OpenSum → OpenSum → Option Nat → List CodeToken → Option Nat
  | [], s, some n, [] => some (s.close n)
  | outer, s, none, .word text :: rest => sumFrom ρ outer s (some (ρ.word text)) rest
  | outer, s, none, .mark '(' :: rest => sumFrom ρ (s :: outer) .empty none rest
  | outer, s, some n, .mark '*' :: rest => sumFrom ρ outer ⟨s.terms, s.factors * n⟩ none rest
  | outer, s, some n, .mark '+' :: rest => sumFrom ρ outer ⟨s.close n, 1⟩ none rest
  | s' :: outer, s, some n, .mark ')' :: rest => sumFrom ρ outer s' (some (s.close n)) rest
  | _, _, _, _ => none

namespace Values

def sum? (ρ : Values) (tokens : List CodeToken) : Option Nat :=
  sumFrom ρ [] .empty none tokens

/-- Whether the text is a comparison of two sums that holds. -/
def Holds (ρ : Values) (text : String) : Prop :=
  ∃ lhs rhs m n, codeTokens text = lhs ++ .mark '<' :: rhs ∧ ρ.sum? lhs = some m ∧
    ρ.sum? rhs = some n ∧ m < n

variable {ρ : Values}

theorem set_same (name : String) (n : Nat) : ρ.set name n name = n :=
  if_pos rfl

theorem set_other {name w : String} (n : Nat) (h : w ≠ name) : ρ.set name n w = ρ w :=
  if_neg h

end Values

/-- There is no comparison inside a sum. -/
theorem less_not_mem_of_sumFrom {ρ : Values} {outer : List OpenSum}
    {s : OpenSum} {factor : Option Nat} {tokens : List CodeToken} {n : Nat}
    (h : sumFrom ρ outer s factor tokens = some n) :
    CodeToken.mark '<' ∉ tokens := by
  fun_induction sumFrom ρ outer s factor tokens <;> grind

/-- A text has one reading as a comparison. -/
theorem append_less_inj {a b c d : List CodeToken} (h : a ++ .mark '<' :: b = c ++ .mark '<' :: d)
    (ha : CodeToken.mark '<' ∉ a) (hc : CodeToken.mark '<' ∉ c) : a = c ∧ b = d := by
  induction a generalizing c with
  | nil =>
    cases c with
    | nil => simpa using h
    | cons y c =>
      have hy := (List.cons.inj h).1
      exact absurd (hy ▸ List.mem_cons_self ..) hc
  | cons x a ih =>
    cases c with
    | nil =>
      have hx := (List.cons.inj h).1
      exact absurd (hx ▸ List.mem_cons_self ..) ha
    | cons y c =>
      obtain ⟨rfl, htail⟩ := List.cons.inj h
      obtain ⟨rfl, rfl⟩ := ih htail (fun hmem => ha (List.mem_cons_of_mem _ hmem))
        (fun hmem => hc (List.mem_cons_of_mem _ hmem))
      exact ⟨rfl, rfl⟩

/-! ### Words -/

/-- A text that is put between two others, without running into them. -/
theorem codeTokens_separated {u separator v : String} (hne : separator ≠ "")
    (hopens : opensFresh separator) (hends : endsFresh separator) :
    codeTokens (u ++ (separator ++ v)) =
      codeTokens u ++ (codeTokens separator ++ codeTokens v) := by
  rw [codeTokens_append_right (opensFresh_append v hne hopens), codeTokens_append_left hends]

/-- A name, as against a numeral. -/
structure IsName (text : String) : Prop extends IsWord text where
  notDigits : text.toList.all Char.isDigit = false

theorem IsName.value {text : String} (h : IsName text) (ρ : Values) : ρ.word text = ρ text := by
  rw [Values.word, h.notDigits]
  rfl

theorem isName_rowIndex : IsName rowIndex :=
  ⟨⟨by decide, by decide⟩, by decide⟩

theorem isName_colIndex : IsName colIndex :=
  ⟨⟨by decide, by decide⟩, by decide⟩

theorem IsParameter.isName {name : String} (h : IsParameter name) : IsName name := by
  obtain ⟨rest, hrest⟩ := List.isPrefixOf_iff_prefix.mp h.begins
  refine ⟨h.toIsWord, ?_⟩
  rw [← hrest]
  rfl

theorem IsParameter.isName_append {name sfx : String} (h : IsParameter name)
    (hsfx : AllWord sfx) : IsName (name ++ sfx) :=
  (h.append hsfx).isName

/-- A name that is not a parameter's is none of the names of parameters. -/
theorem IsParameter.ne_of_words {name index : String} (h : IsParameter name)
    (hindex : parameterWords index = []) : name ≠ index := by
  rintro rfl
  rw [h.words] at hindex
  cases hindex

/-- A loop index does not change the parameters. -/
theorem IsParameter.set_append {name index sfx : String} (h : IsParameter name) (ρ : Values)
    (hindex : parameterWords index = []) (n : Nat) (hsfx : AllWord sfx) :
    ρ.set index n (name ++ sfx) = ρ (name ++ sfx) :=
  Values.set_other n ((h.append hsfx).ne_of_words hindex)

/-- The condition of a loop over the elements of a vector. -/
theorem codeTokens_less {index size : String} (hi : IsWord index) (hsize : IsWord size) :
    codeTokens (index ++ " < " ++ size) = [.word index, .mark '<', .word size] := by
  rw [String.append_assoc, codeTokens_separated (by decide) (by decide) (by decide),
    codeTokens_of_isWord hi, codeTokens_of_isWord hsize]
  rfl

/-- The condition of a loop over rows or columns. -/
theorem codeTokens_affine {index inc start size : String} (hi : IsWord index) (hinc : IsWord inc)
    (hstart : IsWord start) (hsize : IsWord size) :
    codeTokens (index ++ "*" ++ inc ++ "+" ++ start ++ " < " ++ size) =
      [.word index, .mark '*', .word inc, .mark '+', .word start, .mark '<', .word size] := by
  simp only [String.append_assoc]
  rw [codeTokens_separated (by decide) (by decide) (by decide),
    codeTokens_separated (by decide) (by decide) (by decide),
    codeTokens_separated (by decide) (by decide) (by decide), codeTokens_of_isWord hi,
    codeTokens_of_isWord hinc, codeTokens_of_isWord hstart, codeTokens_of_isWord hsize]
  rfl

namespace Values

variable {ρ : Values}

theorem holds_iff {text : String} {lhs rhs : List CodeToken} {m n : Nat}
    (htokens : codeTokens text = lhs ++ .mark '<' :: rhs) (hm : ρ.sum? lhs = some m)
    (hn : ρ.sum? rhs = some n) : ρ.Holds text ↔ m < n := by
  constructor
  · rintro ⟨lhs', rhs', m', n', htokens', hm', hn', hlt⟩
    obtain ⟨rfl, rfl⟩ := append_less_inj (htokens.symm.trans htokens')
      (less_not_mem_of_sumFrom hm) (less_not_mem_of_sumFrom hm')
    obtain rfl := Option.some.inj (hm.symm.trans hm')
    obtain rfl := Option.some.inj (hn.symm.trans hn')
    exact hlt
  · intro hlt
    exact ⟨lhs, rhs, m, n, htokens, hm, hn, hlt⟩

theorem sum?_word {text : String} (h : IsName text) : ρ.sum? [.word text] = some (ρ text) := by
  simp [sum?, sumFrom, OpenSum.close, OpenSum.empty, h.value]

/-- A comparison of a scaled index and a size, read exactly. -/
theorem holds_affine_iff {index inc start size : String} (hi : IsWord index) (hinc : IsName inc)
    (hstart : IsName start) (hsize : IsName size) :
    ρ.Holds (index ++ "*" ++ inc ++ "+" ++ start ++ " < " ++ size) ↔
      ρ.word index * ρ inc + ρ start < ρ size := by
  have htokens : codeTokens (index ++ "*" ++ inc ++ "+" ++ start ++ " < " ++ size) =
      [.word index, .mark '*', .word inc, .mark '+', .word start] ++ .mark '<' :: [.word size] :=
    codeTokens_affine hi hinc.toIsWord hstart.toIsWord hsize.toIsWord
  refine holds_iff htokens ?_ (sum?_word hsize)
  simp [sum?, sumFrom, OpenSum.close, OpenSum.empty, hinc.value, hstart.value]

end Values

/-! ### Logical sizes -/

/-- How many of the positions `start`, `start + inc` and so on lie below the size. -/
def positionCount (start inc size : Nat) : Nat :=
  (size - start + (inc - 1)) / inc

theorem lt_positionCount_iff {start inc size k : Nat} (hinc : 0 < inc) :
    k < positionCount start inc size ↔ k * inc + start < size := by
  have hle : k + 1 ≤ (size - start + (inc - 1)) / inc ↔
      (k + 1) * inc ≤ size - start + (inc - 1) :=
    Nat.le_div_iff_mul_le hinc
  rw [Nat.add_mul, Nat.one_mul] at hle
  unfold positionCount
  omega

theorem positionCount_add {start inc size : Nat} (hinc : 0 < inc) (h : start < size) :
    positionCount start inc size = positionCount (start + inc) inc size + 1 := by
  unfold positionCount
  rw [← Nat.add_div_right _ hinc]
  by_cases hlast : size ≤ start + inc
  · rw [Nat.div_eq_of_lt_le (k := 1), Nat.div_eq_of_lt_le (k := 1)] <;> omega
  · congr 1
    omega

/-- The increments of the matrix parameter `name` are positive. -/
def Values.Strided (ρ : Values) (name : String) : Prop :=
  0 < ρ (rowInc name) ∧ 0 < ρ (colInc name)

instance (ρ : Values) (name : String) : Decidable (ρ.Strided name) :=
  inferInstanceAs (Decidable (0 < ρ (rowInc name) ∧ 0 < ρ (colInc name)))

/-- A loop index is none of the size parameters of a matrix. -/
theorem IsParameter.set_matrixParameters {name index : String} (h : IsParameter name)
    (ρ : Values) (hindex : parameterWords index = []) (n : Nat) :
    ρ.set index n (rowStart name) = ρ (rowStart name) ∧
    ρ.set index n (rowInc name) = ρ (rowInc name) ∧
    ρ.set index n (internalSize1 name) = ρ (internalSize1 name) ∧
    ρ.set index n (colStart name) = ρ (colStart name) ∧
    ρ.set index n (colInc name) = ρ (colInc name) ∧
    ρ.set index n (internalSize2 name) = ρ (internalSize2 name) := by
  refine ⟨?_, ?_, ?_, ?_, ?_, ?_⟩ <;> exact h.set_append ρ hindex n (by decide)

theorem Values.Strided.set {ρ : Values} {name index : String} (h : ρ.Strided name)
    (hname : IsParameter name) (hindex : parameterWords index = []) (n : Nat) :
    (ρ.set index n).Strided name := by
  simpa only [Values.Strided, hname.set_matrixParameters ρ hindex n] using h

namespace Layout

/-- The logical rows and columns of the matrix parameter `name`. -/
def size (l : Layout) (ρ : Values) (name : String) : Nat × Nat :=
  let rows := positionCount (ρ (rowStart name)) (ρ (rowInc name)) (ρ (internalSize1 name))
  let cols := positionCount (ρ (colStart name)) (ρ (colInc name)) (ρ (internalSize2 name))
  if l.transposed then (cols, rows) else (rows, cols)

variable {ρ : Values} {name index : String}

/-- A loop index has no part in a logical size. -/
theorem size_set (l : Layout) (hname : IsParameter name)
    (hindex : parameterWords index = []) (n : Nat) :
    l.size (ρ.set index n) name = l.size ρ name := by
  simp only [size, hname.set_matrixParameters ρ hindex n]

end Layout

end LinearKernels
