import LinearKernels.Code
import LinearKernels.Proofs.KeyReading

/-!
Kernel text as words and marks. A word is a longest run of letters, digits and underscores,
every other character that is not blank is a mark. Texts are put together from words with
marks or blanks between them, so the words of a whole text are those of its parts. The words
that begin with `arg` are the parameter names.
-/

namespace LinearKernels

inductive CodeToken where
  | word (text : String)
  | mark (char : Char)
deriving DecidableEq

/-- A word that has come to its end. -/
def endWord (letters : List Char) : List CodeToken :=
  if letters = [] then [] else [.word (String.ofList letters)]

/-- The tokens of a text that begins inside a word with the given letters. -/
def tokensFrom (letters : List Char) : List Char → List CodeToken
  | [] => endWord letters
  | c :: rest =>
    if isWordChar c then tokensFrom (letters ++ [c]) rest
    else endWord letters ++ (if c.isWhitespace then [] else [.mark c]) ++ tokensFrom [] rest

def codeTokens (text : String) : List CodeToken :=
  tokensFrom [] text.toList

/-- The name of a parameter, if the token is one. -/
def CodeToken.parameter? : CodeToken → Option String
  | word text => if "arg".toList.isPrefixOf text.toList then some text else none
  | mark _ => none

/-- The parameter names in a text, in order. -/
@[irreducible] def parameterWords (text : String) : List String :=
  (codeTokens text).filterMap CodeToken.parameter?

/-! ### Parts of a text -/

/-- No word goes on into the text from the left. -/
def opensFresh (text : String) : Bool :=
  text.toList.head?.all (!isWordChar ·)

/-- No word goes on out of the text to the right. -/
def endsFresh (text : String) : Bool :=
  text.toList.getLast?.all (!isWordChar ·)

theorem tokensFrom_append {letters u v : List Char} (hv : v.head?.all (!isWordChar ·)) :
    tokensFrom letters (u ++ v) = tokensFrom letters u ++ tokensFrom [] v := by
  induction u generalizing letters with
  | nil =>
    cases v with
    | nil => simp [tokensFrom, endWord]
    | cons c rest =>
      have hc : isWordChar c = false := by simpa using hv
      simp [tokensFrom, endWord, hc]
  | cons c u ih =>
    simp only [List.cons_append, tokensFrom]
    split
    · exact ih
    · rw [ih, List.append_assoc _ (tokensFrom [] u)]

theorem codeTokens_append_right {u v : String} (h : opensFresh v) :
    codeTokens (u ++ v) = codeTokens u ++ codeTokens v := by
  rw [codeTokens, String.toList_append]
  exact tokensFrom_append h

theorem codeTokens_append_left {u v : String} (h : endsFresh u) :
    codeTokens (u ++ v) = codeTokens u ++ codeTokens v := by
  unfold codeTokens
  rw [String.toList_append]
  rw [endsFresh] at h
  rcases List.eq_nil_or_concat u.toList with hnil | ⟨us, c, hlast⟩
  · rw [hnil]
    rfl
  · rw [hlast, List.concat_eq_append] at h ⊢
    have hc : isWordChar c = false := by simpa using h
    have hopens : ∀ rest, ((c :: rest).head?.all (!isWordChar ·)) = true := by simp [hc]
    rw [List.append_assoc, List.singleton_append, tokensFrom_append (hopens v.toList),
      tokensFrom_append (hopens [])]
    simp [tokensFrom, endWord, hc]

/-- There are word characters only. -/
def AllWord (text : String) : Prop :=
  ∀ c ∈ text.toList, isWordChar c

instance (text : String) : Decidable (AllWord text) :=
  List.decidableBAll (fun c => isWordChar c) text.toList

theorem allWord_append {u v : String} : AllWord (u ++ v) ↔ AllWord u ∧ AllWord v := by
  simp only [AllWord, String.toList_append, List.forall_mem_append]

theorem allWord_decimal (n : Nat) : AllWord (decimal n) := by
  intro c hc
  simp [isWordChar, Char.isAlphanum, isDigit_of_mem_decimal hc]

/-- A text that is a single word. -/
structure IsWord (text : String) : Prop where
  nonempty : text.toList ≠ []
  all : AllWord text

theorem IsWord.append {u v : String} (hu : IsWord u) (hv : AllWord v) : IsWord (u ++ v) :=
  ⟨by simp [hu.nonempty], allWord_append.mpr ⟨hu.all, hv⟩⟩

theorem codeTokens_of_isWord {text : String} (h : IsWord text) :
    codeTokens text = [.word text] := by
  have hfrom : ∀ letters us : List Char, (∀ c ∈ us, isWordChar c) →
      tokensFrom letters us = endWord (letters ++ us) := by
    intro letters us
    induction us generalizing letters with
    | nil => simp [tokensFrom]
    | cons c us ih =>
      intro hus
      rw [tokensFrom, if_pos (hus c (List.mem_cons_self ..)),
        ih _ fun d hd => hus d (List.mem_cons_of_mem _ hd), List.append_assoc,
        List.singleton_append]
  rw [codeTokens, hfrom [] _ h.all, List.nil_append, endWord, if_neg h.nonempty,
    String.ofList_toList]

/-! ### Parameter names in a text -/

theorem parameterWords_append_left {u v : String} (h : endsFresh u) :
    parameterWords (u ++ v) = parameterWords u ++ parameterWords v := by
  rw [parameterWords, codeTokens_append_left h, List.filterMap_append,
    parameterWords, parameterWords]

theorem parameterWords_append_right {u v : String} (h : opensFresh v) :
    parameterWords (u ++ v) = parameterWords u ++ parameterWords v := by
  rw [parameterWords, codeTokens_append_right h, List.filterMap_append,
    parameterWords, parameterWords]

/-- Text that can stand before other text and names no parameter. -/
def isLead (text : String) : Bool :=
  endsFresh text && parameterWords text = []

/-- Text that can stand after other text and names no parameter. -/
def isTrail (text : String) : Bool :=
  opensFresh text && parameterWords text = []

/-- Text that can stand between other texts and names no parameter. -/
def isSeparator (text : String) : Bool :=
  isLead text && isTrail text && text ≠ ""

theorem parameterWords_lead {lead text : String} (h : isLead lead) :
    parameterWords (lead ++ text) = parameterWords text := by
  rw [isLead, Bool.and_eq_true, decide_eq_true_eq] at h
  rw [parameterWords_append_left h.1, h.2, List.nil_append]

theorem parameterWords_trail {text trail : String} (h : isTrail trail) :
    parameterWords (text ++ trail) = parameterWords text := by
  rw [isTrail, Bool.and_eq_true, decide_eq_true_eq] at h
  rw [parameterWords_append_right h.1, h.2, List.append_nil]

theorem opensFresh_append {u : String} (v : String) (hne : u ≠ "") (h : opensFresh u) :
    opensFresh (u ++ v) := by
  have hlist : u.toList ≠ [] := fun hnil => hne (String.toList_eq_nil_iff.mp hnil)
  obtain ⟨c, us, hu⟩ := List.exists_cons_of_ne_nil hlist
  rw [opensFresh, hu] at h
  rw [opensFresh, String.toList_append, hu]
  exact h

theorem parameterWords_separated {u separator v : String} (h : isSeparator separator) :
    parameterWords (u ++ (separator ++ v)) = parameterWords u ++ parameterWords v := by
  simp only [isSeparator, isTrail, Bool.and_eq_true, decide_eq_true_eq] at h
  obtain ⟨⟨hlead, hopens, -⟩, hne⟩ := h
  rw [parameterWords_append_right (opensFresh_append v hne hopens), parameterWords_lead hlead]

theorem parameterWords_between {separator : String} (h : isSeparator separator)
    (lhs rhs : String) :
    parameterWords (lhs ++ separator ++ rhs) = parameterWords lhs ++ parameterWords rhs := by
  rw [String.append_assoc, parameterWords_separated h]

/-- A name that a kernel parameter can have. -/
structure IsParameter (name : String) : Prop extends IsWord name where
  begins : "arg".toList.isPrefixOf name.toList

theorem IsParameter.words {name : String} (h : IsParameter name) :
    parameterWords name = [name] := by
  simp only [parameterWords, codeTokens_of_isWord h.toIsWord, List.filterMap_cons,
    List.filterMap_nil, CodeToken.parameter?, if_pos h.begins]

theorem IsParameter.append {name sfx : String} (h : IsParameter name) (hsfx : AllWord sfx) :
    IsParameter (name ++ sfx) := by
  refine ⟨h.toIsWord.append hsfx, ?_⟩
  have hname := List.isPrefixOf_iff_prefix.mp h.begins
  rw [String.toList_append]
  exact List.isPrefixOf_iff_prefix.mpr (hname.trans (List.prefix_append ..))

/-- A word with another beginning names no parameter. -/
theorem parameterWords_of_head {text : String} (h : IsWord text) {c : Char}
    (hhead : text.toList.head? = some c) (hc : c ≠ 'a') : parameterWords text = [] := by
  obtain ⟨cs, htext⟩ := List.head?_eq_some_iff.mp hhead
  have hother : "arg".toList.isPrefixOf text.toList = false := by
    rw [htext]
    simp [List.isPrefixOf, hc.symm]
  simp only [parameterWords, codeTokens_of_isWord h, List.filterMap_cons, List.filterMap_nil,
    CodeToken.parameter?, hother, Bool.false_eq_true, if_false]

theorem parameterWords_decimal (n : Nat) : parameterWords (decimal n) = [] := by
  have hne : (decimal n).toList ≠ [] := by
    rw [decimal, String.toList_ofList]
    exact Nat.toDigits_ne_nil
  obtain ⟨c, cs, hdecimal⟩ := List.exists_cons_of_ne_nil hne
  have hdigit : c.isDigit = true :=
    isDigit_of_mem_decimal (by rw [hdecimal]; exact List.mem_cons_self ..)
  refine parameterWords_of_head ⟨hne, allWord_decimal n⟩ (c := c) (by rw [hdecimal]; rfl) ?_
  rintro rfl
  exact absurd hdigit (by decide)

theorem parameterWords_elementName (e : ElementType) : parameterWords e.name = [] := by
  cases e <;> decide +kernel

theorem parameterWords_call {function : String} (h : isLead function) (lhs rhs : String) :
    parameterWords (function ++ lhs ++ ", " ++ rhs ++ ")") =
      parameterWords lhs ++ parameterWords rhs := by
  rw [parameterWords_trail (by decide +kernel), parameterWords_between (by decide +kernel),
    parameterWords_lead h]

theorem parameterWords_binary (op : BinaryOp) (lhs rhs : String) :
    parameterWords (op.code lhs rhs) = parameterWords lhs ++ parameterWords rhs := by
  cases op with
  | pow | max | min => exact parameterWords_call (by decide +kernel) lhs rhs
  | assign | inplaceAdd | inplaceSub | add | prod | sub | mul | elementProd | div | elementDiv =>
    exact parameterWords_between (by decide +kernel) lhs rhs

theorem parameterWords_unary (op : UnaryOp) (sub : String) :
    parameterWords (op.code sub) = parameterWords sub := by
  have hname : parameterWords op.name = [] := by cases op <;> decide +kernel
  unfold UnaryOp.code
  split
  · exact parameterWords_lead (by decide +kernel)
  · rw [parameterWords_trail (by decide +kernel), parameterWords_between (by decide +kernel),
      hname, List.nil_append]

/-! ### Lines of a kernel -/

/-- Lines as one text. -/
def joinLines (lines : List String) : String :=
  String.join (lines.map (· ++ "\n"))

theorem joinLines_cons (line : String) (lines : List String) :
    joinLines (line :: lines) = line ++ "\n" ++ joinLines lines := by
  simp [joinLines]

theorem joinLines_append (xs ys : List String) :
    joinLines (xs ++ ys) = joinLines xs ++ joinLines ys := by
  simp [joinLines]

theorem parameterWords_joinLines (lines : List String) :
    parameterWords (joinLines lines) = lines.flatMap parameterWords := by
  induction lines with
  | nil => decide +kernel
  | cons line lines ih =>
    rw [joinLines_cons, parameterWords_between (by decide +kernel), ih, List.flatMap_cons]

namespace Code

/-- The parameter names that the lines of a body mention. -/
@[simp] def mentions : Code → List String
  | skip => []
  | seq first second => first.mentions ++ second.mentions
  | declare _ name value | assign name value => parameterWords name ++ parameterWords value
  | declareLocal array => parameterWords array.name
  | declareLane name => parameterWords name
  | eval text => parameterWords text
  | gridLoop _ index bound body | countLoop index bound body =>
    parameterWords index ++ parameterWords bound ++ parameterWords index ++ body.mentions
  | guard condition body => parameterWords condition ++ body.mentions
  | combine array op lane => (array.reduction op lane).flatMap parameterWords

theorem parameterWords_indent (depth : Nat) (text : String) :
    parameterWords (indent depth text) = parameterWords text := by
  unfold indent
  split
  next hempty => rw [hempty]
  next =>
    induction depth with
    | zero => rfl
    | succ depth ih =>
      rw [List.replicate_succ, String.join_cons, String.append_assoc,
        parameterWords_lead (by decide +kernel), ih]

theorem parameterWords_block (depth : Nat) (header : String) (body : List String) :
    (block depth header body).flatMap parameterWords =
      parameterWords header ++ body.flatMap parameterWords := by
  have hopen : parameterWords "\x7b" = [] := by decide +kernel
  have hclose : parameterWords "\x7d" = [] := by decide +kernel
  simp [block, parameterWords_indent, hopen, hclose]

theorem parameterWords_gridHeader (axis : Nat) (index bound : String) :
    parameterWords (gridHeader axis index bound) =
      parameterWords index ++ parameterWords bound ++ parameterWords index := by
  unfold gridHeader
  simp only [String.append_assoc]
  simp (disch := decide +kernel) only [parameterWords_lead, parameterWords_separated,
    parameterWords_trail, parameterWords_decimal, List.nil_append, List.append_nil,
    List.append_assoc]

theorem parameterWords_countHeader (index bound : String) :
    parameterWords (countHeader index bound) =
      parameterWords index ++ parameterWords bound ++ parameterWords index := by
  unfold countHeader
  simp only [String.append_assoc]
  simp (disch := decide +kernel) only [parameterWords_lead, parameterWords_separated,
    parameterWords_trail, List.append_assoc]

theorem parameterWords_lines (code : Code) (depth : Nat) :
    (code.lines depth).flatMap parameterWords = code.mentions := by
  induction code generalizing depth with
  | skip => rfl
  | seq first second ihf ihs => rw [lines, List.flatMap_append, ihf, ihs, mentions]
  | declare element name value =>
    simp only [lines, mentions, List.flatMap_singleton, parameterWords_indent,
      String.append_assoc]
    simp (disch := decide +kernel) only [parameterWords_separated, parameterWords_trail,
      parameterWords_elementName, List.nil_append]
  | declareLocal array =>
    simp only [lines, mentions, List.flatMap_singleton, parameterWords_indent,
      LocalArray.declaration, String.append_assoc]
    simp (disch := decide +kernel) only [parameterWords_lead, parameterWords_separated,
      parameterWords_trail, parameterWords_elementName, parameterWords_decimal,
      List.nil_append, List.append_nil]
  | declareLane name =>
    simp only [lines, mentions, List.flatMap_singleton, parameterWords_indent,
      String.append_assoc]
    rw [parameterWords_lead (by decide +kernel), parameterWords_trail (by decide +kernel)]
  | assign target value =>
    simp only [lines, mentions, List.flatMap_singleton, parameterWords_indent,
      String.append_assoc]
    rw [parameterWords_separated (by decide +kernel), parameterWords_trail (by decide +kernel)]
  | eval text =>
    rw [lines, List.flatMap_singleton, parameterWords_indent,
      parameterWords_trail (by decide +kernel), mentions]
  | gridLoop axis index bound body ih =>
    rw [lines, parameterWords_block, parameterWords_gridHeader, ih, mentions]
  | countLoop index bound body ih =>
    rw [lines, parameterWords_block, parameterWords_countHeader, ih, mentions]
  | guard condition body ih =>
    rw [lines, parameterWords_block, ih, mentions, String.append_assoc,
      parameterWords_lead (by decide +kernel), parameterWords_trail (by decide +kernel)]
  | combine array op lane => simp only [lines, mentions, List.flatMap_map, parameterWords_indent]

end Code

end LinearKernels
