import LinearKernels.Proofs.MatrixOffsets
import LinearKernels.Proofs.ParameterNames

/-!
Expressions of a kernel text. An expression is read token by token with a stack of what is still
open. Signs bind more than products, products more than sums, sums more than comparisons, and
comparisons more than assignments, which alone group to the right. The code of a term stands in
brackets wherever it is not a single access or call, so it is read as the same expression in
every place.
-/

namespace LinearKernels

/-- An operator between two operands. -/
inductive CodeOp where
  | comma
  | assign
  | addAssign
  | subAssign
  | divAssign
  | equal
  | less
  | greater
  | add
  | sub
  | mul
  | div
deriving DecidableEq

namespace CodeOp

def power : CodeOp → Nat
  | comma => 0
  | assign | addAssign | subAssign | divAssign => 1
  | equal => 2
  | less | greater => 3
  | add | sub => 4
  | mul | div => 5

/-- Whether an operation with this operator is complete before `next`. Assignments group to the
right, all others to the left. -/
def endsBefore (op next : CodeOp) : Bool :=
  next.power < op.power || (next.power = op.power && op.power ≠ assign.power)

def ofMark? : Char → Option CodeOp
  | ',' => some comma
  | '=' => some assign
  | '<' => some less
  | '>' => some greater
  | '+' => some add
  | '-' => some sub
  | '*' => some mul
  | '/' => some div
  | _ => none

/-- The operator whose second mark is an equals sign. -/
def withEquals? : CodeOp → Option CodeOp
  | assign => some equal
  | add => some addAssign
  | sub => some subAssign
  | div => some divAssign
  | _ => none

end CodeOp

/-- A mark between statements. -/
def CodeToken.isBreak : CodeToken → Bool
  | word _ => false
  | mark c => c = ';' || c = '\x7b' || c = '\x7d'

/-- A call with several arguments has one argument with commas. -/
inductive CodeExpr where
  | word (text : String)
  | element (array : String) (index : CodeExpr)
  | call (function : String) (argument : CodeExpr)
  | neg (operand : CodeExpr)
  | binary (op : CodeOp) (lhs rhs : CodeExpr)
deriving DecidableEq

namespace CodeExpr

/-- A part of an expression whose end is still to come. -/
inductive Frame where
  | bracket
  | element (array : String)
  | call (function : String)
  | neg
  | operator (op : CodeOp) (lhs : CodeExpr)

/-- The open parts, innermost first, and the operand that has just been read. -/
structure Reading where
  frames : List Frame
  operand : Option CodeExpr

/-- Complete the innermost operations as far as they have ended. -/
def complete (ended : CodeOp → Bool) : List Frame → CodeExpr → List Frame × CodeExpr
  | .operator op lhs :: frames, e =>
    if ended op then complete ended frames (.binary op lhs e) else (.operator op lhs :: frames, e)
  | .neg :: frames, e => complete ended frames (.neg e)
  | frames, e => (frames, e)

def completeAll : List Frame → CodeExpr → List Frame × CodeExpr :=
  complete fun _ => true

def push (op : CodeOp) (frames : List Frame) (lhs : CodeExpr) : Reading :=
  let (frames, lhs) := complete (·.endsBefore op) frames lhs
  ⟨.operator op lhs :: frames, none⟩

/-- A mark where an operand has to begin. Two minus signs in a row are no two signs. -/
def beginOperand (frames : List Frame) : Char → Option Reading
  | '(' => some ⟨.bracket :: frames, none⟩
  | '-' =>
    match frames with
    | .neg :: _ | .operator .sub _ :: _ => none
    | _ => some ⟨.neg :: frames, none⟩
  | '=' =>
    match frames with
    | .operator op lhs :: frames => op.withEquals?.map (push · frames lhs)
    | _ => none
  | _ => none

/-- A mark behind an operand. -/
def endOperand (frames : List Frame) (e : CodeExpr) : Char → Option Reading
  | '(' =>
    match e with
    | .word f => some ⟨.call f :: frames, none⟩
    | _ => none
  | '[' =>
    match e with
    | .word a => some ⟨.element a :: frames, none⟩
    | _ => none
  | ')' =>
    match completeAll frames e with
    | (.bracket :: frames, e) => some ⟨frames, some e⟩
    | (.call f :: frames, e) => some ⟨frames, some (.call f e)⟩
    | _ => none
  | ']' =>
    match completeAll frames e with
    | (.element a :: frames, e) => some ⟨frames, some (.element a e)⟩
    | _ => none
  | c => (CodeOp.ofMark? c).map (push · frames e)

def step (r : Reading) : CodeToken → Option Reading
  | .word text =>
    match r.operand with
    | none => some ⟨r.frames, some (.word text)⟩
    | some _ => none
  | .mark c =>
    match r.operand with
    | none => beginOperand r.frames c
    | some e => endOperand r.frames e c

/-- The expression that the tokens are. -/
def ofTokens? (tokens : List CodeToken) : Option CodeExpr := do
  let r ← tokens.foldlM step ⟨[], none⟩
  match completeAll r.frames (← r.operand) with
  | ([], e) => some e
  | _ => none

/-- The tokens are an operand, whatever is open around them. -/
def Reads (tokens : List CodeToken) (e : CodeExpr) : Prop :=
  ∀ frames, tokens.foldlM step ⟨frames, none⟩ = some ⟨frames, some e⟩

variable {l r before between after tokens : List CodeToken} {e lhs rhs : CodeExpr}

theorem step_eq_none {t : CodeToken} (h : t.isBreak = true) (s : Reading) : step s t = none := by
  obtain ⟨frames, operand⟩ := s
  cases t with
  | word text => cases h
  | mark c =>
    simp only [CodeToken.isBreak, Bool.or_eq_true, decide_eq_true_eq] at h
    rcases h with (rfl | rfl) | rfl <;> cases operand <;> rfl

theorem not_isBreak_of_foldlM {s s' : Reading} (h : tokens.foldlM step s = some s') :
    ∀ t ∈ tokens, t.isBreak = false := by
  induction tokens generalizing s with
  | nil =>
    intro t ht
    cases ht
  | cons t tokens ih =>
    rw [List.foldlM_cons] at h
    obtain ⟨s₁, hstep, h⟩ := Option.bind_eq_some_iff.mp h
    refine List.forall_mem_cons.mpr ⟨?_, ih h⟩
    cases hbreak : t.isBreak with
    | false => rfl
    | true =>
      rw [step_eq_none hbreak] at hstep
      cases hstep

/-- An expression is part of one statement. -/
theorem not_isBreak_of_ofTokens? (h : ofTokens? tokens = some e) :
    ∀ t ∈ tokens, t.isBreak = false := by
  obtain ⟨s, hs, -⟩ := Option.bind_eq_some_iff.mp h
  exact not_isBreak_of_foldlM hs

theorem reads_word (text : String) : Reads [.word text] (.word text) :=
  fun _ => rfl

/-- An operand within marks that stand around it. -/
theorem Reads.within (h : Reads l lhs) (hmarks : ∀ frames, ∃ inner,
      before.foldlM step ⟨frames, none⟩ = some ⟨inner, none⟩ ∧
      after.foldlM step ⟨inner, some lhs⟩ = some ⟨frames, some e⟩) :
    Reads (before ++ (l ++ after)) e := by
  intro frames
  obtain ⟨inner, hbefore, hafter⟩ := hmarks frames
  rw [List.foldlM_append, hbefore, Option.bind_eq_bind, Option.bind_some, List.foldlM_append,
    h inner, Option.bind_eq_bind, Option.bind_some, hafter]

/-- Two operands with marks around and between them. -/
theorem Reads.pair (hl : Reads l lhs) (hr : Reads r rhs) (hmarks : ∀ frames, ∃ inner inner',
      before.foldlM step ⟨frames, none⟩ = some ⟨inner, none⟩ ∧
      between.foldlM step ⟨inner, some lhs⟩ = some ⟨inner', none⟩ ∧
      after.foldlM step ⟨inner', some rhs⟩ = some ⟨frames, some e⟩) :
    Reads (before ++ (l ++ (between ++ (r ++ after)))) e := by
  refine hl.within fun frames => ?_
  obtain ⟨inner, inner', hbefore, hbetween, hafter⟩ := hmarks frames
  refine ⟨inner, hbefore, ?_⟩
  rw [List.foldlM_append, hbetween, Option.bind_eq_bind, Option.bind_some, List.foldlM_append,
    hr inner', Option.bind_eq_bind, Option.bind_some, hafter]

/-- An assignment of one operand to another. -/
theorem Reads.ofTokens?_assign (hl : Reads l lhs) (hr : Reads r rhs) :
    ofTokens? (l ++ .mark '=' :: r) = some (.binary .assign lhs rhs) := by
  have hfold : (l ++ .mark '=' :: r).foldlM step ⟨[], none⟩ =
      some ⟨[.operator .assign lhs], some rhs⟩ := by
    rw [List.foldlM_append, hl]
    exact hr _
  rw [ofTokens?, hfold]
  rfl

/-- An assignment of a sum. -/
theorem Reads.ofTokens?_assign_add {t : CodeExpr} (ht : Reads tokens t) (hl : Reads l lhs)
    (hr : Reads r rhs) :
    ofTokens? (tokens ++ .mark '=' :: (l ++ .mark '+' :: r)) =
      some (.binary .assign t (.binary .add lhs rhs)) := by
  have hsum : (l ++ .mark '+' :: r).foldlM step ⟨[.operator .assign t], none⟩ =
      some ⟨[.operator .add lhs, .operator .assign t], some rhs⟩ := by
    rw [List.foldlM_append, hl]
    exact hr _
  have hfold : (tokens ++ .mark '=' :: (l ++ .mark '+' :: r)).foldlM step ⟨[], none⟩ =
      some ⟨[.operator .add lhs, .operator .assign t], some rhs⟩ := by
    rw [List.foldlM_append, ht]
    exact hsum
  rw [ofTokens?, hfold]
  rfl

end CodeExpr

/-! ### Operations -/

/-- The expression of an operation over those of its operands. -/
def BinaryOp.phrase (op : BinaryOp) (lhs rhs : CodeExpr) : CodeExpr :=
  match op with
  | assign => .binary .assign lhs rhs
  | inplaceAdd => .binary .addAssign lhs rhs
  | inplaceSub => .binary .subAssign lhs rhs
  | add | prod => .binary .add lhs rhs
  | sub => .binary .sub lhs rhs
  | mul | elementProd => .binary .mul lhs rhs
  | div | elementDiv => .binary .div lhs rhs
  | pow => .call "pow" (.binary .comma lhs rhs)
  | max => .call "fmax" (.binary .comma lhs rhs)
  | min => .call "fmin" (.binary .comma lhs rhs)

def UnaryOp.phrase (op : UnaryOp) (sub : CodeExpr) : CodeExpr :=
  match op with
  | neg => .neg sub
  | op => .call op.name sub

open CodeExpr

/-- The code of an operation in brackets is an operand. -/
theorem BinaryOp.reads_code (op : BinaryOp) {l r : String}
    {lhs rhs : CodeExpr} (hl : Reads (codeTokens l) lhs) (hr : Reads (codeTokens r) rhs) :
    Reads (codeTokens ("(" ++ op.code l r ++ ")")) (op.phrase lhs rhs) := by
  cases op <;> simp only [code, String.append_assoc] <;>
    simp (disch := decide) only [codeTokens_append_left, codeTokens_separated,
      codeTokens_append_right]
  case pow | max | min =>
    rw [← List.append_assoc]
    exact hl.pair hr fun frames => ⟨_, _, rfl, rfl, rfl⟩
  all_goals exact hl.pair hr fun frames => ⟨_, _, rfl, rfl, rfl⟩

theorem UnaryOp.reads_code (op : UnaryOp) {sub : String} {e : CodeExpr}
    (h : Reads (codeTokens sub) e) :
    Reads (codeTokens ("(" ++ op.code sub ++ ")")) (op.phrase e) := by
  cases op <;> simp only [code, name, String.append_assoc] <;>
    simp (disch := decide) only [codeTokens_append_left, codeTokens_separated,
      codeTokens_append_right]
  case neg =>
    rw [← List.append_assoc]
    exact h.within fun frames => ⟨_, rfl, rfl⟩
  all_goals
    rw [← List.append_assoc, ← List.append_assoc]
    exact h.within fun frames => ⟨_, rfl, rfl⟩

/-! ### Elements of arguments -/

/-- The expression of a buffer index. -/
def View.phrase (v : View) (i : CodeExpr) : CodeExpr :=
  let scaled := if v.stride = 1 then i else .binary .mul i (.word (decimal v.stride))
  if v.start = 0 then scaled else .binary .add scaled (.word (decimal v.start))

def Layout.phrase (l : Layout) (name : String) (i j : CodeExpr) : CodeExpr :=
  let row := .binary .add (.binary .mul (if l.transposed then j else i) (.word (rowInc name)))
    (.word (rowStart name))
  let col := .binary .add (.binary .mul (if l.transposed then i else j) (.word (colInc name)))
    (.word (colStart name))
  if l.rowMajor then .binary .add (.binary .mul row (.word (internalSize2 name))) col
  else .binary .add row (.binary .mul col (.word (internalSize1 name)))

/-- The expression of the current element of the parameter `name`. -/
def Storage.phrase (s : Storage) (name : String) : CodeExpr :=
  match s with
  | hostScalar => .word name
  | deviceScalar => .element name (.word "0")
  | vector v => .element name (v.phrase (.word rowIndex))
  | matrix l => .element name (l.phrase name (.word rowIndex) (.word colIndex))

theorem isWord_decimal (n : Nat) : IsWord (decimal n) := by
  refine ⟨?_, allWord_decimal n⟩
  rw [decimal, String.toList_ofList]
  exact Nat.toDigits_ne_nil

/-- A stride of one and a start of zero leave no text. -/
theorem View.index_eq (v : View) (i : String) : v.index i =
    (if v.stride = 1 then i else i ++ ("*" ++ decimal v.stride)) ++
      (if v.start = 0 then "" else "+" ++ decimal v.start) := by
  unfold View.index
  split <;> simp_all [String.append_assoc]

theorem View.reads_element (v : View) {name : String} (hname : IsWord name) :
    Reads (codeTokens (name ++ ("[" ++ (v.index rowIndex ++ "]"))))
      (.element name (v.phrase (.word rowIndex))) := by
  have hindex : codeTokens rowIndex = [.word rowIndex] :=
    codeTokens_of_isWord isName_rowIndex.toIsWord
  rw [codeTokens_separated (by decide) (by decide) (by decide),
    codeTokens_append_right (by decide), codeTokens_of_isWord hname, View.index_eq]
  intro frames
  unfold View.phrase
  split <;> split <;>
    simp (disch := decide) only [String.append_assoc, String.append_empty, codeTokens_separated,
      codeTokens_of_isWord (isWord_decimal _), hindex] <;>
    rfl

theorem Layout.reads_element (l : Layout) {name : String} (hname : IsWord name) :
    Reads (codeTokens (name ++ ("[" ++ (l.offset name rowIndex colIndex ++ "]"))))
      (.element name (l.phrase name (.word rowIndex) (.word colIndex))) := by
  have hrow : codeTokens rowIndex = [.word rowIndex] :=
    codeTokens_of_isWord isName_rowIndex.toIsWord
  have hcol : codeTokens colIndex = [.word colIndex] :=
    codeTokens_of_isWord isName_colIndex.toIsWord
  have hsizes : ∀ w ∈ matrixParameters name, codeTokens w = [.word w] :=
    fun w hw => codeTokens_of_isWord (hname.all.isName_of_mem hw).toIsWord
  simp only [matrixParameters, List.forall_mem_cons, List.not_mem_nil, false_implies,
    implies_true, and_true] at hsizes
  obtain ⟨hrowStart, hcolStart, hrowInc, hcolInc, hsize₁, hsize₂⟩ := hsizes
  rw [codeTokens_separated (by decide) (by decide) (by decide),
    codeTokens_append_right (by decide), codeTokens_of_isWord hname]
  intro frames
  obtain ⟨rowMajor, transposed⟩ := l
  cases rowMajor <;> cases transposed <;>
    simp (disch := decide) only [offset, rowPosition, colPosition, if_true, if_false,
      Bool.false_eq_true, String.append_assoc, codeTokens_append_left, codeTokens_separated,
      codeTokens_append_right, hrow, hcol, hrowStart, hcolStart, hrowInc, hcolInc,
      hsize₁, hsize₂] <;>
    rfl

/-- The usual text of an argument is an operand. -/
theorem Storage.reads_access (s : Storage) {name : String} (hname : IsWord name) :
    Reads (codeTokens (s.access name)) (s.phrase name) := by
  cases s with
  | hostScalar =>
    rw [access, codeTokens_of_isWord hname]
    exact reads_word name
  | deviceScalar =>
    rw [access, codeTokens_append_right (by decide), codeTokens_of_isWord hname]
    intro frames
    rfl
  | vector v =>
    rw [access, String.append_assoc, String.append_assoc]
    exact v.reads_element hname
  | matrix l =>
    rw [access, String.append_assoc, String.append_assoc]
    exact l.reads_element hname

/-! ### Terms -/

/-- The argument is reached in the kernel by the usual text of its storage. -/
def Argument.UsualIn (reg : Registry) (pass : Nat) (a : Argument) : Prop :=
  ∃ r, a.info reg = .ok r ∧ a.accessName reg pass = .ok (a.storage.access r.name)

/-- The expression by which an argument is reached. -/
def Argument.phrase (reg : Registry) (a : Argument) : CodeExpr :=
  match a.name reg with
  | .ok name => a.storage.phrase name
  | .error _ => .word ""

theorem Argument.UsualIn.reads {reg : Registry} {pass : Nat} {a : Argument}
    (h : a.UsualIn reg pass) {text : String} (htext : a.accessName reg pass = .ok text) :
    Reads (codeTokens text) (a.phrase reg) := by
  obtain ⟨r, hr, haccess⟩ := h
  obtain rfl := Except.ok.inj (haccess.symm.trans htext)
  have hname : a.name reg = .ok r.name := by
    rw [name, hr]
    rfl
  rw [phrase, hname]
  exact a.storage.reads_access r.isParameter_name.toIsWord

namespace Term

variable {reg : Registry} {pass : Nat} {t : Term} {text : String}

/-- The expression that a term's code is. A matrix product stands for its register. -/
def phrase (reg : Registry) : Term → CodeExpr
  | leaf arg => arg.phrase reg
  | unary op sub => op.phrase (sub.phrase reg)
  | binary op lhs rhs => op.phrase (lhs.phrase reg) (rhs.phrase reg)
  | inner _ _ (some _) (some temporary) => temporary.phrase reg
  | inner lhs rhs _ _ => BinaryOp.mul.phrase (lhs.phrase reg) (rhs.phrase reg)
  | t =>
    match t.key reg with
    | .ok key => .word (accumulator key 0 0)
    | .error _ => .word ""

theorem isWord_accumulator {key : String} (h : AllWord key) (m n : Nat) :
    IsWord (accumulator key m n) := by
  have hall : AllWord (accumulator key m n) := by
    simp only [accumulator, allWord_append]
    exact ⟨⟨⟨⟨h, by decide⟩, allWord_decimal m⟩, by decide⟩, allWord_decimal n⟩
  exact ⟨by simp [accumulator], hall⟩

/-- The code of a term is the operand that its phrase says, wherever it stands. -/
theorem reads_code (h : t.code reg pass = .ok text) (hu : ∀ a ∈ t.reached, a.UsualIn reg pass) :
    Reads (codeTokens text) (t.phrase reg) := by
  have product : ∀ {l r : Term} {text : String}, (do
      return accumulator (joinKeys .prod (← l.key reg) (← r.key reg)) 0 0) = Except.ok text →
      Reads (codeTokens text) (match pairKey reg .prod l r with
        | .ok key => .word (accumulator key 0 0)
        | .error _ => .word "") := by
    intro l r text h
    obtain ⟨kl, hkl, h⟩ := Outcome.bind_eq_ok_iff.mp h
    obtain ⟨kr, hkr, h⟩ := Outcome.bind_eq_ok_iff.mp h
    obtain rfl := Except.ok.inj h
    have hkey : AllWord (joinKeys .prod kl kr) :=
      allWord_joinKeys (allWord_key hkl) (allWord_key hkr)
    rw [codeTokens_of_isWord (isWord_accumulator hkey 0 0), pairKey, hkl, hkr]
    exact reads_word _
  induction t generalizing text with
  | leaf arg => exact (hu arg (List.mem_singleton_self arg)).reads h
  | unary op sub ih =>
    obtain ⟨s, hs, h⟩ := Outcome.bind_eq_ok_iff.mp h
    obtain rfl := Except.ok.inj h
    exact op.reads_code (ih hs hu)
  | binary op lhs rhs ihl ihr =>
    obtain ⟨l, hl, h⟩ := Outcome.bind_eq_ok_iff.mp h
    obtain ⟨r, hr, h⟩ := Outcome.bind_eq_ok_iff.mp h
    obtain rfl := Except.ok.inj h
    obtain ⟨hul, hur⟩ := List.forall_mem_append.mp hu
    exact op.reads_code (ihl hl hul) (ihr hr hur)
  | matMat lhs rhs ihl ihr => exact product h
  | matVec lhs rhs ihl ihr => exact product h
  | inner lhs rhs computed temporary ihl ihr =>
    have operands : ∀ {text : String}, pairCode reg pass .mul lhs rhs = .ok text →
        (∀ a ∈ lhs.reached ++ rhs.reached, a.UsualIn reg pass) →
        Reads (codeTokens text) (BinaryOp.mul.phrase (lhs.phrase reg) (rhs.phrase reg)) := by
      intro text h hu
      obtain ⟨l, hl, h⟩ := Outcome.bind_eq_ok_iff.mp h
      obtain ⟨r, hr, h⟩ := Outcome.bind_eq_ok_iff.mp h
      obtain rfl := Except.ok.inj h
      obtain ⟨hul, hur⟩ := List.forall_mem_append.mp hu
      exact BinaryOp.mul.reads_code (ihl hl hul) (ihr hr hur)
    cases computed with
    | none => exact operands h hu
    | some p =>
      cases temporary with
      | none => cases h
      | some cell => exact (hu cell (List.mem_singleton_self cell)).reads h

end Term

end LinearKernels
