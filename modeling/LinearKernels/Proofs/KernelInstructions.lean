import LinearKernels.Proofs.KernelExpressions

/-!
Instructions of a kernel text. A statement ends with a semicolon, a block stands in braces, and a
loop or a condition belongs to the statement or block behind it. What a line of a body says can
be read in every block, and blocks nest, so the text of a body is read part by part.
-/

namespace LinearKernels

/-- What an item of a work group is told to do. Whole numbers are counted with, and all else is
stored. -/
inductive Instruction where
  | count (name : String) (value : CodeExpr)
  | store (target value : CodeExpr)
  /-- An array that the items of a work group share. -/
  | share (name : String) (size : Nat)
  | barrier
  | loop (condition : CodeExpr) (body : List Instruction)
  | guard (condition : CodeExpr) (body : List Instruction)

namespace Instruction

def elementWords : List String :=
  ["float", "double", "int", "uint"]

/-- The words of a declaration, and what stands behind them. -/
def ofDeclaration? (first second : String) (rest : List CodeToken) : Option Instruction :=
  if first = "unsigned" ∧ second = "int" then
    match rest with
    | .word name :: .mark '=' :: value => (CodeExpr.ofTokens? value).map (.count name)
    | _ => none
  else if first = "__local" then
    match rest with
    | [.word name, .mark '[', .word size, .mark ']'] =>
      if second ∈ elementWords ∧ size.toList.all Char.isDigit then
        some (.share name (decimalValue size.toList))
      else none
    | _ => none
  else if first ∈ elementWords then
    match rest with
    | .mark '=' :: value => (CodeExpr.ofTokens? value).map (.store (.word second))
    | _ => none
  else none

/-- A statement without its semicolon. -/
def ofTokens? : List CodeToken → Option Instruction
  | .word first :: .word second :: rest => ofDeclaration? first second rest
  | tokens =>
    match CodeExpr.ofTokens? tokens with
    | some (.binary .assign target value) => some (.store target value)
    | some (.call "barrier" (.word "CLK_LOCAL_MEM_FENCE")) => some .barrier
    | _ => none

theorem ofTokens?_assign {tokens : List CodeToken} {target value : CodeExpr}
    (h : CodeExpr.ofTokens? tokens = some (.binary .assign target value)) :
    ofTokens? tokens = some (.store target value) := by
  unfold ofTokens?
  split
  · cases h
  · rw [h]

/-- The end of a loop's round, where its index changes. -/
def ofRound? : CodeExpr → Option Instruction
  | .binary .addAssign (.word name) value => some (.count name (.binary .add (.word name) value))
  | .binary .divAssign (.word name) value => some (.count name (.binary .div (.word name) value))
  | _ => none

/-- What stands before a statement or a block. -/
inductive Header where
  | loop (first : Instruction) (condition : CodeExpr) (round : Instruction)
  | guard (condition : CodeExpr)

namespace Header

def apply : Header → List Instruction → List Instruction
  | loop first condition round, body => [first, .loop condition (body ++ [round])]
  | guard condition, body => [.guard condition body]

/-- The tokens before and behind the first semicolon. -/
def cut (tokens : List CodeToken) : List CodeToken × List CodeToken :=
  (tokens.takeWhile (· ≠ .mark ';'), (tokens.dropWhile (· ≠ .mark ';')).tail)

/-- A header without its last bracket. -/
def ofTokens? : List CodeToken → Option Header
  | .word "if" :: .mark '(' :: condition => (CodeExpr.ofTokens? condition).map guard
  | .word "for" :: .mark '(' :: parts => do
    let (first, parts) := cut parts
    let (condition, round) := cut parts
    return loop (← Instruction.ofTokens? first) (← CodeExpr.ofTokens? condition)
      (← ofRound? (← CodeExpr.ofTokens? round))
  | _ => none

end Header

/-- The instructions of a block so far, and the headers that wait for their statement, the last
one first. -/
structure Block where
  done : List Instruction
  headers : List Header

def Block.add (b : Block) (body : List Instruction) : Block :=
  ⟨b.done ++ b.headers.foldl (fun body h => h.apply body) body, []⟩

/-- The blocks around the current one, the tokens since the last statement or header, and the
brackets open in a header. -/
structure Reading where
  outer : List Block
  block : Block
  tokens : List CodeToken
  depth : Nat

namespace Reading

def opensHeader (tokens : List CodeToken) : Bool :=
  tokens.head? = some (.word "for") || tokens.head? = some (.word "if")

/-- A token inside a header, which ends with its first bracket. -/
def nextInHeader (r : Reading) : CodeToken → Option Reading
  | .mark '(' => some { r with tokens := r.tokens ++ [.mark '('], depth := r.depth + 1 }
  | .mark ')' =>
    match r.depth with
    | 0 => none
    | 1 => (Header.ofTokens? r.tokens).map fun h =>
      ⟨r.outer, { r.block with headers := h :: r.block.headers }, [], 0⟩
    | depth + 2 => some { r with tokens := r.tokens ++ [.mark ')'], depth := depth + 1 }
  | t => some { r with tokens := r.tokens ++ [t] }

/-- A token outside of headers. -/
def nextOutside (r : Reading) (t : CodeToken) : Option Reading :=
  match t, r.tokens with
  | .mark ';', tokens =>
    (Instruction.ofTokens? tokens).map fun c => ⟨r.outer, r.block.add [c], [], 0⟩
  | .mark '\x7b', [] => some ⟨r.block :: r.outer, ⟨[], []⟩, [], 0⟩
  | .mark '\x7d', [] =>
    match r.block.headers, r.outer with
    | [], b :: outer => some ⟨outer, b.add r.block.done, [], 0⟩
    | _, _ => none
  | .mark '\x7b', _ | .mark '\x7d', _ => none
  | t, tokens => some { r with tokens := tokens ++ [t] }

def next (r : Reading) (t : CodeToken) : Option Reading :=
  if opensHeader r.tokens then r.nextInHeader t else r.nextOutside t

/-- Between two statements of a block. -/
def between (outer : List Block) (done : List Instruction) : Reading :=
  ⟨outer, ⟨done, []⟩, [], 0⟩

end Reading

/-- The instructions that a text is. -/
def ofText? (text : String) : Option (List Instruction) := do
  match ← (codeTokens text).foldlM Reading.next (.between [] []) with
  | ⟨[], ⟨done, []⟩, [], _⟩ => some done
  | _ => none

/-! ### Statements and blocks -/

variable {tokens tokens' : List CodeToken} {cs cs' : List Instruction}

/-- Between any two statements, the tokens are these instructions. -/
def Yields (tokens : List CodeToken) (cs : List Instruction) : Prop :=
  ∀ outer done, tokens.foldlM Reading.next (.between outer done) =
    some (.between outer (done ++ cs))

theorem yields_nil : Yields [] [] := by
  intro outer done
  rw [List.append_nil]
  rfl

theorem Yields.append (h : Yields tokens cs) (h' : Yields tokens' cs') :
    Yields (tokens ++ tokens') (cs ++ cs') := by
  intro outer done
  rw [List.foldlM_append, h, Option.bind_eq_bind, Option.bind_some, h', List.append_assoc]

theorem Yields.ofText? {text : String} (h : Yields (codeTokens text) cs) :
    ofText? text = some cs := by
  rw [Instruction.ofText?, h]
  rfl

/-- Tokens of one statement are kept until it ends. -/
theorem foldlM_next {outer : List Block} {block : Block} {before : List CodeToken} {depth : Nat}
    (h : ∀ t ∈ tokens, t.isBreak = false)
    (hhead : Reading.opensHeader (before ++ tokens) = false) :
    tokens.foldlM Reading.next ⟨outer, block, before, depth⟩ =
      some ⟨outer, block, before ++ tokens, depth⟩ := by
  induction tokens generalizing before with
  | nil =>
    rw [List.append_nil]
    rfl
  | cons t tokens ih =>
    have hbefore : Reading.opensHeader before = false := by
      cases before with
      | nil => rfl
      | cons b before => exact hhead
    have hnext : Reading.next ⟨outer, block, before, depth⟩ t =
        some ⟨outer, block, before ++ [t], depth⟩ := by
      have ht := h t (List.mem_cons_self ..)
      rw [Reading.next, if_neg (by simp [hbefore])]
      unfold Reading.nextOutside
      split <;> simp_all [CodeToken.isBreak]
    rw [List.foldlM_cons, hnext, Option.bind_eq_bind, Option.bind_some,
      ih (fun u hu => h u (List.mem_cons_of_mem _ hu)) (by simpa using hhead), List.append_assoc,
      List.singleton_append]

theorem foldlM_statement {outer : List Block} {block : Block} {c : Instruction}
    (h : Instruction.ofTokens? tokens = some c) (hbreak : ∀ t ∈ tokens, t.isBreak = false)
    (hhead : Reading.opensHeader tokens = false) :
    (tokens ++ [CodeToken.mark ';']).foldlM Reading.next ⟨outer, block, [], 0⟩ =
      some ⟨outer, block.add [c], [], 0⟩ := by
  have hkept : tokens.foldlM Reading.next ⟨outer, block, [], 0⟩ =
      some ⟨outer, block, tokens, 0⟩ :=
    foldlM_next hbreak hhead
  rw [List.foldlM_append, hkept, Option.bind_eq_bind, Option.bind_some]
  simp only [List.foldlM_cons, List.foldlM_nil, Reading.next, Reading.nextOutside, hhead, h]
  rfl

theorem yields_statement {c : Instruction} (h : Instruction.ofTokens? tokens = some c)
    (hbreak : ∀ t ∈ tokens, t.isBreak = false) (hhead : Reading.opensHeader tokens = false) :
    Yields (tokens ++ [.mark ';']) [c] :=
  fun _ _ => foldlM_statement h hbreak hhead

/-- The tokens are a header, wherever a statement can begin. -/
def Heads (tokens : List CodeToken) (h : Header) : Prop :=
  ∀ outer done, tokens.foldlM Reading.next (.between outer done) =
    some ⟨outer, ⟨done, [h]⟩, [], 0⟩

variable {h : Header}

/-- How many brackets are open after the tokens, if none is closed that was not opened. -/
def depthAfter : Nat → List CodeToken → Option Nat
  | d, [] => some d
  | d, .mark '(' :: tokens => depthAfter (d + 1) tokens
  | d + 1, .mark ')' :: tokens => depthAfter d tokens
  | 0, .mark ')' :: _ => none
  | d, _ :: tokens => depthAfter d tokens

theorem opensHeader_append (h : Reading.opensHeader tokens = true) (rest : List CodeToken) :
    Reading.opensHeader (tokens ++ rest) = true := by
  cases tokens with
  | nil => cases h
  | cons first tokens => exact h

/-- Tokens of a header are kept until its bracket is closed. -/
theorem foldlM_header {outer : List Block} {block : Block} {d d' : Nat}
    (hdepth : depthAfter d tokens' = some d') (hhead : Reading.opensHeader tokens = true) :
    tokens'.foldlM Reading.next ⟨outer, block, tokens, d + 1⟩ =
      some ⟨outer, block, tokens ++ tokens', d' + 1⟩ := by
  fun_induction depthAfter d tokens' generalizing tokens with
  | case1 d =>
    obtain rfl := Option.some.inj hdepth
    rw [List.append_nil]
    rfl
  | case2 d rest ih =>
    rw [List.append_cons, ← ih hdepth (opensHeader_append hhead _), List.foldlM_cons,
      Reading.next, if_pos hhead]
    rfl
  | case3 d rest ih =>
    rw [List.append_cons, ← ih hdepth (opensHeader_append hhead _), List.foldlM_cons,
      Reading.next, if_pos hhead]
    rfl
  | case4 rest => cases hdepth
  | case5 d t rest hopen hclose hclose' ih =>
    have hnext : Reading.nextInHeader ⟨outer, block, tokens, d + 1⟩ t =
        some ⟨outer, block, tokens ++ [t], d + 1⟩ := by
      unfold Reading.nextInHeader
      split
      · exact absurd rfl hopen
      · cases d <;> simp_all
      · rfl
    rw [List.append_cons, ← ih hdepth (opensHeader_append hhead _), List.foldlM_cons,
      Reading.next, if_pos hhead, hnext]
    rfl

/-- A keyword and what stands in brackets behind it. -/
theorem heads_of_header {keyword : String} (hkeyword : Reading.opensHeader [.word keyword] = true)
    (hdepth : depthAfter 0 tokens = some 0)
    (h' : Header.ofTokens? (.word keyword :: .mark '(' :: tokens) = some h) :
    Heads (.word keyword :: .mark '(' :: (tokens ++ [.mark ')'])) h := by
  intro outer done
  have hheader : ∀ rest, Reading.opensHeader (.word keyword :: rest) = true :=
    opensHeader_append hkeyword
  have hopen : Reading.next ⟨outer, ⟨done, []⟩, [.word keyword], 0⟩ (.mark '(') =
      some ⟨outer, ⟨done, []⟩, [.word keyword, .mark '('], 1⟩ := by
    rw [Reading.next, if_pos hkeyword]
    rfl
  have hinner : tokens.foldlM Reading.next ⟨outer, ⟨done, []⟩, [.word keyword, .mark '('], 1⟩ =
      some ⟨outer, ⟨done, []⟩, .word keyword :: .mark '(' :: tokens, 1⟩ :=
    foldlM_header hdepth (hheader _)
  have hclose : Reading.next ⟨outer, ⟨done, []⟩, .word keyword :: .mark '(' :: tokens,
      1⟩ (.mark ')') = some ⟨outer, ⟨done, [h]⟩, [], 0⟩ := by
    rw [Reading.next, if_pos (hheader _), Reading.nextInHeader, h']
    rfl
  rw [List.foldlM_cons]
  change (Reading.next ⟨outer, ⟨done, []⟩, [.word keyword], 0⟩ (.mark '(') >>= _) = _
  rw [hopen, Option.bind_eq_bind, Option.bind_some, List.foldlM_append, hinner,
    Option.bind_eq_bind, Option.bind_some, List.foldlM_cons, hclose]
  rfl

theorem cut_append {first rest : List CodeToken} (hfirst : .mark ';' ∉ first) :
    Header.cut (first ++ .mark ';' :: rest) = (first, rest) := by
  have hall : ∀ t ∈ first, decide (t ≠ .mark ';') = true := by
    intro t ht
    rw [decide_eq_true_eq]
    rintro rfl
    exact hfirst ht
  rw [Header.cut, List.takeWhile_append_of_pos hall, List.dropWhile_append_of_pos hall]
  simp

/-- The tokens of a condition. -/
def ifTokens (condition : List CodeToken) : List CodeToken :=
  .word "if" :: .mark '(' :: (condition ++ [.mark ')'])

/-- The tokens of a loop with its three parts. -/
def forTokens (first middle last : List CodeToken) : List CodeToken :=
  .word "for" :: .mark '(' :: (first ++ .mark ';' :: (middle ++ .mark ';' :: last) ++ [.mark ')'])

theorem heads_if {condition : CodeExpr} (hdepth : depthAfter 0 tokens = some 0)
    (hcondition : CodeExpr.ofTokens? tokens = some condition) :
    Heads (ifTokens tokens) (.guard condition) := by
  refine heads_of_header rfl hdepth ?_
  rw [Header.ofTokens?, hcondition]
  rfl

theorem heads_for {first middle last : List CodeToken} {start round : Instruction}
    {condition advance : CodeExpr} (hfirst : .mark ';' ∉ first)
    (hstart : Instruction.ofTokens? first = some start)
    (hcondition : CodeExpr.ofTokens? middle = some condition)
    (hadvance : CodeExpr.ofTokens? last = some advance) (hround : ofRound? advance = some round)
    (hdepth : depthAfter 0 (first ++ .mark ';' :: (middle ++ .mark ';' :: last)) = some 0) :
    Heads (forTokens first middle last) (.loop start condition round) := by
  refine heads_of_header rfl hdepth ?_
  have hmiddle : .mark ';' ∉ middle := by
    intro hmem
    have hbreak := CodeExpr.not_isBreak_of_ofTokens? hcondition _ hmem
    cases hbreak
  simp only [Header.ofTokens?, cut_append hfirst, cut_append hmiddle, hstart, hcondition,
    hadvance, hround, Option.bind_eq_bind, Option.bind_some]
  rfl

/-- A header and the statement behind it. -/
theorem Heads.statement (hheads : Heads tokens h) {c : Instruction}
    (hc : Instruction.ofTokens? tokens' = some c) (hbreak : ∀ t ∈ tokens', t.isBreak = false)
    (hhead : Reading.opensHeader tokens' = false) :
    Yields (tokens ++ (tokens' ++ [.mark ';'])) (h.apply [c]) := by
  intro outer done
  rw [List.foldlM_append, hheads, Option.bind_eq_bind, Option.bind_some,
    foldlM_statement hc hbreak hhead]
  rfl

/-- A header and the block behind it. -/
theorem Heads.block (hheads : Heads tokens h) (hbody : Yields tokens' cs) :
    Yields (tokens ++ (.mark '\x7b' :: (tokens' ++ [.mark '\x7d']))) (h.apply cs) := by
  intro outer done
  rw [List.foldlM_append, hheads, Option.bind_eq_bind, Option.bind_some, List.foldlM_cons]
  change ((tokens' ++ [_]).foldlM Reading.next (.between (⟨done, [h]⟩ :: outer) [])) = _
  rw [List.foldlM_append, hbody]
  rfl

end Instruction

/-! ### Lines of a body -/

namespace Code

open Instruction

theorem codeTokens_indent (depth : Nat) (text : String) :
    codeTokens (indent depth text) = codeTokens text := by
  unfold indent
  split
  next hempty => rw [hempty]
  next =>
    induction depth with
    | zero => rfl
    | succ depth ih =>
      rw [List.replicate_succ, String.join_cons, String.append_assoc,
        codeTokens_append_left (by decide), ih]
      rfl

theorem codeTokens_joinLines (lines : List String) :
    codeTokens (joinLines lines) = lines.flatMap codeTokens := by
  induction lines with
  | nil => rfl
  | cons line lines ih =>
    rw [joinLines, List.map_cons, String.join_cons, String.append_assoc,
      codeTokens_separated (by decide) (by decide) (by decide), List.flatMap_cons, ← ih]
    rfl

/-- The lines of the body are these instructions, at every depth. -/
def Says (code : Code) (cs : List Instruction) : Prop :=
  ∀ depth, Yields ((code.lines depth).flatMap codeTokens) cs

variable {code first second : Code} {cs cs' : List Instruction}

theorem Says.ofText? (h : code.Says cs) (depth : Nat) :
    Instruction.ofText? (joinLines (code.lines depth)) = some cs := by
  refine Yields.ofText? ?_
  rw [codeTokens_joinLines]
  exact h depth

theorem says_skip : skip.Says [] :=
  fun _ => yields_nil

theorem Says.seq (hf : first.Says cs) (hs : second.Says cs') :
    (seq first second).Says (cs ++ cs') := by
  intro depth
  rw [lines, List.flatMap_append]
  exact (hf depth).append (hs depth)

/-- A statement on a line of its own. -/
theorem yields_line {text : String} {c : Instruction}
    (h : Instruction.ofTokens? (codeTokens text) = some c)
    (hbreak : ∀ t ∈ codeTokens text, t.isBreak = false)
    (hhead : Reading.opensHeader (codeTokens text) = false) (depth : Nat) :
    Yields ([indent depth (text ++ ";")].flatMap codeTokens) [c] := by
  rw [List.flatMap_singleton, codeTokens_indent, codeTokens_append_right (by decide)]
  exact yields_statement h hbreak hhead

theorem says_declare (e : ElementType) {name value : String} {v : CodeExpr} (hname : IsWord name)
    (hvalue : CodeExpr.ofTokens? (codeTokens value) = some v) :
    (declare e name value).Says [.store (.word name) v] := by
  have he : codeTokens e.name = [.word e.name] := by cases e <;> rfl
  have htokens : codeTokens (e.name ++ " " ++ name ++ " = " ++ value) =
      .word e.name :: .word name :: .mark '=' :: codeTokens value := by
    simp only [String.append_assoc]
    rw [codeTokens_separated (by decide) (by decide) (by decide),
      codeTokens_separated (by decide) (by decide) (by decide), he, codeTokens_of_isWord hname]
    rfl
  refine yields_line ?_ ?_ ?_
  · rw [htokens]
    cases e <;> simp [Instruction.ofTokens?, ofDeclaration?, elementWords,
      ElementType.name, hvalue]
  · rw [htokens]
    simpa [CodeToken.isBreak] using CodeExpr.not_isBreak_of_ofTokens? hvalue
  · rw [htokens]
    cases e <;> rfl

theorem says_declareLocal (a : LocalArray) (hname : IsWord a.name) :
    (declareLocal a).Says [.share a.name a.size] := by
  have he : codeTokens a.element.name = [.word a.element.name] := by cases a.element <;> rfl
  have htokens :
      codeTokens ("__local " ++ a.element.name ++ " " ++ a.name ++ "[" ++ decimal a.size ++ "]") =
      [.word "__local", .word a.element.name, .word a.name, .mark '[',
        .word (decimal a.size), .mark ']'] := by
    simp only [String.append_assoc]
    rw [codeTokens_append_left (by decide), codeTokens_separated (by decide)
      (by decide) (by decide), codeTokens_separated (by decide) (by decide) (by decide),
      codeTokens_append_right (by decide), he, codeTokens_of_isWord hname,
      codeTokens_of_isWord (isWord_decimal a.size)]
    rfl
  intro depth
  have hline : a.declaration =
      "__local " ++ a.element.name ++ " " ++ a.name ++ "[" ++ decimal a.size ++ "]" ++ ";" := by
    simp only [LocalArray.declaration, String.append_assoc]
    rfl
  have hdigits : (decimal a.size).toList.all Char.isDigit = true :=
    List.all_eq_true.mpr fun c hc => isDigit_of_mem_decimal hc
  rw [lines, hline]
  refine yields_line ?_ ?_ ?_ depth
  · rw [htokens]
    cases a.element <;> simp [Instruction.ofTokens?, ofDeclaration?, elementWords,
      ElementType.name, hdigits, decimalValue_toList_decimal]
  · rw [htokens]
    simp [CodeToken.isBreak]
  · rw [htokens]
    rfl

theorem says_declareLane {name : String} (hname : IsWord name) :
    (declareLane name).Says [.count name (.call "get_local_id" (.word "0"))] := by
  have htokens : codeTokens ("unsigned int " ++ name ++ " = get_local_id(0)") =
      [.word "unsigned", .word "int", .word name, .mark '=', .word "get_local_id", .mark '(',
        .word "0", .mark ')'] := by
    simp only [String.append_assoc]
    rw [codeTokens_append_left (by decide), codeTokens_append_right (by decide),
      codeTokens_of_isWord hname]
    rfl
  intro depth
  have hline : "unsigned int " ++ name ++ " = get_local_id(0);" =
      "unsigned int " ++ name ++ " = get_local_id(0)" ++ ";" := by
    simp only [String.append_assoc]
    rfl
  rw [lines, hline]
  refine yields_line ?_ ?_ ?_ depth
  · rw [htokens]
    rfl
  · rw [htokens]
    simp [CodeToken.isBreak]
  · rw [htokens]
    rfl

theorem says_assign {target value : String} {t v : CodeExpr}
    (h : CodeExpr.ofTokens? (codeTokens target ++ .mark '=' :: codeTokens value) =
      some (.binary .assign t v))
    (hhead : Reading.opensHeader (codeTokens target ++ .mark '=' :: codeTokens value) = false) :
    (assign target value).Says [.store t v] := by
  have htokens : codeTokens (target ++ " = " ++ value) =
      codeTokens target ++ .mark '=' :: codeTokens value := by
    rw [String.append_assoc, codeTokens_separated (by decide) (by decide) (by decide)]
    rfl
  refine yields_line ?_ ?_ ?_
  · rw [htokens]
    exact ofTokens?_assign h
  · rw [htokens]
    exact CodeExpr.not_isBreak_of_ofTokens? h
  · rwa [htokens]

/-- A header line, and a body in braces. -/
theorem yields_lines_block {header : String} {h : Header} (hheads : Heads (codeTokens header) h)
    {body : List String} (hbody : Yields (body.flatMap codeTokens) cs) (depth : Nat) :
    Yields ((block depth header body).flatMap codeTokens) (h.apply cs) := by
  have htokens : (block depth header body).flatMap codeTokens =
      codeTokens header ++ (.mark '\x7b' :: (body.flatMap codeTokens ++ [.mark '\x7d'])) := by
    simp only [block, List.flatMap_append, List.flatMap_cons, List.flatMap_nil, List.append_nil,
      codeTokens_indent, List.append_assoc]
    rfl
  rw [htokens]
  exact hheads.block hbody

/-- A loop over the grid whose index stays below a size. -/
theorem says_gridLoop {index size : String} (axis : Nat) {body : Code} (hindex : IsWord index)
    (hsize : IsWord size) (hbody : body.Says cs) :
    (gridLoop axis index (index ++ " < " ++ size) body).Says
      [.count index (.call "get_global_id" (.word (decimal axis))),
        .loop (.binary .less (.word index) (.word size))
          (cs ++ [.count index (.binary .add (.word index)
            (.call "get_global_size" (.word (decimal axis))))])] := by
  have hheads : Heads (codeTokens (gridHeader axis index (index ++ " < " ++ size)))
      (.loop (.count index (.call "get_global_id" (.word (decimal axis))))
        (.binary .less (.word index) (.word size))
        (.count index (.binary .add (.word index)
          (.call "get_global_size" (.word (decimal axis)))))) := by
    have haxis := isWord_decimal axis
    unfold gridHeader
    generalize decimal axis = number at haxis ⊢
    have htokens :
        codeTokens ("for (unsigned int " ++ index ++ " = get_global_id(" ++ number ++ "); " ++
          (index ++ " < " ++ size) ++ "; " ++ index ++ " += get_global_size(" ++ number ++ "))") =
        forTokens [.word "unsigned", .word "int", .word index, .mark '=',
          .word "get_global_id", .mark '(',
            .word number, .mark ')']
          [.word index, .mark '<', .word size]
          [.word index, .mark '+', .mark '=', .word "get_global_size", .mark '(',
            .word number, .mark ')'] := by
      simp only [String.append_assoc]
      rw [codeTokens_append_left (by decide), codeTokens_separated (by decide) (by decide)
        (by decide), codeTokens_separated (by decide) (by decide) (by decide),
        codeTokens_separated (by decide) (by decide) (by decide),
        codeTokens_separated (by decide) (by decide) (by decide), codeTokens_separated (by decide)
        (by decide) (by decide), codeTokens_append_right (by decide), codeTokens_of_isWord hindex,
        codeTokens_of_isWord hsize, codeTokens_of_isWord haxis]
      rfl
    rw [htokens]
    exact heads_for (by simp) rfl rfl rfl rfl rfl
  exact fun depth => yields_lines_block hheads (hbody (depth + 1)) depth

/-- A body for one lane only. -/
theorem says_guard {lane : String} {body : Code} (hlane : IsWord lane) (hbody : body.Says cs) :
    (guard (lane ++ " == 0") body).Says
      [.guard (.binary .equal (.word lane) (.word "0")) cs] := by
  have htokens : codeTokens ("if (" ++ (lane ++ " == 0") ++ ")") =
      ifTokens [.word lane, .mark '=', .mark '=', .word "0"] := by
    simp only [String.append_assoc]
    rw [codeTokens_append_left (by decide), codeTokens_append_right (by decide),
      codeTokens_of_isWord hlane]
    rfl
  have hheads : Heads (codeTokens ("if (" ++ (lane ++ " == 0") ++ ")"))
      (.guard (.binary .equal (.word lane) (.word "0"))) := by
    rw [htokens]
    exact heads_if rfl rfl
  exact fun depth => yields_lines_block hheads (hbody (depth + 1)) depth

/-- One round of adding up an array: once all items have come here, those of the lower half add
the element of their partner. -/
def foldRound : List Instruction :=
  [.barrier,
    .guard (.binary .less (.word laneName) (.word "stride")) [
      .store (.element bufferName (.word laneName))
        (.binary .add (.element bufferName (.word laneName))
          (.element bufferName (.binary .add (.word laneName) (.word "stride"))))]]

/-- The lines of a round, inside the loop over the strides. -/
def foldLines : List String :=
  ["    barrier(CLK_LOCAL_MEM_FENCE);", "    if (lid < stride)",
    "        buf[lid] = buf[lid] + buf[lid+stride];"]

theorem yields_foldLines : Yields (foldLines.flatMap codeTokens) foldRound := by
  let barrier : List CodeToken :=
    [.word "barrier", .mark '(', .word "CLK_LOCAL_MEM_FENCE", .mark ')']
  let condition : List CodeToken := [.word laneName, .mark '<', .word "stride"]
  let store : List CodeToken :=
    [.word bufferName, .mark '[', .word laneName, .mark ']', .mark '=', .word bufferName,
      .mark '[', .word laneName,
      .mark ']', .mark '+', .word bufferName, .mark '[', .word laneName, .mark '+',
      .word "stride", .mark ']']
  have htokens : foldLines.flatMap codeTokens =
      barrier ++ [.mark ';'] ++ (ifTokens condition ++ (store ++ [.mark ';'])) := by
    decide +kernel
  have hbarrier : Yields (barrier ++ [.mark ';']) [.barrier] :=
    yields_statement rfl (by decide +kernel) rfl
  have hguard :
      Heads (ifTokens condition) (.guard (.binary .less (.word laneName) (.word "stride"))) :=
    heads_if rfl rfl
  rw [htokens]
  exact hbarrier.append (hguard.statement rfl (by decide +kernel) rfl)

/-- The rounds in which a work group adds up the elements of its array. -/
theorem says_combine (size : Nat) (e : ElementType) :
    (combine ⟨bufferName, size, e⟩ .add laneName).Says
      [.count "stride" (.binary .div (.word (decimal size)) (.word "2")),
        .loop (.binary .greater (.word "stride") (.word "0"))
          (foldRound ++ [.count "stride" (.binary .div (.word "stride") (.word "2"))])] := by
  have hsize := isWord_decimal size
  have hlines : (LocalArray.mk bufferName size e).reduction .add laneName =
      ("for (unsigned int stride = " ++ decimal size ++ "/2; stride > 0; stride /= 2) \x7b") ::
        (foldLines ++ ["\x7d"]) := rfl
  unfold Says lines
  rw [hlines]
  generalize decimal size = number at hsize ⊢
  let first : List CodeToken :=
    [.word "unsigned", .word "int", .word "stride", .mark '=', .word number, .mark '/', .word "2"]
  let middle : List CodeToken := [.word "stride", .mark '>', .word "0"]
  let last : List CodeToken := [.word "stride", .mark '/', .mark '=', .word "2"]
  have hheads : Heads (forTokens first middle last)
      (.loop (.count "stride" (.binary .div (.word number) (.word "2")))
        (.binary .greater (.word "stride") (.word "0"))
        (.count "stride" (.binary .div (.word "stride") (.word "2")))) :=
    heads_for (by simp [first]) rfl rfl rfl rfl rfl
  have hheader : codeTokens ("for (unsigned int stride = " ++ number ++
      "/2; stride > 0; stride /= 2) \x7b") = forTokens first middle last ++ [.mark '\x7b'] := by
    rw [String.append_assoc, codeTokens_append_left (by decide),
      codeTokens_append_right (by decide), codeTokens_of_isWord hsize]
    rfl
  intro depth
  have hindent : ∀ xs : List String, (xs.map (indent depth)).flatMap codeTokens =
      xs.flatMap codeTokens := by
    intro xs
    rw [List.flatMap_map]
    exact congrArg (List.flatMap · xs) (funext (codeTokens_indent depth))
  rw [hindent, List.flatMap_cons, hheader, List.append_assoc, List.flatMap_append]
  exact hheads.block yields_foldLines

end Code

end LinearKernels
