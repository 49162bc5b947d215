import LinearKernels.Proofs.AccessTexts
import LinearKernels.Proofs.Emission
import LinearKernels.Proofs.KernelText

/-!
Parameter names in the texts of a kernel. Every argument has a parameter of its own and
perhaps some for its sizes. The text by which an argument is reached names its own parameter
and no parameter of another one; the code of a term does so for all arguments outside its
matrix products, and the declaration of an argument names exactly its parameters.
-/

namespace LinearKernels

/-! ### Parameters of an argument -/

/-- The parameters of an argument with this storage: its own, then its sizes. -/
def Storage.parameterNames (s : Storage) (name : String) : List String :=
  match s with
  | hostScalar | deviceScalar => [name]
  | vector _ => [name, vectorSize name]
  | matrix _ => name :: matrixParameters name

theorem Storage.self_mem_parameterNames (s : Storage) (name : String) :
    name ∈ s.parameterNames name := by
  cases s <;> simp [parameterNames]

theorem Record.isParameter_name (r : Record) : IsParameter r.name := by
  have hword : IsWord "arg" := ⟨by decide, by decide⟩
  refine ⟨hword.append (allWord_decimal r.id), ?_⟩
  rw [Record.name, String.toList_append]
  exact List.isPrefixOf_iff_prefix.mpr (List.prefix_append ..)

theorem IsParameter.vectorSize {name : String} (h : IsParameter name) :
    parameterWords (vectorSize name) = [LinearKernels.vectorSize name] :=
  (h.append (by decide)).words

/-- Every size parameter of a matrix is a word. -/
theorem IsParameter.matrixParameters {name : String} (h : IsParameter name) :
    parameterWords (rowStart name) = [rowStart name] ∧
    parameterWords (colStart name) = [colStart name] ∧
      parameterWords (rowInc name) = [rowInc name] ∧ parameterWords (colInc name) =
        [colInc name] ∧ parameterWords (internalSize1 name) = [internalSize1 name] ∧
      parameterWords (internalSize2 name) = [internalSize2 name] := by
  refine ⟨?_, ?_, ?_, ?_, ?_, ?_⟩ <;> exact (h.append (by decide)).words

/-! ### Addresses -/

theorem View.parameterWords_index (v : View) (i : String) :
    parameterWords (v.index i) = parameterWords i := by
  unfold index
  split
  · rfl
  · rw [parameterWords_between (by decide +kernel), parameterWords_decimal, List.append_nil]
  · rw [parameterWords_between (by decide +kernel), parameterWords_decimal, List.append_nil]
  · rw [parameterWords_between (by decide +kernel), parameterWords_between (by decide +kernel),
      parameterWords_decimal, parameterWords_decimal, List.append_nil, List.append_nil]

/-- An element of a buffer. -/
theorem parameterWords_element (buffer index : String) :
    parameterWords (buffer ++ "[" ++ index ++ "]") =
      parameterWords buffer ++ parameterWords index := by
  rw [parameterWords_trail (by decide +kernel), parameterWords_between (by decide +kernel)]

/-- A position in one dimension of a buffer. -/
theorem parameterWords_position (i inc start : String) :
    parameterWords ("(" ++ i ++ ")*" ++ inc ++ "+" ++ start) =
      parameterWords i ++ parameterWords inc ++ parameterWords start := by
  rw [parameterWords_between (by decide +kernel), parameterWords_between (by decide +kernel),
    parameterWords_lead (by decide +kernel)]

/-- The condition that a position lies in a buffer. -/
theorem parameterWords_bound (i inc start size : String) :
    parameterWords (i ++ "*" ++ inc ++ "+" ++ start ++ " < " ++ size) =
      parameterWords i ++ parameterWords inc ++ parameterWords start ++ parameterWords size := by
  rw [parameterWords_between (by decide +kernel), parameterWords_between (by decide +kernel),
    parameterWords_between (by decide +kernel)]

namespace Layout

variable {name : String} (l : Layout) (h : IsParameter name) {w : String}

include h

theorem parameterWords_rowPosition (i : String) :
    parameterWords (rowPosition name i) = parameterWords i ++ [rowInc name, rowStart name] := by
  simp [rowPosition, parameterWords_position, h.matrixParameters]

theorem parameterWords_colPosition (j : String) :
    parameterWords (colPosition name j) = parameterWords j ++ [colInc name, colStart name] := by
  simp [colPosition, parameterWords_position, h.matrixParameters]

theorem parameterWords_offset (i j : String) : parameterWords (l.offset name i j) =
    parameterWords (rowPosition name (if l.transposed then j else i)) ++
      if l.rowMajor then
        internalSize2 name :: parameterWords (colPosition name (if l.transposed then i else j))
      else parameterWords (colPosition name (if l.transposed then i else j)) ++
        [internalSize1 name] := by
  unfold offset
  dsimp only
  split
  · simp only [String.append_assoc]
    simp (disch := decide +kernel) only [parameterWords_lead, parameterWords_separated,
      parameterWords_trail, h.matrixParameters, List.singleton_append]
  · simp only [String.append_assoc]
    simp (disch := decide +kernel) only [parameterWords_lead, parameterWords_separated,
      h.matrixParameters]

theorem mem_offset {i j : String} (hi : parameterWords i = []) (hj : parameterWords j = [])
    (hw : w ∈ parameterWords (l.offset name i j)) : w ∈ matrixParameters name := by
  have hrow : parameterWords (if l.transposed then j else i) = [] := by split <;> assumption
  have hcol : parameterWords (if l.transposed then i else j) = [] := by split <;> assumption
  rw [l.parameterWords_offset h, parameterWords_rowPosition h,
    parameterWords_colPosition h, hrow, hcol] at hw
  simp only [matrixParameters]
  grind

theorem parameterWords_rowBound (i : String) : parameterWords (rowBound name i) =
    parameterWords i ++ [rowInc name, rowStart name, internalSize1 name] := by
  simp [rowBound, parameterWords_bound, h.matrixParameters]

theorem parameterWords_colBound (j : String) : parameterWords (colBound name j) =
    parameterWords j ++ [colInc name, colStart name, internalSize2 name] := by
  simp [colBound, parameterWords_bound, h.matrixParameters]

theorem mem_rowsBound {i : String} (hi : parameterWords i = [])
    (hw : w ∈ parameterWords (l.rowsBound name i)) :
    w ∈ matrixParameters name := by
  unfold rowsBound at hw
  split at hw
  · rw [parameterWords_colBound h, hi] at hw
    simp only [matrixParameters]
    grind
  · rw [parameterWords_rowBound h, hi] at hw
    simp only [matrixParameters]
    grind

theorem mem_colsBound {j : String} (hj : parameterWords j = [])
    (hw : w ∈ parameterWords (l.colsBound name j)) :
    w ∈ matrixParameters name := by
  have hswap : l.colsBound name j = rowsBound ⟨l.rowMajor, !l.transposed⟩ name j := by
    cases hl : l.transposed <;> simp [rowsBound, colsBound, hl]
  rw [hswap] at hw
  exact mem_rowsBound _ h hj hw

end Layout

/-! ### Arguments -/

/-- The word is one of the argument's parameters. -/
def Argument.Owns (reg : Registry) (a : Argument) (w : String) : Prop :=
  ∃ r, a.info reg = .ok r ∧ w ∈ a.storage.parameterNames r.name

/-- The words are parameters of the arguments, and each argument's own parameter is one of
them. -/
structure Names (reg : Registry) (args : List Argument) (words : List String) : Prop where
  owned : ∀ w ∈ words, ∃ a ∈ args, a.Owns reg w
  used : ∀ a ∈ args, ∃ r, a.info reg = .ok r ∧ r.name ∈ words

namespace Names

variable {reg : Registry} {args args' : List Argument} {words words' : List String}

theorem nil (reg : Registry) : Names reg [] [] where
  owned w hw := by cases hw
  used a ha := by cases ha

theorem append (h : Names reg args words) (h' : Names reg args' words') :
    Names reg (args ++ args') (words ++ words') where
  owned w hw := by
    rcases List.mem_append.mp hw with hw | hw
    · obtain ⟨a, ha, howns⟩ := h.owned w hw
      exact ⟨a, List.mem_append_left _ ha, howns⟩
    · obtain ⟨a, ha, howns⟩ := h'.owned w hw
      exact ⟨a, List.mem_append_right _ ha, howns⟩
  used a ha := by
    rcases List.mem_append.mp ha with ha | ha
    · obtain ⟨r, hr, hname⟩ := h.used a ha
      exact ⟨r, hr, List.mem_append_left _ hname⟩
    · obtain ⟨r, hr, hname⟩ := h'.used a ha
      exact ⟨r, hr, List.mem_append_right _ hname⟩

/-- Only the members matter. -/
theorem congr (h : Names reg args words) (hargs : ∀ a, a ∈ args' ↔ a ∈ args)
    (hwords : ∀ w, w ∈ words' ↔ w ∈ words) : Names reg args' words' where
  owned w hw := by
    obtain ⟨a, ha, howns⟩ := h.owned w ((hwords w).mp hw)
    exact ⟨a, (hargs a).mpr ha, howns⟩
  used a ha := by
    obtain ⟨r, hr, hname⟩ := h.used a ((hargs a).mp ha)
    exact ⟨r, hr, (hwords _).mpr hname⟩

/-- Further words that are parameters of an argument there. -/
theorem more (h : Names reg args words) {a : Argument} (ha : a ∈ args)
    (howns : ∀ w ∈ words', a.Owns reg w) : Names reg args (words' ++ words) where
  owned w hw := by
    rcases List.mem_append.mp hw with hw | hw
    · exact ⟨a, ha, howns w hw⟩
    · exact h.owned w hw
  used b hb := by
    obtain ⟨r, hr, hname⟩ := h.used b hb
    exact ⟨r, hr, List.mem_append_right _ hname⟩

theorem singleton {a : Argument} {r : Record} (hr : a.info reg = .ok r) (hname : r.name ∈ words)
    (hwords : ∀ w ∈ words, w ∈ a.storage.parameterNames r.name) : Names reg [a] words where
  owned w hw := ⟨a, List.mem_singleton_self a, r, hr, hwords w hw⟩
  used b hb := by
    obtain rfl := List.mem_singleton.mp hb
    exact ⟨r, hr, hname⟩

end Names

theorem parameterWords_rowIndex : parameterWords rowIndex = [] := by decide +kernel

theorem parameterWords_colIndex : parameterWords colIndex = [] := by decide +kernel

theorem parameterWords_innerIndex : parameterWords innerIndex = [] := by decide +kernel

namespace Argument

variable {a : Argument} {reg : Registry} {text : String}

theorem matrixElement_names {i j : String} (hi : parameterWords i = [])
    (hj : parameterWords j = []) (h : a.matrixElement reg i j = .ok text) :
    Names reg [a] (parameterWords text) := by
  obtain ⟨name, hname, h⟩ := Outcome.bind_eq_ok_iff.mp h
  obtain ⟨r, hr, hname⟩ := Outcome.bind_eq_ok_iff.mp hname
  obtain rfl := Except.ok.inj hname
  cases hs : a.storage with
  | matrix l =>
    rw [hs] at h
    obtain rfl := Except.ok.inj h
    rw [parameterWords_element, r.isParameter_name.words, List.singleton_append]
    refine Names.singleton hr (List.mem_cons_self ..) fun w hw => ?_
    rw [hs, Storage.parameterNames]
    rcases List.mem_cons.mp hw with rfl | hw
    · exact List.mem_cons_self ..
    · exact List.mem_cons_of_mem _ (l.mem_offset r.isParameter_name hi hj hw)
  | hostScalar | deviceScalar | vector => simp [hs] at h

theorem vectorElement_names {i : String} (hi : parameterWords i = [])
    (h : a.vectorElement reg i = .ok text) : Names reg [a] (parameterWords text) := by
  obtain ⟨name, hname, h⟩ := Outcome.bind_eq_ok_iff.mp h
  obtain ⟨r, hr, hname⟩ := Outcome.bind_eq_ok_iff.mp hname
  obtain rfl := Except.ok.inj hname
  cases hs : a.storage with
  | vector v =>
    rw [hs] at h
    obtain rfl := Except.ok.inj h
    rw [parameterWords_element, r.isParameter_name.words, v.parameterWords_index, hi,
      List.append_nil]
    refine Names.singleton hr (List.mem_singleton_self _) fun w hw => ?_
    rw [List.mem_singleton.mp hw]
    exact Storage.self_mem_parameterNames ..
  | hostScalar | deviceScalar | matrix => simp [hs] at h

/-- The usual text of an argument. -/
theorem access_names {r : Record} (hr : a.info reg = .ok r) :
    Names reg [a] (parameterWords (a.storage.access r.name)) := by
  have hname : a.name reg = .ok r.name := by
    rw [name, hr]
    rfl
  cases hs : a.storage with
  | hostScalar =>
    rw [Storage.access, r.isParameter_name.words]
    exact Names.singleton hr (List.mem_singleton_self _) fun w hw => by
      simpa [hs, Storage.parameterNames] using hw
  | deviceScalar =>
    rw [Storage.access, parameterWords_trail (by decide +kernel), r.isParameter_name.words]
    exact Names.singleton hr (List.mem_singleton_self _) fun w hw => by
      simpa [hs, Storage.parameterNames] using hw
  | vector v =>
    refine vectorElement_names parameterWords_rowIndex ?_
    rw [vectorElement, hname, Outcome.ok_bind, hs]
    rfl
  | matrix l =>
    refine matrixElement_names parameterWords_rowIndex parameterWords_colIndex ?_
    rw [matrixElement, hname, Outcome.ok_bind, hs]
    rfl

theorem BoundIn.accessName_names {pass : Nat} (h : a.BoundIn reg) (hu : reg.Usual)
    (hnamed : a.NamedIn reg pass) (htext : a.accessName reg pass = .ok text) :
    Names reg [a] (parameterWords text) := by
  obtain ⟨r, hr, haccess⟩ := h.accessName_eq hu hnamed
  obtain rfl := Except.ok.inj (haccess.symm.trans htext)
  exact access_names hr

theorem parameterWords_elementText (r : Record) : parameterWords r.elementText = [] := by
  rw [Record.elementText]
  cases r.alignment <;> cases r.element <;> decide +kernel

/-- A declaration names the parameters of the argument, in order. -/
theorem declaration_words {r : Record} (hr : a.info reg = .ok r)
    (h : a.declaration reg = .ok text) :
    parameterWords text = a.storage.parameterNames r.name := by
  rw [declaration, hr] at h
  obtain rfl := Except.ok.inj h
  have hname := r.isParameter_name
  cases a.storage with
  | hostScalar =>
    rw [parameterWords_between (by decide +kernel), parameterWords_elementName, hname.words,
      List.nil_append, Storage.parameterNames]
  | deviceScalar =>
    simp only [String.append_assoc]
    rw [parameterWords_lead (by decide +kernel), parameterWords_separated (by decide +kernel),
      parameterWords_elementName, hname.words, List.nil_append, Storage.parameterNames]
  | vector v =>
    simp only [String.append_assoc]
    simp (disch := decide +kernel) only [parameterWords_lead, parameterWords_separated,
      parameterWords_elementText, hname.words, hname.vectorSize, List.nil_append,
      List.singleton_append, Storage.parameterNames]
  | matrix l =>
    simp only [String.append_assoc, matrixParameters, List.map_cons, List.map_nil,
      String.join_cons, String.join_nil, String.append_empty]
    simp (disch := decide +kernel) only [parameterWords_lead, parameterWords_separated,
      parameterWords_elementText, hname.words, hname.matrixParameters, List.nil_append,
      List.singleton_append, Storage.parameterNames, matrixParameters]

end Argument

/-! ### Keys -/

theorem allWord_elementText (r : Record) : AllWord r.elementText := by
  rw [Record.elementText]
  cases r.alignment <;> cases r.element <;> decide

theorem allWord_keyText (s : Storage) (r : Record) : AllWord (s.keyText r) := by
  have helement : AllWord r.element.name := by cases r.element <;> decide
  have htext := allWord_elementText r
  have hid := allWord_decimal r.id
  cases s with
  | hostScalar | deviceScalar =>
    simp only [Storage.keyText, allWord_append]
    exact ⟨⟨⟨by decide, helement⟩, by decide⟩, hid⟩
  | vector v =>
    simp only [Storage.keyText, allWord_append]
    refine ⟨⟨⟨⟨by decide, htext⟩, by decide⟩, hid⟩, ?_⟩
    rw [View.keyText]
    split
    · decide
    · simp only [allWord_append]
      exact ⟨⟨⟨by decide, allWord_decimal _⟩, by decide⟩, allWord_decimal _⟩
  | matrix l =>
    simp only [Storage.keyText, allWord_append]
    refine ⟨⟨⟨⟨⟨⟨by decide, ?_⟩, ?_⟩, by decide⟩, htext⟩, by decide⟩, hid⟩
    · split <;> decide
    · split <;> decide

namespace Term

theorem allWord_joinKeys {op : BinaryOp} {lhs rhs : String} (hl : AllWord lhs)
    (hr : AllWord rhs) :
    AllWord (joinKeys op lhs rhs) := by
  have hop : AllWord op.name := by cases op <;> decide
  simp only [joinKeys, allWord_append]
  exact ⟨⟨⟨⟨by decide, hl⟩, hop⟩, hr⟩, by decide⟩

theorem allWord_key {t : Term} {reg : Registry} {key : String}
    (h : t.key reg = .ok key) : AllWord key := by
  have pair : ∀ {t l r : Term} {op : BinaryOp} {key : String}, t.operands? = some (op, l, r) →
      (∀ {k}, l.key reg = .ok k → AllWord k) → (∀ {k}, r.key reg = .ok k → AllWord k) →
      t.key reg = .ok key → AllWord key := by
    intro t l r op key ht hl hr h
    obtain ⟨kl, kr, hkl, hkr, rfl⟩ := (key_operands_iff ht).mp h
    exact allWord_joinKeys (hl hkl) (hr hkr)
  induction t generalizing key with
  | leaf arg =>
    obtain ⟨r, -, rfl⟩ := Argument.key_eq_ok_iff.mp h
    exact allWord_keyText arg.storage r
  | unary op sub ih =>
    obtain ⟨ks, hks, rfl⟩ := key_unary_iff.mp h
    have hop : AllWord op.name := by cases op <;> decide
    simp only [allWord_append]
    exact ⟨⟨⟨by decide, hop⟩, ih hks⟩, by decide⟩
  | binary op l r ihl ihr => exact pair rfl ihl ihr h
  | matMat l r ihl ihr => exact pair rfl ihl ihr h
  | matVec l r ihl ihr => exact pair rfl ihl ihr h
  | inner l r computed temporary ihl ihr => exact pair rfl ihl ihr h

/-- The register of a product is no parameter. -/
theorem parameterWords_accumulator {lhs rhs : String} (hl : AllWord lhs)
    (hr : AllWord rhs) (m n : Nat) :
    parameterWords (accumulator (joinKeys .prod lhs rhs) m n) = [] := by
  have hkey : AllWord (joinKeys .prod lhs rhs) := allWord_joinKeys hl hr
  have hhead : (accumulator (joinKeys .prod lhs rhs) m n).toList.head? = some 'p' := by
    simp [accumulator, joinKeys]
  refine parameterWords_of_head ⟨?_, ?_⟩ hhead (by decide)
  · intro hnil
    rw [hnil] at hhead
    cases hhead
  · simp only [accumulator, allWord_append]
    exact ⟨⟨⟨⟨hkey, by decide⟩, allWord_decimal m⟩, by decide⟩, allWord_decimal n⟩

/-! ### Codes -/

/-- The arguments that the code of a term reaches: those outside its matrix products. -/
def reached : Term → List Argument
  | leaf arg => [arg]
  | unary _ sub => sub.reached
  | binary _ lhs rhs => lhs.reached ++ rhs.reached
  | matMat _ _ | matVec _ _ => []
  | inner _ _ (some _) (some cell) => [cell]
  | inner lhs rhs _ _ => lhs.reached ++ rhs.reached

variable {reg : Registry} {pass : Nat} {t : Term} {text : String}

theorem joinCode_names {args args' : List Argument} {l r : String} (op : BinaryOp)
    (hl : Names reg args (parameterWords l)) (hr : Names reg args' (parameterWords r)) :
    Names reg (args ++ args') (parameterWords (joinCode op l r)) := by
  rw [joinCode, String.append_assoc, parameterWords_lead (by decide +kernel),
    parameterWords_trail (by decide +kernel), parameterWords_binary]
  exact hl.append hr

/-- The code of a term names the arguments outside its matrix products. -/
theorem code_names (hu : reg.Usual) (hc : t.Computed) (hb : ∀ a ∈ t.reached, a.BoundIn reg)
    (hn : t.NamedIn reg pass) (h : t.code reg pass = .ok text) :
    Names reg t.reached (parameterWords text) := by
  have product : ∀ {l r : Term} {text : String}, (do
      return accumulator (joinKeys .prod (← l.key reg) (← r.key reg)) 0 0) = Except.ok (ε :=
        Fault) text →
      Names reg [] (parameterWords text) := by
    intro l r text h
    obtain ⟨kl, hkl, h⟩ := Outcome.bind_eq_ok_iff.mp h
    obtain ⟨kr, hkr, h⟩ := Outcome.bind_eq_ok_iff.mp h
    obtain rfl := Except.ok.inj h
    rw [parameterWords_accumulator (allWord_key hkl) (allWord_key hkr)]
    exact Names.nil reg
  induction t generalizing text with
  | leaf arg => exact (hb arg (List.mem_singleton_self arg)).accessName_names hu hn h
  | unary op sub ih =>
    obtain ⟨s, hs, h⟩ := Outcome.bind_eq_ok_iff.mp h
    obtain rfl := Except.ok.inj h
    rw [String.append_assoc, parameterWords_lead (by decide +kernel),
      parameterWords_trail (by decide +kernel), parameterWords_unary]
    exact ih hc hb hn hs
  | binary op lhs rhs ihl ihr =>
    obtain ⟨l, hl, h⟩ := Outcome.bind_eq_ok_iff.mp h
    obtain ⟨r, hr, h⟩ := Outcome.bind_eq_ok_iff.mp h
    obtain rfl := Except.ok.inj h
    obtain ⟨hcl, hcr⟩ := List.forall_mem_append.mp hc
    obtain ⟨hbl, hbr⟩ := List.forall_mem_append.mp hb
    exact joinCode_names op (ihl hcl hbl hn.1 hl) (ihr hcr hbr hn.2 hr)
  | matMat lhs rhs => exact product h
  | matVec lhs rhs => exact product h
  | inner lhs rhs computed temporary ihl ihr =>
    obtain ⟨l, r, p, cell, heq⟩ := hc _ (self_mem_innerProducts lhs rhs computed temporary)
    obtain ⟨-, -, rfl, rfl⟩ := inner.inj heq
    exact (hb cell (List.mem_singleton_self cell)).accessName_names hu (hn.2.2 cell rfl) h

theorem arguments_pair {lhs rhs : Term} (ht : t.walk = lhs.walk ++ rhs.walk ++ [t])
    (hnone : t.argument? = none) :
    t.arguments = lhs.arguments ++ rhs.arguments := by
  simp [arguments, ht, hnone]

/-- The arguments of a term are those that its code reaches and those of its matrix
products. -/
theorem mem_arguments_iff (hc : t.Computed) (houtside : t.ProductsOutside) {a : Argument} :
    a ∈ t.arguments ↔ a ∈ t.reached ∨ ∃ p ∈ t.matrixProducts, a ∈ p.arguments := by
  -- A product is itself the one that holds its arguments.
  have product : ∀ {t l r : Term}, t.arguments = l.arguments ++ r.arguments → t.reached = [] →
      t.matrixProducts = l.matrixProducts ++ r.matrixProducts ++ [t] →
      (∀ p ∈ l.matrixProducts, a ∈ p.arguments → a ∈ l.arguments) →
      (∀ p ∈ r.matrixProducts, a ∈ p.arguments → a ∈ r.arguments) →
      (a ∈ t.arguments ↔ a ∈ t.reached ∨ ∃ p ∈ t.matrixProducts, a ∈ p.arguments) := by
    intro t l r hargs hreached hproducts hl hr
    rw [hreached, hproducts]
    simp only [List.not_mem_nil, false_or, List.mem_append, List.mem_singleton]
    constructor
    · intro ha
      exact ⟨t, .inr rfl, ha⟩
    · rintro ⟨p, (hp | hp) | rfl, ha⟩
      · rw [hargs]
        exact List.mem_append_left _ (hl p hp ha)
      · rw [hargs]
        exact List.mem_append_right _ (hr p hp ha)
      · exact ha
  induction t with
  | leaf arg => simp [arguments, walk, reached, matrixProducts, argument?]
  | unary op sub ih =>
    simpa [arguments, walk, reached, matrixProducts, argument?] using ih hc houtside
  | binary op lhs rhs ihl ihr =>
    obtain ⟨hcl, hcr⟩ := List.forall_mem_append.mp hc
    obtain ⟨hol, hor⟩ := List.forall_mem_append.mp houtside
    have hargs : (binary op lhs rhs).arguments = lhs.arguments ++ rhs.arguments :=
      arguments_pair rfl rfl
    have hl := ihl hcl hol
    have hr := ihr hcr hor
    simp only [hargs, reached, matrixProducts, List.mem_append, or_and_right, exists_or]
    grind
  | matMat lhs rhs ihl ihr | matVec lhs rhs ihl ihr =>
    obtain ⟨hcl, hcr⟩ := List.forall_mem_append.mp hc
    obtain ⟨hol, hor⟩ := List.forall_mem_append.mp houtside
    exact product (arguments_pair rfl rfl) rfl rfl (fun p hp ha => (ihl hcl hol).mpr
      (.inr ⟨p, hp, ha⟩)) fun p hp ha => (ihr hcr hor).mpr (.inr ⟨p, hp, ha⟩)
  | inner lhs rhs computed temporary ihl ihr =>
    obtain ⟨l, r, p, cell, heq⟩ := hc _ (self_mem_innerProducts lhs rhs computed temporary)
    obtain ⟨-, -, rfl, rfl⟩ := inner.inj heq
    have hnone := houtside _ (self_mem_innerProducts lhs rhs (some p) (some cell))
    rw [hnone]
    simp [arguments, walk, reached, argument?]

theorem productsOutside_of_nil (h : t.matrixProducts = []) : t.ProductsOutside := by
  induction t with
  | leaf arg =>
    intro m hm
    cases hm
  | unary op sub ih => exact ih h
  | binary op lhs rhs ihl ihr =>
    obtain ⟨hl, hr⟩ := List.append_eq_nil_iff.mp h
    intro m hm
    rcases List.mem_append.mp hm with hm | hm
    · exact ihl hl m hm
    · exact ihr hr m hm
  | matMat lhs rhs | matVec lhs rhs => simp [matrixProducts] at h
  | inner lhs rhs computed temporary ihl ihr =>
    obtain ⟨hl, hr⟩ := List.append_eq_nil_iff.mp h
    intro m hm
    simp only [innerProducts, List.mem_append, List.mem_singleton] at hm
    rcases hm with (hm | hm) | rfl
    · exact ihl hl m hm
    · exact ihr hr m hm
    · exact h

/-- Without matrix products, all arguments are reached. -/
theorem mem_arguments_iff_reached (hc : t.Computed)
    (hnone : t.matrixProducts = []) {a : Argument} :
    a ∈ t.arguments ↔ a ∈ t.reached := by
  rw [mem_arguments_iff hc (productsOutside_of_nil hnone), hnone]
  simp

end Term

end LinearKernels
