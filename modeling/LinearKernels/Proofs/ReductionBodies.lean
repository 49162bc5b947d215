import LinearKernels.Proofs.TreeReduction
import LinearKernels.Proofs.PhraseValues

/-!
Bodies of reductions. Their text is read as a fixed sequence of instructions: a loop in which
each item adds up its own terms, a loop of rounds in which the group adds up its shared array,
and the delivery by the first item. Carried out by a group whose size is a power of two, the
instructions are a sum by a work group, as long as the counters do not overflow. If they do, the
first item never ends.
-/

namespace LinearKernels

open CodeExpr

/-! ### The instructions -/

namespace Instruction

/-- The item's own terms are added up. -/
def addLoop (length : String) (term : CodeExpr) : Instruction :=
  .loop (.binary .less (.word rowIndex) (.word length))
    [.store (.word totalName) (.binary .add (.word totalName) term),
      .count rowIndex (.binary .add (.word rowIndex) (.call "get_global_size" (.word "0")))]

def foldLoop : Instruction :=
  .loop (.binary .greater (.word "stride") (.word "0"))
    (Code.foldRound ++ [.count "stride" (.binary .div (.word "stride") (.word "2"))])

def delivery (result : String) : Instruction :=
  .guard (.binary .equal (.word laneName) (.word "0"))
    [.store (.element result (.word "0")) (.element bufferName (.word "0"))]

/-- The item's sum goes to the shared array, and the group adds up the array. -/
def combination (size : Nat) (result : String) : List Instruction :=
  [.store (.element bufferName (.word laneName)) (.word totalName),
    .count "stride" (.binary .div (.word (decimal size)) (.word "2")), foldLoop, delivery result]

def reduction (size : Nat) (length : String) (term : CodeExpr) (result : String) :
    List Instruction :=
  [.share bufferName size, .count laneName (.call "get_local_id" (.word "0")),
    .store (.word totalName) (.word "0"),
    .count rowIndex (.call "get_global_id" (.word "0")),
    addLoop length term] ++ combination size result

theorem arrays_reduction (size : Nat) (length : String) (term : CodeExpr) (result name : String) :
    arrays (reduction size length term result) name = if name =
      bufferName then some size else none := by
  by_cases h : name = bufferName
  · simp [arrays, reduction, h]
  · simp [arrays, reduction, combination, addLoop, foldLoop, delivery, h, Ne.symm h]

end Instruction

/-! ### The text -/

theorem isName_laneName : IsName laneName :=
  ⟨⟨by decide, by decide⟩, by decide⟩

theorem isName_totalName : IsName totalName :=
  ⟨⟨by decide, by decide⟩, by decide⟩

theorem isName_bufferName : IsName bufferName :=
  ⟨⟨by decide, by decide⟩, by decide⟩

theorem isName_stride : IsName "stride" :=
  ⟨⟨by decide, by decide⟩, by decide⟩

theorem codeTokens_element {name index : String} (hname : IsWord name) (hindex : IsWord index) :
    codeTokens (name ++ "[" ++ index ++ "]") =
      [.word name, .mark '[', .word index, .mark ']'] := by
  rw [String.append_assoc, String.append_assoc,
    codeTokens_separated (by decide) (by decide) (by decide), codeTokens_append_right (by decide),
    codeTokens_of_isWord hname, codeTokens_of_isWord hindex]
  rfl

theorem reads_element {name index : String} (hname : IsWord name) (hindex : IsWord index) :
    Reads (codeTokens (name ++ "[" ++ index ++ "]")) (.element name (.word index)) := by
  rw [codeTokens_element hname hindex]
  intro frames
  rfl

theorem reads_isWord {name : String} (hname : IsWord name) :
    Reads (codeTokens name) (.word name) := by
  rw [codeTokens_of_isWord hname]
  exact reads_word name

namespace Code

theorem says_assign_element {name index value : String} {v : CodeExpr}
    (hname : IsWord name) (hfor : name ≠ "for") (hif : name ≠ "if") (hindex : IsWord index)
    (hvalue : Reads (codeTokens value) v) :
    (assign (name ++ "[" ++ index ++ "]") value).Says
      [.store (.element name (.word index)) v] := by
  refine says_assign ((reads_element hname hindex).ofTokens?_assign hvalue) ?_
  rw [codeTokens_element hname hindex]
  simp [Instruction.Reading.opensHeader, hfor, hif]

/-- The body of a reduction over the texts of a term, of the length and of the result. -/
def reduction (size : Nat) (e : ElementType) (length term result : String) : Code :=
  let buffer : LocalArray := ⟨bufferName, size, e⟩
  .ofList [.declareLocal buffer, .declareLane laneName, .declare e totalName "0",
    Plan.vectorLoop (rowIndex ++ " < " ++ length)
      (.assign totalName (BinaryOp.add.code totalName term)),
    .assign (buffer.access laneName) totalName, .combine buffer .add laneName,
    .guard (laneName ++ " == 0") (.assign result (buffer.access "0"))]

/-- The text of the body is the sequence of its instructions. -/
theorem says_reduction (size : Nat) (e : ElementType) {length term result : String} {x : CodeExpr}
    (hlength : IsWord length) (hterm : Reads (codeTokens term) x) (hresult : IsParameter result) :
    (reduction size e length term (result ++ "[" ++ "0" ++ "]")).Says
      (Instruction.reduction size length x result) := by
  have hzero : IsWord "0" := ⟨by decide, by decide⟩
  have htotal := reads_isWord isName_totalName.toIsWord
  have hadd : (assign totalName (BinaryOp.add.code totalName term)).Says
      [.store (.word totalName) (.binary .add (.word totalName) x)] := by
    have hsum : codeTokens (BinaryOp.add.code totalName term) =
        codeTokens totalName ++ .mark '+' :: codeTokens term := by
      simp only [BinaryOp.code, String.append_assoc]
      rw [codeTokens_separated (by decide) (by decide) (by decide)]
      rfl
    refine says_assign ?_ ?_
    · rw [hsum]
      exact Reads.ofTokens?_assign_add htotal htotal hterm
    · rw [codeTokens_of_isWord isName_totalName.toIsWord]
      rfl
  have hpark : (assign (bufferName ++ "[" ++ laneName ++ "]") totalName).Says
      [.store (.element bufferName (.word laneName)) (.word totalName)] :=
    says_assign_element isName_bufferName.toIsWord (by decide)
      (by decide) isName_laneName.toIsWord htotal
  have hdeliver : (assign (result ++ "[" ++ "0" ++ "]") (bufferName ++ "[" ++ "0" ++ "]")).Says
      [.store (.element result (.word "0")) (.element bufferName (.word "0"))] :=
    says_assign_element hresult.toIsWord (hresult.ne_of_words (by decide +kernel))
      (hresult.ne_of_words (by decide +kernel)) hzero
        (reads_element isName_bufferName.toIsWord hzero)
  exact (says_declareLocal ⟨bufferName, size, e⟩ isName_bufferName.toIsWord).seq <|
    (says_declareLane isName_laneName.toIsWord).seq <|
      (says_declare e isName_totalName.toIsWord rfl).seq <|
    (says_gridLoop 0 isName_rowIndex.toIsWord hlength hadd).seq <| hpark.seq <|
      (says_combine size e).seq <| (says_guard isName_laneName.toIsWord hdeliver).seq says_skip

end Code

/-! ### What the instructions do -/

variable {V : Type}

/-- A sum by the instructions of a reduction: the texts in the kernel and what they stand for. -/
structure KernelSum (V : Type) [AddCommMonoid V] where
  scope : KernelScope V
  levels : Nat
  length : Nat
  lengthName : String
  phrase : CodeExpr
  term : Memory V → Nat → V
  resultName : String
  result : Handle
  exact : scope.machine.Exact
  levels_lt : levels < 32
  isParameter_length : IsParameter lengthName
  element?_phrase : ∀ w ρ s, ρ rowIndex < length →
    scope.element? w ρ s phrase = some (term s.memory (ρ rowIndex))
  arrays_buffer : scope.arrays bufferName = some (2 ^ levels)
  arrays_result : scope.arrays resultName = none
  buffer?_result : scope.buffer? resultName = some result

namespace KernelScope

variable {K : KernelScope V} {w : WorkItem} {ρ : Values} {s : GroupState V}
  {size n : Nat} {e : CodeExpr}

theorem act?_store {target value : CodeExpr} {v : V} (hv : K.element? w ρ s value = some v) :
    K.act? w s (.store ρ target value) = K.store? w ρ s target v := by
  rw [act?, hv]
  rfl

theorem element?_add [AddCommMonoid V] (hM : K.machine.Exact) {l r : CodeExpr} {v v' : V}
    (hl : K.element? w ρ s l = some v) (hr : K.element? w ρ s r = some v') :
    K.element? w ρ s (.binary .add l r) = some (v + v') := by
  have hsum : K.element? w ρ s (BinaryOp.add.phrase l r) = some (K.machine.binary .add v v') :=
    element?_binary hM rfl (by decide) hl hr
  rwa [hM.add] at hsum

theorem element?_total : K.element? w ρ s (.word totalName) = some (s.own w.id totalName) := by
  have hnone : K.registry.named? totalName = none := K.registry.named?_eq_none (by decide +kernel)
  rw [element?, isName_totalName.notDigits, hnone]
  rfl

theorem store?_total (v : V) :
    K.store? w ρ s (.word totalName) v = some (s.setOwn w.id totalName v) := by
  have hnone : K.registry.named? totalName = none := K.registry.named?_eq_none (by decide +kernel)
  rw [store?, isName_totalName.notDigits, hnone]
  rfl

theorem element?_buffer (hsize : K.arrays bufferName = some size)
    (he : e.unsigned? w ρ = some n) (hn : n < size) :
    K.element? w ρ s (.element bufferName e) = some (s.shared bufferName n) := by
  simp [element?, hsize, he, hn]

theorem store?_buffer (hsize : K.arrays bufferName = some size) (he : e.unsigned? w ρ = some n)
    (hn : n < size) (v : V) :
    K.store? w ρ s (.element bufferName e) v = some (s.setShared bufferName n v) := by
  simp [store?, hsize, he, hn]

end KernelScope

namespace KernelSum

variable [AddCommMonoid V] (S : KernelSum V)

def instructions : List Instruction :=
  Instruction.reduction (2 ^ S.levels) S.lengthName S.phrase S.resultName

/-- An item of the group. -/
def item (t : Nat) : WorkItem :=
  ⟨t, 2 ^ S.levels⟩

def groupSum : GroupSum V where
  act? t := S.scope.act? (S.item t)
  levels := S.levels
  length := S.length
  term := S.term
  result := S.result
  waits _ _ := rfl

theorem size_lt : 2 ^ S.levels < 2 ^ 32 :=
  Nat.pow_lt_pow_right (by decide) S.levels_lt

variable {S} {t i j : Nat} {ρ : Values}

/-! ### Actions -/

theorem zeroes : S.groupSum.Zeroes t (.store ρ (.word totalName) (.word "0")) := by
  intro s
  have hzero : S.scope.element? (S.item t) ρ s (.word "0") = some 0 := by
    rw [← S.exact.zero]
    rfl
  exact (KernelScope.act?_store hzero).trans (KernelScope.store?_total 0)

theorem adds (hi : ρ rowIndex = i) (hless : i < S.length) :
    S.groupSum.Adds t i (.store ρ (.word totalName)
      (.binary .add (.word totalName) S.phrase)) := by
  intro s
  have hterm := S.element?_phrase (S.item t) ρ s (hi.symm ▸ hless)
  rw [hi] at hterm
  exact (KernelScope.act?_store (KernelScope.element?_add S.exact KernelScope.element?_total
    hterm)).trans (KernelScope.store?_total _)

theorem unsigned?_lane (w : WorkItem) (ht : t < 2 ^ S.levels) (hlane : ρ laneName = t) :
    (CodeExpr.word laneName).unsigned? w ρ = some t :=
  unsigned?_name isName_laneName hlane (Nat.lt_trans ht S.size_lt)

theorem parks (ht : t < 2 ^ S.levels) (hlane : ρ laneName = t) :
    S.groupSum.Parks t (.store ρ (.element bufferName (.word laneName)) (.word totalName)) := by
  intro s
  exact (KernelScope.act?_store KernelScope.element?_total).trans
    (KernelScope.store?_buffer S.arrays_buffer (unsigned?_lane _ ht hlane) ht _)

theorem folds (hj : j < S.levels) (ht : t < 2 ^ j) (hlane : ρ laneName = t)
    (hstride : ρ "stride" = 2 ^ j) :
    S.groupSum.Folds t j (.store ρ (.element bufferName (.word laneName))
      (.binary .add (.element bufferName (.word laneName))
        (.element bufferName (.binary .add (.word laneName) (.word "stride"))))) := by
  intro s
  have hwidth : 2 ^ (j + 1) ≤ 2 ^ S.levels := Nat.pow_le_pow_right (by omega) hj
  have hfits := S.size_lt
  have hown := unsigned?_lane (S.item t) (by omega : t < 2 ^ S.levels) hlane
  have hother := unsigned?_add hown (unsigned?_name isName_stride hstride (by omega)) (by omega)
  have hsum := KernelScope.element?_add (s := s) S.exact
    (KernelScope.element?_buffer S.arrays_buffer hown (by omega))
    (KernelScope.element?_buffer S.arrays_buffer hother (by omega))
  exact (KernelScope.act?_store hsum).trans
    (KernelScope.store?_buffer S.arrays_buffer hown (by omega) _)

theorem delivers : S.groupSum.Delivers t
    (.store ρ (.element S.resultName (.word "0")) (.element bufferName (.word "0"))) := by
  intro s
  have hzero : (CodeExpr.word "0").unsigned? (S.item t) ρ = some 0 := rfl
  refine (KernelScope.act?_store (KernelScope.element?_buffer S.arrays_buffer hzero
    (Nat.two_pow_pos _))).trans ?_
  simp [groupSum, KernelScope.store?, hzero, S.arrays_result, S.buffer?_result]

/-! ### The run of an item -/

/-- The rounds, with `j` of them to come. -/
theorem exists_folding (hj : j ≤ S.levels) (ht : t < 2 ^ S.levels) (hlane : ρ laneName = t)
    (hstride : ρ "stride" = 2 ^ j / 2) :
    ∃ acts, Plays (S.item t) ρ [.foldLoop, .delivery S.resultName] acts ∧
      S.groupSum.Folding t j acts := by
  have hfits := S.size_lt
  have hzero : ∀ ρ : Values, (CodeExpr.word "0").unsigned? (S.item t) ρ = some 0 := fun ρ => rfl
  have htwo : ∀ ρ : Values, (CodeExpr.word "2").unsigned? (S.item t) ρ = some 2 := fun ρ => rfl
  induction j generalizing ρ with
  | zero =>
    have hleave := holds?_greater (unsigned?_name isName_stride hstride (by decide)) (hzero ρ)
    have hguard := holds?_equal (unsigned?_lane (S.item t) ht hlane) (hzero ρ)
    by_cases hfirst : t = 0
    · rw [decide_eq_true hfirst] at hguard
      exact ⟨_, .leave hleave (.enter hguard (.store .nil)), .deliver hfirst delivers⟩
    · rw [decide_eq_false hfirst] at hguard
      exact ⟨_, .leave hleave (.pass hguard .nil), .rest hfirst⟩
  | succ j ih =>
    have hpower : 2 ^ (j + 1) / 2 = 2 ^ j := by
      rw [Nat.pow_succ]
      omega
    rw [hpower] at hstride
    have hwidth : 2 ^ (j + 1) ≤ 2 ^ S.levels := Nat.pow_le_pow_right (by omega) hj
    have hpositive := Nat.two_pow_pos j
    have hvalue : (CodeExpr.word "stride").unsigned? (S.item t) ρ = some (2 ^ j) :=
      unsigned?_name isName_stride hstride (by omega)
    have hagain := holds?_greater hvalue (hzero ρ)
    rw [decide_eq_true hpositive] at hagain
    have hhalf := unsigned?_div hvalue (htwo ρ) (by decide) (by omega)
    have hset : ρ.set "stride" (2 ^ j / 2) laneName = t :=
      (Values.set_other _ (by decide)).trans hlane
    obtain ⟨acts, hplays, hfolding⟩ := ih (by omega) hset (Values.set_same _ _)
    have hnext : Plays (S.item t) ρ
        (.count "stride" (.binary .div (.word "stride") (.word "2")) ::
          [.foldLoop, .delivery S.resultName]) acts :=
      .count hhalf hplays
    have hguard := holds?_less (unsigned?_lane (S.item t) ht hlane) hvalue
    by_cases hlower : t < 2 ^ j
    · rw [decide_eq_true hlower] at hguard
      exact ⟨_, .again hagain (.barrier (.enter hguard (.store hnext))),
        .fold hlower (folds (by omega) hlower hlane hstride) hfolding⟩
    · rw [decide_eq_false hlower] at hguard
      exact ⟨_, .again hagain (.barrier (.pass hguard hnext)), .idle hlower hfolding⟩

/-- At the loop over the item's own terms. The induction is on the number of indices left. -/
theorem exists_adding (hfits : S.length + 2 ^ S.levels ≤ 2 ^ 32) (ht : t < 2 ^ S.levels)
    (hlane : ρ laneName = t) (hi : ρ rowIndex = i) (hrange : i < S.length + 2 ^ S.levels)
    (hn : ρ S.lengthName = S.length) :
    ∃ acts, Plays (S.item t) ρ
        (.addLoop S.lengthName S.phrase :: Instruction.combination (2 ^ S.levels) S.resultName)
        acts ∧
      S.groupSum.Adding t i acts := by
  have hpositive := Nat.two_pow_pos S.levels
  induction hk : S.length - i using Nat.strong_induction_on generalizing ρ i with
  | _ k ih =>
    have hrow : (CodeExpr.word rowIndex).unsigned? (S.item t) ρ = some i :=
      unsigned?_name isName_rowIndex hi (by omega)
    have hlength : (CodeExpr.word S.lengthName).unsigned? (S.item t) ρ = some S.length :=
      unsigned?_name S.isParameter_length.isName hn (by omega)
    have hholds := holds?_less hrow hlength
    by_cases hless : i < S.length
    · rw [decide_eq_true hless] at hholds
      have hsize : (CodeExpr.call "get_global_size" (.word "0")).unsigned? (S.item t) ρ =
          some (2 ^ S.levels) :=
        congrArg some (wrap_of_lt S.size_lt)
      have hadvance := unsigned?_add hrow hsize (by omega)
      have hset : ρ.set rowIndex (i + 2 ^ S.levels) laneName = t :=
        (Values.set_other _ (by decide)).trans hlane
      have hkept : ρ.set rowIndex (i + 2 ^ S.levels) S.lengthName = S.length :=
        (Values.set_other _ (S.isParameter_length.ne_of_words (by decide +kernel))).trans hn
      obtain ⟨acts, hplays, hadding⟩ := ih (S.length - (i + 2 ^ S.levels)) (by omega) hset
        (Values.set_same _ _) (by omega) hkept rfl
      exact ⟨_, .again hholds (.store (.count hadvance hplays)),
        .add hless (adds hi hless) hadding⟩
    · rw [decide_eq_false hless] at hholds
      have htwo : (CodeExpr.word "2").unsigned? (S.item t) ρ = some 2 := rfl
      have hhalf := unsigned?_div (unsigned?_word (ρ.word_decimal (2 ^ S.levels)) S.size_lt) htwo
        (by decide) S.size_lt
      have hset : ρ.set "stride" (2 ^ S.levels / 2) laneName = t :=
        (Values.set_other _ (by decide)).trans hlane
      obtain ⟨acts, hplays, hfolding⟩ :=
        exists_folding (S := S) le_rfl ht hset (Values.set_same _ _)
      exact ⟨_, .leave hholds (.store (.count hhalf hplays)),
        .park (Nat.le_of_not_lt hless) (parks ht hlane) hfolding⟩

/-- Every item comes to the end of the instructions, and does its part of the sum. -/
theorem exists_reducing (hfits : S.length + 2 ^ S.levels ≤ 2 ^ 32) (ht : t < 2 ^ S.levels)
    (hn : ρ S.lengthName = S.length) :
    ∃ acts, Plays (S.item t) ρ S.instructions acts ∧ S.groupSum.Reducing t acts := by
  have hid : wrap (S.item t).id = t := wrap_of_lt (Nat.lt_trans ht S.size_lt)
  have hlane : (ρ.set laneName t).set rowIndex t laneName = t :=
    (Values.set_other _ (by decide)).trans (Values.set_same _ _)
  have hlength : (ρ.set laneName t).set rowIndex t S.lengthName = S.length := by
    rw [Values.set_other _ (S.isParameter_length.ne_of_words (by decide +kernel)),
      Values.set_other _ (S.isParameter_length.ne_of_words (by decide +kernel)), hn]
  obtain ⟨acts, hplays, hadding⟩ :=
    exists_adding hfits ht hlane (Values.set_same _ _) (by omega) hlength
  exact ⟨_, .share (.count (congrArg some hid) (.store (.count (congrArg some hid) hplays))),
    .start zeroes hadding⟩

end KernelSum

/-- Carried out by one work group from memory `μ`, the instructions always end with `μ'`, in
whatever order the items act and whatever their variables and arrays hold at first. -/
def Instruction.Computes (cs : List Instruction) (M : Machine V) (reg : Registry) (size : Nat)
    (ρ : Values) (μ μ' : Memory V) : Prop :=
  ∃ todo : Nat → List ItemAction, (∀ t < size, Plays ⟨t, size⟩ ρ cs (todo t)) ∧
    ∀ s : GroupState V, s.memory = μ →
      GroupRun.Settles (fun t => (KernelScope.mk M reg (arrays cs)).act? ⟨t, size⟩) size
        (fun s' => s'.memory = μ') ⟨s, todo⟩

theorem KernelSum.computes [AddCommMonoid V] (S : KernelSum V) {M : Machine V} {reg : Registry}
    (hscope : S.scope = ⟨M, reg, Instruction.arrays S.instructions⟩)
    (hfits : S.length + 2 ^ S.levels ≤ 2 ^ 32) {ρ : Values}
    (hn : ρ S.lengthName = S.length) (μ : Memory V) :
    Instruction.Computes S.instructions M reg (2 ^ S.levels) ρ μ
      (μ.write S.result (0, 0) (∑ i ∈ Finset.range S.length, S.term μ i)) := by
  have hitems : ∀ t, ∃ acts, t < 2 ^ S.levels →
      Plays (S.item t) ρ S.instructions acts ∧ S.groupSum.Reducing t acts := by
    intro t
    by_cases ht : t < 2 ^ S.levels
    · obtain ⟨acts, hacts⟩ := exists_reducing hfits ht hn
      exact ⟨acts, fun _ => hacts⟩
    · exact ⟨[], fun h => absurd h ht⟩
  choose todo htodo using hitems
  refine ⟨todo, fun t ht => (htodo t ht).1, ?_⟩
  rintro s rfl
  rw [← hscope]
  exact GroupSum.settles (R := S.groupSum) (c := ⟨s, todo⟩) fun t ht => (htodo t ht).2

/-! ### Overflow -/

namespace Instruction

variable {w : WorkItem} {ρ : Values} {size n : Nat} {length result : String} {term : CodeExpr}
  {cs : List Instruction} {acts : List ItemAction}

/-- A further round of the loop over the item's own terms. -/
theorem plays_addLoop_again
    (hholds : (CodeExpr.binary .less (.word rowIndex) (.word length)).holds? w ρ = some true)
    (h : Plays w ρ (addLoop length term :: cs) acts) :
    ∃ a rest, acts = a :: rest ∧
      Plays w (ρ.set rowIndex (wrap (ρ rowIndex + w.size))) (addLoop length term :: cs) rest := by
  have hadvance : (CodeExpr.binary .add (.word rowIndex) (.call "get_global_size"
      (.word "0"))).unsigned? w ρ = some (wrap (ρ rowIndex + w.size)) := by
    rw [unsigned?_eq_map (by simp [Undivided])]
    simp [index?, CodeExpr.number?, WorkItem.ask?, isName_rowIndex.value]
  cases h with
  | leave hfails => cases hholds.symm.trans hfails
  | again _ h =>
    cases h with
    | store h =>
      cases h with
      | count hm h =>
        obtain rfl := Option.some.inj (hadvance.symm.trans hm)
        exact ⟨_, _, rfl, h⟩

/-- The counter of the first item stays a multiple of the group's size, and the last multiple
below `2 ^ 32` is still below the length. The induction is on what the item has done. -/
theorem not_plays_addLoop (hsize : size ∣ 2 ^ 32) (hlength : IsParameter length) (hn : n < 2 ^ 32)
    (hoverflow : 2 ^ 32 < n + size) (hvalue : ρ length = n) (hrow : ρ rowIndex < 2 ^ 32)
    (hmultiple : size ∣ ρ rowIndex) : ¬ Plays ⟨0, size⟩ ρ (addLoop length term :: cs) acts := by
  have hround : ∀ {ρ : Values} {acts : List ItemAction}, ρ length = n → ρ rowIndex < 2 ^ 32 →
      size ∣ ρ rowIndex →
      Plays ⟨0, size⟩ ρ (addLoop length term :: cs) acts → ∃ a rest, acts = a :: rest ∧
        Plays ⟨0, size⟩ (ρ.set rowIndex (wrap (ρ rowIndex + size)))
          (addLoop length term :: cs) rest := by
    intro ρ acts hvalue hrow hmultiple h
    have hless : ρ rowIndex < n := by
      have hlast := Nat.le_of_dvd (by omega) (Nat.dvd_sub hsize hmultiple)
      omega
    have hholds := holds?_less (unsigned?_name (w := ⟨0, size⟩) isName_rowIndex rfl hrow)
      (unsigned?_name hlength.isName hvalue hn)
    rw [decide_eq_true hless] at hholds
    exact plays_addLoop_again hholds h
  intro h
  induction acts generalizing ρ with
  | nil =>
    obtain ⟨_, _, hacts, -⟩ := hround hvalue hrow hmultiple h
    cases hacts
  | cons a acts ih =>
    obtain ⟨_, _, hacts, hnext⟩ := hround hvalue hrow hmultiple h
    obtain ⟨rfl, rfl⟩ := List.cons.inj hacts
    refine ih ((Values.set_other _ (hlength.ne_of_words (by decide +kernel))).trans hvalue)
      ?_ ?_ hnext
    · rw [Values.set_same]
      exact wrap_lt _
    · rw [Values.set_same]
      exact (Nat.dvd_mod_iff hsize).mpr (Nat.dvd_add hmultiple (Nat.dvd_refl size))

/-- Where the counters overflow, a reduction computes nothing: its first item never ends. -/
theorem not_computes_reduction {M : Machine V} {reg : Registry}
    {μ μ' : Memory V} (hsize : size ∣ 2 ^ 32) (hpos : 0 < size) (hlength : IsParameter length)
    (hn : n < 2 ^ 32) (hoverflow : 2 ^ 32 < n + size) (hvalue : ρ length = n) :
    ¬ Computes (reduction size length term result) M reg size ρ μ μ' := by
  rintro ⟨todo, hplays, -⟩
  have hother : ∀ {index : String} {k : Nat} {ρ : Values}, parameterWords index = [] →
      ρ length = n → ρ.set index k length = n := fun hindex h =>
    (Values.set_other _ (hlength.ne_of_words hindex)).trans h
  have hfirst := hplays 0 hpos
  generalize todo 0 = acts at hfirst
  cases hfirst with
  | share h =>
    cases h with
    | count hlane h =>
      cases h with
      | store h =>
        cases h with
        | count hrow h =>
          obtain rfl : wrap 0 = _ := Option.some.inj hrow
          refine not_plays_addLoop hsize hlength hn hoverflow ?_ ?_ ?_ h
          · exact hother (by decide +kernel) (hother (by decide +kernel) hvalue)
          · rw [Values.set_same]
            decide
          · rw [Values.set_same]
            exact Nat.dvd_zero size

end Instruction

end LinearKernels
